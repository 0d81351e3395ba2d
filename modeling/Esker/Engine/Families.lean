import Mathlib

/-!
Contract: column families across drops, crashes and reopens (`create_cf` and `drop_cf` of
`version/set.rs` and `db/mod.rs`, `check_batch` and `commit_group` of `db/write.rs`,
`flush_one` of `db/flush.rs`, `open_versions` and `apply_to_memtables` of `db/open.rs`).

Owns: the id a new family gets, what a drop takes with it, everything that names a family by
its id alone (queued writes, log records, tables being flushed), and whose writes a read of a
family returns.

A write remembers the creation of the family it was made for, which nothing in the engine
does. Which log records may be retired is not this module's question: any may be.

Does not own: the order of the sources within one family, and compactions.
-/

namespace Esker.Engine.Families

open List

/-- A live family: what the manifest says of it, and which creation it is. -/
structure Family where
  id : Nat
  name : String
  birth : Nat
deriving DecidableEq, Repr

structure Write where
  cf : Nat
  key : Nat
  value : Nat
  birth : Nat
deriving DecidableEq, Repr

structure Entry where
  seqno : Nat
  write : Write
deriving DecidableEq, Repr

structure Db where
  families : List Family
  births : Nat
  nextSeqno : Nat
  running : Bool
  /-- Batches that passed `check_batch`. -/
  queued : List Write
  inserting : List Entry
  memtables : List Entry
  flushing : List Entry
  tables : List Entry
  log : List Entry
deriving DecidableEq, Repr

namespace Db

def empty : Db := ⟨[], 0, 1, true, [], [], [], [], [], []⟩

variable (db : Db)

def nextId : Nat := (db.families.map fun family => family.id + 1).max?.getD 0

def family (db : Db) (name : String) : Option Family :=
  db.families.find? fun family => family.name = name

def alive (id : Nat) : Bool := db.families.any fun family => family.id = id

/-- What a read of `key` in the family called `name` finds. -/
def get (name : String) (key : Nat) : Option Write :=
  (db.family name).bind fun family =>
    ((db.memtables ++ db.tables).find? fun entry =>
      entry.write.cf = family.id && entry.write.key = key).map Entry.write

/-- Everything that names a family by its id and outlives a drop of it. -/
def lingering : List Write :=
  db.queued ++ (db.inserting ++ db.flushing ++ db.log).map Entry.write

/-- Everything a reader of the family with an entry's id can see. -/
def stored : List Write := (db.memtables ++ db.tables).map Entry.write

def createCf (name : String) : Db :=
  { db with
    families := db.families ++ [⟨db.nextId, name, db.births⟩]
    births := db.births + 1 }

def dropCf (id : Nat) : Db :=
  { db with
    families := db.families.filter fun family => family.id ≠ id
    memtables := db.memtables.filter fun entry => entry.write.cf ≠ id
    tables := db.tables.filter fun entry => entry.write.cf ≠ id }

/-- Inserts a logged entry; one for an id that is gone is skipped. -/
def insert (entry : Entry) : Db :=
  { db with
    inserting := db.inserting.erase entry
    memtables := if db.alive entry.write.cf then entry :: db.memtables else db.memtables }

/-- Installs what a flush of `id` built; the edit is refused when the id is gone. -/
def install (id : Nat) : Db :=
  { db with
    memtables := db.memtables.filter fun entry => entry.write.cf ≠ id || entry ∉ db.flushing
    flushing := db.flushing.filter fun entry => entry.write.cf ≠ id
    tables := (db.flushing.filter fun entry => entry.write.cf = id && db.alive id) ++ db.tables }

/-- Loses everything in memory and the log's last `lost` records. -/
def crash (lost : Nat) : Db :=
  { db with
    running := false
    queued := []
    inserting := []
    memtables := []
    flushing := []
    log := db.log.drop lost }

/-- Fills the memtables from the log's records of families that exist. -/
def replay : Db :=
  { db with
    running := true
    memtables := db.log.filter fun entry => db.alive entry.write.cf }

/-- One step. Whether a family may get an id that something still names is a parameter. -/
inductive Step (reusing : Prop) : Db → Db → Prop
  /-- While the database runs, or by `open` before it replays the log. -/
  | createCf {db : Db} {name : String} (unused : db.family name = none)
      (unnamed : reusing ∨ ∀ write ∈ db.lingering, write.cf ≠ db.nextId) :
      Step reusing db (db.createCf name)
  | dropCf {db : Db} {name : String} {dropped : Family} (running : db.running)
      (found : db.family name = some dropped) : Step reusing db (db.dropCf dropped.id)
  /-- A batch passes `check_batch` and is queued. -/
  | submit {db : Db} {name : String} {target : Family} (key value : Nat) (running : db.running)
      (found : db.family name = some target) :
      Step reusing db { db with queued := db.queued ++ [⟨target.id, key, value, target.birth⟩] }
  | append {db : Db} {write : Write} (running : db.running) (member : write ∈ db.queued) :
      Step reusing db { db with
        nextSeqno := db.nextSeqno + 1
        queued := db.queued.erase write
        inserting := db.inserting ++ [⟨db.nextSeqno, write⟩]
        log := ⟨db.nextSeqno, write⟩ :: db.log }
  | insert {db : Db} {entry : Entry} (running : db.running) (member : entry ∈ db.inserting) :
      Step reusing db (db.insert entry)
  | build {db : Db} (id : Nat) (running : db.running)
      (idle : ∀ entry ∈ db.flushing, entry.write.cf ≠ id) :
      Step reusing db { db with
        flushing := (db.memtables.filter fun entry => entry.write.cf = id) ++ db.flushing }
  | install {db : Db} (id : Nat) (running : db.running) : Step reusing db (db.install id)
  | retire {db : Db} (kept : Entry → Bool) (running : db.running) :
      Step reusing db { db with log := db.log.filter kept }
  | crash (db : Db) (lost : Nat) : Step reusing db (db.crash lost)
  | replay {db : Db} (stopped : ¬db.running) : Step reusing db db.replay

abbrev Run (reusing : Prop) : Db → Db → Prop := Relation.ReflTransGen (Step reusing)

theorem run_written (reusing : Prop) : ∃ db : Db, Run reusing empty db ∧
      db = ⟨[⟨0, "a", 0⟩], 1, 2, true, [], [], [⟨1, ⟨0, 7, 10, 0⟩⟩], [], [],
        [⟨1, ⟨0, 7, 10, 0⟩⟩]⟩ := by
  have created := (Relation.ReflTransGen.refl : Run reusing empty empty).tail
    (@Step.createCf reusing _ "a" (by decide) (.inr (by decide)))
  have queued := created.tail (@Step.submit reusing _ "a" ⟨0, "a", 0⟩ 7 10 rfl (by decide))
  have logged := queued.tail (@Step.append reusing _ ⟨0, 7, 10, 0⟩ rfl (by decide))
  exact ⟨_, logged.tail (@Step.insert reusing _ ⟨1, ⟨0, 7, 10, 0⟩⟩ rfl (by decide)), by decide⟩

/-! ## A reused id -/

/-- A value written to a dropped family is read through a family created after the drop: its
log record is replayed into the family that has its id now. -/
theorem dropped_write_resurfaces :
    ∃ db : Db, Run True empty db ∧ db.family "b" = some ⟨0, "b", 1⟩ ∧
      db.get "b" 7 = some ⟨0, 7, 10, 0⟩ := by
  obtain ⟨_, written, rfl⟩ := run_written True
  have recreated := (written.tail
    (@Step.dropCf True _ "a" ⟨0, "a", 0⟩ rfl (by decide))).tail
    (@Step.createCf True _ "b" (by decide) (.inl trivial))
  have reopened := (recreated.tail (.crash _ 0)).tail (.replay (by decide))
  exact ⟨_, reopened, by decide, by decide⟩

/-! ## Runs that reuse no named id -/

/-- Whatever carries a live family's id was written for that family. -/
structure Invariant (db : Db) : Prop where
  own : ∀ family ∈ db.families, ∀ write, write ∈ db.stored ∨ write ∈ db.lingering →
    write.cf = family.id → write.birth = family.birth
  live : ∀ write ∈ db.stored, db.alive write.cf
  distinct : ∀ first ∈ db.families, ∀ second ∈ db.families,
    first.id = second.id → first = second

theorem Invariant.empty : Invariant Db.empty := by
  constructor <;> simp [Db.empty, stored, lingering]

variable {db next : Db}

theorem alive_iff {id : Nat} : db.alive id ↔ ∃ family ∈ db.families, family.id = id := by
  simp [alive]

theorem lingering_mono {write : Write} (named : write ∈ next.lingering)
    (queued : next.queued ⊆ db.queued) (inserting : next.inserting ⊆ db.inserting)
    (flushing : next.flushing ⊆ db.flushing) (log : next.log ⊆ db.log) : write ∈ db.lingering := by
  simp only [lingering, mem_append, mem_map] at named ⊢
  refine named.imp (@queued _) ?_
  rintro ⟨entry, (running | built) | logged, rfl⟩
  · exact ⟨entry, .inl (.inl (inserting running)), rfl⟩
  · exact ⟨entry, .inl (.inr (flushing built)), rfl⟩
  · exact ⟨entry, .inr (log logged), rfl⟩

theorem lt_nextId {family : Family} (mem : family ∈ db.families) : family.id < db.nextId := by
  unfold nextId
  have among : family.id + 1 ∈ db.families.map fun family => family.id + 1 :=
    mem_map_of_mem mem
  cases greatest : (db.families.map fun family => family.id + 1).max? with
  | none => rw [max?_eq_none_iff.mp greatest] at among; cases among
  | some last => exact (max?_eq_some_iff.mp greatest).2 _ among

section

variable (inv : Invariant db)
include inv

theorem Invariant.createCf (name : String)
    (unnamed : ∀ write ∈ db.lingering, write.cf ≠ db.nextId) : Invariant (db.createCf name) := by
  have unused : ∀ write, write ∈ db.stored ∨ write ∈ db.lingering → write.cf ≠ db.nextId := by
    rintro write (held | named)
    · obtain ⟨family, alive, same⟩ := alive_iff.mp (inv.live write held)
      exact same ▸ (lt_nextId alive).ne
    · exact unnamed write named
  refine ⟨fun family mem write held same => ?_, fun write held => ?_,
    fun first one second two same => ?_⟩
  · rcases mem_append.mp mem with old | new
    · exact inv.own family old write held same
    · cases mem_singleton.mp new
      exact absurd same (unused write held)
  · obtain ⟨family, alive, same⟩ := alive_iff.mp (inv.live write held)
    exact alive_iff.mpr ⟨family, mem_append_left _ alive, same⟩
  · rcases mem_append.mp one with oldOne | newOne <;>
      rcases mem_append.mp two with oldTwo | newTwo
    · exact inv.distinct first oldOne second oldTwo same
    · cases mem_singleton.mp newTwo
      exact absurd same (lt_nextId oldOne).ne
    · cases mem_singleton.mp newOne
      exact absurd same.symm (lt_nextId oldTwo).ne
    · rw [mem_singleton.mp newOne, mem_singleton.mp newTwo]

theorem Invariant.dropCf (id : Nat) : Invariant (db.dropCf id) := by
  have kept : ∀ write ∈ (db.dropCf id).stored, write ∈ db.stored ∧ write.cf ≠ id := by
    intro write held
    obtain ⟨entry, mem, rfl⟩ := mem_map.mp held
    simp only [Db.dropCf, mem_append, mem_filter, decide_eq_true_eq] at mem
    exact ⟨mem_map_of_mem (mem_append.mpr (mem.imp And.left And.left)),
      mem.elim And.right And.right⟩
  refine ⟨fun family mem write held => ?_, fun write held => ?_,
    fun first one second two => inv.distinct first (mem_of_mem_filter one) second
      (mem_of_mem_filter two)⟩
  · exact inv.own family (mem_of_mem_filter mem) write
      (held.imp_left fun held => (kept write held).1)
  obtain ⟨before, other⟩ := kept write held
  obtain ⟨family, alive, same⟩ := alive_iff.mp (inv.live write before)
  exact alive_iff.mpr ⟨family, mem_filter.mpr ⟨alive, by simpa [same] using other⟩, same⟩

theorem Invariant.carry (families : next.families = db.families)
    (origin : ∀ write, write ∈ next.stored ∨ write ∈ next.lingering →
      (write ∈ db.stored ∨ write ∈ db.lingering) ∨
        ∃ family ∈ db.families, write.cf = family.id ∧ write.birth = family.birth)
    (live : ∀ write ∈ next.stored, write ∈ db.stored ∨ db.alive write.cf) : Invariant next := by
  refine ⟨fun family mem write held same => ?_, fun write held => ?_, families ▸ inv.distinct⟩
  · rw [families] at mem
    rcases origin write held with old | ⟨target, alive, id, birth⟩
    · exact inv.own family mem write old same
    · rw [birth, inv.distinct target alive family mem (id.symm.trans same)]
  · have alive := (live write held).elim (inv.live write) id
    unfold Db.alive at alive ⊢
    rwa [families]

theorem Invariant.move (families : next.families = db.families)
    (stored : ∀ write ∈ next.stored, write ∈ db.stored ∨ write ∈ db.lingering ∧ db.alive write.cf)
    (lingering : ∀ write ∈ next.lingering, write ∈ db.stored ∨ write ∈ db.lingering) :
    Invariant next :=
  inv.carry families (fun write held => .inl (held.elim
      (fun held => (stored write held).imp_right And.left) (lingering write)))
    fun write held => (stored write held).imp_right And.right

theorem Invariant.submit {name : String} {target : Family}
    (key value : Nat) (found : db.family name = some target) :
    Invariant { db with queued := db.queued ++ [⟨target.id, key, value, target.birth⟩] } := by
  refine inv.carry rfl (fun write held => ?_) fun write held => .inl held
  simp only [stored, lingering, mem_append, mem_singleton] at held ⊢
  by_cases new : write = ⟨target.id, key, value, target.birth⟩
  · exact .inr ⟨target, mem_of_find?_eq_some found, by rw [new], by rw [new]⟩
  · exact .inl (by tauto)

theorem Invariant.append {write : Write} (mem : write ∈ db.queued) : Invariant { db with
      nextSeqno := db.nextSeqno + 1
      queued := db.queued.erase write
      inserting := db.inserting ++ [⟨db.nextSeqno, write⟩]
      log := ⟨db.nextSeqno, write⟩ :: db.log } := by
  refine inv.move rfl (fun other held => .inl held) fun other held => .inr ?_
  have erased : other ∈ db.queued.erase write → other ∈ db.queued := mem_of_mem_erase
  simp only [lingering, map_append, map_cons, map_nil, mem_append, mem_cons, not_mem_nil,
    or_false] at held ⊢
  by_cases same : other = write
  · exact .inl (same ▸ mem)
  · tauto

theorem Invariant.insert {entry : Entry}
    (mem : entry ∈ db.inserting) : Invariant (db.insert entry) := by
  have inserted : entry.write ∈ db.lingering := by
    simp only [lingering, mem_append, mem_map]
    exact .inr ⟨entry, .inl (.inl mem), rfl⟩
  refine inv.move rfl (fun write held => ?_) fun write named => .inr (lingering_mono named
    (Subset.refl _) erase_subset (Subset.refl _) (Subset.refl _))
  unfold stored Db.insert at held
  dsimp only at held
  split at held
  · rename_i alive
    rcases mem_cons.mp held with rfl | old
    · exact .inr ⟨inserted, alive⟩
    · exact .inl old
  · exact .inl held

theorem Invariant.build (id : Nat) : Invariant { db with
      flushing := (db.memtables.filter fun entry => entry.write.cf = id) ++ db.flushing } := by
  refine inv.move rfl (fun write held => .inl held) fun write named => ?_
  simp only [stored, lingering, mem_append, mem_map, mem_filter] at named ⊢
  rcases named with queued | ⟨entry, (inserting | built | flushing) | logged, rfl⟩
  · exact .inr (.inl queued)
  · exact .inr (.inr ⟨entry, .inl (.inl inserting), rfl⟩)
  · exact .inl ⟨entry, .inl built.1, rfl⟩
  · exact .inr (.inr ⟨entry, .inl (.inr flushing), rfl⟩)
  · exact .inr (.inr ⟨entry, .inr logged, rfl⟩)

theorem Invariant.install (id : Nat) : Invariant (db.install id) := by
  refine inv.move rfl (fun write held => ?_) fun write named => .inr (lingering_mono named
    (Subset.refl _) (Subset.refl _) (fun _ mem => mem_of_mem_filter mem) (Subset.refl _))
  simp only [stored, lingering, Db.install, mem_append, mem_map, mem_filter,
    Bool.and_eq_true, decide_eq_true_eq] at held ⊢
  obtain ⟨entry, kept | built | old, rfl⟩ := held
  · exact .inl ⟨entry, .inl kept.1, rfl⟩
  · exact .inr ⟨.inr ⟨entry, .inl (.inr built.1), rfl⟩, built.2.1 ▸ built.2.2⟩
  · exact .inl ⟨entry, .inr old, rfl⟩

theorem Invariant.retire (kept : Entry → Bool) : Invariant { db with log := db.log.filter kept } :=
  inv.move rfl (fun _ held => .inl held) fun _ named => .inr (lingering_mono named
    (Subset.refl _) (Subset.refl _) (Subset.refl _) (fun _ mem => mem_of_mem_filter mem))

end

theorem Invariant.crash (inv : Invariant db) (lost : Nat) : Invariant (db.crash lost) := by
  refine inv.move rfl (fun write held => ?_) fun write named => .inr (lingering_mono named
    (nil_subset _) (nil_subset _) (nil_subset _) (drop_subset _ _))
  obtain ⟨entry, mem, rfl⟩ := mem_map.mp held
  exact .inl (mem_map_of_mem (mem_append_right _ mem))

theorem Invariant.replay (inv : Invariant db) : Invariant db.replay := by
  refine inv.move rfl (fun write held => ?_) fun write named => .inr named
  obtain ⟨entry, mem, rfl⟩ := mem_map.mp held
  rcases mem_append.mp mem with replayed | old
  · obtain ⟨logged, alive⟩ := mem_filter.mp replayed
    exact .inr ⟨mem_append_right _ (mem_map_of_mem (mem_append_right _ logged)), alive⟩
  · exact .inl (mem_map_of_mem (mem_append_right _ old))

theorem Invariant.step (inv : Invariant db) (step : Step False db next) :
    Invariant next := by
  cases step with
  | @createCf name unused unnamed => exact inv.createCf name (unnamed.resolve_left id)
  | @dropCf _ dropped running found => exact inv.dropCf dropped.id
  | submit key value running found => exact inv.submit key value found
  | append running mem => exact inv.append mem
  | insert running mem => exact inv.insert mem
  | build id running idle => exact inv.build id
  | install id running => exact inv.install id
  | retire kept running => exact inv.retire kept
  | crash lost => exact inv.crash lost
  | replay stopped => exact inv.replay

theorem Invariant.run (run : Run False Db.empty db) : Invariant db := by
  induction run with
  | refl => exact Invariant.empty
  | tail _ step ih => exact ih.step step

/-- While no family gets an id that a log record, a pending write or a running flush names, a
read returns only what was written for the family it reads. -/
theorem families_do_not_leak (run : Run False Db.empty db) {name : String} {target : Family}
    (found : db.family name = some target) {key : Nat} {write : Write}
    (read : db.get name key = some write) : write.birth = target.birth := by
  unfold get at read
  rw [found, Option.bind_some] at read
  obtain ⟨entry, here, rfl⟩ := Option.map_eq_some_iff.mp read
  have own : entry.write.cf = target.id := by
    have hit := find?_some here
    simp only [Bool.and_eq_true, decide_eq_true_eq] at hit
    exact hit.1
  exact (Invariant.run run).own target (mem_of_find?_eq_some found) entry.write
    (.inl (mem_map_of_mem (mem_of_find?_eq_some here))) own

/-- The same id given out again, after the log let go of it. -/
theorem families_do_not_leak_retired :
    ∃ db : Db, Run False empty db ∧ db.family "b" = some ⟨0, "b", 1⟩ ∧
      db.get "b" 7 = some ⟨0, 7, 20, 1⟩ ∧ (⟨0, 7, 20, 1⟩ : Write).birth = 1 := by
  obtain ⟨_, written, rfl⟩ := run_written False
  have dropped := (written.tail
    (@Step.dropCf False _ "a" ⟨0, "a", 0⟩ rfl (by decide))).tail (.retire (fun _ => false) rfl)
  have created := dropped.tail (@Step.createCf False _ "b" (by decide) (.inr (by decide)))
  have queued := created.tail (@Step.submit False _ "b" ⟨0, "b", 1⟩ 7 20 rfl (by decide))
  have logged := queued.tail (@Step.append False _ ⟨0, 7, 20, 1⟩ rfl (by decide))
  have reopened := (logged.tail (.crash _ 0)).tail (.replay (by decide))
  exact ⟨_, reopened, by decide, by decide,
    @families_do_not_leak _ reopened "b" ⟨0, "b", 1⟩ (by decide) 7 _ (by decide)⟩

end Db

end Esker.Engine.Families
