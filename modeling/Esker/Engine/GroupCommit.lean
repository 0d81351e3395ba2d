import Mathlib

/-!
Contract: the write queue and its group commit (`esker-engine/src/db/write.rs`).

Owns: tickets, the reservation of sequence numbers, the log write, the entry-by-entry
insertion and the publication, each as a step that other writers may interleave with, and
what a reader at a published number sees.

An entry is whatever a batch carries; the memtables of all families are one list of numbered
entries. A group is any non-empty run of the queue's front. Entries of a family dropped in
the meantime, which no reader can ask for, are not modelled.
-/

namespace Esker.Engine.GroupCommit

open List

variable {β : Type}

structure Pending (β : Type) where
  ticket : Nat
  entries : List β
deriving DecidableEq, Repr

structure Sequenced (β : Type) where
  ticket : Nat
  base : Nat
  entries : List β
deriving DecidableEq, Repr

variable {batch : Sequenced β} {seqno : Nat}

namespace Sequenced

def stop (batch : Sequenced β) : Nat := batch.base + batch.entries.length

/-- What its caller is told: the last number consumed, or, for an empty batch, the number
current where it sat. -/
def returned (batch : Sequenced β) : Nat := batch.stop - 1

def numbered (batch : Sequenced β) : List (Nat × β) :=
  batch.entries.zipIdx.map fun entry => (batch.base + entry.2, entry.1)

theorem mem_numbered {entry : β} (mem : (seqno, entry) ∈ batch.numbered) :
    batch.base ≤ seqno ∧ seqno < batch.stop := by
  obtain ⟨⟨value, index⟩, found, same⟩ := mem_map.mp mem
  have below := snd_lt_of_mem_zipIdx found
  simp only [Prod.mk.injEq] at same
  unfold stop
  omega

end Sequenced

/-- Hands out numbers from `cursor`, batch by batch. -/
def assign (cursor : Nat) : List (Pending β) → List (Sequenced β)
  | [] => []
  | pending :: rest =>
    ⟨pending.ticket, cursor, pending.entries⟩ :: assign (cursor + pending.entries.length) rest

def total (group : List (Pending β)) : Nat := (group.map fun pending => pending.entries.length).sum

inductive Leader (β : Type) where
  | idle
  | logging (group : List (Sequenced β))
  /-- The record is in the log; these entries are still to be inserted. -/
  | inserting (group : List (Sequenced β)) (rest : List (Nat × β))
deriving DecidableEq, Repr

structure Db (β : Type) where
  nextTicket : Nat
  pending : List (Pending β)
  nextSeqno : Nat
  visible : Nat
  leader : Leader β
  memtable : List (Nat × β)
  /-- The batches whose callers were told a number, and those whose callers were told of a
  failure. -/
  acked : List (Sequenced β)
  failed : List (Sequenced β)
  published : List Nat
deriving DecidableEq, Repr

namespace Db

/-- A database opened with everything up to `last` visible. -/
def opened (last : Nat) : Db β := ⟨0, [], last + 1, last, .idle, [], [], [], [last]⟩

def group (db : Db β) : List (Sequenced β) :=
  match db.leader with
  | .idle => []
  | .logging group | .inserting group _ => group

def sequenced (db : Db β) : List (Sequenced β) := db.acked ++ db.failed ++ db.group

/-- The ticket of the next batch to be sequenced. -/
def front (db : Db β) : Nat := (db.pending.head?.map Pending.ticket).getD db.nextTicket

/-- One step. Whether an insertion may be refused is a parameter. -/
inductive Step (refusing : Prop) : Db β → Db β → Prop
  | enqueue (db : Db β) (entries : List β) :
      Step refusing db { db with
        nextTicket := db.nextTicket + 1
        pending := db.pending ++ [⟨db.nextTicket, entries⟩] }
  /-- The writer at the front leads, with as many as it takes along. -/
  | lead {db : Db β} {taken rest : List (Pending β)} (idle : db.leader = .idle)
      (some : taken ≠ []) (front : db.pending = taken ++ rest) :
      Step refusing db { db with
        pending := rest
        nextSeqno := db.nextSeqno + total taken
        leader := .logging (assign db.nextSeqno taken) }
  /-- The log write or its sync fails: every batch of the group is refused. -/
  | logFails {db : Db β} {group : List (Sequenced β)} (leading : db.leader = .logging group) :
      Step refusing db { db with leader := .idle, failed := db.failed ++ group }
  | logs {db : Db β} {group : List (Sequenced β)} (leading : db.leader = .logging group) :
      Step refusing db { db with
        leader := .inserting group (group.flatMap Sequenced.numbered) }
  | insert {db : Db β} {group : List (Sequenced β)} {entry : Nat × β} {rest : List (Nat × β)}
      (leading : db.leader = .inserting group (entry :: rest)) :
      Step refusing db { db with
        leader := .inserting group rest
        memtable := db.memtable ++ [entry] }
  /-- A memtable refuses an entry: the group is refused where it stands. -/
  | insertFails {db : Db β} {group : List (Sequenced β)} {rest : List (Nat × β)}
      (may : refusing) (leading : db.leader = .inserting group rest) :
      Step refusing db { db with leader := .idle, failed := db.failed ++ group }
  | publish {db : Db β} {group : List (Sequenced β)} {visible : Nat}
      (leading : db.leader = .inserting group [])
      (last : visible = if group.all (·.entries.isEmpty) then db.visible
        else db.nextSeqno - 1) :
      Step refusing db { db with
        leader := .idle
        acked := db.acked ++ group
        visible
        published := visible :: db.published }

abbrev Run (refusing : Prop) : Db β → Db β → Prop := Relation.ReflTransGen (Step refusing)

/-- What a reader at `seqno` sees of a batch. -/
def seen [DecidableEq β] (db : Db β) (seqno : Nat) (batch : Sequenced β) : List (Nat × β) :=
  batch.numbered.filter fun entry => entry.1 ≤ seqno && entry ∈ db.memtable

def Atomic [DecidableEq β] (db : Db β) : Prop :=
  ∀ seqno ∈ db.published, ∀ batch ∈ db.sequenced,
    db.seen seqno batch = batch.numbered ∨ db.seen seqno batch = []

/-! ## A refused entry -/

/-- Two writers: the first batch is refused at its second entry, the second goes through. -/
def torn : Db Nat :=
  { nextTicket := 2
    pending := []
    nextSeqno := 4
    visible := 3
    leader := .idle
    memtable := [(1, 10), (3, 30)]
    acked := [⟨1, 3, [30]⟩]
    failed := [⟨0, 1, [10, 20]⟩]
    published := [3, 0] }

theorem torn_reached : Run True (opened 0) torn := by
  have first : Run True (opened 0) (⟨1, [⟨0, [10, 20]⟩], 1, 0, .idle, [], [], [], [0]⟩ : Db Nat) :=
    .single (.enqueue (opened 0) [10, 20])
  have second : Run True (opened 0)
      (⟨2, [⟨0, [10, 20]⟩, ⟨1, [30]⟩], 1, 0, .idle, [], [], [], [0]⟩ : Db Nat) :=
    first.tail (.enqueue _ [30])
  have led : Run True (opened 0)
      (⟨2, [⟨1, [30]⟩], 3, 0, .logging [⟨0, 1, [10, 20]⟩], [], [], [], [0]⟩ : Db Nat) :=
    second.tail (.lead rfl (cons_ne_nil ⟨0, [10, 20]⟩ []) rfl)
  have refused := ((led.tail (.logs rfl)).tail (.insert rfl)).tail (.insertFails trivial rfl)
  have again : Run True (opened 0) (⟨2, [], 4, 0, .logging [⟨1, 3, [30]⟩], [(1, 10)], [],
      [⟨0, 1, [10, 20]⟩], [0]⟩ : Db Nat) :=
    refused.tail (.lead rfl (cons_ne_nil ⟨1, [30]⟩ []) rfl)
  exact ((again.tail (.logs rfl)).tail (.insert rfl)).tail (.publish rfl rfl)

/-- A batch whose caller was told of a failure is half visible at a published number. -/
theorem refused_batch_partially_visible :
    ∃ db : Db Nat, Run True (opened 0) db ∧ ¬ db.Atomic ∧
      ∃ seqno ∈ db.published, ∃ batch ∈ db.failed,
        db.seen seqno batch = [(1, 10)] ∧ batch.numbered = [(1, 10), (2, 20)] := by
  have half : torn.seen 3 ⟨0, 1, [10, 20]⟩ = [(1, 10)] := by decide
  refine ⟨torn, torn_reached, fun atomic => ?_, 3, by decide, ⟨0, 1, [10, 20]⟩, by decide, half,
    by decide⟩
  have split := atomic 3 (by decide) ⟨0, 1, [10, 20]⟩ (by decide)
  rw [half] at split
  revert split
  decide

/-! ## Groups in which every insertion succeeds -/

variable {cursor visible : Nat} {taken : List (Pending β)}

theorem assign_bounds (mem : batch ∈ assign cursor taken) :
    cursor ≤ batch.base ∧ batch.stop ≤ cursor + total taken ∧
      ∃ pending ∈ taken, pending.ticket = batch.ticket := by
  induction taken generalizing cursor with
  | nil => cases mem
  | cons pending rest ih =>
    have sum : total (pending :: rest) = pending.entries.length + total rest := by
      simp [total]
    rcases mem_cons.mp mem with rfl | later
    · refine ⟨le_rfl, ?_, pending, .head _, rfl⟩
      simp only [Sequenced.stop]
      omega
    · obtain ⟨above, below, origin, found, same⟩ := ih later
      exact ⟨by omega, by omega, origin, .tail _ found, same⟩

theorem assign_ordered (tickets : taken.Pairwise fun first second => first.ticket < second.ticket)
    {first second : Sequenced β} (one : first ∈ assign cursor taken)
    (two : second ∈ assign cursor taken) (before : first.ticket < second.ticket) :
    first.stop ≤ second.base := by
  induction taken generalizing cursor with
  | nil => cases one
  | cons pending rest ih =>
    obtain ⟨ahead, tickets⟩ := pairwise_cons.mp tickets
    rcases mem_cons.mp one with rfl | laterOne
    · rcases mem_cons.mp two with rfl | laterTwo
      · exact absurd before (lt_irrefl _)
      · exact (assign_bounds laterTwo).1
    rcases mem_cons.mp two with rfl | laterTwo
    · obtain ⟨_, _, origin, found, same⟩ := assign_bounds laterOne
      have after := ahead origin found
      simp only at before
      omega
    · exact ih tickets laterOne laterTwo

theorem assign_first {pending : Pending β} {rest : List (Pending β)}
    (tickets : (pending :: rest).Pairwise fun first second => first.ticket < second.ticket)
    (mem : batch ∈ assign cursor (pending :: rest)) (same : batch.ticket = pending.ticket) :
    batch.base = cursor := by
  rcases mem_cons.mp mem with rfl | later
  · rfl
  · obtain ⟨_, _, origin, found, isOrigin⟩ := assign_bounds later
    have after := (pairwise_cons.mp tickets).1 origin found
    omega

/-- Of batches numbered together, the next ticket has the next numbers. -/
theorem assign_adjacent (tickets : taken.Pairwise fun first second => first.ticket < second.ticket)
    {first second : Sequenced β} (one : first ∈ assign cursor taken)
    (two : second ∈ assign cursor taken) (neighbours : second.ticket = first.ticket + 1) :
    second.base = first.stop := by
  induction taken generalizing cursor with
  | nil => cases one
  | cons pending rest ih =>
    obtain ⟨ahead, later⟩ := pairwise_cons.mp tickets
    rcases mem_cons.mp one with rfl | laterOne
    · rcases mem_cons.mp two with rfl | laterTwo
      · omega
      cases rest with
      | nil => cases laterTwo
      | cons following others =>
        -- The batch behind it has the least ticket that is left.
        refine assign_first later laterTwo ?_
        have after := ahead following (.head _)
        obtain ⟨_, _, origin, found, isOrigin⟩ := assign_bounds laterTwo
        rcases mem_cons.mp found with rfl | behind
        · exact isOrigin.symm
        · have beyond := (pairwise_cons.mp later).1 origin behind
          simp only at neighbours
          omega
    rcases mem_cons.mp two with rfl | laterTwo
    · obtain ⟨_, _, origin, found, same⟩ := assign_bounds laterOne
      have after := ahead origin found
      simp only at neighbours
      omega
    · exact ih later laterOne laterTwo

/-- The batch with the last ticket ends where the numbers handed out end. -/
theorem assign_last (tickets : taken.Pairwise fun first second => first.ticket < second.ticket)
    (mem : batch ∈ assign cursor taken)
    (largest : ∀ pending ∈ taken, pending.ticket ≤ batch.ticket) :
    batch.stop = cursor + total taken := by
  induction taken generalizing cursor with
  | nil => cases mem
  | cons pending rest ih =>
    obtain ⟨ahead, later⟩ := pairwise_cons.mp tickets
    have sum : total (pending :: rest) = pending.entries.length + total rest := by
      simp [total]
    rcases mem_cons.mp mem with rfl | behind
    · cases rest with
      | nil => simp [Sequenced.stop, total]
      | cons following others =>
        have after := ahead following (.head _)
        have atMost := largest following (.tail _ (.head _))
        simp only at atMost
        omega
    · rw [ih later behind fun each found => largest each (.tail _ found), sum, Nat.add_assoc]

/-- What holds between the steps while no insertion is refused. -/
structure Invariant (db : Db β) : Prop where
  unread : db.visible < db.nextSeqno
  reserved : ∀ batch ∈ db.sequenced, batch.stop ≤ db.nextSeqno
  groupLast : ∀ batch ∈ db.group, db.visible < batch.base ∧
    ∀ earlier ∈ db.acked ++ db.failed, earlier.stop ≤ batch.base
  ordered : ∀ first ∈ db.sequenced, ∀ second ∈ db.sequenced,
    first.ticket < second.ticket → first.stop ≤ second.base
  adjacent : ∀ first ∈ db.sequenced, ∀ second ∈ db.sequenced,
    second.ticket = first.ticket + 1 → second.base = first.stop
  last : ∀ batch ∈ db.sequenced, batch.ticket + 1 = db.front → batch.stop = db.nextSeqno
  queued : ∀ batch ∈ db.sequenced, ∀ pending ∈ db.pending, batch.ticket < pending.ticket
  tickets : db.pending.Pairwise fun first second => first.ticket < second.ticket
  fresh : (∀ pending ∈ db.pending, pending.ticket < db.nextTicket) ∧
    ∀ batch ∈ db.sequenced, batch.ticket < db.nextTicket
  inserted : ∀ batch ∈ db.acked, ∀ entry ∈ batch.numbered, entry ∈ db.memtable
  absent : ∀ batch ∈ db.failed, ∀ entry ∈ db.memtable,
    ¬ (batch.base ≤ entry.1 ∧ entry.1 < batch.stop)
  logging : ∀ group, db.leader = .logging group →
    ∀ batch ∈ group, ∀ entry ∈ db.memtable, entry.1 < batch.base
  inserting : ∀ group rest, db.leader = .inserting group rest →
    (∀ batch ∈ group, ∀ entry ∈ batch.numbered, entry ∈ db.memtable ∨ entry ∈ rest) ∧
    ∀ entry ∈ rest, ∃ batch ∈ group, entry ∈ batch.numbered
  below : ∀ entry ∈ db.memtable, entry.1 < db.nextSeqno
  cut : db.visible ∈ db.published ∧ ∀ seqno ∈ db.published, seqno ≤ db.visible ∧
    ∀ batch ∈ db.sequenced, batch.stop ≤ seqno + 1 ∨ seqno < batch.base

theorem Invariant.opened (last : Nat) : Invariant (Db.opened last : Db β) := by
  constructor <;> simp [Db.opened, sequenced, group]

variable {db next : Db β}

section

variable (inv : Invariant db)
include inv

theorem Invariant.enqueue (entries : List β) : Invariant { db with
      nextTicket := db.nextTicket + 1
      pending := db.pending ++ [⟨db.nextTicket, entries⟩] } := by
  obtain ⟨waiting, numbered⟩ := inv.fresh
  refine
    { inv with
      last := fun batch mem next => inv.last batch mem (next.trans ?_)
      queued := fun batch mem pending found => ?_
      tickets := ?_
      fresh := ⟨fun pending found => ?_, fun batch mem => (numbered batch mem).trans
        (Nat.lt_succ_self _)⟩ }
  · unfold front
    cases db.pending <;> rfl
  · rcases mem_append.mp found with old | new
    · exact inv.queued batch mem pending old
    · cases mem_singleton.mp new
      exact numbered batch mem
  · refine pairwise_append.mpr ⟨inv.tickets, pairwise_singleton _ _, ?_⟩
    intro first found second new
    cases mem_singleton.mp new
    exact waiting first found
  · rcases mem_append.mp found with old | new
    · exact (waiting pending old).trans (Nat.lt_succ_self _)
    · cases mem_singleton.mp new
      exact Nat.lt_succ_self _

theorem Invariant.lead {rest : List (Pending β)} (idle : db.leader = .idle)
    (some : taken ≠ []) (front : db.pending = taken ++ rest) : Invariant { db with
      pending := rest
      nextSeqno := db.nextSeqno + total taken
      leader := .logging (assign db.nextSeqno taken) } := by
  have none : db.group = [] := by simp [group, idle]
  have before : db.sequenced = db.acked ++ db.failed := by simp [sequenced, none]
  have split : ∀ {batch : Sequenced β}, batch ∈ db.acked ++ db.failed ++ assign db.nextSeqno taken →
      batch ∈ db.sequenced ∨ batch ∈ assign db.nextSeqno taken := fun mem =>
    (mem_append.mp mem).imp_left (before ▸ ·)
  have tickets := inv.tickets
  rw [front, pairwise_append] at tickets
  obtain ⟨takenTickets, restTickets, across⟩ := tickets
  have queued : ∀ {batch : Sequenced β} {pending : Pending β}, batch ∈ db.sequenced →
      pending ∈ taken ++ rest → batch.ticket < pending.ticket := fun mem found =>
    inv.queued _ mem _ (front ▸ found)
  obtain ⟨leader, others, rfl⟩ := exists_cons_of_ne_nil some
  have isFront : db.front = leader.ticket := by simp [Db.front, front]
  have beyond : ∀ pending ∈ leader :: others, pending.ticket <
      (rest.head?.map Pending.ticket).getD db.nextTicket := by
    intro pending found
    cases rest with
    | nil => exact inv.fresh.1 pending (front ▸ mem_append_left _ found)
    | cons following behind => exact across pending found following (.head _)
  refine
    { unread := inv.unread.trans_le (Nat.le_add_right _ _)
      reserved := fun batch mem => ?_
      groupLast := fun batch mem => ⟨?_, fun earlier found => ?_⟩
      ordered := fun first one second two before => ?_
      adjacent := fun first one second two neighbours => ?_
      last := fun batch mem next => ?_
      queued := fun batch mem pending found => ?_
      tickets := restTickets
      fresh := ⟨fun pending found => inv.fresh.1 pending
        (front ▸ mem_append_right _ found), fun batch mem => ?_⟩
      inserted := inv.inserted, absent := inv.absent
      logging := fun group leading batch mem entry found => ?_
      inserting := fun group rest leading => by cases leading
      below := fun entry found => (inv.below entry found).trans_le (Nat.le_add_right _ _)
      cut := ⟨inv.cut.1, fun seqno found => ⟨(inv.cut.2 seqno found).1, fun batch mem => ?_⟩⟩ }
  · rcases split mem with old | new
    · exact (inv.reserved batch old).trans (Nat.le_add_right _ _)
    · exact (assign_bounds new).2.1
  · exact inv.unread.trans_le (assign_bounds mem).1
  · exact (inv.reserved earlier (before ▸ found)).trans (assign_bounds mem).1
  · rcases split one with oldOne | newOne <;> rcases split two with oldTwo | newTwo
    · exact inv.ordered first oldOne second oldTwo before
    · exact (inv.reserved first oldOne).trans (assign_bounds newTwo).1
    · obtain ⟨_, _, origin, found, same⟩ := assign_bounds newOne
      have after := queued oldTwo (mem_append_left rest found)
      omega
    · exact assign_ordered takenTickets newOne newTwo before
  · rcases split one with oldOne | newOne <;> rcases split two with oldTwo | newTwo
    · exact inv.adjacent first oldOne second oldTwo neighbours
    · obtain ⟨_, _, origin, found, same⟩ := assign_bounds newTwo
      have after := queued oldOne (mem_append_left rest (.head others))
      have least : leader.ticket ≤ origin.ticket := by
        rcases mem_cons.mp found with rfl | behind
        · exact le_rfl
        · exact ((pairwise_cons.mp takenTickets).1 origin behind).le
      rw [assign_first takenTickets newTwo (by omega),
        inv.last first oldOne (isFront.symm ▸ by omega)]
    · obtain ⟨_, _, origin, found, same⟩ := assign_bounds newOne
      have after := queued oldTwo (mem_append_left rest found)
      omega
    · exact assign_adjacent takenTickets newOne newTwo neighbours
  · change batch.ticket + 1 = (rest.head?.map Pending.ticket).getD db.nextTicket at next
    rcases split mem with old | new
    · have after := queued old (mem_append_left rest (.head others))
      have further := beyond leader (.head _)
      omega
    · refine assign_last takenTickets new fun pending found => ?_
      have further := beyond pending found
      omega
  · rcases split mem with old | new
    · exact queued old (mem_append_right _ found)
    · obtain ⟨_, _, origin, present, same⟩ := assign_bounds new
      exact same ▸ across origin present pending found
  · rcases split mem with old | new
    · exact inv.fresh.2 batch old
    · obtain ⟨_, _, origin, present, same⟩ := assign_bounds new
      exact same ▸ inv.fresh.1 origin (front ▸ mem_append_left _ present)
  · cases leading
    exact (inv.below entry found).trans_le (assign_bounds mem).1
  · rcases split mem with old | new
    · exact (inv.cut.2 seqno found).2 batch old
    have seen := (inv.cut.2 seqno found).1
    have above := (assign_bounds new).1
    have unread := inv.unread
    exact .inr (by omega)

theorem Invariant.settle {acked failed : List (Sequenced β)}
    {published : List Nat} (same : ∀ batch, batch ∈ acked ++ failed ↔ batch ∈ db.sequenced)
    (unread : visible < db.nextSeqno)
    (inserted : ∀ batch ∈ acked, ∀ entry ∈ batch.numbered, entry ∈ db.memtable)
    (absent : ∀ batch ∈ failed, ∀ entry ∈ db.memtable,
      ¬ (batch.base ≤ entry.1 ∧ entry.1 < batch.stop))
    (cut : visible ∈ published ∧ ∀ seqno ∈ published, seqno ≤ visible ∧
      ∀ batch ∈ db.sequenced, batch.stop ≤ seqno + 1 ∨ seqno < batch.base) :
    Invariant { db with leader := .idle, acked, failed, visible, published } := by
  have sequenced : ∀ {batch : Sequenced β}, batch ∈ acked ++ failed ++ [] →
      batch ∈ db.sequenced := fun mem => (same _).mp (by simpa using mem)
  exact
    { unread
      reserved := fun batch mem => inv.reserved batch (sequenced mem)
      groupLast := fun batch mem => by cases mem
      ordered := fun first one second two =>
        inv.ordered first (sequenced one) second (sequenced two)
      adjacent := fun first one second two =>
        inv.adjacent first (sequenced one) second (sequenced two)
      last := fun batch mem => inv.last batch (sequenced mem)
      queued := fun batch mem => inv.queued batch (sequenced mem)
      tickets := inv.tickets
      fresh := ⟨inv.fresh.1, fun batch mem =>
        inv.fresh.2 batch (sequenced mem)⟩
      inserted, absent
      logging := fun group leading => by cases leading
      inserting := fun group rest leading => by cases leading
      below := inv.below
      cut := ⟨cut.1, fun seqno found => ⟨(cut.2 seqno found).1, fun batch mem =>
        (cut.2 seqno found).2 batch (sequenced mem)⟩⟩ }

variable {group : List (Sequenced β)}

theorem Invariant.logFails (leading : db.leader = .logging group) :
    Invariant { db with leader := .idle, failed := db.failed ++ group } := by
  have group_eq : db.group = group := by simp [Db.group, leading]
  refine inv.settle (fun batch => by simp [sequenced, group_eq]) inv.unread
    inv.inserted (fun batch mem entry found => ?_) inv.cut
  rcases mem_append.mp mem with old | new
  · exact inv.absent batch old entry found
  · have before := inv.logging group leading batch new entry found
    omega

theorem Invariant.logs (leading : db.leader = .logging group) :
    Invariant { db with leader := .inserting group (group.flatMap Sequenced.numbered) } := by
  have same : (({ db with
      leader := .inserting group (group.flatMap Sequenced.numbered) } : Db β).sequenced) =
      db.sequenced := by simp [sequenced, Db.group, leading]
  refine
    { unread := inv.unread, reserved := same ▸ inv.reserved
      groupLast := fun batch mem => inv.groupLast batch (by
        simpa [Db.group, leading] using mem)
      ordered := same ▸ inv.ordered, adjacent := same ▸ inv.adjacent, last := same ▸ inv.last
      queued := same ▸ inv.queued
      tickets := inv.tickets, fresh := ⟨inv.fresh.1, same ▸ inv.fresh.2⟩
      inserted := inv.inserted, absent := inv.absent
      logging := fun group leading => by cases leading
      inserting := fun other rest leading => ?_
      below := inv.below
      cut := ⟨inv.cut.1, same ▸ inv.cut.2⟩ }
  cases leading
  exact ⟨fun batch mem entry found => .inr (mem_flatMap.mpr ⟨batch, mem, found⟩),
    fun entry found => mem_flatMap.mp found⟩

theorem Invariant.insert
    {entry : Nat × β} {rest : List (Nat × β)}
    (leading : db.leader = .inserting group (entry :: rest)) :
    Invariant { db with leader := .inserting group rest, memtable := db.memtable ++ [entry] } := by
  have same : (({ db with
      leader := .inserting group rest, memtable := db.memtable ++ [entry] } : Db β).sequenced) =
      db.sequenced := by simp [sequenced, Db.group, leading]
  obtain ⟨placed, origin⟩ := inv.inserting group _ leading
  obtain ⟨batch, mem, numbered⟩ := origin entry (.head _)
  have grouped : batch ∈ db.group := by simpa [Db.group, leading] using mem
  obtain ⟨from_, to_⟩ := Sequenced.mem_numbered numbered
  refine
    { unread := inv.unread, reserved := same ▸ inv.reserved
      groupLast := fun batch mem => inv.groupLast batch (by
        simpa [Db.group, leading] using mem)
      ordered := same ▸ inv.ordered, adjacent := same ▸ inv.adjacent, last := same ▸ inv.last
      queued := same ▸ inv.queued
      tickets := inv.tickets, fresh := ⟨inv.fresh.1, same ▸ inv.fresh.2⟩
      inserted := fun batch mem entry found =>
        mem_append_left _ (inv.inserted batch mem entry found)
      absent := fun other lost found present => ?_
      logging := fun group leading => by cases leading
      inserting := fun other later leading => ?_
      below := fun found present => ?_
      cut := ⟨inv.cut.1, same ▸ inv.cut.2⟩ }
  · rcases mem_append.mp present with old | new
    · exact inv.absent other lost found old
    cases mem_singleton.mp new
    have after := (inv.groupLast batch grouped).2 other (mem_append_right _ lost)
    omega
  · cases leading
    refine ⟨fun batch mem found numbered => ?_, fun found later => origin found (.tail _ later)⟩
    rcases placed batch mem found numbered with old | waiting
    · exact .inl (mem_append_left _ old)
    rcases mem_cons.mp waiting with rfl | later
    · exact .inl (mem_append_right _ (.head _))
    · exact .inr later
  · rcases mem_append.mp present with old | new
    · exact inv.below found old
    · cases mem_singleton.mp new
      exact to_.trans_le (inv.reserved batch (mem_append_right _ grouped))

theorem Invariant.publish (leading : db.leader = .inserting group [])
    (last : visible = if group.all (·.entries.isEmpty) then db.visible else db.nextSeqno - 1) :
    Invariant { db with
      leader := .idle, acked := db.acked ++ group, visible
      published := visible :: db.published } := by
  have unread := inv.unread
  have group_eq : db.group = group := by simp [Db.group, leading]
  obtain ⟨placed, _⟩ := inv.inserting group [] leading
  have risen : db.visible ≤ visible ∧ visible < db.nextSeqno := by
    rw [last]
    split <;> omega
  refine inv.settle (fun batch => ?_) risen.2 (fun batch mem entry numbered => ?_)
    inv.absent ⟨.head _, fun seqno found => ?_⟩
  · simp only [sequenced, group_eq, mem_append]
    tauto
  · rcases mem_append.mp mem with old | new
    · exact inv.inserted batch old entry numbered
    · exact (placed batch new entry numbered).resolve_right (by simp)
  rcases mem_cons.mp found with rfl | earlier
  · refine ⟨le_rfl, ?_⟩
    split at last
    · rw [last]
      exact (inv.cut.2 db.visible inv.cut.1).2
    intro batch mem
    have reserved := inv.reserved batch mem
    exact .inl (by omega)
  · exact ⟨(inv.cut.2 seqno earlier).1.trans risen.1, (inv.cut.2 seqno earlier).2⟩

theorem Invariant.step (step : Step False db next) :
    Invariant next := by
  cases step with
  | enqueue entries => exact inv.enqueue entries
  | lead idle some front => exact inv.lead idle some front
  | logFails leading => exact inv.logFails leading
  | logs leading => exact inv.logs leading
  | insert leading => exact inv.insert leading
  | insertFails may leading => exact may.elim
  | publish leading last => exact inv.publish leading last

end

theorem Invariant.run {last : Nat} (run : Run False (Db.opened last) db) : Invariant db := by
  induction run with
  | refl => exact Invariant.opened last
  | tail _ step ih => exact ih.step step

section Readers

variable [DecidableEq β]

theorem seen_eq_nil (hidden : ∀ entry ∈ batch.numbered, entry.1 ≤ seqno → entry ∉ db.memtable) :
    db.seen seqno batch = [] := by
  refine filter_eq_nil_iff.mpr fun entry mem => ?_
  simpa using hidden entry mem

theorem Invariant.seen_failed (inv : Invariant db) (lost : batch ∈ db.failed) (seqno : Nat) :
    db.seen seqno batch = [] :=
  seen_eq_nil fun entry mem _ found =>
    inv.absent batch lost entry found (Sequenced.mem_numbered mem)

theorem Invariant.atomic (inv : Invariant db) : db.Atomic := by
  intro seqno found batch mem
  obtain ⟨seen, cut⟩ := inv.cut.2 seqno found
  rcases mem_append.mp mem with settled | grouped
  · rcases mem_append.mp settled with done | lost
    · rcases cut batch mem with below | above
      · left
        refine filter_eq_self.mpr fun entry numbered => ?_
        have before := (Sequenced.mem_numbered numbered).2
        simp only [Bool.and_eq_true, decide_eq_true_eq]
        exact ⟨by omega, inv.inserted batch done entry numbered⟩
      · right
        refine seen_eq_nil fun entry numbered below => ?_
        have after := (Sequenced.mem_numbered numbered).1
        omega
    · exact .inr (inv.seen_failed lost seqno)
  · right
    refine seen_eq_nil fun entry numbered below => ?_
    have after := (Sequenced.mem_numbered numbered).1
    have hidden := (inv.groupLast batch grouped).1
    omega

/-- While no memtable refuses an entry: a reader sees all of a batch or none of it, nothing
of a batch whose caller was told of a failure, the batches in ticket order over disjoint
ranges, those of neighbouring tickets without a gap; and a caller is told the last number its batch consumed. -/
theorem groupCommit_atomic {last : Nat} (run : Run False (Db.opened last) db) :
    db.Atomic ∧
    (∀ batch ∈ db.failed, ∀ seqno, db.seen seqno batch = []) ∧
    (∀ first ∈ db.sequenced, ∀ second ∈ db.sequenced, first.ticket < second.ticket →
      first.stop ≤ second.base ∧
      (second.ticket = first.ticket + 1 → second.base = first.stop) ∧
      ∀ seqno, db.seen seqno second ≠ [] → first ∈ db.acked →
        db.seen seqno first = first.numbered) ∧
    (∀ batch ∈ db.acked, batch.entries ≠ [] →
      batch.base ≤ batch.returned ∧ batch.returned + 1 = batch.stop) := by
  have invariant := Invariant.run run
  refine ⟨invariant.atomic, fun batch lost seqno => invariant.seen_failed lost seqno,
    fun first one second two before => ?_, fun batch _ consumed => ?_⟩
  · have ordered := invariant.ordered first one second two before
    refine ⟨ordered, invariant.adjacent first one second two, fun seqno seen done => ?_⟩
    -- Something of the later batch is at or below `seqno`, so the whole earlier one is.
    obtain ⟨entry, found⟩ := exists_mem_of_ne_nil _ seen
    obtain ⟨numbered, shown⟩ := mem_filter.mp found
    simp only [Bool.and_eq_true, decide_eq_true_eq] at shown
    have after := (Sequenced.mem_numbered numbered).1
    refine filter_eq_self.mpr fun earlier numbered => ?_
    have below := (Sequenced.mem_numbered numbered).2
    simp only [Bool.and_eq_true, decide_eq_true_eq]
    exact ⟨by omega, invariant.inserted first done earlier numbered⟩
  · have some := length_pos_of_ne_nil consumed
    unfold Sequenced.returned Sequenced.stop
    omega

/-- Two batches that one leader commits, the second behind the first. -/
theorem groupCommit_atomic_pair :
    ∃ db : Db Nat, Run False (Db.opened 0) db ∧
      db.acked = [⟨0, 1, [10, 20]⟩, ⟨1, 3, [30]⟩] ∧ db.Atomic ∧
      db.seen 2 ⟨0, 1, [10, 20]⟩ = [(1, 10), (2, 20)] ∧ db.seen 2 ⟨1, 3, [30]⟩ = [] := by
  have queued : Run False (Db.opened 0)
      (⟨2, [⟨0, [10, 20]⟩, ⟨1, [30]⟩], 1, 0, .idle, [], [], [], [0]⟩ : Db Nat) :=
    (Relation.ReflTransGen.single (.enqueue (Db.opened 0) [10, 20])).tail (.enqueue _ [30])
  have led : Run False (Db.opened 0)
      (⟨2, [], 4, 0, .logging [⟨0, 1, [10, 20]⟩, ⟨1, 3, [30]⟩], [], [], [], [0]⟩ : Db Nat) :=
    queued.tail (.lead rfl (cons_ne_nil ⟨0, [10, 20]⟩ [⟨1, [30]⟩]) rfl)
  have done : Run False (Db.opened 0) (⟨2, [], 4, 3, .idle, [(1, 10), (2, 20), (3, 30)],
      [⟨0, 1, [10, 20]⟩, ⟨1, 3, [30]⟩], [], [3, 0]⟩ : Db Nat) :=
    ((((led.tail (.logs rfl)).tail (.insert rfl)).tail (.insert rfl)).tail (.insert rfl)).tail
      (.publish rfl rfl)
  exact ⟨_, done, rfl, (groupCommit_atomic done).1, by decide, by decide⟩

end Readers

end Db

end Esker.Engine.GroupCommit
