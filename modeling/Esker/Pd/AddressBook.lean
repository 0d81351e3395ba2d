import Esker.Pd.LogStorage
import Esker.Store.Membership

/-!
Contract: the addresses a member of the placement driver routes with (`learn_routes` in
`esker-pd/src/driver.rs`, `MemberList` in `esker-pd/src/member.rs`).

Owns: the list of members with its checks, what the entries of a `Ready` make of it, and when it
stays the list that the log in force stands for.

Does not own: the id of the group, which no entry changes, and compaction.
-/

namespace Esker.Pd

open Esker.Consensus Esker.Runs List

structure PdMember where
  id : Nat
  address : Bytes
deriving DecidableEq

/-- How an address is written: what is a text at all, and what a text that names a socket. -/
structure AddressFormat where
  isText : Bytes → Bool
  isSocket : Bytes → Bool

namespace MemberList

def maxMembers : Nat := 5

variable (format : AddressFormat) (members : List PdMember)

/-- `MemberList::new`; `none` is a list that cannot work. -/
def new : Option (List PdMember) :=
  if members ≠ [] ∧ members.length ≤ maxMembers ∧ (members.map (·.id)).Nodup ∧
      ∀ member ∈ members, member.id ≠ 0 ∧
        (1 < members.length → member.address ≠ [] ∧ format.isSocket member.address) then
    some (members.insertionSort fun left right => left.id ≤ right.id)
  else none

def with_ (member : PdMember) : Option (List PdMember) :=
  new format (members.filter (fun held => decide (held.id ≠ member.id)) ++ [member])

def without (id : Nat) : Option (List PdMember) :=
  new format (members.filter fun held => decide (held.id ≠ id))

def addressOf (id : Nat) : Option Bytes :=
  (members.find? fun member => decide (member.id = id)).map (·.address)

end MemberList

open MemberList

section Routes

variable (format : AddressFormat)

def addressIn (change : ConfChange) : Bytes :=
  if format.isText change.context then change.context else []

/-- One entry of `learn_routes`; `none` stops the driver before anything is written. -/
def learnEntry (members : List PdMember) (entry : Entry) : Option (List PdMember) :=
  if entry.kind = .confChange then
    match ConfChange.decode entry.data with
    | .error _ => none
    | .ok change =>
      match change.kind with
      | .remove => without format members change.node
      | .addVoter | .addLearner =>
        if addressIn format change = [] ∧ members.any (fun held => decide (held.id = change.node))
        then some members
        else with_ format members ⟨change.node, addressIn format change⟩
  else some members

def learnRoutes (members : List PdMember) (entries : List Entry) : Option (List PdMember) :=
  entries.foldlM (learnEntry format) members

end Routes

/-- A member: its log and the list it routes with, which is recorded in the batch of the entries. -/
structure Driver (D : Type) where
  kept : Kept D
  members : List PdMember

inductive DriverEvent where
  /-- A `Ready` whose entries continue the log, or replace the end of it by a new leader's. -/
  | ready (hardState : Option HardState) (first : Entry) (rest : List Entry)
  | applied (index : Nat)
  | restart

namespace Driver

variable {D : Type} (format : AddressFormat)

def step (driver : Driver D) : DriverEvent → Driver D
  | .ready hardState first rest =>
    if driver.kept.Continues first then
      match learnRoutes format driver.members (first :: rest) with
      | none => driver
      | some members => ⟨driver.kept.step (.append hardState first rest), members⟩
    else driver
  | .applied index => { driver with kept := driver.kept.step (.applied index) }
  | .restart => { driver with kept := driver.kept.step .reopen }

/-- The membership that the log determines. -/
def inForce (driver : Driver D) : ConfState :=
  confAt driver.kept.storage.initialConf driver.kept.history

/-- Every member in force has an address, and the list is what the entries in force make of the
list the group was founded with: an entry that was replaced has left nothing. -/
structure Mirrors (founders : List PdMember) (driver : Driver D) : Prop where
  listed : ∀ id ∈ driver.inForce.members, (addressOf driver.members id).isSome
  restored : learnRoutes format founders driver.kept.history = some driver.members

/-- No entry that is replaced changes the membership. -/
def Spares (driver : Driver D) : DriverEvent → Prop
  | .ready _ first _ =>
    ∀ entry ∈ driver.kept.history.drop (first.index - 1), entry.kind ≠ .confChange
  | _ => True

def founded (founders : List PdMember) : Driver D :=
  ⟨.bootstrap ⟨founders.map (·.id), []⟩, founders⟩

/-! ## What an entry makes of the list -/

variable {format}

theorem isSome_addressOf {members : List PdMember} {id : Nat} :
    (addressOf members id).isSome ↔ id ∈ members.map (·.id) := by
  rw [addressOf, Option.isSome_map, find?_isSome]
  simp only [mem_map, decide_eq_true_eq]

variable {members after : List PdMember}

theorem mem_of_new (checked : new format members = some after)
    (id : Nat) : id ∈ after.map (·.id) ↔ id ∈ members.map (·.id) := by
  rw [new] at checked
  split_ifs at checked
  cases checked
  exact ((perm_insertionSort _ members).map _).mem_iff

variable {conf : ConfState}

theorem mem_normalize_members {id : Nat} : id ∈ conf.normalize.members ↔ id ∈ conf.members := by
  simp only [ConfState.members, mem_append, Store.mem_normalize_voters,
    Store.mem_normalize_learners]
  tauto

theorem mem_applyTo_members {change : ConfChange} {id : Nat}
    (mem : id ∈ (change.applyTo conf).members) :
    id = change.node ∧ change.kind ≠ .remove ∨ id ≠ change.node ∧ id ∈ conf.members := by
  obtain ⟨kind, node, context⟩ := change
  cases kind <;>
  · rw [ConfChange.applyTo, mem_normalize_members] at mem
    simp [ConfState.members] at mem ⊢
    tauto

theorem names_learnEntry {entry : Entry} (learned : learnEntry format members entry = some after)
    (names : ∀ id ∈ conf.members, id ∈ members.map (·.id)) :
    ∀ id ∈ (entry.reconfigure conf).members, id ∈ after.map (·.id) := by
  intro id mem
  rw [learnEntry] at learned
  rw [Entry.reconfigure] at mem
  split_ifs at learned mem
  case neg =>
    cases learned
    exact names id mem
  cases decoded : ConfChange.decode entry.data with
  | error => simp [decoded] at learned
  | ok change =>
    simp only [decoded] at learned mem
    -- who is someone else is on the list already, and stays there
    have others : id ≠ change.node → id ∈ conf.members →
        ∃ member ∈ members.filter (fun held => decide (held.id ≠ change.node)), member.id = id := by
      intro differs isMember
      obtain ⟨member, held, rfl⟩ := mem_map.mp (names id isMember)
      exact ⟨member, mem_filter.mpr ⟨held, decide_eq_true differs⟩, rfl⟩
    have moved := mem_applyTo_members mem
    cases kind : change.kind with
    | remove =>
      simp only [kind] at learned moved
      obtain ⟨differs, isMember⟩ := moved.resolve_left (by simp)
      rw [mem_of_new learned]
      exact mem_map.mpr (others differs isMember)
    | addVoter | addLearner =>
      simp only [kind] at learned
      split_ifs at learned with known
      · cases learned
        rcases moved with ⟨rfl, _⟩ | ⟨_, isMember⟩
        · simpa using known.2
        · exact names id isMember
      · rw [mem_of_new learned, map_append, mem_append]
        rcases moved with ⟨rfl, _⟩ | ⟨differs, isMember⟩
        · exact .inr (mem_singleton_self _)
        · exact .inl (mem_map.mpr (others differs isMember))

theorem names_learnRoutes {entries : List Entry}
    (learned : learnRoutes format members entries = some after)
    (names : ∀ id ∈ conf.members, id ∈ members.map (·.id)) :
    ∀ id ∈ (confAt conf entries).members, id ∈ after.map (·.id) := by
  induction entries generalizing conf members with
  | nil =>
    cases learned
    exact names
  | cons entry rest ih =>
    rw [learnRoutes, foldlM_cons] at learned
    obtain ⟨next, one, learned⟩ := Option.bind_eq_some_iff.mp learned
    exact ih learned (names_learnEntry one names)

theorem learnRoutes_of_no_change {entries : List Entry}
    (plain : ∀ entry ∈ entries, entry.kind ≠ .confChange) (members : List PdMember) :
    learnRoutes format members entries = some members := by
  induction entries with
  | nil => rfl
  | cons entry rest ih =>
    rw [forall_mem_cons] at plain
    rw [learnRoutes, foldlM_cons, learnEntry, if_neg plain.1]
    exact ih plain.2

theorem learnRoutes_append (members : List PdMember) (front back : List Entry) :
    learnRoutes format members (front ++ back) =
      (learnRoutes format members front).bind (learnRoutes format · back) :=
  foldlM_append

/-! ## Runs -/

/-- The list is what the log makes of the founders', and the log begins with their membership. -/
structure Replayed (format : AddressFormat) (founders : List PdMember) (driver : Driver D) :
    Prop where
  conf : driver.kept.storage.initialConf = ConfState.normalize ⟨founders.map (·.id), []⟩
  restored : learnRoutes format founders driver.kept.history = some driver.members

theorem Replayed.mirrors {founders : List PdMember} {driver : Driver D}
    (replayed : Replayed format founders driver) : Mirrors format founders driver := by
  refine ⟨?_, replayed.restored⟩
  intro id mem
  rw [isSome_addressOf]
  refine names_learnRoutes replayed.restored ?_ id mem
  rw [replayed.conf]
  intro id mem
  rw [mem_normalize_members] at mem
  simpa [ConfState.members] using mem

theorem Replayed.step {founders : List PdMember} {driver : Driver D}
    (replayed : Replayed format founders driver) (event : DriverEvent)
    (spares : driver.Spares event) : Replayed format founders (driver.step format event) := by
  cases event with
  | ready hardState first rest =>
    rw [Driver.step]
    split_ifs with continues
    · cases learned : learnRoutes format driver.members (first :: rest) with
      | none => exact replayed
      | some members =>
        -- the list before the replaced entries is the list after them
        have split := replayed.restored
        rw [← take_append_drop (first.index - 1) driver.kept.history, learnRoutes_append] at split
        obtain ⟨front, before, after⟩ := Option.bind_eq_some_iff.mp split
        rw [learnRoutes_of_no_change spares] at after
        cases after
        dsimp only
        rw [Kept.step, if_pos continues]
        refine ⟨replayed.conf, ?_⟩
        change learnRoutes format founders (_ ++ _) = _
        rw [learnRoutes_append, before]
        exact learned
    · exact replayed
  | applied index =>
    rw [Driver.step, Kept.step]
    split_ifs
    · exact ⟨replayed.conf, replayed.restored⟩
    · exact replayed
  | restart => exact ⟨replayed.conf, replayed.restored⟩

/-- In a run that replaces no change of the membership, the addresses mirror it in every state. -/
theorem addresses_mirror_membership (format : AddressFormat) (founders : List PdMember)
    (events : List DriverEvent)
    (spared : Meets (step format) Spares (founded founders : Driver D) events) :
    Along (step format) (Mirrors format founders) (founded founders : Driver D) events :=
  (along_of_meets (fun _ event replayed spares => replayed.step event spares)
    (⟨rfl, rfl⟩ : Replayed format founders (founded founders)) spared).mono
    fun _ replayed => replayed.mirrors

/-- Addresses of ASCII characters, with a colon before the port. -/
def asciiSockets : AddressFormat :=
  ⟨fun bytes => bytes.all fun byte => decide (byte < 128), fun bytes => bytes.contains 58⟩

/-- The address `h1:7` of the first host, and so on. -/
def hostAddress (host : Nat) : Bytes := [104, UInt8.ofNat (48 + host), 58, 55]

/-- A voter joins by an entry of a new leader, which replaces one of the old. -/
theorem joined_voter_mirrored : Along (step asciiSockets)
    (Mirrors asciiSockets [⟨1, hostAddress 1⟩, ⟨2, hostAddress 2⟩])
    (founded [⟨1, hostAddress 1⟩, ⟨2, hostAddress 2⟩] : Driver Unit)
    [.ready none (.empty 1 1) [], .ready none (.confChange 2 1 ⟨.addVoter, 3, hostAddress 3⟩) [],
      .applied 1, .restart] := by
  apply addresses_mirror_membership
  exact ⟨nofun, by unfold Spares; decide, trivial, trivial, trivial⟩

/-- The third member is removed by an entry that a new leader replaces: it votes again, and there is
no address for it. -/
theorem replaced_removal_unlisted : ¬Along (step asciiSockets)
    (Mirrors asciiSockets [⟨1, hostAddress 1⟩, ⟨2, hostAddress 2⟩, ⟨3, hostAddress 3⟩])
    (founded [⟨1, hostAddress 1⟩, ⟨2, hostAddress 2⟩, ⟨3, hostAddress 3⟩] : Driver Unit)
    [.ready none (.confChange 1 1 ⟨.remove, 3, []⟩) [], .ready none (.empty 2 1) []] := by
  intro along
  exact absurd (along.2.2.listed 3 (by decide)) (by decide)

end Driver

end Esker.Pd
