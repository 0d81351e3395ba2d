import Esker.Store.RaftLog

/-!
Contract: the log in the database answers as the log in memory (`RaftLogStorage` in
`esker-store/src/raft_log.rs` and `MemStorage` in `esker-raft/src/storage.rs`).

Owns: what both are asked to do, with the compaction as a peer performs it, and the relation
between them that every step keeps.
-/

namespace Esker.Store

open Esker.Consensus List SortedMap

/-! ## What the batches leave of a key -/

theorem lookup_eraseThrough (map : SortedMap Nat Entry) (first last index : Nat) :
    (RaftLogStorage.eraseThrough map first last).lookup index =
      if first ≤ index ∧ index ≤ last then none else map.lookup index := by
  have erased : ∀ keys, ∀ map : SortedMap Nat Entry, (foldl erase map keys).lookup index =
      if index ∈ keys then none else map.lookup index := by
    intro keys
    induction keys with
    | nil => exact fun map => rfl
    | cons key rest ih =>
      intro map
      have one : (map.erase key).lookup index = if index = key then none else map.lookup index := by
        ext held
        rw [SortedMap.lookup_eq_some_iff, mem_erase]
        split_ifs with same <;> simp [same, SortedMap.lookup_eq_some_iff]
      rw [foldl_cons, ih, one]
      split_ifs <;> simp_all
  rw [RaftLogStorage.eraseThrough, erased]
  congr 1
  rw [mem_range'_1, eq_iff_iff]
  omega

/-- The entries of a batch have consecutive indexes. -/
def Consecutive (first : Nat) (batch : List Entry) : Prop :=
  batch.map (·.index) = range' first batch.length

instance decidableConsecutive (first : Nat) (batch : List Entry) :
    Decidable (Consecutive first batch) :=
  inferInstanceAs (Decidable (_ = _))

theorem lookup_putAll {first : Nat} {batch : List Entry} (consecutive : Consecutive first batch)
    (map : SortedMap Nat Entry) (index : Nat) :
    (batch.foldl (fun map entry => map.insert entry.index entry) map).lookup index =
      if first ≤ index ∧ index < first + batch.length then batch[index - first]?
      else map.lookup index := by
  induction batch generalizing first map with
  | nil =>
    rw [length_nil, if_neg (by omega)]
    rfl
  | cons entry rest ih =>
    have ⟨here, later⟩ : entry.index = first ∧ Consecutive (first + 1) rest :=
      cons.inj consecutive
    rw [foldl_cons, ih later, here, length_cons]
    rcases Nat.lt_trichotomy index first with below | rfl | above
    · rw [if_neg (by omega), if_neg (by omega), lookup_insert_of_ne _ _ below.ne]
    · rw [if_neg (by omega), if_pos (by omega), Nat.sub_self, lookup_insert_self]
      rfl
    · obtain ⟨offset, rfl⟩ := Nat.exists_eq_add_of_lt above
      rw [lookup_insert_of_ne _ _ above.ne', (by omega : first + offset + 1 - first = offset + 1),
        getElem?_cons_succ, (by omega : first + offset + 1 - (first + 1) = offset)]
      congr 1
      rw [eq_iff_iff]
      omega

theorem getLast_index {first : Nat} {batch : List Entry} (consecutive : Consecutive first batch)
    (present : batch ≠ []) : (batch.getLast present).index + 1 = first + batch.length := by
  have last : (batch.map (·.index))[batch.length - 1]? = some (batch.getLast present).index := by
    rw [getElem?_map, ← getLast?_eq_getElem?, getLast?_eq_some_getLast present]
    rfl
  have longer := length_pos_iff.mpr present
  rw [consecutive, getElem?_range' (by omega)] at last
  have := Option.some.inj last
  omega

/-! ## The relation -/

/-- The database holds exactly the entries that the memory holds, each at its index. -/
structure Alike (log : RaftLogStorage) (memory : Storage Unit) : Prop where
  hardState : log.state.hardState = memory.hardState
  confState : log.state.confState = memory.confState
  truncated : log.state.truncatedIndex = memory.compactedIndex
  truncatedTerm : log.state.truncatedTerm = memory.compactedTerm
  last : log.lastIndex = memory.last
  held : ∀ index, log.entries.lookup index =
    if memory.compactedIndex < index then memory.entries[index - memory.compactedIndex - 1]?
    else none

/-- Both answer every question alike, errors included. -/
structure Answers (log : RaftLogStorage) (memory : Storage Unit) : Prop where
  initialState : LogStorage.initialState log = LogStorage.initialState memory
  firstIndex : LogStorage.firstIndex log = LogStorage.firstIndex memory
  lastIndex : LogStorage.lastIndex log = LogStorage.lastIndex memory
  term : ∀ index, LogStorage.term log index = LogStorage.term memory index
  entries : ∀ low high maxBytes,
    LogStorage.entries log low high maxBytes = LogStorage.entries memory low high maxBytes

/-- A compaction of the memory. It does not move the membership, which is recorded beside it. -/
def compactTo (index : Nat) (conf : ConfState) (memory : Storage Unit) : Storage Unit :=
  match memory.compact index with
  | .error _ => memory
  | .ok after => after.setConfState conf.normalize

namespace Alike

variable {log : RaftLogStorage} {memory : Storage Unit}

/-! ## Reads -/

section

variable (alike : Alike log memory)
include alike

theorem readFrom_eq (maxBytes count : Nat) :
    ∀ low budget out, memory.compactedIndex < low → low + count ≤ memory.last + 1 →
      log.readFrom maxBytes (range' low count) budget out = .ok (takeWithin maxBytes
        ((memory.entries.drop (low - memory.compactedIndex - 1)).take count) budget out) := by
  induction count with
  | zero =>
    intro low budget out _ _
    rw [take_zero]
    rfl
  | succ count ih =>
    intro low budget out above within
    have inside : low - memory.compactedIndex - 1 < memory.entries.length := by
      rw [Storage.last] at within
      omega
    have next : low - memory.compactedIndex - 1 + 1 = low + 1 - memory.compactedIndex - 1 := by
      omega
    rw [range'_succ, RaftLogStorage.readFrom, alike.held, if_pos above, getElem?_eq_getElem inside,
      drop_eq_getElem_cons inside, take_succ_cons, takeWithin, next]
    dsimp only
    split
    · rfl
    · exact ih (low + 1) _ _ (by omega) (by omega)

theorem readTerm_eq (index : Nat) : log.readTerm index = memory.readTerm index := by
  rw [RaftLogStorage.readTerm, Storage.readTerm, alike.truncated, alike.truncatedTerm, alike.last,
    alike.held]
  split_ifs with boundary below beyond above
  · rfl
  · rfl
  · rw [Storage.last] at beyond
    rw [getElem?_eq_none (by omega)]
  · rfl
  · omega

theorem answers : Answers log memory where
  initialState := by
    change Except.ok (InitialState.mk _ _) = _
    rw [alike.hardState, alike.confState]
    rfl
  firstIndex := congrArg (fun index => Except.ok (index + 1)) alike.truncated
  lastIndex := congrArg Except.ok alike.last
  term := alike.readTerm_eq
  entries := by
    intro low high maxBytes
    change log.readEntries low high maxBytes = memory.readEntries low high maxBytes
    rw [RaftLogStorage.readEntries, Storage.readEntries, alike.truncated, alike.last]
    split_ifs with compacted beyond empty
    · rfl
    · rfl
    · rw [Nat.sub_eq_zero_of_le empty]
      rfl
    · rw [alike.readFrom_eq _ _ _ _ _ (by omega) (by omega)]
      dsimp only
      rw [drop_take]
      congr 3
      omega

/-! ## Writes -/

theorem hard (hardState : Option HardState) : Alike (log.stageReady hardState [])
      (memory.setHardState (hardState.getD memory.hardState)) :=
  { alike with hardState := congrArg hardState.getD alike.hardState }

omit alike in
theorem append (alike : Alike log memory) {first : Entry} {rest : List Entry}
    (above : memory.compactedIndex < first.index) (within : first.index ≤ memory.last + 1)
    (consecutive : Consecutive first.index (first :: rest)) :
    ∃ after, memory.append (first :: rest) = .ok after ∧
      Alike (log.stageReady none (first :: rest)) after := by
  have final := getLast_index consecutive (cons_ne_nil _ _)
  have reaches := alike.last
  rw [Storage.last] at reaches within
  have kept : (memory.entries.take (first.index - memory.compactedIndex - 1)).length =
      first.index - memory.compactedIndex - 1 := by
    rw [length_take]
    omega
  refine ⟨{ memory with
    entries := memory.entries.take (first.index - memory.compactedIndex - 1) ++ first :: rest },
    ?_, { alike with last := ?_, held := fun index => ?_ }⟩
  · have longer : (first :: rest).length = rest.length + 1 := length_cons
    rw [Storage.append, head?_cons, getLast?_eq_some_getLast (cons_ne_nil _ _)]
    dsimp only
    rw [Storage.last, if_neg (by omega), if_neg (by omega), Nat.sub_eq_zero_of_le above,
      drop_zero, head?_cons]
  · change ((first :: rest).getLast _).index = memory.compactedIndex + length (_ ++ first :: rest)
    rw [length_append, kept]
    omega
  change SortedMap.lookup ((first :: rest).foldl _ _) index =
    if memory.compactedIndex < index then
      (_ ++ first :: rest)[index - memory.compactedIndex - 1]?
    else none
  rw [lookup_putAll consecutive, lookup_eraseThrough, alike.held]
  by_cases below : index < first.index
  · rw [if_neg (by omega), if_neg (by omega)]
    split_ifs
    · rw [getElem?_append_left (by omega), getElem?_take_of_lt (by omega)]
    · rfl
  have beyond : index - memory.compactedIndex - 1 - (first.index - memory.compactedIndex - 1) =
      index - first.index := by omega
  have above : memory.compactedIndex < index := by omega
  rw [if_pos above, if_pos above, getElem?_append_right (by omega), kept, beyond]
  split_ifs
  · rfl
  · rw [getElem?_eq_none (by omega)]
  · rw [getElem?_eq_none (by omega), getElem?_eq_none (by omega)]

omit alike in
theorem compact (alike : Alike log memory) {index term : Nat} (conf : ConfState)
    (found : log.readTerm index = .ok term) {after : RaftLogStorage}
    (compacted : log.stageCompact index term conf = some after) :
    Alike after (compactTo index conf memory) := by
  have reaches := alike.last
  rw [alike.readTerm_eq] at found
  rw [RaftLogStorage.stageCompact, alike.truncated] at compacted
  rw [compactTo, Storage.compact, found]
  rw [Storage.last] at reaches ⊢
  split_ifs at compacted ⊢ with _ old beyond
  · exact Option.some.inj compacted ▸ alike
  · -- past the last index there is no term
    rw [Storage.readTerm, if_neg (by omega), if_neg (by omega),
      getElem?_eq_none (by omega)] at found
    cases found
  rw [← Option.some.inj compacted]
  refine { alike with
    confState := rfl, truncated := rfl, truncatedTerm := rfl, last := ?_
    held := fun other => ?_ }
  · change max log.lastIndex index = index + (memory.entries.drop _).length
    rw [length_drop]
    omega
  change (RaftLogStorage.eraseThrough _ _ _).lookup other =
    if index < other then (memory.entries.drop _)[other - index - 1]? else none
  rw [lookup_eraseThrough, alike.held, getElem?_drop]
  split_ifs <;> first | rfl | omega | skip
  congr 1
  omega

theorem reopen (conf : ConfState) :
    Alike (RaftLogStorage.openStorage log.records conf).1 memory := by
  refine { alike with last := ?_ }
  change RaftLogStorage.scanLastIndex log.entries log.state = memory.last
  have within : ∀ entry ∈ log.entries, memory.compactedIndex < entry.1 ∧ entry.1 ≤ memory.last := by
    intro entry mem
    have found := alike.held entry.1
    rw [lookup_eq_some_iff.mpr mem] at found
    split_ifs at found with above
    have := (List.getElem?_eq_some_iff.mp found.symm).1
    rw [Storage.last]
    omega
  have top : memory.compactedIndex < memory.last → ∃ entry, (memory.last, entry) ∈ log.entries := by
    intro long
    have here := alike.held memory.last
    rw [if_pos long, getElem?_eq_getElem (by rw [Storage.last] at long ⊢; omega)] at here
    exact ⟨_, lookup_eq_some_iff.mp here⟩
  have seek : log.entries.last = log.entries.lastAtMost memory.last := by
    rw [SortedMap.last, lastAtMost, filter_eq_self.mpr]
    exact fun entry mem => decide_eq_true (within entry mem).2
  rw [RaftLogStorage.scanLastIndex, seek]
  cases found : log.entries.lastAtMost memory.last with
  | none =>
    have short : ¬memory.compactedIndex < memory.last := by
      intro long
      obtain ⟨entry, mem⟩ := top long
      exact lt_irrefl _ (lastAtMost_eq_none found _ mem)
    change log.state.truncatedIndex = _
    rw [alike.truncated]
    rw [Storage.last] at short ⊢
    omega
  | some entry =>
    obtain ⟨mem, below, most⟩ := lastAtMost_eq_some found
    obtain ⟨_, isTop⟩ := top ((within entry mem).1.trans_le below)
    exact le_antisymm below (most _ isTop le_rfl)

end

end Alike

/-! ## Runs -/

/-- The storage and the memory that go through the same. -/
structure Twins where
  log : RaftLogStorage
  memory : Storage Unit

namespace Twins

/-- A batch that continues the log or overwrites its tail. -/
def Continues (twins : Twins) : List Entry → Prop
  | [] => True
  | first :: rest => twins.memory.compactedIndex < first.index ∧
      first.index ≤ twins.memory.last + 1 ∧ Consecutive first.index (first :: rest)

instance decidableContinues (twins : Twins) : (batch : List Entry) →
    Decidable (twins.Continues batch)
  | [] => inferInstanceAs (Decidable True)
  | _ :: _ => inferInstanceAs (Decidable (_ ∧ _))

inductive Call where
  | ready (hardState : Option HardState) (batch : List Entry)
  | applied (index : Nat)
  | compact (index : Nat) (conf : ConfState)
  | reopen (conf : ConfState)

/-- Both perform a call, each batch written before the next one. The term of a compaction is read
from the log, as a peer does, and what the log refuses is not asked of the memory. -/
def step (twins : Twins) : Call → Twins
  | .ready hardState batch =>
    if twins.Continues batch then
      let memory := twins.memory.setHardState (hardState.getD twins.memory.hardState)
      ⟨twins.log.stageReady hardState batch, (memory.append batch).toOption.getD memory⟩
    else twins
  | .applied index => { twins with log := twins.log.stageApplied index }
  | .compact index conf =>
    match twins.log.readTerm index with
    | .error _ => twins
    | .ok term =>
      match twins.log.stageCompact index term conf with
      | none => twins
      | some log =>
        ⟨log, compactTo index conf twins.memory⟩
  | .reopen conf => { twins with log := (RaftLogStorage.openStorage twins.log.records conf).1 }

def bootstrap (conf : ConfState) : Twins :=
  ⟨(RaftLogStorage.openStorage ⟨none, .empty⟩ conf).1, .withConfState conf.normalize ()⟩

theorem alike_step {twins : Twins} (alike : Alike twins.log twins.memory) (call : Call) :
    Alike (twins.step call).log (twins.step call).memory := by
  cases call with
  | ready hardState batch =>
    rw [step]
    split_ifs with continues
    case neg => exact alike
    cases batch with
    | nil => exact alike.hard hardState
    | cons first rest =>
      obtain ⟨above, within, consecutive⟩ := continues
      obtain ⟨after, appended, alike⟩ := (alike.hard hardState).append above within consecutive
      dsimp only
      rw [appended]
      exact alike
  | applied index => exact { alike with }
  | compact index conf =>
    rw [step]
    split
    case h_1 => exact alike
    case h_2 term found =>
      split
      case h_1 => exact alike
      case h_2 after compacted => exact alike.compact conf found compacted
  | reopen conf => exact alike.reopen conf

end Twins

end Esker.Store
