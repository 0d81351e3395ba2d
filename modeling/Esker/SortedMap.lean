import Mathlib

/-!
Contract: an ordered map as its strictly increasing list of entries.

Owns: lookup, insertion, removal, the greatest entry at or below a key and the
entries from a key on, with the membership each of them has.
-/

namespace Esker

open List

/-- An ordered map: its entries by strictly increasing key. -/
structure SortedMap (K V : Type) [LinearOrder K] where
  entries : List (K × V)
  sorted : entries.Pairwise fun left right => left.1 < right.1

namespace SortedMap

variable {K V : Type} [LinearOrder K]

instance : Membership (K × V) (SortedMap K V) := ⟨fun map entry => entry ∈ map.entries⟩

variable {map : SortedMap K V} {entry : K × V} {key at_ : K} {value held : V}

theorem mem_def : entry ∈ map ↔ entry ∈ map.entries :=
  Iff.rfl

def empty : SortedMap K V := ⟨[], List.Pairwise.nil⟩

instance : Inhabited (SortedMap K V) := ⟨empty⟩

@[simp] theorem not_mem_empty (entry : K × V) : entry ∉ (empty : SortedMap K V) :=
  not_mem_nil

theorem value_unique {other : V} (first : (key, value) ∈ map) (second : (key, other) ∈ map) :
    value = other := by
  by_contra differ
  have distinct : ((key, value) : K × V) ≠ (key, other) := fun equal =>
    differ (Prod.mk.inj equal).2
  have symmetric : Std.Symm fun left right : K × V => left.1 < right.1 ∨ right.1 < left.1 :=
    ⟨fun _ _ => Or.symm⟩
  have ordered : map.entries.Pairwise fun left right => left.1 < right.1 ∨ right.1 < left.1 :=
    map.sorted.imp fun below => Or.inl below
  have apart := ordered.forall first second distinct
  rcases apart with below | above
  · exact lt_irrefl key below
  · exact lt_irrefl key above

/-! ## Lookup -/

/-- `BTreeMap::get`. -/
def lookup (map : SortedMap K V) (key : K) : Option V :=
  (map.entries.find? fun entry => decide (entry.1 = key)).map Prod.snd

theorem lookup_eq_some_iff : map.lookup key = some value ↔ (key, value) ∈ map := by
  constructor
  · intro found
    rw [lookup, Option.map_eq_some_iff] at found
    obtain ⟨⟨at_, held⟩, first, rfl⟩ := found
    have passes := find?_some first
    rw [decide_eq_true_eq] at passes
    subst passes
    exact mem_of_find?_eq_some first
  · intro mem
    rw [lookup, Option.map_eq_some_iff]
    cases found : map.entries.find? fun entry => decide (entry.1 = key) with
    | none =>
      have absent := find?_eq_none.mp found _ mem
      simp at absent
    | some entry =>
      refine ⟨entry, rfl, ?_⟩
      have atKey := find?_some found
      rw [decide_eq_true_eq] at atKey
      have held : (key, entry.2) ∈ map := by
        rw [← atKey]
        exact mem_of_find?_eq_some found
      exact value_unique held mem

theorem lookup_eq_none_iff : map.lookup key = none ↔ ∀ value, (key, value) ∉ map := by
  constructor
  · intro missing value mem
    rw [← lookup_eq_some_iff, missing] at mem
    cases mem
  intro absent
  cases found : map.lookup key with
  | none => rfl
  | some value => exact absurd (lookup_eq_some_iff.mp found) (absent value)

/-! ## Insertion and removal -/

/-- `BTreeMap::insert`: the entry takes the place of any other at its key. -/
def insert (map : SortedMap K V) (key : K) (value : V) : SortedMap K V where
  entries :=
    map.entries.filter (fun entry => decide (entry.1 < key)) ++
      (key, value) :: map.entries.filter (fun entry => decide (key < entry.1))
  sorted := by
    rw [pairwise_append]
    refine ⟨map.sorted.filter _, ?_, ?_⟩
    · rw [pairwise_cons]
      refine ⟨?_, map.sorted.filter _⟩
      intro entry member
      exact of_decide_eq_true (mem_filter.mp member).2
    · intro left leftMember right rightMember
      have below : left.1 < key := of_decide_eq_true (mem_filter.mp leftMember).2
      rcases mem_cons.mp rightMember with rfl | rightMember
      · exact below
      · exact below.trans (of_decide_eq_true (mem_filter.mp rightMember).2)

theorem mem_insert : (at_, held) ∈ map.insert key value ↔
      (at_ = key ∧ held = value) ∨ (at_ ≠ key ∧ (at_, held) ∈ map) := by
  simp only [mem_def, insert, mem_append, mem_filter, mem_cons, Prod.mk.injEq, decide_eq_true_eq]
  constructor
  · rintro (⟨mem, below⟩ | same | ⟨mem, above⟩)
    · exact Or.inr ⟨below.ne, mem⟩
    · exact Or.inl same
    · exact Or.inr ⟨above.ne', mem⟩
  · rintro (same | ⟨differs, mem⟩)
    · exact Or.inr (Or.inl same)
    rcases lt_or_gt_of_ne differs with below | above
    · exact Or.inl ⟨mem, below⟩
    · exact Or.inr (Or.inr ⟨mem, above⟩)

/-- What holds between any two entries holds after an insertion, if the new one has it with each of
the others. -/
theorem forall_insert {holds : K → V → Prop} (new : holds key value)
    (old : ∀ other held, (other, held) ∈ map → holds other held) :
    ∀ other held, (other, held) ∈ map.insert key value → holds other held := by
  intro other held mem
  rcases mem_insert.mp mem with ⟨rfl, rfl⟩ | ⟨_, mem⟩
  · exact new
  · exact old other held mem

theorem pairs_insert {related : V → V → Prop}
    (symm : ∀ {left right}, related left right → related right left)
    (old : ∀ at_ left other right, (at_, left) ∈ map → (other, right) ∈ map → at_ ≠ other →
      related left right)
    (new : ∀ other held, (other, held) ∈ map → other ≠ key → related value held) :
    ∀ at_ left other right, (at_, left) ∈ map.insert key value →
      (other, right) ∈ map.insert key value → at_ ≠ other → related left right := by
  intro at_ left other right mem otherMember differs
  rcases mem_insert.mp mem with ⟨rfl, rfl⟩ | ⟨notKey, held⟩ <;>
  rcases mem_insert.mp otherMember with ⟨rfl, rfl⟩ | ⟨otherNotKey, otherHeld⟩
  · exact absurd rfl differs
  · exact new other right otherHeld otherNotKey
  · exact symm (new at_ left held notKey)
  · exact old at_ left other right held otherHeld differs

/-- `BTreeMap::remove`. -/
def erase (map : SortedMap K V) (key : K) : SortedMap K V where
  entries := map.entries.filter fun entry => decide (entry.1 ≠ key)
  sorted := map.sorted.filter _

theorem mem_erase : (at_, held) ∈ map.erase key ↔ at_ ≠ key ∧ (at_, held) ∈ map := by
  simp only [mem_def, erase, mem_filter, decide_eq_true_eq]
  exact And.comm

/-- `BTreeMap::retain`. -/
def retain (map : SortedMap K V) (keep : K → V → Bool) : SortedMap K V where
  entries := map.entries.filter fun entry => keep entry.1 entry.2
  sorted := map.sorted.filter _

theorem mem_retain {keep : K → V → Bool} :
    (at_, held) ∈ map.retain keep ↔ (at_, held) ∈ map ∧ keep at_ held = true :=
  mem_filter

@[simp] theorem lookup_insert_self (map : SortedMap K V) (key : K) (value : V) :
    (map.insert key value).lookup key = some value := by
  rw [lookup_eq_some_iff, mem_insert]
  exact Or.inl ⟨rfl, rfl⟩

theorem lookup_insert_of_ne (map : SortedMap K V) {other : K} (value : V) (differs : other ≠ key) :
    (map.insert key value).lookup other = map.lookup other := by
  ext held
  rw [lookup_eq_some_iff, lookup_eq_some_iff, mem_insert]
  constructor
  · rintro (⟨same, _⟩ | ⟨_, mem⟩)
    · exact absurd same differs
    · exact mem
  · intro mem
    exact Or.inr ⟨differs, mem⟩

/-! ## Ranges -/

/-- `range(..=key).next_back()`: the greatest entry at or below `key`. -/
def lastAtMost (map : SortedMap K V) (key : K) : Option (K × V) :=
  (map.entries.filter fun entry => decide (entry.1 ≤ key)).getLast?

theorem lastAtMost_eq_some (found : map.lastAtMost key = some entry) :
    entry ∈ map ∧ entry.1 ≤ key ∧ ∀ other ∈ map, other.1 ≤ key → other.1 ≤ entry.1 := by
  rw [lastAtMost, getLast?_eq_some_iff] at found
  obtain ⟨before, split⟩ := found
  have mem : entry ∈ map.entries.filter fun other => decide (other.1 ≤ key) := by
    rw [split]
    exact mem_append_right _ (mem_singleton_self _)
  obtain ⟨held, within⟩ := mem_filter.mp mem
  refine ⟨held, of_decide_eq_true within, ?_⟩
  intro other otherHeld otherWithin
  have otherMember : other ∈ before ++ [entry] := by
    rw [← split]
    exact mem_filter.mpr ⟨otherHeld, decide_eq_true otherWithin⟩
  have ordered : (before ++ [entry]).Pairwise fun left right => left.1 < right.1 := by
    rw [← split]
    exact map.sorted.filter _
  rcases mem_append.mp otherMember with earlier | same
  · exact ((pairwise_append.mp ordered).2.2 other earlier entry (mem_singleton_self _)).le
  · rw [mem_singleton.mp same]

theorem lastAtMost_eq_none (missing : map.lastAtMost key = none) :
    ∀ entry ∈ map, key < entry.1 := by
  intro entry mem
  rw [lastAtMost, getLast?_eq_none_iff, filter_eq_nil_iff] at missing
  have outside := missing entry mem
  rw [decide_eq_true_eq, not_le] at outside
  exact outside

def last (map : SortedMap K V) : Option (K × V) := map.entries.getLast?

/-- `range(from..)`: the entries at or above `key`, in key order. -/
def fromKey (map : SortedMap K V) (key : K) : List (K × V) :=
  map.entries.filter fun entry => decide (key ≤ entry.1)

theorem mem_fromKey : entry ∈ map.fromKey key ↔ entry ∈ map ∧ key ≤ entry.1 := by
  rw [fromKey, mem_filter, decide_eq_true_eq]
  exact Iff.rfl

theorem fromKey_sorted (map : SortedMap K V) (key : K) :
    (map.fromKey key).Pairwise fun left right => left.1 < right.1 :=
  map.sorted.filter _

end SortedMap

variable {α : Type}

/-- On an increasing list, taking while a predicate that only turns false once holds
keeps every element that satisfies it. -/
theorem mem_takeWhile_of_pairwise {relation : α → α → Prop} {keep : α → Bool} :
    ∀ {elements : List α}, elements.Pairwise relation →
      (∀ left ∈ elements, ∀ right ∈ elements, relation left right → keep right = true →
        keep left = true) →
      ∀ {element : α}, element ∈ elements.takeWhile keep ↔
        element ∈ elements ∧ keep element = true := by
  intro elements
  induction elements with
  | nil =>
    intro _ _ element
    simp
  | cons head tail ih =>
    intro ordered downward element
    rw [pairwise_cons] at ordered
    rw [takeWhile_cons]
    have onTail := @ih ordered.2 (fun left leftMember right rightMember =>
        downward left (mem_cons_of_mem _ leftMember) right (mem_cons_of_mem _ rightMember)) element
    cases kept : keep head with
    | true =>
      rw [if_pos rfl, mem_cons, onTail, mem_cons]
      constructor
      · rintro (rfl | ⟨mem, holds⟩)
        · exact ⟨Or.inl rfl, kept⟩
        · exact ⟨Or.inr mem, holds⟩
      rintro ⟨rfl | mem, holds⟩
      · exact Or.inl rfl
      · exact Or.inr ⟨mem, holds⟩
    | false =>
      rw [if_neg (by simp)]
      constructor
      · intro mem
        cases mem
      rintro ⟨mem, holds⟩
      -- An element behind a rejected head is rejected as well.
      rcases mem_cons.mp mem with rfl | behind
      · rw [kept] at holds
        cases holds
      have headKept := downward head mem_cons_self element
        (mem_cons_of_mem _ behind) (ordered.1 element behind) holds
      rw [kept] at headKept
      cases headKept

theorem eq_of_sorted_of_mem_iff {before : α → α → Prop}
    (asymm : ∀ first second, before first second → ¬ before second first) {left right : List α}
    (leftSorted : left.Pairwise before) (rightSorted : right.Pairwise before)
    (same : ∀ element, element ∈ left ↔ element ∈ right) : left = right := by
  have distinct : ∀ first second, before first second → first ≠ second := by
    rintro first _ ordered rfl
    exact asymm first first ordered ordered
  have permuted := (perm_ext_iff_of_nodup (leftSorted.imp (distinct _ _))
    (rightSorted.imp (distinct _ _))).mpr same
  exact permuted.eq_of_pairwise
    (fun first second _ _ ordered reversed => absurd reversed (asymm first second ordered))
    leftSorted rightSorted

end Esker
