import Mathlib

/-!
Contract: items put into groups by a key, one after the other, where changing the value of a group
may fail.

Owns: `alter`, `group`, and `Grouped`: what the value of every group stands for.

A table is the list of its groups, found by comparing keys. The comparison has to tell apart only
the keys that occur.
-/

namespace Esker.Groups

open List

variable {R S κ β ε : Type}

section Tables

variable (same : κ → κ → Bool)

/-- Changes the value of the key's group, or adds a group under the key. -/
def alter (key : κ) (change : Option β → Except ε β) : List (κ × β) → Except ε (List (κ × β))
  | [] => (change none).map fun value => [(key, value)]
  | (held, value) :: rest =>
    if same held key then (change (some value)).map fun value => (held, value) :: rest
    else (alter key change rest).map fun rest => (held, value) :: rest

/-- One item. `full` refuses a new group beside so many others. -/
def place (full : Nat → Option ε) (keyOf : R → κ) (change : R → Option β → Except ε β)
    (table : List (κ × β)) (item : R) : Except ε (List (κ × β)) :=
  if table.any fun pair => same pair.1 (keyOf item) then
    alter same (keyOf item) (change item) table
  else
    match full table.length with
    | some error => .error error
    | none => alter same (keyOf item) (change item) table

def group (full : Nat → Option ε) (keyOf : R → κ) (change : R → Option β → Except ε β)
    (items : List R) : Except ε (List (κ × β)) :=
  items.foldlM (place same full keyOf change) []

theorem group_map (full : Nat → Option ε) (keyOf : R → κ) (change : R → Option β → Except ε β)
    (view : S → R) (items : List S) : group same full keyOf change (items.map view) =
      group same full (keyOf ∘ view) (change ∘ view) items := by
  unfold group
  rw [foldlM_map]
  rfl

theorem group_concat (full : Nat → Option ε) (keyOf : R → κ) (change : R → Option β → Except ε β)
    (items : List R) (item : R) : group same full keyOf change (items ++ [item]) =
      (group same full keyOf change items).bind fun table =>
        place same full keyOf change table item := by
  unfold group
  rw [foldlM_append]
  simp only [foldlM_cons, foldlM_nil, bind_pure]
  rfl

end Tables

variable {same : κ → κ → Bool} {full : Nat → Option ε} {keyOf : R → κ}
  {change : R → Option β → Except ε β} {table after : List (κ × β)} {item : R} {items : List R}

/-- An altered table has one value changed, or one group more. -/
theorem alter_ok {key : κ} {change : Option β → Except ε β}
    (altered : alter same key change table = .ok after) :
    (∃ front held value next back, table = front ++ (held, value) :: back ∧
      same held key = true ∧ change (some value) = .ok next ∧
      after = front ++ (held, next) :: back) ∨
    (∀ pair ∈ table, same pair.1 key = false) ∧
      ∃ value, change none = .ok value ∧ after = table ++ [(key, value)] := by
  induction table generalizing after with
  | nil =>
    rw [alter] at altered
    cases changed : change none with
    | error error =>
      rw [changed] at altered
      cases altered
    | ok value =>
      rw [changed] at altered
      exact .inr ⟨fun pair mem => absurd mem not_mem_nil, value, rfl,
        (Except.ok.inj altered).symm⟩
  | cons pair rest ih =>
    obtain ⟨held, value⟩ := pair
    rw [alter] at altered
    split at altered
    case isTrue isSame =>
      cases changed : change (some value) with
      | error error =>
        rw [changed] at altered
        cases altered
      | ok next =>
        rw [changed] at altered
        exact .inl ⟨[], held, value, next, rest, rfl, isSame, changed,
          (Except.ok.inj altered).symm⟩
    case isFalse differs =>
      cases below : alter same key change rest with
      | error error =>
        rw [below] at altered
        cases altered
      | ok later =>
        rw [below] at altered
        rw [← Except.ok.inj altered]
        rcases ih below with ⟨front, held', value', next, back, isRest, isSame, changed, isLater⟩ |
          ⟨none, value', changed, isLater⟩
        · exact .inl ⟨(held, value) :: front, held', value', next, back,
            congrArg _ isRest, isSame, changed, congrArg _ isLater⟩
        · refine .inr ⟨?_, value', changed, congrArg _ isLater⟩
          intro pair mem
          rcases mem_cons.mp mem with rfl | later
          · exact Bool.eq_false_iff.mpr differs
          · exact none pair later

theorem alter_exists {key : κ} {change : Option β → Except ε β}
    (fresh : ∃ value, change none = .ok value)
    (held : ∀ pair ∈ table, same pair.1 key = true → ∃ value, change (some pair.2) = .ok value) :
    ∃ after, alter same key change table = .ok after := by
  induction table with
  | nil =>
    obtain ⟨value, changed⟩ := fresh
    exact ⟨_, by rw [alter, changed]; rfl⟩
  | cons pair rest ih =>
    obtain ⟨_, below⟩ := ih fun pair mem => held pair (.tail _ mem)
    rw [alter]
    split
    case isTrue isSame =>
      obtain ⟨_, changed⟩ := held pair (.head _) isSame
      exact ⟨_, by rw [changed]; rfl⟩
    case isFalse => exact ⟨_, by rw [below]; rfl⟩

theorem alter_of_place (placed : place same full keyOf change table item = .ok after) :
    alter same (keyOf item) (change item) table = .ok after := by
  unfold place at placed
  split at placed
  · exact placed
  · split at placed
    · cases placed
    · exact placed

/-- The table holds a group for each key of the items, whose value stands for the items with that
key. -/
structure Grouped (same : κ → κ → Bool) (keyOf : R → κ) (Holds : κ → List R → β → Prop)
    (items : List R) (table : List (κ × β)) : Prop where
  distinct : (table.map Prod.fst).Nodup
  present : ∀ item ∈ items, keyOf item ∈ table.map Prod.fst
  wanted : ∀ key ∈ table.map Prod.fst, ∃ item ∈ items, keyOf item = key
  holds : ∀ pair ∈ table, Holds pair.1 (items.filter fun item => same pair.1 (keyOf item)) pair.2

section Steps

variable {Key : κ → Prop} {Holds : κ → List R → β → Prop}
  (exact : ∀ left right, Key left → Key right → (same left right = true ↔ left = right))
include exact

omit exact in
theorem Grouped.keyed (grouped : Grouped same keyOf Holds items table)
    (keyed : ∀ each ∈ items, Key (keyOf each)) {key : κ} (mem : key ∈ table.map Prod.fst) :
    Key key := by
  obtain ⟨each, isItem, rfl⟩ := grouped.wanted key mem
  exact keyed each isItem

/-- A group under another key has the items it had. -/
theorem filter_of_ne {key : κ} (isKey : Key key) (itemKey : Key (keyOf item))
    (differs : key ≠ keyOf item) :
    ((items ++ [item]).filter fun each => same key (keyOf each)) =
      items.filter fun each => same key (keyOf each) := by
  have apart : same key (keyOf item) = false :=
    Bool.eq_false_iff.mpr fun isSame => differs ((exact _ _ isKey itemKey).mp isSame)
  simp [filter_append, apart]

section Item

variable (keyed : ∀ each ∈ items, Key (keyOf each)) (isKey : Key (keyOf item))
include keyed isKey

/-- The item goes to the group that is there. -/
theorem Grouped.changed {front back : List (κ × β)} {value next : β}
    (grouped : Grouped same keyOf Holds items (front ++ (keyOf item, value) :: back))
    (holds : ∀ members, Holds (keyOf item) members value →
      Holds (keyOf item) (members ++ [item]) next) :
    Grouped same keyOf Holds (items ++ [item]) (front ++ (keyOf item, next) :: back) := by
  have keys : (front ++ (keyOf item, next) :: back).map Prod.fst =
      (front ++ (keyOf item, value) :: back).map Prod.fst := by simp
  have nodup := grouped.distinct
  rw [map_append, map_cons, nodup_append, nodup_cons] at nodup
  have self : same (keyOf item) (keyOf item) = true := (exact _ _ isKey isKey).mpr rfl
  have was {pair : κ × β} (mem : pair ∈ front ++ (keyOf item, value) :: back)
      (differs : pair.1 ≠ keyOf item) :
      Holds pair.1 ((items ++ [item]).filter fun each => same pair.1 (keyOf each)) pair.2 := by
    rw [filter_of_ne exact (grouped.keyed keyed (mem_map_of_mem mem)) isKey differs]
    exact grouped.holds pair mem
  refine ⟨keys ▸ grouped.distinct, ?_, ?_, ?_⟩
  · intro each mem
    rw [keys]
    rcases mem_append.mp mem with old | new
    · exact grouped.present each old
    · rw [mem_singleton.mp new]
      simp
  · intro key mem
    rw [keys] at mem
    obtain ⟨each, isItem, isKeyOf⟩ := grouped.wanted key mem
    exact ⟨each, mem_append_left _ isItem, isKeyOf⟩
  · intro pair mem
    rcases mem_append.mp mem with inFront | inRest
    · exact was (mem_append_left _ inFront) (nodup.2.2 _ (mem_map_of_mem inFront) _ (.head _))
    rcases mem_cons.mp inRest with rfl | inBack
    · have stands := holds _ (grouped.holds (keyOf item, value) (by simp))
      simpa [filter_append, self] using stands
    · exact was (mem_append_right _ (.tail _ inBack)) fun isPair =>
        nodup.2.1.1 (mem_map.mpr ⟨pair, inBack, isPair⟩)

/-- The item is the first of a new group. -/
theorem Grouped.added (grouped : Grouped same keyOf Holds items table)
    (absent : keyOf item ∉ table.map Prod.fst) {value : β}
    (holds : Holds (keyOf item) [item] value) :
    Grouped same keyOf Holds (items ++ [item]) (table ++ [(keyOf item, value)]) := by
  have keys : (table ++ [(keyOf item, value)]).map Prod.fst =
      table.map Prod.fst ++ [keyOf item] := by simp
  refine ⟨?_, ?_, ?_, ?_⟩
  · rw [keys, nodup_append]
    refine ⟨grouped.distinct, nodup_singleton _, fun key inTable new isNew => ?_⟩
    rw [mem_singleton.mp isNew]
    rintro rfl
    exact absent inTable
  · intro each mem
    rw [keys]
    rcases mem_append.mp mem with old | new
    · exact mem_append_left _ (grouped.present each old)
    · rw [mem_singleton.mp new]
      exact mem_append_right _ (.head _)
  · intro key mem
    rw [keys] at mem
    rcases mem_append.mp mem with old | new
    · obtain ⟨each, isItem, isKeyOf⟩ := grouped.wanted key old
      exact ⟨each, mem_append_left _ isItem, isKeyOf⟩
    · exact ⟨item, mem_append_right _ (.head _), (mem_singleton.mp new).symm⟩
  · intro pair mem
    rcases mem_append.mp mem with old | new
    · have inKeys := mem_map_of_mem (f := Prod.fst) old
      rw [filter_of_ne exact (grouped.keyed keyed inKeys) isKey
        fun isNew => absent (isNew ▸ inKeys)]
      exact grouped.holds pair old
    · cases mem_singleton.mp new
      have nobody : (items.filter fun each => same (keyOf item) (keyOf each)) = [] := by
        refine filter_eq_nil_iff.mpr fun each isItem isSame => absent ?_
        rw [(exact _ _ isKey (keyed each isItem)).mp isSame]
        exact grouped.present each isItem
      have self : same (keyOf item) (keyOf item) = true := (exact _ _ isKey isKey).mpr rfl
      simpa [filter_append, nobody, self] using holds

theorem Grouped.alter (grouped : Grouped same keyOf Holds items table)
    {change : Option β → Except ε β}
    (first : ∀ value, change none = .ok value → Holds (keyOf item) [item] value)
    (next : ∀ members value after, Holds (keyOf item) members value →
      change (some value) = .ok after → Holds (keyOf item) (members ++ [item]) after)
    (altered : alter same (keyOf item) change table = .ok after) :
    Grouped same keyOf Holds (items ++ [item]) after := by
  rcases alter_ok altered with
    ⟨front, held, value, after', back, rfl, isSame, changed, rfl⟩ |
    ⟨none, value, changed, rfl⟩
  · have isHeld : held = keyOf item :=
      (exact _ _ (grouped.keyed keyed (by simp)) isKey).mp isSame
    subst isHeld
    exact grouped.changed exact keyed isKey fun members stands =>
      next members value after' stands changed
  · refine grouped.added exact keyed isKey (fun mem => ?_) (first value changed)
    obtain ⟨pair, inTable, isPair⟩ := mem_map.mp mem
    have apart := none pair inTable
    rw [(exact _ _ (grouped.keyed keyed (mem_map_of_mem inTable)) isKey).mpr isPair] at apart
    cases apart

end Item

/-- The groups a key compares equal to hold the items with that key. -/
theorem Grouped.members (grouped : Grouped same keyOf Holds items table)
    (keyed : ∀ item ∈ items, Key (keyOf item)) {key : κ} (isKey : Key key) :
    ((table.filter fun pair => same key pair.1).flatMap fun pair =>
      items.filter fun item => same pair.1 (keyOf item)) =
        items.filter fun item => same key (keyOf item) := by
  have apart {pair : κ × β} (mem : pair ∈ table) (differs : pair.1 ≠ key) :
      same key pair.1 = false := by
    obtain ⟨each, isItem, isKeyOf⟩ := grouped.wanted pair.1 (mem_map_of_mem mem)
    refine Bool.eq_false_iff.mpr fun isSame => differs ?_
    exact ((exact key pair.1 isKey (isKeyOf ▸ keyed each isItem)).mp isSame).symm
  by_cases inTable : key ∈ table.map Prod.fst
  · obtain ⟨⟨held, value⟩, mem, rfl⟩ := mem_map.mp inTable
    obtain ⟨front, back, rfl⟩ := append_of_mem mem
    have nodup := grouped.distinct
    rw [map_append, map_cons, nodup_append, nodup_cons] at nodup
    have noneBefore : (front.filter fun pair => same held pair.1) = [] := by
      refine filter_eq_nil_iff.mpr fun pair inFront => ?_
      rw [apart (mem_append_left _ inFront) (nodup.2.2 _ (mem_map_of_mem inFront) _ (.head _))]
      exact Bool.false_ne_true
    have noneAfter : (back.filter fun pair => same held pair.1) = [] := by
      refine filter_eq_nil_iff.mpr fun pair inBack => ?_
      rw [apart (mem_append_right _ (.tail _ inBack)) fun isPair => nodup.2.1.1
        (mem_map.mpr ⟨pair, inBack, isPair⟩)]
      exact Bool.false_ne_true
    have self : same held held = true := (exact held held isKey isKey).mpr rfl
    simp [filter_append, noneBefore, noneAfter, self]
  · have noGroup : (table.filter fun pair => same key pair.1) = [] := by
      refine filter_eq_nil_iff.mpr fun pair mem => ?_
      rw [apart mem fun isPair => inTable (mem_map.mpr ⟨pair, mem, isPair⟩)]
      exact Bool.false_ne_true
    rw [noGroup, flatMap_nil]
    refine (filter_eq_nil_iff.mpr fun each isItem isSame => inTable ?_).symm
    rw [(exact key (keyOf each) isKey (keyed each isItem)).mp isSame]
    exact grouped.present each isItem

section Runs

variable (keyed : ∀ item ∈ items, Key (keyOf item))
  (first : ∀ item ∈ items, ∀ value, change item none = .ok value →
    Holds (keyOf item) [item] value)
  (next : ∀ item ∈ items, ∀ members value after, Holds (keyOf item) members value →
    change item (some value) = .ok after → Holds (keyOf item) (members ++ [item]) after)
include keyed first next

theorem grouped_of_group (run : group same full keyOf change items = .ok table) :
    Grouped same keyOf Holds items table := by
  induction items using reverseRecOn generalizing table with
  | nil =>
    cases run
    exact ⟨nodup_nil, nofun, nofun, nofun⟩
  | append_singleton items item ih =>
    rw [group_concat] at run
    cases before : group same full keyOf change items with
    | error error =>
      rw [before] at run
      cases run
    | ok earlier =>
      rw [before] at run
      have old (each : R) (mem : each ∈ items) : each ∈ items ++ [item] := mem_append_left _ mem
      have last : item ∈ items ++ [item] := mem_append_right _ (.head _)
      have grouped := ih (fun each mem => keyed each (old each mem))
        (fun each mem => first each (old each mem)) (fun each mem => next each (old each mem))
        before
      exact grouped.alter exact (fun each mem => keyed each (old each mem)) (keyed item last)
        (first item last) (next item last) (alter_of_place run)

/-- Where every change succeeds and there is room for every key, the items are grouped. -/
theorem group_exists (fresh : ∀ item ∈ items, ∃ value, change item none = .ok value)
    (changes : ∀ item ∈ items, ∀ members value, Holds (keyOf item) members value →
      ∃ after, change item (some value) = .ok after)
    (room : ∀ keys : List κ, keys.Nodup → (∀ key ∈ keys, ∃ item ∈ items, keyOf item = key) →
      ∀ count < keys.length, full count = none) :
    ∃ table, group same full keyOf change items = .ok table := by
  induction items using reverseRecOn with
  | nil => exact ⟨_, rfl⟩
  | append_singleton items item ih =>
    have old (each : R) (mem : each ∈ items) : each ∈ items ++ [item] := mem_append_left _ mem
    have last : item ∈ items ++ [item] := mem_append_right _ (.head _)
    have keyedBefore := fun each mem => keyed each (old each mem)
    have firstBefore := fun each mem => first each (old each mem)
    have nextBefore := fun each mem => next each (old each mem)
    obtain ⟨table, before⟩ := ih keyedBefore firstBefore nextBefore
      (fun each mem => fresh each (old each mem)) (fun each mem => changes each (old each mem))
      fun keys nodup among => room keys nodup fun key mem => by
        obtain ⟨each, isItem, isKeyOf⟩ := among key mem
        exact ⟨each, old each isItem, isKeyOf⟩
    have grouped := grouped_of_group exact keyedBefore firstBefore nextBefore before
    obtain ⟨after, altered⟩ : ∃ after, alter same (keyOf item) (change item) table = .ok after := by
      refine alter_exists (fresh item last) fun pair mem isSame => ?_
      obtain ⟨each, isItem, isKeyOf⟩ := grouped.wanted pair.1 (mem_map_of_mem mem)
      have isKey := (exact pair.1 (keyOf item) (isKeyOf ▸ keyed each (old each isItem))
        (keyed item last)).mp isSame
      exact changes item last _ _ (isKey ▸ grouped.holds pair mem)
    refine ⟨after, ?_⟩
    have placed : place same full keyOf change table item = .ok after := by
      unfold place
      split
      · exact altered
      rename_i isNew
      have absent : keyOf item ∉ table.map Prod.fst := by
        intro mem
        obtain ⟨pair, inTable, isPair⟩ := mem_map.mp mem
        refine isNew (any_eq_true.mpr ⟨pair, inTable, ?_⟩)
        rw [isPair]
        exact (exact _ _ (keyed item last) (keyed item last)).mpr rfl
      have distinct : (keyOf item :: table.map Prod.fst).Nodup :=
        nodup_cons.mpr ⟨absent, grouped.distinct⟩
      have free : full table.length = none := by
        refine room _ distinct (fun key mem => ?_) _ (by simp)
        rcases mem_cons.mp mem with rfl | inTable
        · exact ⟨item, last, rfl⟩
        · obtain ⟨each, isItem, isKeyOf⟩ := grouped.wanted key inTable
          exact ⟨each, old each isItem, isKeyOf⟩
      rw [free]
      exact altered
    rw [group_concat, before]
    exact placed

end Runs

end Steps

end Esker.Groups
