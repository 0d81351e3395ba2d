import Esker.KeyRange
import Esker.Store.Region

/-!
Contract: one fragment per region, and what becomes of a region that has moved
(`evaluate`, `re_routed` and `tiles_exactly` in `esker-sql/src/exec/fragment.rs`).

Owns: the walk over the shards of a plan, the repair of a shard that could not be reached,
and which keys the shards that answered hold together.
-/

namespace Esker.Sql

open Esker.Consensus (Bytes)
open Esker.KeyRange
open Esker.Store (Epoch)
open List

structure Shard (K : Type) where
  regionId : Nat
  epoch : Epoch
  start : K
  stop : K
  columnar : Option Nat
deriving DecidableEq, Repr

inductive RefusalReason where
  | unsupported
  | tooFarBehind
  | notColumnar
deriving DecidableEq, Repr

def refusalText : RefusalReason → String
  | .unsupported => "this build cannot evaluate the fragment"
  | .tooFarBehind => "too far behind"
  | .notColumnar => "no columnar copy"

inductive Body (G : Type) where
  | groups (groups : List G)
  | rows
deriving DecidableEq, Repr

/-- What a call of `FragmentSource::evaluate` comes back with; an answer that does not decode
has no body. -/
inductive Reply (G : Type) where
  | failed
  | refused (reason : RefusalReason)
  | answered (body : Option (Body G))
deriving DecidableEq, Repr

/-- Where fragments go. The first argument counts the calls made so far: nothing is assumed
of what the same question is answered a second time. -/
structure FragmentSource (K G : Type) where
  shards : Nat → K → K → Option (List (Shard K))
  evaluate : Nat → Shard K → Reply G

/-- How a run of `evaluate` ends. -/
inductive Run (K M : Type) where
  | rows (asked : Nat) (answered : List (Shard K)) (merged : M)
  | refused (asked : Nat) (why : String)
deriving DecidableEq, Repr

def maxRouteRepairs : Nat := 4

variable {clock repairs : Nat}

section Walk

variable {K G M : Type} [LinearOrder K]

def contiguous : List (Shard K) → Bool
  | first :: second :: rest => decide (first.stop = second.start) && contiguous (second :: rest)
  | _ => true

def tilesExactly (fresh : List (Shard K)) (shard : Shard K) : Bool :=
  match fresh.head?, fresh.getLast? with
  | some first, some last =>
    decide (first.start = shard.start) && decide (last.stop = shard.stop) && contiguous fresh
  | _, _ => false

/-- The one shard that comes back is the one that was asked. -/
def noNews (fresh : List (Shard K)) (shard : Shard K) : Bool :=
  match fresh with
  | [only] => decide (only.regionId = shard.regionId) && decide (only.epoch = shard.epoch)
  | _ => false

def reRouted (source : FragmentSource K G) (clock : Nat) (shard : Shard K) (repairs : Nat) :
    Option (List (Shard K)) :=
  if maxRouteRepairs ≤ repairs then none
  else
    match source.shards clock shard.start shard.stop with
    | none => none
    | some fresh =>
      if noNews fresh shard then none
      else if !tilesExactly fresh shard then none
      else if !fresh.all fun each => each.columnar.isSome then none
      else some fresh

theorem reRouted_some {source : FragmentSource K G} {shard : Shard K} {fresh : List (Shard K)}
    (found : reRouted source clock shard repairs = some fresh) :
    repairs < maxRouteRepairs ∧ source.shards clock shard.start shard.stop = some fresh ∧
      tilesExactly fresh shard = true := by
  rw [reRouted] at found
  split at found
  · cases found
  rename_i left
  split at found
  · cases found
  rename_i returned answer
  split at found
  · cases found
  split at found
  · cases found
  rename_i tiles
  split at found
  · cases found
  cases found
  refine ⟨not_le.mp left, answer, ?_⟩
  rw [Bool.not_eq_true, Bool.not_eq_false'] at tiles
  exact tiles

def mergeAll (merge : M → G → Except String M) (merged : M) (groups : List G) :
    Except String M :=
  groups.foldlM merge merged

/-- The loop of `evaluate`: `pending` are the shards from `at` on, `asked` is the length of the
whole list, and `merge` folds one group of an answer. -/
def walk (source : FragmentSource K G) (merge : M → G → Except String M)
    (repairs clock asked : Nat) (answered : List (Shard K)) (merged : M)
    (pending : List (Shard K)) : Run K M :=
  match pending with
  | [] => .rows asked answered merged
  | shard :: rest =>
    match source.evaluate clock shard with
    | .failed =>
      match _found : reRouted source (clock + 1) shard repairs with
      | none => .refused asked "a region could not be reached"
      | some fresh =>
        walk source merge (repairs + 1) (clock + 2) (asked + fresh.length) answered merged
          (fresh ++ rest)
    | .refused reason => .refused asked (refusalText reason)
    | .answered none => .refused asked "an answer this node cannot decode"
    | .answered (some .rows) => .refused asked "an aggregate answered as rows"
    | .answered (some (.groups groups)) =>
      match mergeAll merge merged groups with
      | .error why => .refused asked why
      | .ok folded =>
        walk source merge repairs (clock + 1) asked (answered ++ [shard]) folded rest
termination_by (maxRouteRepairs - repairs, pending.length)
decreasing_by
  · apply Prod.Lex.left
    have left := (reRouted_some _found).1
    omega
  · apply Prod.Lex.right
    exact Nat.lt_succ_self _

/-- `evaluate`: the shards of the plan, from the first. -/
def evaluate (source : FragmentSource K G) (merge : M → G → Except String M) (start : M)
    (planned : List (Shard K)) : Run K M :=
  walk source merge 0 0 planned.length [] start planned

end Walk

/-! ## Which keys the answers hold -/

section Ranges

variable {K G M : Type} [LinearOrder K] [OrderBot K]

namespace Shard

def Holds (shard : Shard K) (key : K) : Prop := InRange shard.start shard.stop key

def Apart (shard other : Shard K) : Prop := ∀ key, shard.Holds key → ¬ other.Holds key

end Shard

/-- Every range holds a key, and each begins above the one before it. -/
structure InKeyOrder (shards : List (Shard K)) : Prop where
  proper : ∀ shard ∈ shards, Proper shard.start shard.stop
  ascending : shards.Pairwise fun shard later => shard.start < later.start

variable {rest : List (Shard K)} {key : K}

theorem InKeyOrder.tail {shard : Shard K} (ordered : InKeyOrder (shard :: rest)) :
    InKeyOrder rest :=
  ⟨fun each mem => ordered.proper each (mem_cons_of_mem _ mem),
    (pairwise_cons.mp ordered.ascending).2⟩

def Covers (shards : List (Shard K)) (key : K) : Prop := ∃ shard ∈ shards, shard.Holds key

theorem covers_cons {shard : Shard K} :
    Covers (shard :: rest) key ↔ shard.Holds key ∨ Covers rest key := by
  rw [Covers, Covers]
  constructor
  · rintro ⟨each, mem, holds⟩
    rcases mem_cons.mp mem with rfl | mem
    · exact Or.inl holds
    · exact Or.inr ⟨each, mem, holds⟩
  · rintro (holds | ⟨each, mem, holds⟩)
    · exact ⟨shard, mem_cons_self, holds⟩
    · exact ⟨each, mem_cons_of_mem _ mem, holds⟩

theorem covers_append {left right : List (Shard K)} :
    Covers (left ++ right) key ↔ Covers left key ∨ Covers right key := by
  induction left with
  | nil =>
    rw [nil_append]
    constructor
    · exact Or.inr
    rintro (⟨each, mem, _⟩ | covers)
    · exact absurd mem not_mem_nil
    · exact covers
  | cons shard rest ih =>
    rw [cons_append, covers_cons, ih, covers_cons, or_assoc]

/-- Contiguous shards in key order hold exactly the keys from the first start to the last
stop, and none of them twice. -/
theorem tiles_of_contiguous {first last : Shard K} (ordered : InKeyOrder (first :: rest))
    (ends : (first :: rest).getLast? = some last) (chained : contiguous (first :: rest) = true) :
    (∀ key, Covers (first :: rest) key ↔ InRange first.start last.stop key) ∧
      (first :: rest).Pairwise Shard.Apart := by
  induction rest generalizing first with
  | nil =>
    cases ends
    constructor
    · intro key
      rw [covers_cons, or_iff_left]
      · exact Iff.rfl
      · rintro ⟨each, mem, _⟩
        exact absurd mem not_mem_nil
    · exact pairwise_singleton _ _
  | cons second rest ih =>
    rw [contiguous, Bool.and_eq_true, decide_eq_true_eq] at chained
    obtain ⟨meet, chained⟩ := chained
    rw [getLast?_cons_cons] at ends
    obtain ⟨covered, apart⟩ := ih ordered.tail ends chained
    -- The second shard's first key is one of the keys the later shards hold.
    have begins : InRange second.start last.stop second.start := by
      apply (covered second.start).mp
      apply covers_cons.mpr
      apply Or.inl
      exact inRange_start (ordered.proper second (mem_cons_of_mem _ mem_cons_self))
    have divides : Divides first.start last.stop second.start :=
      ⟨(pairwise_cons.mp ordered.ascending).1 second mem_cons_self, begins.2⟩
    have holds : ∀ key, first.Holds key ↔ InRange first.start second.start key := by
      intro key
      rw [Shard.Holds, meet]
    constructor
    · intro key
      rw [covers_cons, covered, divides.inRange_iff, holds]
    apply pairwise_cons.mpr
    constructor
    · intro later mem key inFirst inLater
      apply divides.disjoint ((holds key).mp inFirst)
      exact (covered key).mp ⟨later, mem, inLater⟩
    · exact apart

theorem tilesExactly_covers {fresh : List (Shard K)} {shard : Shard K}
    (ordered : InKeyOrder fresh) (tiles : tilesExactly fresh shard = true) :
    (∀ key, Covers fresh key ↔ shard.Holds key) ∧ fresh.Pairwise Shard.Apart := by
  cases fresh with
  | nil => cases tiles
  | cons first rest =>
    rw [tilesExactly] at tiles
    cases ends : (first :: rest).getLast? with
    | none =>
      rw [ends] at tiles
      cases tiles
    | some last =>
      rw [ends] at tiles
      dsimp only [head?_cons] at tiles
      rw [Bool.and_eq_true, Bool.and_eq_true, decide_eq_true_eq, decide_eq_true_eq] at tiles
      obtain ⟨⟨sameStart, sameStop⟩, chained⟩ := tiles
      obtain ⟨covered, apart⟩ := tiles_of_contiguous ordered ends chained
      rw [sameStart, sameStop] at covered
      exact ⟨covered, apart⟩

/-! ## The walk -/

/-- What the walk keeps: the shards answered and those still to ask hold the planned keys,
each once. -/
structure Accounts (planned answered pending : List (Shard K)) : Prop where
  covers : ∀ key, Covers (answered ++ pending) key ↔ Covers planned key
  apart : (answered ++ pending).Pairwise Shard.Apart

namespace Accounts

variable {planned answered rest : List (Shard K)} {shard : Shard K}

theorem answer (accounts : Accounts planned answered (shard :: rest)) :
    Accounts planned (answered ++ [shard]) rest := by
  constructor
  · rw [append_assoc]
    exact accounts.covers
  · rw [append_assoc]
    exact accounts.apart

theorem repair (accounts : Accounts planned answered (shard :: rest)) {fresh : List (Shard K)}
    (covered : ∀ key, Covers fresh key ↔ shard.Holds key) (apart : fresh.Pairwise Shard.Apart) :
    Accounts planned answered (fresh ++ rest) := by
  have inside : ∀ each ∈ fresh, ∀ key, each.Holds key → shard.Holds key := by
    intro each mem key holds
    exact (covered key).mp ⟨each, mem, holds⟩
  obtain ⟨amongAnswered, amongPending, between⟩ := pairwise_append.mp accounts.apart
  obtain ⟨fromShard, amongRest⟩ := pairwise_cons.mp amongPending
  constructor
  · intro key
    rw [← accounts.covers key, covers_append, covers_append, covered, covers_append, covers_cons]
  apply pairwise_append.mpr
  refine ⟨amongAnswered, ?_, ?_⟩
  · apply pairwise_append.mpr
    refine ⟨apart, amongRest, ?_⟩
    intro each mem later laterMember key holds
    exact fromShard later laterMember key (inside each mem key holds)
  · intro earlier earlierMember each mem key inEarlier inEach
    rcases mem_append.mp mem with isFresh | isRest
    · exact between earlier earlierMember shard mem_cons_self key inEarlier
        (inside each isFresh key inEach)
    · exact between earlier earlierMember each (mem_cons_of_mem _ isRest) key inEarlier inEach

end Accounts

theorem walk_accounts {source : FragmentSource K G} {merge : M → G → Except String M}
    (ordered : ∀ clock start stop fresh, source.shards clock start stop = some fresh →
      InKeyOrder fresh) {planned pending answered last : List (Shard K)} {asked total : Nat}
    {merged final : M} (accounts : Accounts planned answered pending)
    (finished : walk source merge repairs clock asked answered merged pending =
      .rows total last final) : Accounts planned last [] := by
  fun_induction walk source merge repairs clock asked answered merged pending with
  | case1 repairs clock asked answered merged =>
    cases finished
    exact accounts
  | case2 | case4 | case5 | case6 | case7 => cases finished
  | case3 repairs clock asked answered merged shard rest failed fresh found ih =>
    obtain ⟨_, returned, tiles⟩ := reRouted_some found
    obtain ⟨covered, apart⟩ := tilesExactly_covers (ordered _ _ _ _ returned) tiles
    exact ih (accounts.repair covered apart) finished
  | case8 repairs clock asked answered merged shard rest groups reply folded _ ih =>
      exact ih accounts.answer finished

/-- The shards a run of `evaluate` has answers of hold exactly the planned keys, each once. -/
theorem answers_cover_planned_once {source : FragmentSource K G} {merge : M → G → Except String M}
    (ordered : ∀ clock start stop fresh, source.shards clock start stop = some fresh →
      InKeyOrder fresh)
    {planned : List (Shard K)} (separate : planned.Pairwise Shard.Apart) {start final : M}
    {asked : Nat} {answered : List (Shard K)}
    (finished : evaluate source merge start planned = .rows asked answered final) :
    answered.Pairwise Shard.Apart ∧ ∀ key, Covers answered key ↔ Covers planned key := by
  have opening : Accounts planned [] planned := ⟨fun _ => Iff.rfl, separate⟩
  have closing := walk_accounts ordered opening finished
  constructor
  · have apart := closing.apart
    rw [append_nil] at apart
    exact apart
  · intro key
    rw [← closing.covers key, append_nil]

end Ranges

/-! ## A region that has split, and one that has not -/

/-- Answers the call with no group, once the first has failed; the range is then in `fresh`. -/
def movingSource (fresh : List (Shard Bytes)) : FragmentSource Bytes Unit where
  shards _ _ _ := some fresh
  evaluate clock _ := if clock = 0 then .failed else .answered (some (.groups []))

def movedShard : Shard Bytes := ⟨1, ⟨1, 1⟩, [10], [30], some 4⟩

/-- The two halves of `movedShard`. -/
def splitShards : List (Shard Bytes) :=
  [⟨1, ⟨1, 2⟩, [10], [20], some 4⟩, ⟨2, ⟨1, 2⟩, [20], [30], some 4⟩]

theorem split_followed :
    (evaluate (movingSource splitShards) (fun merged _ => .ok merged) () [movedShard] =
      .rows 3 splitShards ()) ∧ splitShards.Pairwise Shard.Apart ∧
      ∀ key, Covers splitShards key ↔ Covers [movedShard] key := by
  have finished : evaluate (movingSource splitShards) (fun merged _ => .ok merged) () [movedShard] =
      .rows 3 splitShards () := by
    simp [evaluate, walk, movingSource, movedShard, splitShards, reRouted, noNews, tilesExactly,
      contiguous, maxRouteRepairs, mergeAll, pure, Except.pure]
  have inOrder : InKeyOrder splitShards := by
    constructor
    · decide
    · decide
  refine ⟨finished, answers_cover_planned_once ?_ (pairwise_singleton _ _) finished⟩
  intro clock start stop fresh returned
  cases returned
  exact inOrder

/-- Two shards that meet beyond the end of `movedShard`. -/
def crossedShards : List (Shard Bytes) :=
  [⟨1, ⟨1, 2⟩, [10], [90], some 4⟩, ⟨2, ⟨1, 2⟩, [90], [30], some 4⟩]

/-- Nothing checks that a returned range begins below its end: keys no planned shard holds are
counted. -/
theorem crossed_shards_counted :
    (evaluate (movingSource crossedShards) (fun merged _ => .ok merged) () [movedShard] =
      .rows 3 crossedShards ()) ∧ Covers crossedShards [50] ∧ ¬ Covers [movedShard] [50] := by
  refine ⟨?_, ?_, ?_⟩
  · simp [evaluate, walk, movingSource, movedShard, crossedShards, reRouted, noNews, tilesExactly,
      contiguous, maxRouteRepairs, mergeAll, pure, Except.pure]
  · refine ⟨_, mem_cons_self, ?_⟩
    rw [Shard.Holds]
    decide
  rintro ⟨shard, member, holds⟩
  rw [mem_singleton.mp member, Shard.Holds] at holds
  exact absurd holds (by decide)

end Esker.Sql
