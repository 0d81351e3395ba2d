import Mathlib

/-!
Contract: `LIKE` (`like_matches` of `esker-sql/src/plan/expr.rs`).

Owns: the loop with its one backtrack point, the language of a pattern, and that the loop decides it
for every escape character but `%`, which it never takes for one.
-/

namespace Esker.Sql.Like

open List

variable {escape wanted : Option Char} {subject pattern rest later : List Char} {char : Char}

/-! ## The loop -/

/-- `element`: the character that is wanted, none for `_`, and the pattern behind it. -/
def element (escape : Option Char) : List Char → Option (Option Char × List Char)
  | [] => none
  | [last] => some (if last = '_' then none else some last, [])
  | first :: next :: rest =>
    if some first = escape then some (some next, rest)
    else some (if first = '_' then none else some first, next :: rest)

theorem length_of_element (found : element escape pattern = some (wanted, later)) :
    later.length < pattern.length := by
  unfold element at found
  grind

theorem element_eq_none : element escape pattern = none ↔ pattern = [] := by
  unfold element
  grind

/-- The loop of `like_matches` over what is left of both strings. The last `%` is kept as the
pattern behind it and the subject from where it resumes. -/
def run (escape : Option Char) (star : Option (List Char × List Char))
    (subject pattern : List Char) : Bool :=
  if pattern.head? = some '%' then run escape (some (pattern.tail, subject)) subject pattern.tail
  else
    match subject with
    | [] => pattern.all (· = '%')
    | char :: rest =>
      match _taken : (element escape pattern).filter (·.1.all (· = char)) with
      | some (_, later) => run escape star rest later
      | none =>
        match star with
        | some (resumed, _ :: from_) => run escape (some (resumed, from_)) from_ resumed
        | _ => false
termination_by
  (max pattern.length (star.elim 0 (·.1.length)), star.elim 0 (·.2.length), subject.length)
decreasing_by
  · rename_i percent
    obtain ⟨rest, rfl⟩ := head?_eq_some_iff.mp percent
    simp only [tail_cons, length_cons, Option.elim, Prod.lex_def]
    omega
  · have := length_of_element (Option.filter_eq_some_iff.mp _taken).1
    simp only [length_cons, Prod.lex_def, true_and]
    omega
  · simp only [length_cons, Option.elim, Prod.lex_def]
    omega

def likeMatches (subject pattern : List Char) (escape : Option Char) : Bool :=
  run escape none subject pattern

/-! ## What a pattern means -/

/-- Any run of characters, or a single one that may be named. -/
inductive Element where
  | run
  | single (wanted : Option Char)

def Element.plain (char : Char) : Element :=
  if char = '%' then .run else .single (if char = '_' then none else some char)

def elements (escape : Option Char) : List Char → List Element
  | [] => []
  | [last] => [.plain last]
  | first :: next :: rest =>
    if some first = escape then .single (some next) :: elements escape rest
    else .plain first :: elements escape (next :: rest)

def Element.Denotes : Element → List Char → Prop
  | .run, _ => True
  | .single wanted, piece => ∃ char, piece = [char] ∧ wanted.all (· = char)

/-- The subject can be cut into pieces that match the elements in order. -/
def Fits : List Element → List Char → Prop
  | [], subject => subject = []
  | part :: parts, subject =>
    ∃ piece rest, subject = piece ++ rest ∧ part.Denotes piece ∧ Fits parts rest

variable {parts : List Element}

theorem fits_run : Fits (.run :: parts) subject ↔ ∃ rest, rest <:+ subject ∧ Fits parts rest := by
  simp only [Fits, Element.Denotes, IsSuffix]
  grind

theorem fits_single : Fits (.single wanted :: parts) subject ↔
    ∃ char rest, subject = char :: rest ∧ wanted.all (· = char) ∧ Fits parts rest := by
  constructor
  · rintro ⟨_, rest, rfl, ⟨char, rfl, takes⟩, fits⟩
    exact ⟨char, rest, rfl, takes, fits⟩
  · rintro ⟨char, rest, rfl, takes, fits⟩
    exact ⟨[char], rest, rfl, ⟨char, rfl, takes⟩, fits⟩

/-! ## The loop decides the language -/

/-- The escape character that the loop goes by. -/
def heeded (escape : Option Char) : Option Char := if escape = some '%' then none else escape

/-- The pattern, read with the escape character that is heeded, fits the subject. -/
abbrev Matches (escape : Option Char) (pattern subject : List Char) : Prop :=
  Fits (elements (heeded escape) pattern) subject

theorem matches_percent : Matches escape ('%' :: rest) subject ↔
    ∃ behind, behind <:+ subject ∧ Matches escape rest behind := by
  rw [Matches, ← fits_run]
  cases rest with
  | nil => rfl
  | cons next rest =>
    rw [elements, if_neg (by grind [heeded])]
    rfl

theorem matches_element (other : pattern.head? ≠ some '%')
    (found : element escape pattern = some (wanted, later)) : Matches escape pattern subject ↔
      ∃ char rest, subject = char :: rest ∧ wanted.all (· = char) ∧ Matches escape later rest := by
  rw [Matches, ← fits_single]
  unfold element at found
  split at found <;> grind [elements, heeded, Element.plain]

theorem matches_spent : Matches escape pattern [] ↔ pattern.all (· = '%') = true := by
  induction pattern with
  | nil => simp [Matches, elements, Fits]
  | cons first rest ih =>
    by_cases percent : first = '%'
    · rw [percent, matches_percent]
      simpa using ih
    · cases found : element escape (first :: rest) with
      | none => cases element_eq_none.mp found
      | some element => simp [matches_element (by simpa using percent) found, percent]

/-- What may still be found by giving the last `%` more of the subject. -/
def Later (escape : Option Char) (star : Option (List Char × List Char)) : Prop :=
  ∃ resumed char from_ behind, star = some (resumed, char :: from_) ∧ behind <:+ from_ ∧
    Matches escape resumed behind

/-- From a `%` on, its own tries are the suffixes of the subject. -/
theorem matches_or_later : Matches escape pattern subject ∨ Later escape (some (pattern, subject)) ↔
    ∃ behind, behind <:+ subject ∧ Matches escape pattern behind := by
  cases subject with
  | nil => simp [Later]
  | cons char rest => simp [Later, suffix_cons_iff, or_and_right, exists_or]

/-- An element that takes a character takes one of every later try as well. -/
theorem Later.takes (other : pattern.head? ≠ some '%')
    (found : element escape pattern = some (wanted, later)) :
    Later escape (some (pattern, char :: rest)) → Later escape (some (later, rest)) := by
  rintro ⟨_, _, _, _, ⟨⟩, within, fits⟩
  obtain ⟨first, behind, rfl, _, fits⟩ := (matches_element other found).mp fits
  cases rest with
  | nil => cases suffix_nil.mp within
  | cons next rest =>
    exact ⟨later, next, rest, behind, rfl, (suffix_cons_iff.mp within).elim
      (fun same => (cons.inj same).2 ▸ suffix_rfl) (suffix_cons first behind).trans, fits⟩

theorem missed_not_matches (other : pattern.head? ≠ some '%')
    (missed : (element escape pattern).filter (·.1.all (· = char)) = none) :
    ¬ Matches escape pattern (char :: rest) := by
  cases found : element escape pattern with
  | none => simp [Matches, element_eq_none.mp found, elements, Fits]
  | some element =>
    rw [matches_element other found]
    simp_all

/-- While the loop runs, what the last `%` may still find is behind what is looked at now. -/
theorem run_eq_true_iff {star : Option (List Char × List Char)}
    (ahead : Later escape star → Later escape (some (pattern, subject))) :
    run escape star subject pattern = true ↔
      Matches escape pattern subject ∨ Later escape star := by
  fun_induction run escape star subject pattern with
  | case1 star subject pattern percent ih =>
    obtain ⟨rest, rfl⟩ : ∃ rest, pattern = '%' :: rest := head?_eq_some_iff.mp percent
    rw [ih id, tail_cons, matches_or_later, ← matches_percent]
    refine ⟨.inl, (Or.elim · id fun later => ?_)⟩
    obtain ⟨_, _, _, behind, ⟨⟩, within, fits⟩ := ahead later
    rw [matches_percent] at fits ⊢
    obtain ⟨left, inside, fits⟩ := fits
    exact ⟨left, (inside.trans within).trans (suffix_cons _ _), fits⟩
  | case2 star pattern other =>
    rw [← @matches_spent escape]
    refine ⟨.inl, (Or.resolve_right · fun later => ?_)⟩
    obtain ⟨_, _, _, _, ⟨⟩, _⟩ := ahead later
  | case3 star pattern other char rest wanted later taken ih =>
    obtain ⟨found, takes⟩ := Option.filter_eq_some_iff.mp taken
    rw [ih fun later => (ahead later).takes other found, matches_element other found]
    simp [takes]
  | case4 pattern other char rest resumed first from_ missed ih =>
    rw [ih id, matches_or_later, or_iff_right (missed_not_matches other missed)]
    simp [Later]
  | case5 star pattern other char rest missed stuck =>
    rw [or_iff_right (missed_not_matches other missed)]
    simp only [Bool.false_eq_true, false_iff]
    rintro ⟨resumed, first, from_, _, isStar, _⟩
    exact stuck resumed first from_ isStar

theorem likeMatches_iff (subject pattern : List Char) (escape : Option Char) :
    likeMatches subject pattern escape = true ↔
      Fits (elements (if escape = some '%' then none else escape) pattern) subject := by
  have nothing : ¬ Later escape none := by simp [Later]
  rw [likeMatches, run_eq_true_iff fun later => absurd later nothing, or_iff_left nothing]
  rfl

theorem percents_match : likeMatches ['a'] ['%', '%'] (some '%') = true := by
  simp [likeMatches, run, element]

theorem escaped_percent_is_literal : ¬ Fits (elements (some '%') ['%', '%']) ['a'] := by
  simp [elements, fits_single]

/-- `LIKE` decides the language of its pattern, read without an escape character if that is `%`, so
it decides that of the pattern as it is written for every other escape character and for no more. -/
theorem like_matches_iff (escape : Option Char) :
    (∀ subject pattern, likeMatches subject pattern escape = true ↔
      Fits (elements (if escape = some '%' then none else escape) pattern) subject) ∧
    ((∀ subject pattern, likeMatches subject pattern escape = true ↔
      Fits (elements escape pattern) subject) ↔ escape ≠ some '%') := by
  refine ⟨fun subject pattern => likeMatches_iff subject pattern escape, ?_, ?_⟩
  · rintro exactly rfl
    exact escaped_percent_is_literal ((exactly _ _).mp percents_match)
  · intro other subject pattern
    rw [likeMatches_iff, if_neg other]

/-- With `ESCAPE '%'` the pattern `%%` is a literal `%`, yet the loop takes it for wildcards. -/
theorem like_ignores_percent_escape : likeMatches ['a'] ['%', '%'] (some '%') = true ∧
    ¬ Fits (elements (some '%') ['%', '%']) ['a'] :=
  ⟨percents_match, escaped_percent_is_literal⟩

end Esker.Sql.Like
