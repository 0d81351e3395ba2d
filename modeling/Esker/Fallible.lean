import Mathlib

/-!
Contract: computations over a mutable state that can fail in two ways.

Owns: the monad of functions that take `&mut self`, return a `Result` and may
panic, and its weakest preconditions. An error keeps the state the function had
reached when it returned, as an early `?` does; a panic keeps nothing.
-/

namespace Esker

/-- A call on a state `s` that returns `α`, returns an error `ε`, or panics
(`none`). -/
def Fallible (ε s α : Type) : Type := s → Option (Except ε α × s)

namespace Fallible

variable {ε s t α β : Type}

def run (call : Fallible ε s α) (state : s) : Option (Except ε α × s) := call state

instance : Monad (Fallible ε s) where
  pure value := fun state => some (.ok value, state)
  bind call next := fun state =>
    match call state with
    | none => none
    | some (.error error, after) => some (.error error, after)
    | some (.ok value, after) => next value after

def get : Fallible ε s s := fun state => some (.ok state, state)

def modify (change : s → s) : Fallible ε s Unit := fun state => some (.ok (), change state)

def throw (error : ε) : Fallible ε s α := fun state => some (.error error, state)

def panicked : Fallible ε s α := fun _ => none

/-- A value that a checked operation may refuse to produce. -/
def orPanic : Option α → Fallible ε s α
  | some value => pure value
  | none => panicked

/-- A `Result` that is propagated with `?`. -/
def orThrow : Except ε α → Fallible ε s α
  | .ok value => pure value
  | .error error => throw error

def debugAssert (condition : Prop) [Decidable condition] : Fallible ε s Unit :=
  if condition then pure () else panicked

/-- Turns the outcome of a call into a value, so that the caller can look at the
error instead of propagating it. Panics are not caught. -/
def attempt (call : Fallible ε s α) : Fallible ε s (Except ε α) := fun state =>
  match call state with
  | none => none
  | some (result, after) => some (.ok result, after)

def zoom (read : t → s) (write : s → t → t) (call : Fallible ε s α) : Fallible ε t α :=
  fun state =>
    match call (read state) with
    | none => none
    | some (result, after) => some (result, write after state)

/-- Runs a call for every element, stopping at the first error. -/
def each (action : β → Fallible ε s Unit) : List β → Fallible ε s Unit
  | [] => pure ()
  | element :: rest => do
      action element
      each action rest

/-! ## Weakest preconditions -/

/-- Every way the call can end from `state` satisfies `post`, or `onPanic` when it
does not end. `onPanic := True` is partial correctness and `onPanic := False` says
that the call never panics. -/
def wp (onPanic : Prop) (call : Fallible ε s α) (post : Except ε α → s → Prop) (state : s) :
    Prop :=
  match call state with
  | none => onPanic
  | some (result, after) => post result after

variable {onPanic : Prop} {post : Except ε α → s → Prop} {state : s}

@[simp] theorem wp_pure (value : α) :
    wp onPanic (pure value : Fallible ε s α) post state ↔ post (.ok value) state := Iff.rfl

@[simp] theorem wp_panicked : wp onPanic (panicked : Fallible ε s α) post state ↔ onPanic := Iff.rfl

@[simp] theorem wp_get {post : Except ε s → s → Prop} :
    wp onPanic (get : Fallible ε s s) post state ↔ post (.ok state) state := Iff.rfl

@[simp] theorem wp_modify (change : s → s) {post : Except ε Unit → s → Prop} :
    wp onPanic (modify change : Fallible ε s Unit) post state ↔
      post (.ok ()) (change state) := Iff.rfl

/-- What a continuation has to establish from the outcome of the call before it. -/
def afterCall (onPanic : Prop) (next : β → Fallible ε s α) (post : Except ε α → s → Prop) :
    Except ε β → s → Prop
  | .ok value, state => wp onPanic (next value) post state
  | .error error, state => post (.error error) state

@[simp] theorem afterCall_ok (next : β → Fallible ε s α) (value : β) :
    afterCall onPanic next post (.ok value) state ↔ wp onPanic (next value) post state :=
  Iff.rfl

@[simp] theorem wp_bind (call : Fallible ε s β) (next : β → Fallible ε s α) :
    wp onPanic (call >>= next) post state ↔
      wp onPanic call (afterCall onPanic next post) state := by
  change (match (match call state with
      | none => none
      | some (.error error, after) => some (.error error, after)
      | some (.ok value, after) => next value after) with
    | none => onPanic
    | some (result, after) => post result after) ↔ _
  unfold wp
  cases call state with
  | none => exact Iff.rfl
  | some outcome =>
    obtain ⟨result, after⟩ := outcome
    cases result <;> exact Iff.rfl

theorem wp_get_bind (next : s → Fallible ε s α) :
    wp onPanic (get >>= next) post state ↔ wp onPanic (next state) post state := by
  rw [wp_bind, wp_get, afterCall_ok]

@[simp] theorem wp_orPanic_some (value : α) :
    wp onPanic (orPanic (some value) : Fallible ε s α) post state ↔ post (.ok value) state :=
  Iff.rfl

@[simp] theorem wp_attempt (call : Fallible ε s α)
    {post : Except ε (Except ε α) → s → Prop} :
    wp onPanic (attempt call) post state ↔
      wp onPanic call (fun result after => post (.ok result) after) state := by
  unfold wp attempt
  cases call state with
  | none | some => exact Iff.rfl

@[simp] theorem wp_zoom (read : t → s) (write : s → t → t) (call : Fallible ε s α)
    {post : Except ε α → t → Prop} {state : t} :
    wp onPanic (zoom read write call) post state ↔
      wp onPanic call (fun result after => post result (write after state)) (read state) := by
  unfold wp zoom
  cases call (read state) with
  | none | some => exact Iff.rfl

@[simp] theorem wp_debugAssert (condition : Prop) [Decidable condition]
    {post : Except ε Unit → s → Prop} :
    wp onPanic (debugAssert condition : Fallible ε s Unit) post state ↔
      (condition → post (.ok ()) state) ∧ (¬ condition → onPanic) := by
  unfold debugAssert
  by_cases holds : condition <;> simp [holds]

theorem wp_ite (condition : Prop) [Decidable condition] (yes no : Fallible ε s α) :
    wp onPanic (if condition then yes else no) post state ↔
      (condition → wp onPanic yes post state) ∧ (¬ condition → wp onPanic no post state) := by
  by_cases holds : condition <;> simp [holds]

variable {call : Fallible ε s α} {action : β → Fallible ε s Unit}

theorem wp_returned {result : Except ε α} {after : s} (holds : wp onPanic call post state)
    (returned : call state = some (result, after)) : post result after := by
  unfold wp at holds
  rw [returned] at holds
  exact holds

theorem wp_mono {weaker : Except ε α → s → Prop} (established : wp onPanic call post state)
    (implies : ∀ result after, post result after → weaker result after) :
    wp onPanic call weaker state := by
  unfold wp at established ⊢
  cases outcome : call state with
  | none => simpa only [outcome] using established
  | some pair =>
    simp only [outcome] at established
    exact implies _ _ established

/-- The loop rule: an invariant that every pass keeps, whatever it returns. -/
theorem wp_each {inv : s → Prop} (elements : List β)
    (pass : ∀ element ∈ elements, ∀ state, inv state →
      wp onPanic (action element) (fun _ after => inv after) state) {state : s}
    (initial : inv state) : wp onPanic (each action elements) (fun _ after => inv after) state := by
  induction elements generalizing state with
  | nil => exact initial
  | cons element rest ih =>
    rw [each, wp_bind]
    refine wp_mono (pass element (by simp) state initial) ?_
    intro result after kept
    cases result with
    | error error => exact kept
    | ok value =>
      exact ih (fun other mem => pass other (List.mem_cons_of_mem element mem)) kept

/-! ## Calls that move along a preorder -/

section Follows

variable {order : s → s → Prop}

/-- Wherever the call is made and however it returns, the state it leaves is at or after
the state it was made in. -/
def Follows (order : s → s → Prop) (call : Fallible ε s α) : Prop :=
  ∀ state, wp True call (fun _ after => order state after) state

theorem follows_modify {change : s → s} (along : ∀ state, order state (change state)) :
    Follows order (modify change : Fallible ε s Unit) := along

/-- A change to one part of the state moves along the order whatever the call on that
part does. -/
theorem follows_zoom {order : t → t → Prop} {read : t → s} {write : s → t → t}
    (call : Fallible ε s α) (along : ∀ part state, order state (write part state)) :
    Follows order (zoom read write call) := by
  intro state
  rw [wp_zoom]
  unfold wp
  split
  · trivial
  · exact along _ state

theorem follows_ite {condition : Prop} [Decidable condition] {yes no : Fallible ε s α}
    (whenTrue : condition → Follows order yes) (whenFalse : ¬ condition → Follows order no) :
    Follows order (if condition then yes else no) := by
  intro state
  rw [wp_ite]
  exact ⟨fun holds => whenTrue holds state, fun fails => whenFalse fails state⟩

theorem follows_attempt (follows : Follows order call) : Follows order (attempt call) := by
  intro state
  rw [wp_attempt]
  exact follows state

variable [Std.Refl order]

theorem follows_pure (value : α) : Follows order (pure value : Fallible ε s α) :=
  fun state => Std.Refl.refl state

theorem follows_throw (error : ε) : Follows order (throw error : Fallible ε s α) :=
  fun state => Std.Refl.refl state

theorem follows_get : Follows order (get : Fallible ε s s) := fun state => Std.Refl.refl state

theorem follows_orThrow (result : Except ε α) :
    Follows order (orThrow result : Fallible ε s α) := by
  intro state
  cases result <;> exact Std.Refl.refl state

theorem follows_orPanic (value : Option α) : Follows order (orPanic value : Fallible ε s α) := by
  intro state
  cases value with
  | none => trivial
  | some value => exact Std.Refl.refl state

theorem follows_debugAssert (condition : Prop) [Decidable condition] :
    Follows order (debugAssert condition : Fallible ε s Unit) := by
  intro state
  rw [wp_debugAssert]
  exact ⟨fun _ => Std.Refl.refl state, fun _ => trivial⟩

variable [IsTrans s order]

omit [Std.Refl order] in
theorem follows_bind {call : Fallible ε s β} {next : β → Fallible ε s α}
    (first : Follows order call) (second : ∀ value, Follows order (next value)) :
    Follows order (call >>= next) := by
  intro state
  rw [wp_bind]
  refine wp_mono (first state) fun result middle moved => ?_
  cases result with
  | error error => exact moved
  | ok value =>
    exact wp_mono (second value middle) fun _ _ movedAgain =>
      IsTrans.trans _ _ _ moved movedAgain

theorem follows_read {next : s → Fallible ε s α} (second : ∀ state, Follows order (next state)) :
    Follows order (get >>= next) :=
  follows_bind follows_get second

theorem follows_each (elements : List β)
    (pass : ∀ element ∈ elements, Follows order (action element)) :
    Follows order (each action elements) := by
  intro start
  refine wp_each elements (fun element mem state soFar => ?_) (Std.Refl.refl start)
  exact wp_mono (pass element mem state) fun _ _ moved => IsTrans.trans _ _ _ soFar moved

end Follows

end Fallible

end Esker
