import TensorTyping.Rule.Resolution

namespace TensorTyping

/-- The requests that a rule makes position by position, up to its verdict or to an access that is out of
range. -/
inductive Positional where
  | done (resolved : Bool)
  | outOfRange
  | assign (dst src : Ty) (next : Positional)
  | assert (cond : Cond) (next : Bool → Positional)
  | locate (span : Span) (next : Positional)

/-- The same end after one more request. -/
def Outcome.after {σ : Type} (report : Report) (o : Outcome σ) : Outcome σ :=
  { o with reports := report :: o.reports }

namespace Positional

variable {σ : Type}

/-- Carries out requests. There is no outcome if an access is out of range. -/
def run (r : Reporter σ) : Positional → σ → Option (Outcome σ)
  | done resolved, s => some ⟨s, [], resolved⟩
  | outOfRange, _ => none
  | assign dst src next, s => (next.run r (r.assign dst src s)).map (.after (.assigned dst src))
  | assert cond next, s =>
    let (answer, s') := r.assert cond s
    ((next answer).run r s').map (.after (.asserted cond answer))
  | locate span next, s => (next.run r (r.locate span s)).map (.after (.located span))

/-- Goes on only if a condition may hold. -/
def require (cond : Cond) (next : Positional) : Positional :=
  assert cond fun holds => if holds then next else done false

/-- Goes on only if all conditions may hold, asking for them in order. -/
def requireAll (conds : List Cond) (next : Positional) : Positional := conds.foldr require next

/-- Declares two types equal as the last request of a resolved rule. -/
def conclude (dst src : Ty) : Positional := assign dst src (done true)

section access

variable {α : Type} (xs : List α)

/-- The entry at a position. -/
def entry (i : Nat) (next : α → Positional) : Positional :=
  if h : i < xs.length then next xs[i] else outOfRange

/-- The entries before a position. -/
def upTo (n : Nat) (next : List α → Positional) : Positional :=
  if n ≤ xs.length then next (xs.take n) else outOfRange

/-- Puts another entry at a position. -/
def update (i : Nat) (x : α) (next : List α → Positional) : Positional :=
  if i < xs.length then next (xs.set i x) else outOfRange

end access

/-- What is left of a count when another one is taken away. -/
def minus (m n : Nat) (next : Nat → Positional) : Positional :=
  if n ≤ m then next (m - n) else outOfRange

end Positional

/-- A resolution accesses nothing by position. -/
def Resolution.positional : Resolution → Positional
  | done resolved => .done resolved
  | assign dst src next => .assign dst src next.positional
  | assert cond next => .assert cond fun answer => (next answer).positional
  | locate span next => .locate span next.positional

namespace Positional

open Resolution (positional)

/-- What accesses nothing is never out of range. -/
theorem run_positional {σ : Type} (reporter : Reporter σ) (r : Resolution) (s : σ) :
    r.positional.run reporter s = some (r.run reporter s) := by
  induction r generalizing s with
  | done resolved => rfl
  | assign dst src next ih => exact congrArg (Option.map (Outcome.after (.assigned dst src))) (ih _)
  | assert cond next ih => exact congrArg (Option.map (Outcome.after (.asserted cond _))) (ih _ _)
  | locate span next ih => exact congrArg (Option.map (Outcome.after (.located span))) (ih _)

theorem positional_require (cond : Cond) (next : Resolution) :
    (Resolution.require cond next).positional = require cond next.positional := by
  rw [Resolution.require, positional, require]
  congr 1
  funext answer
  cases answer <;> rfl

theorem positional_requireAll (conds : List Cond) (next : Resolution) :
    (Resolution.requireAll conds next).positional = requireAll conds next.positional := by
  induction conds with
  | nil => rfl
  | cons cond conds ih =>
    have hcons := positional_require cond (Resolution.requireAll conds next)
    rw [ih] at hcons
    exact hcons

section access

variable {α : Type} {xs : List α} {i m n : Nat} {x : α}

theorem entry_of_getElem? (h : xs[i]? = some x) (next : α → Positional) : entry xs i next = next x := by
  obtain ⟨hlt, rfl⟩ := List.getElem?_eq_some_iff.mp h
  rw [entry, dif_pos hlt]

theorem entry_cons_zero (x : α) (xs : List α) (next : α → Positional) :
    entry (x :: xs) 0 next = next x := rfl

theorem entry_last (xs : List α) (x : α) (next : α → Positional) :
    entry (xs ++ [x]) xs.length next = next x :=
  entry_of_getElem? List.getElem?_concat_length next

theorem upTo_last (xs : List α) (x : α) (next : List α → Positional) :
    upTo (xs ++ [x]) xs.length next = next xs := by
  rw [upTo, if_pos (by simp), List.take_left]

theorem update_of_lt (h : i < xs.length) (next : List α → Positional) :
    update xs i x next = next (xs.set i x) := by
  rw [update, if_pos h]

theorem minus_of_le (h : n ≤ m) (next : Nat → Positional) : minus m n next = next (m - n) := by
  rw [minus, if_pos h]

end access

end Positional

end TensorTyping
