import TensorTyping.Cond
import TensorTyping.Diagnostic.Span
import TensorTyping.Ty.Basic

namespace TensorTyping

/-- The requests that a rule makes, up to its verdict on whether it is resolved. A rule sees nothing
    of the session but the answers to its questions, so this tree is all that it can do, and whoever
    runs the tree decides what the requests mean. -/
inductive Resolution where
  | done (resolved : Bool)
  /-- Declares two types equal. -/
  | assign (dst src : Ty) (next : Resolution)
  /-- Asks whether a condition may hold. -/
  | assert (cond : Cond) (next : Bool → Resolution)
  /-- Sets the location of the failures that follow. -/
  | locate (span : Span) (next : Resolution)

/-- A request that was made, with its answer. -/
inductive Report where
  | assigned (dst src : Ty)
  | asserted (cond : Cond) (answer : Bool)
  | located (span : Span)

/-- The printed form. -/
def Report.render : Report → String
  | assigned dst src => "assign " ++ dst.render ++ " := " ++ src.render
  | asserted cond answer => "assert " ++ cond.render ++ " -> " ++ toString answer
  | located span => "location " ++ span.render

/-- What carries out requests, over a state of its own. -/
structure Reporter (σ : Type) where
  assign : Ty → Ty → σ → σ
  assert : Cond → σ → Bool × σ
  locate : Span → σ → σ

/-- How carrying out a resolution ended. -/
structure Outcome (σ : Type) where
  state : σ
  /-- All requests, in order. -/
  reports : List Report
  resolved : Bool

namespace Resolution

variable {σ : Type}

/-- Carries out a resolution, request by request. -/
def run (r : Reporter σ) : Resolution → σ → Outcome σ
  | done resolved, s => ⟨s, [], resolved⟩
  | assign dst src next, s =>
    let o := next.run r (r.assign dst src s)
    { o with reports := .assigned dst src :: o.reports }
  | assert cond next, s =>
    let (answer, s') := r.assert cond s
    let o := (next answer).run r s'
    { o with reports := .asserted cond answer :: o.reports }
  | locate span next, s =>
    let o := next.run r (r.locate span s)
    { o with reports := .located span :: o.reports }

/-- Carries out a resolution without a session: questions are answered by a function, and the other
    requests have no effect. -/
def rehearse (answer : Cond → Bool) (r : Resolution) : Outcome Unit :=
  r.run ⟨fun _ _ s => s, fun c s => (answer c, s), fun _ s => s⟩ ()

/-- Goes on only if a condition may hold; otherwise the rule stays unresolved. -/
def require (cond : Cond) (next : Resolution) : Resolution :=
  assert cond fun holds => if holds then next else done false

/-- Goes on only if all conditions may hold, asking for them in order. -/
def requireAll (conds : List Cond) (next : Resolution) : Resolution := conds.foldr require next

/-- Declares two types equal as the last request of a resolved rule. -/
def conclude (dst src : Ty) : Resolution := assign dst src (done true)

end Resolution

end TensorTyping
