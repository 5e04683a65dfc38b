import TensorTyping.Proofs.Ty.Ground
import TensorTyping.Ranges
import TensorTyping.Rule.Basic

namespace TensorTyping

open Ty

namespace Resolution

/-- All requests are met, and the rule is resolved in the end: types that are
declared equal stand in a relation, and no condition is known not to hold. -/
def Meets (known : Ranges) (A : Ty → Ty → Prop) : Resolution → Prop
  | done resolved => resolved = true
  | assign dst src next => A dst src ∧ next.Meets known A
  | assert cond next => known.prove cond ≠ .refuted ∧ (next true).Meets known A
  | locate _ next => next.Meets known A

/-- A choice of types meets all requests, as far as conditions are known, and the
rule is resolved in the end. -/
def Accepts (known : Ranges) (θ : Grounding) : Resolution → Prop
  | done resolved => resolved = true
  | assign dst src next => (dst.ground θ).Same (src.ground θ) ∧ next.Accepts known θ
  | assert cond next => known.prove cond ≠ .refuted ∧ (next true).Accepts known θ
  | locate _ next => next.Accepts known θ

/-- The conditions that are asked for if no request fails. -/
def conds : Resolution → List Cond
  | done _ => []
  | assign _ _ next => next.conds
  | assert cond next => cond :: (next true).conds
  | locate _ next => next.conds

/-- The types that are declared equal if no request fails. -/
def types : Resolution → List Ty
  | done _ => []
  | assign dst src next => dst :: src :: next.types
  | assert _ next => (next true).types
  | locate _ next => next.types

section request

variable {known : Ranges} {θ : Grounding} {cond : Cond} {next : Resolution} {dst src : Ty}

end request

end Resolution

/-- Two queries ask the same for a choice of types: their arguments come to the
same. -/
structure Query.Same (θ : Grounding) (q q' : Query) : Prop where
  args : List.Forall₂ (fun t u => (t.ground θ).Same (u.ground θ)) q.args q'.args
  numInputs : q'.numInputs = q.numInputs
  attrs : q'.attrs = q.attrs
  globals : q'.globals = q.globals

/-- Less is known of the form of one type than of another. -/
inductive Ty.Behind : Ty → Ty → Prop where
  | hole (p : Placeholder) {u : Ty} : u.hole? = none → Behind (.hole p) u
  | call (p : Placeholder) (ts us : List Ty) {g : Ty} :
    g.hole? = none → Behind (.call (.hole p) ts) (.call g us)

/-- Less is known of the form of some argument. -/
def Query.Behind (q q' : Query) : Prop := ∃ e ∈ q.args.zip q'.args, e.1.Behind e.2

/-- A resolution makes the same requests of some arguments as an accepted one, as
far as a choice of types can tell. -/
structure Resolution.Mirrors (known : Ranges) (θ : Grounding) (args : List Ty)
    (r r' : Resolution) : Prop where
  accepts : r'.Accepts known θ
  conds : r'.conds = r.conds
  occurrences : ∀ t ∈ r'.types, ∀ p ∈ t.occurrences,
    (∃ a ∈ args, p ∈ a.occurrences) ∨ ∃ u ∈ r.types, p ∈ u.occurrences
  dims : ∀ t ∈ r'.types, ∀ d ∈ t.dims, ∃ u ∈ r.types, d ∈ (u.ground θ).dims

namespace Resolution

variable {known : Ranges} {θ : Grounding} {args : List Ty} {r r' : Resolution}

variable {dst src dst' src' : Ty}

end Resolution

end TensorTyping
