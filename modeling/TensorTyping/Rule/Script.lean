import TensorTyping.Rule.Basic
import TensorTyping.Ty.Placeholders

namespace TensorTyping

/-- A type that an action refers to. -/
inductive Operand where
  | arg (i : Nat)
  | refArg (i : Nat)
  | tupleArgs (is : List Nat)
  | ty (t : Ty)

/-- A step of a script. -/
inductive Action where
  /-- Stops if an argument is a placeholder. -/
  | wait (i : Nat)
  /-- Stops if a placeholder occurs in an argument. -/
  | waitComplete (i : Nat)
  | assign (dst src : Operand)
  /-- Stops if a condition cannot hold. -/
  | assert (cond : Cond)
  /-- Asks for a condition and goes on whatever the answer. -/
  | check (cond : Cond)
  | locate (span : Span)
  | finish (resolved : Bool)
  /-- Declares the first placeholder of an argument equal to a tuple of the next one. -/
  | grow (i : Nat)

/-- The type that an operand refers to. -/
def Operand.ty? (args : List Ty) : Operand → Option Ty
  | arg i => args[i]?
  | refArg i => (args[i]?).map .ref
  | tupleArgs is => (is.mapM fun i => args[i]?).map .tuple
  | ty t => some t

namespace Action

/-- What a script does with some arguments. It ends unresolved at an action whose position does not
    exist, and resolved after its last action. -/
def resolve (args : List Ty) : List Action → Resolution
  | [] => .done true
  | wait i :: rest =>
    match args[i]? with
    | some t => if t.hole?.isSome then .done false else resolve args rest
    | none => .done false
  | waitComplete i :: rest =>
    match args[i]? with
    | some t => if t.isComplete then resolve args rest else .done false
    | none => .done false
  | assign dst src :: rest =>
    match dst.ty? args, src.ty? args with
    | some d, some s => .assign d s (resolve args rest)
    | _, _ => .done false
  | assert cond :: rest => .require cond (resolve args rest)
  | check cond :: rest => .assert cond fun _ => resolve args rest
  | locate span :: rest => .locate span (resolve args rest)
  | finish resolved :: _ => .done resolved
  | grow i :: rest =>
    match args[i]? with
    | some t =>
      match t.holes with
      | p :: _ => .assign (.hole p) (.tuple [.hole ⟨p.id + 1, .type⟩]) (resolve args rest)
      | [] => resolve args rest
    | none => .done false

end Action

/-- The rule that a script describes. -/
def Rule.ofScript (name : String) (script : List Action) : Rule :=
  ⟨name, fun q => Action.resolve q.args script⟩

end TensorTyping
