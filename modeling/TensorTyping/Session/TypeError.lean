import TensorTyping.Cond
import TensorTyping.Diagnostic.Basic
import TensorTyping.Session.Solution
import TensorTyping.Ty.Basic

namespace TensorTyping

/-- What two types of the same form differ in. -/
inductive Difference where
  | tupleArity (m n : Nat)
  | typeArguments (m n : Nat)
  | parameters (m n : Nat)
  | typeParameters
  | elementType (d e : DataType)
  | rank (m n : Nat)
  deriving DecidableEq

/-- The wording of a difference. -/
def Difference.render : Difference → String
  | tupleArity m n => s!"tuple arity {m} vs {n}"
  | typeArguments m n => s!"{m} vs {n} type arguments"
  | parameters m n => s!"{m} vs {n} parameters"
  | typeParameters => "type parameters differ"
  | elementType d e => "element type `" ++ d.render ++ "` vs `" ++ e.render ++ "`"
  | rank m n => s!"rank {m} vs {n}"

/-- Why a session failed. -/
inductive TypeError where
  | mismatch (expected found : Ty) (difference : Option Difference) (span : Span)
  /-- A placeholder would have to stand for a type that it occurs in. -/
  | occurs (p : Placeholder) (t : Ty) (span : Span)
  | kindMismatch (expected found : Kind) (span : Span)
  | assertionFailed (cond : Cond) (span : Span)
  /-- All relations are resolved, but nothing determines these placeholders. -/
  | unresolved (ps : List Placeholder)
  /-- A relation never was resolved, because nothing changed any more or too much did. -/
  | stuck (rule : String) (args : List Ty) (diverged : Bool) (span : Span)
  | dimensionMismatch (axis : Nat) (expected found : Dim) (span : Span)

namespace TypeError

/-- The kind of an error, as a word. -/
def name : TypeError → String
  | mismatch .. => "Mismatch"
  | occurs .. => "OccursCheck"
  | kindMismatch .. => "KindMismatch"
  | assertionFailed .. => "AssertionFailed"
  | unresolved _ => "Unresolved"
  | stuck .. => "StuckRelation"
  | dimensionMismatch .. => "DimensionMismatch"

/-- The code of an error. -/
def code : TypeError → String
  | mismatch .. => "T0001"
  | occurs .. => "T0002"
  | kindMismatch .. => "T0003"
  | assertionFailed .. => "T0004"
  | unresolved _ => "T0005"
  | stuck .. => "T0006"
  | dimensionMismatch .. => "T0007"

/-- The location of an error; undetermined placeholders have none. -/
def span? : TypeError → Option Span
  | mismatch _ _ _ s | occurs _ _ s | kindMismatch _ _ s | assertionFailed _ s | stuck _ _ _ s
  | dimensionMismatch _ _ _ s => some s
  | unresolved _ => none

/-- A text between backticks. -/
def ticked (s : String) : String := "`" ++ s ++ "`"

/-- The wording of what was expected and what was found instead. -/
def expectedFound (expected found : String) : String :=
  "expected " ++ ticked expected ++ ", found " ++ ticked found

/-- The wording of an error. -/
def message : TypeError → String
  | mismatch expected found _ _ =>
    "type mismatch: " ++ expectedFound expected.render found.render
  | occurs p t _ => "infinite type: " ++ ticked p.render ++ " occurs in " ++ ticked t.render
  | kindMismatch expected found _ =>
    "kind mismatch: " ++ expectedFound expected.render found.render
  | assertionFailed cond _ => "assertion failed: " ++ cond.render
  | unresolved ps =>
    "cannot infer types for " ++ Text.commaSeparated (ps.map (ticked ·.render))
  | stuck rule _ _ _ => "type relation " ++ ticked rule ++ " could not be resolved"
  | dimensionMismatch axis expected found _ =>
    s!"dimension mismatch at axis {axis}: " ++ expectedFound expected.render found.render

/-- What is said at the location of an error. -/
def labelText : TypeError → String
  | mismatch .. => "type mismatch here"
  | occurs .. => "infinite type detected"
  | kindMismatch .. => "kind mismatch"
  | assertionFailed .. => "shape check failed here"
  | unresolved _ => ""
  | stuck .. => "in this operator call"
  | dimensionMismatch .. => "dimension mismatch here"

/-- The notes that follow an error. -/
def notes : TypeError → List String
  | mismatch _ _ difference _ => difference.toList.map ("the types differ in " ++ ·.render)
  | occurs .. => ["this would create an infinitely recursive type"]
  | unresolved _ => ["add a relation or annotation that determines these types"]
  | stuck _ args diverged _ =>
    ("arguments: (" ++ Text.commaSeparated (args.map Ty.render) ++ ")") ::
      if diverged then ["relation solving did not converge"] else []
  | kindMismatch .. | assertionFailed .. | dimensionMismatch .. => []

/-- An error as a diagnostic in a file. There is no label where there is no source text. -/
def toDiagnostic (file : UInt32) (e : TypeError) : Diagnostic where
  severity := .error
  message := e.message
  code := some e.code
  labels := (e.span?.toList.filter (!·.isDummy)).map fun span => ⟨⟨file, span⟩, e.labelText⟩
  notes := e.notes

end TypeError

/-- A condition that was not decided, as a warning. -/
def deferredWarning (cond : Cond) : Diagnostic where
  severity := .warning
  message := "shape condition `" ++ cond.render ++ "` could not be checked"
  code := some "W0001"
  labels := []
  notes := ["it must hold for the shapes seen at run time"]

/-- The diagnostics of a finished session. -/
def diagnosticsOf (file : UInt32) : Except (List TypeError) Solution → List Diagnostic
  | .ok solution => solution.deferred.map deferredWarning
  | .error errors => errors.map (TypeError.toDiagnostic file)

end TensorTyping
