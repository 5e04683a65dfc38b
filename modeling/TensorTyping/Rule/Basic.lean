import TensorTyping.Attrs
import TensorTyping.Globals
import TensorTyping.Rule.Resolution
import TensorTyping.Text.Quoted

namespace TensorTyping

/-- What a rule is given: the argument types, inputs first, with everything known put in, and what
    it may look up. -/
structure Query where
  args : List Ty
  numInputs : Nat
  attrs : Attrs
  globals : Globals

/-- The inputs and the output of a use with exactly one output. -/
def Query.singleOutput? (q : Query) : Option (List Ty × Ty) :=
  match q.args.drop q.numInputs with
  | [out] => some (q.args.take q.numInputs, out)
  | _ => none

/-- A named typing rule. -/
structure Rule where
  name : String
  resolve : Query → Resolution

/-- The printed form of a rule, with its name as a quoted text. -/
def Rule.render (r : Rule) : String := "TypeRelationFn(" ++ Text.quote r.name ++ ")"

/-- Why a relation cannot be made. -/
inductive RelationError where
  | tooManyInputs (rule : String) (inputs args : Nat)
  | unknownRule (rule : String)
  deriving DecidableEq

/-- The wording of an error. -/
def RelationError.message : RelationError → String
  | tooManyInputs rule inputs args =>
    "relation `" ++ rule ++ "` declares " ++ toString inputs ++ " inputs but has only " ++
      toString args ++ " arguments"
  | unknownRule rule => "unknown relation `" ++ rule ++ "`"

/-- One use of a rule: the inputs, then the outputs, and where in the source it stands. -/
structure Relation where
  rule : Rule
  args : List Ty
  numInputs : Nat
  attrs : Attrs
  span : Span
  numInputs_le : numInputs ≤ args.length

namespace Relation

/-- A use of a rule; it cannot have more inputs than arguments. -/
def make (rule : Rule) (args : List Ty) (numInputs : Nat) (attrs : Attrs) (span : Span) :
    Except RelationError Relation :=
  if h : numInputs ≤ args.length then .ok ⟨rule, args, numInputs, attrs, span, h⟩
  else .error (.tooManyInputs rule.name numInputs args.length)

/-- The input types. -/
def inputs (r : Relation) : List Ty := r.args.take r.numInputs

/-- The output types. -/
def outputs (r : Relation) : List Ty := r.args.drop r.numInputs

/-- The printed form: the rule's name applied to all arguments. -/
def render (r : Relation) : String :=
  r.rule.name ++ "(" ++ Text.commaSeparated (r.args.map Ty.render) ++ ")"

end Relation

/-- Rules by name. -/
abbrev Registry := Table Rule

namespace Registry

/-- Adds a rule under its name; a rule of the same name is replaced. -/
def register (registry : Registry) (rule : Rule) : Registry := registry.insert rule.name rule

/-- Adds several rules in order. -/
def registerAll (registry : Registry) (rules : List Rule) : Registry := rules.foldl register registry

/-- A use of the rule of a name. -/
def relation (registry : Registry) (name : String) (args : List Ty) (numInputs : Nat)
    (attrs : Attrs) (span : Span) : Except RelationError Relation :=
  match registry.find? name with
  | none => .error (.unknownRule name)
  | some rule => Relation.make rule args numInputs attrs span

end Registry

end TensorTyping
