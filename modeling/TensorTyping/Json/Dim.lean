import TensorTyping.Cond
import TensorTyping.Json.Basic

namespace TensorTyping

namespace SizeVar

/-- A record of id and name. -/
def toJson (v : SizeVar) : Json :=
  .object [("id", .nat v.id.toNat), ("name", .string v.name)]

/-- Reads a size variable. -/
def ofJson? (j : Json) : Option SizeVar := do
  match ← j.fields? ["id", "name"] with
  | [id, name] => some ⟨← id.uint32?, ← name.string?⟩
  | _ => none

end SizeVar

namespace DimOp

/-- The written names of the operators. -/
def jsonNames : List (String × DimOp) :=
  [("Add", add), ("Sub", sub), ("Mul", mul), ("FloorDiv", floorDiv), ("FloorMod", floorMod),
    ("Min", min), ("Max", max)]

/-- The written name. -/
def jsonName : DimOp → String
  | add => "Add"
  | sub => "Sub"
  | mul => "Mul"
  | floorDiv => "FloorDiv"
  | floorMod => "FloorMod"
  | min => "Min"
  | max => "Max"

end DimOp

namespace Dim

/-- One form for each kind of dimension and one for each operator. -/
def toJson : Dim → Json
  | const n => .form "Const" (.int n.toInt)
  | var v => .form "Var" v.toJson
  | any => .string "Any"
  | binary op a b => .form op.jsonName (.array [a.toJson, b.toJson])

/-- Reads a dimension. -/
def ofJson? : Json → Option Dim
  | .string "Any" | .object [("Any", .null)] => some any
  | .object [("Const", n)] => n.word?.map const
  | .object [("Var", v)] => (SizeVar.ofJson? v).map var
  | .object [(name, .array [a, b])] => do
    some (binary (← DimOp.jsonNames.lookup name) (← ofJson? a) (← ofJson? b))
  | _ => none

end Dim

namespace Comparison

/-- The written names of the comparisons. -/
def jsonNames : List (String × Comparison) :=
  [("Eq", eq), ("Ne", ne), ("Lt", lt), ("Le", le), ("Gt", gt), ("Ge", ge)]

/-- The written name. -/
def toJson : Comparison → Json
  | eq => .string "Eq"
  | ne => .string "Ne"
  | lt => .string "Lt"
  | le => .string "Le"
  | gt => .string "Gt"
  | ge => .string "Ge"

/-- Reads a comparison. -/
def ofJson? (j : Json) : Option Comparison := j.name? jsonNames

end Comparison

namespace Cond

/-- One form for each kind of condition. -/
def toJson : Cond → Json
  | bool b => .form "Bool" (.bool b)
  | cmp op lhs rhs => .form "Cmp" (.array [op.toJson, lhs.toJson, rhs.toJson])
  | and a b => .form "And" (.array [a.toJson, b.toJson])
  | or a b => .form "Or" (.array [a.toJson, b.toJson])
  | not a => .form "Not" a.toJson

/-- Reads a condition. -/
def ofJson? : Json → Option Cond
  | .object [("Bool", b)] => b.bool?.map bool
  | .object [("Cmp", .array [op, lhs, rhs])] => do
    some (cmp (← Comparison.ofJson? op) (← Dim.ofJson? lhs) (← Dim.ofJson? rhs))
  | .object [("And", .array [a, b])] => do some (and (← ofJson? a) (← ofJson? b))
  | .object [("Or", .array [a, b])] => do some (or (← ofJson? a) (← ofJson? b))
  | .object [("Not", a)] => (ofJson? a).map not
  | _ => none

end Cond

end TensorTyping
