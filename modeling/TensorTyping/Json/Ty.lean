import TensorTyping.Globals
import TensorTyping.Json.Dim

namespace TensorTyping

namespace TypeCode

/-- The written names of the codes. -/
def jsonNames : List (String × TypeCode) :=
  [("Int", int), ("UInt", uint), ("Float", float), ("BFloat", bfloat), ("Handle", handle)]

/-- The written name. -/
def toJson : TypeCode → Json
  | int => .string "Int"
  | uint => .string "UInt"
  | float => .string "Float"
  | bfloat => .string "BFloat"
  | handle => .string "Handle"

end TypeCode

namespace DataType

/-- A record of code, bits and lanes. -/
def toJson (d : DataType) : Json :=
  .object [("code", d.code.toJson), ("bits", .nat d.bits.toNat), ("lanes", .nat d.lanes.toNat)]

/-- Reads an element type. -/
def ofJson? (j : Json) : Option DataType := do
  match ← j.fields? ["code", "bits", "lanes"] with
  | [code, bits, lanes] =>
    some ⟨← code.name? TypeCode.jsonNames, ← bits.uint8?, ← lanes.uint16?⟩
  | _ => none

end DataType

namespace TensorType

/-- A record of shape and element type. -/
def toJson (t : TensorType) : Json :=
  .object [("shape", .array (t.shape.map Dim.toJson)), ("dtype", t.dtype.toJson)]

/-- Reads a tensor type. -/
def ofJson? (j : Json) : Option TensorType := do
  match ← j.fields? ["shape", "dtype"] with
  | [shape, dtype] => some ⟨← shape.list? Dim.ofJson?, ← DataType.ofJson? dtype⟩
  | _ => none

end TensorType

namespace Kind

/-- The written names of the kinds. -/
def jsonNames : List (String × Kind) :=
  [("Type", type), ("ShapeVar", shapeVar), ("BaseType", baseType), ("Shape", shape),
    ("Constraint", constraint), ("AdtHandle", adtHandle), ("TypeData", typeData)]

/-- The written name, which is also the printed form. -/
def toJson (k : Kind) : Json := .string k.render

/-- Reads a kind. -/
def ofJson? (j : Json) : Option Kind := j.name? jsonNames

end Kind

namespace Placeholder

/-- A record of id and kind. -/
def toJson (p : Placeholder) : Json := .object [("id", .nat p.id.toNat), ("kind", p.kind.toJson)]

/-- Reads a placeholder. -/
def ofJson? (j : Json) : Option Placeholder := do
  match ← j.fields? ["id", "kind"] with
  | [id, kind] => some ⟨← id.uint32?, ← Kind.ofJson? kind⟩
  | _ => none

end Placeholder

namespace TypeVar

/-- A record of id, name and kind. -/
def toJson (v : TypeVar) : Json :=
  .object [("id", .nat v.id.toNat), ("name", .string v.name), ("kind", v.kind.toJson)]

/-- Reads a type parameter. -/
def ofJson? (j : Json) : Option TypeVar := do
  match ← j.fields? ["id", "name", "kind"] with
  | [id, name, kind] => some ⟨← id.uint32?, ← name.string?, ← Kind.ofJson? kind⟩
  | _ => none

end TypeVar

namespace GlobalVar

/-- A record of name and kind. -/
def toJson (g : GlobalVar) : Json := .object [("name", .string g.name), ("kind", g.kind.toJson)]

/-- Reads the name of a definition. -/
def ofJson? (j : Json) : Option GlobalVar := do
  match ← j.fields? ["name", "kind"] with
  | [name, kind] => some ⟨← name.string?, ← Kind.ofJson? kind⟩
  | _ => none

end GlobalVar

namespace Ty

mutual

/-- One form for each kind of type, around the record of its parts. -/
def toJson : Ty → Json
  | tensor t => .form "Tensor" t.toJson
  | tuple fields => .form "Tuple" (.object [("fields", .array (allToJson fields))])
  | ref value => .form "Ref" (.object [("value", value.toJson)])
  | call callee args =>
    .form "Call" (.object [("func", callee.toJson), ("args", .array (allToJson args))])
  | hole p => .form "Incomplete" p.toJson
  | func params result typeParams =>
    .form "Func" (.object [
      ("arg_types", .array (allToJson params)),
      ("ret_type", result.toJson),
      ("type_params", .array (typeParams.map TypeVar.toJson))])
  | var v => .form "Var" v.toJson
  | global g => .form "GlobalVar" g.toJson

/-- The forms of a list of types. -/
def allToJson : List Ty → List Json
  | [] => []
  | t :: ts => t.toJson :: allToJson ts

end

mutual

/-- Reads a type. -/
def ofJson? (j : Json) : Option Ty :=
  match j with
  | .object [("Tensor", t)] => (TensorType.ofJson? t).map tensor
  | .object [("Tuple", parts)] =>
    match _parts : parts.fields? ["fields"] with
    | some [.array fields] => (allOfJson? fields).map tuple
    | _ => none
  | .object [("Ref", parts)] =>
    match _parts : parts.fields? ["value"] with
    | some [value] => (ofJson? value).map ref
    | _ => none
  | .object [("Call", parts)] =>
    match _parts : parts.fields? ["func", "args"] with
    | some [callee, .array args] => do some (call (← ofJson? callee) (← allOfJson? args))
    | _ => none
  | .object [("Incomplete", p)] => (Placeholder.ofJson? p).map hole
  | .object [("Func", parts)] =>
    match _parts : parts.fields? ["arg_types", "ret_type", "type_params"] with
    | some [.array params, result, typeParams] => do
      some (func (← allOfJson? params) (← ofJson? result) (← typeParams.list? TypeVar.ofJson?))
    | _ => none
  | .object [("Var", v)] => (TypeVar.ofJson? v).map var
  | .object [("GlobalVar", g)] => (GlobalVar.ofJson? g).map global
  | _ => none
termination_by sizeOf j
decreasing_by
  all_goals
    simp only [Json.object.sizeOf_spec, List.cons.sizeOf_spec, List.nil.sizeOf_spec,
      Prod.mk.sizeOf_spec]
    have hsmaller := fun x => @Json.sizeOf_lt_of_mem_fields? _ _ x _ _parts
    simp only [List.mem_cons, List.not_mem_nil, or_false, forall_eq_or_imp, forall_eq,
      Json.array.sizeOf_spec] at hsmaller
    omega

/-- Reads a list of types. -/
def allOfJson? (js : List Json) : Option (List Ty) :=
  match js with
  | [] => some []
  | j :: js => do some ((← ofJson? j) :: (← allOfJson? js))
termination_by sizeOf js

end

end Ty

namespace Constructor

/-- A record of name, fields and tag. -/
def toJson (c : Constructor) : Json :=
  .object [("name", .string c.name), ("fields", .array (c.fields.map Ty.toJson)),
    ("tag", .nat c.tag.toNat)]

/-- Reads a constructor. -/
def ofJson? (j : Json) : Option Constructor := do
  match ← j.fields? ["name", "fields", "tag"] with
  | [name, fields, tag] => some ⟨← name.string?, ← fields.list? Ty.ofJson?, ← tag.uint32?⟩
  | _ => none

end Constructor

namespace TypeDef

/-- A record of header, parameters and constructors. -/
def toJson (d : TypeDef) : Json :=
  .object [("header", d.header.toJson), ("type_vars", .array (d.params.map TypeVar.toJson)),
    ("constructors", .array (d.constructors.map Constructor.toJson))]

/-- Reads the definition of a data type. -/
def ofJson? (j : Json) : Option TypeDef := do
  match ← j.fields? ["header", "type_vars", "constructors"] with
  | [header, params, constructors] =>
    some ⟨← GlobalVar.ofJson? header, ← params.list? TypeVar.ofJson?,
      ← constructors.list? Constructor.ofJson?⟩
  | _ => none

end TypeDef

namespace Signature

/-- The record of a function type. -/
def toJson (s : Signature) : Json :=
  .object [("arg_types", .array (s.params.map Ty.toJson)), ("ret_type", s.result.toJson),
    ("type_params", .array (s.typeParams.map TypeVar.toJson))]

/-- Reads a signature. -/
def ofJson? (j : Json) : Option Signature := do
  match ← j.fields? ["arg_types", "ret_type", "type_params"] with
  | [params, result, typeParams] =>
    some ⟨← params.list? Ty.ofJson?, ← Ty.ofJson? result, ← typeParams.list? TypeVar.ofJson?⟩
  | _ => none

end Signature

end TensorTyping
