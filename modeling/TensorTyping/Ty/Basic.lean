import TensorTyping.TensorType

namespace TensorTyping

/-- What a variable or placeholder may stand for, in sorting order. -/
inductive Kind where
  | type
  | shapeVar
  | baseType
  | shape
  | constraint
  | adtHandle
  | typeData
  deriving DecidableEq

namespace Kind

instance : Ord Kind where
  compare a b := compare a.ctorIdx b.ctorIdx

/-- The printed form. -/
def render : Kind → String
  | type => "Type"
  | shapeVar => "ShapeVar"
  | baseType => "BaseType"
  | shape => "Shape"
  | constraint => "Constraint"
  | adtHandle => "AdtHandle"
  | typeData => "TypeData"

instance : ToString Kind := ⟨render⟩

end Kind

/-- A type still to be found. Placeholders with one id are one unknown, whatever kind an occurrence
    was written with. -/
structure Placeholder where
  id : UInt32
  kind : Kind
  deriving DecidableEq

/-- The printed form of a placeholder. -/
def Placeholder.render (p : Placeholder) : String := "?" ++ toString p.id.toNat

/-- A type parameter. -/
structure TypeVar where
  id : UInt32
  name : String
  kind : Kind
  deriving DecidableEq

/-- The name of a definition. The kind is not part of its identity. -/
structure GlobalVar where
  name : String
  kind : Kind
  deriving DecidableEq

/-- A type. Variables stand for themselves; placeholders are what a typing session replaces. -/
inductive Ty where
  | tensor (t : TensorType)
  | tuple (fields : List Ty)
  | ref (value : Ty)
  | call (callee : Ty) (args : List Ty)
  | hole (p : Placeholder)
  | func (params : List Ty) (result : Ty) (typeParams : List TypeVar)
  | var (v : TypeVar)
  | global (g : GlobalVar)

namespace Ty

/-- The tuple without fields. -/
def unit : Ty := tuple []

/-- A tensor without dimensions. -/
def scalar (dtype : DataType) : Ty := tensor (.scalar dtype)

/-- The tensor of a type that is one. -/
def tensor? : Ty → Option TensorType
  | tensor t => some t
  | _ => none

/-- The fields of a type that is a tuple. -/
def fields? : Ty → Option (List Ty)
  | tuple fields => some fields
  | _ => none

/-- The placeholder of a type that is one. -/
def hole? : Ty → Option Placeholder
  | hole p => some p
  | _ => none

/-- Induction over types, with a hypothesis for every member of a list of parts. -/
@[elab_as_elim]
theorem induction {motive : Ty → Prop} (tensor : ∀ t, motive (tensor t))
    (tuple : ∀ fields, (∀ t ∈ fields, motive t) → motive (tuple fields))
    (ref : ∀ value, motive value → motive (ref value))
    (call : ∀ callee args, motive callee → (∀ t ∈ args, motive t) → motive (call callee args))
    (hole : ∀ p, motive (hole p))
    (func : ∀ params result typeParams, (∀ t ∈ params, motive t) → motive result →
      motive (func params result typeParams))
    (var : ∀ v, motive (var v)) (global : ∀ g, motive (global g)) (t : Ty) : motive t := by
  refine @Ty.rec motive (fun ts => ∀ t ∈ ts, motive t) tensor tuple ref call hole
    (fun ps r tps hps hr => func ps r tps hps hr) var global ?_ ?_ t
  · simp
  · intro head tail hhead htail
    simpa using ⟨hhead, htail⟩

mutual

/-- The printed form. -/
def render : Ty → String
  | tensor t => t.render
  | tuple fields =>
    "(" ++ Text.commaSeparated (renderAll fields) ++
      (if fields.length = 1 then ",)" else ")")
  | ref value => "ref(" ++ value.render ++ ")"
  | call callee args => callee.render ++ "[" ++ Text.commaSeparated (renderAll args) ++ "]"
  | hole p => p.render
  | func params result typeParams =>
    "fn" ++
      (if typeParams.isEmpty then ""
       else "<" ++ Text.commaSeparated (typeParams.map TypeVar.name) ++ ">") ++
      "(" ++ Text.commaSeparated (renderAll params) ++ ") -> " ++ result.render
  | var v => v.name
  | global g => g.name

/-- The printed forms of a list of types. -/
def renderAll : List Ty → List String
  | [] => []
  | t :: ts => t.render :: renderAll ts

end

instance : ToString Ty := ⟨render⟩

end Ty

end TensorTyping
