import TensorTyping.Table
import TensorTyping.Ty.Basic

namespace TensorTyping

/-- A constructor of a data type. -/
structure Constructor where
  name : String
  fields : List Ty
  tag : UInt32

/-- The definition of an algebraic data type. -/
structure TypeDef where
  header : GlobalVar
  params : List TypeVar
  constructors : List Constructor

/-- The type of a function, with the type parameters it is generic in. -/
structure Signature where
  params : List Ty
  result : Ty
  typeParams : List TypeVar

/-- The definitions in scope. -/
structure Globals where
  types : Table TypeDef
  functions : Table Signature

namespace TypeDef

/-- The number of type arguments that an application takes. -/
def arity (d : TypeDef) : Nat := d.params.length

/-- The first constructor of a name. -/
def constructor? (d : TypeDef) (name : String) : Option Constructor :=
  d.constructors.find? (·.name = name)

end TypeDef

/-- A signature as a type. -/
def Signature.toTy (s : Signature) : Ty := .func s.params s.result s.typeParams

namespace Globals

/-- No definitions. -/
def empty : Globals := ⟨.empty, .empty⟩

instance : Inhabited Globals := ⟨empty⟩

/-- Adds a data type; a definition of the same name is replaced. -/
def addType (g : Globals) (d : TypeDef) : Globals := { g with types := g.types.insert d.header.name d }

/-- Adds a function; a definition of the same name is replaced. -/
def addFunction (g : Globals) (name : String) (s : Signature) : Globals :=
  { g with functions := g.functions.insert name s }

/-- The data type of a name. -/
def type? (g : Globals) (name : String) : Option TypeDef := g.types.find? name

/-- The data type that a variable names; its kind is not looked at. -/
def typeOf? (g : Globals) (v : GlobalVar) : Option TypeDef := g.type? v.name

/-- The function of a name. -/
def function? (g : Globals) (name : String) : Option Signature := g.functions.find? name

end Globals

end TensorTyping
