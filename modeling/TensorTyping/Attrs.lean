import TensorTyping.DataType
import TensorTyping.Dim.Basic
import TensorTyping.Table

namespace TensorTyping

/-- The value of an attribute. -/
inductive AttrValue where
  | int (n : Word)
  | bool (b : Bool)
  | str (s : String)
  | dtype (d : DataType)
  | ints (ns : List Word)
  | dims (ds : List Dim)
  deriving DecidableEq

/-- The attributes of an operator. -/
abbrev Attrs := Table AttrValue

namespace Attrs

/-- An attribute that is an integer. -/
def int? (a : Attrs) (key : String) : Option Word :=
  match a.find? key with
  | some (.int n) => some n
  | _ => none

/-- An attribute that is a truth value. -/
def bool? (a : Attrs) (key : String) : Option Bool :=
  match a.find? key with
  | some (.bool b) => some b
  | _ => none

/-- An attribute that is a text. -/
def str? (a : Attrs) (key : String) : Option String :=
  match a.find? key with
  | some (.str s) => some s
  | _ => none

/-- An attribute that is an element type. -/
def dtype? (a : Attrs) (key : String) : Option DataType :=
  match a.find? key with
  | some (.dtype d) => some d
  | _ => none

/-- An attribute that is a list of integers. -/
def ints? (a : Attrs) (key : String) : Option (List Word) :=
  match a.find? key with
  | some (.ints ns) => some ns
  | _ => none

/-- An attribute that is a list of dimensions; integers count as literal dimensions. -/
def dims? (a : Attrs) (key : String) : Option (List Dim) :=
  match a.find? key with
  | some (.dims ds) => some ds
  | some (.ints ns) => some (ns.map .const)
  | _ => none

/-- The same keys with the same values, in any order. -/
def same (a b : Attrs) : Bool :=
  a.entries.length = b.entries.length && a.entries.all fun e => b.find? e.1 = some e.2

/-- Attributes entered one after another. -/
def ofList (entries : List (String × AttrValue)) : Attrs :=
  entries.foldl (fun a e => a.insert e.1 e.2) .empty

end Attrs

end TensorTyping
