import TensorTyping.DataType
import TensorTyping.Dim.Fold
import TensorTyping.Dim.Order
import TensorTyping.Text.Listing

namespace TensorTyping

/-- The type of a tensor. -/
structure TensorType where
  shape : List Dim
  dtype : DataType
  deriving DecidableEq

namespace TensorType

instance : Ord TensorType where
  compare a b := (compare a.shape b.shape).then (compare a.dtype b.dtype)

/-- A tensor without dimensions. -/
def scalar (dtype : DataType) : TensorType := ⟨[], dtype⟩

/-- A tensor with literal dimensions. -/
def ofWords (dims : List Word) (dtype : DataType) : TensorType := ⟨dims.map .const, dtype⟩

/-- The number of dimensions. -/
def rank (t : TensorType) : Nat := t.shape.length

/-- Whether there are no dimensions. -/
def isScalar (t : TensorType) : Bool := t.shape.isEmpty

/-- The number of elements. -/
def size (t : TensorType) : Dim := Dim.product t.shape

/-- Whether all dimensions are literals. -/
def isStatic (t : TensorType) : Bool := t.shape.all (·.const?.isSome)

/-- The printed form. -/
def render (t : TensorType) : String :=
  "Tensor[(" ++ Text.commaSeparated (t.shape.map Dim.render) ++ "), " ++ t.dtype.render ++ "]"

instance : ToString TensorType := ⟨render⟩

end TensorType

end TensorTyping
