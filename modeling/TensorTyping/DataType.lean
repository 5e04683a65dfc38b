import TensorTyping.Text.Blank
import TensorTyping.Text.Numeral

namespace TensorTyping

/-- What the bits of an element encode, in sorting order. -/
inductive TypeCode where
  | int
  | uint
  | float
  | bfloat
  | handle
  deriving DecidableEq

/-- The type of a tensor element: a code, a width in bits and a number of lanes, written as in
    `float32`, `bool`, `float16x4` or `handle`. -/
structure DataType where
  code : TypeCode
  bits : UInt8
  lanes : UInt16
  deriving DecidableEq

namespace TypeCode

instance : Ord TypeCode where
  compare a b := compare a.ctorIdx b.ctorIdx

/-- The written name. -/
def name : TypeCode → String
  | int => "int"
  | uint => "uint"
  | float => "float"
  | bfloat => "bfloat"
  | handle => "handle"

end TypeCode

namespace DataType

instance : Ord DataType where
  compare a b := (compare a.code b.code).then ((compare a.bits b.bits).then (compare a.lanes b.lanes))

/-- A signed integer of one lane. -/
def int (bits : UInt8) : DataType := ⟨.int, bits, 1⟩

/-- An unsigned integer of one lane. -/
def uint (bits : UInt8) : DataType := ⟨.uint, bits, 1⟩

/-- A floating-point number of one lane. -/
def float (bits : UInt8) : DataType := ⟨.float, bits, 1⟩

/-- A truth value, stored as one unsigned bit. -/
def bool : DataType := uint 1

/-- An opaque 64-bit handle. -/
def handle : DataType := ⟨.handle, 64, 1⟩

/-- The same element in another number of lanes. -/
def withLanes (d : DataType) (lanes : UInt16) : DataType := { d with lanes }

/-- One unsigned bit, in any number of lanes. -/
def isBool (d : DataType) : Bool := d.code = .uint && d.bits = 1

/-- A single lane. -/
def isScalar (d : DataType) : Bool := d.lanes = 1

/-- Either floating-point encoding. -/
def isFloat (d : DataType) : Bool := d.code = .float || d.code = .bfloat

/-- The bytes needed for all lanes, rounded up. -/
def bytes (d : DataType) : Nat := (d.bits.toNat * d.lanes.toNat + 7) / 8

/-- The element without its lanes: `bool` and `handle` have no width, all others do. -/
def renderBase (d : DataType) : String :=
  if d.isBool then "bool"
  else if d.code = .handle then "handle"
  else d.code.name ++ toString d.bits.toNat

/-- The written form; a single lane is left out. -/
def render (d : DataType) : String :=
  d.renderBase ++ if d.lanes = 1 then "" else "x" ++ toString d.lanes.toNat

instance : ToString DataType := ⟨render⟩

/-- Why a text is not an element type. The text is kept as it stood, without blanks around it. -/
inductive ReadError where
  | empty
  | unknownCode (text : String)
  | invalidBits (text : String)
  | invalidLanes (text : String)
  deriving DecidableEq

/-- The wording of a reading error. -/
def ReadError.message : ReadError → String
  | empty => "empty data type"
  | unknownCode text => "unknown data type `" ++ text ++ "`"
  | invalidBits text => "invalid bit width in `" ++ text ++ "`"
  | invalidLanes text => "invalid lane count in `" ++ text ++ "`"

/-- The codes with a width in their text. `uint` is tried before `int` and `bfloat` before `float`,
    though neither is the beginning of the other. -/
def sizedCodes : List TypeCode := [.uint, .int, .bfloat, .float]

/-- What follows the first listed code that the text begins with. -/
def splitCode? (cs : List Char) : Option (TypeCode × List Char) :=
  sizedCodes.findSome? fun code =>
    if code.name.toList.isPrefixOf cs then some (code, cs.drop code.name.length) else none

/-- The width of an element written without one. -/
def defaultBits : TypeCode → UInt8
  | .bfloat => 16
  | _ => 32

/-- The number of lanes: one if the text has no `x`, else the positive number after the first. -/
def readLanes? : List Char → Option UInt16
  | [] => some 1
  | _ :: digits => do
    let n ← Text.boundedNumeral? 65535 digits
    if n = 0 then none else some (UInt16.ofNat n)

/-- The width, which is positive if it is written. -/
def readBits? (code : TypeCode) (digits : List Char) : Option UInt8 :=
  if digits.isEmpty then some (defaultBits code)
  else do
    let n ← Text.boundedNumeral? 255 digits
    if n = 0 then none else some (UInt8.ofNat n)

/-- Reads an element type, with blanks around it ignored. A fault in the lanes is reported before
    one in the rest. -/
def parse (s : String) : Except ReadError DataType :=
  let cs := Text.trim s.toList
  let text := String.ofList cs
  if cs.isEmpty then .error .empty
  else
    let base := cs.takeWhile (· ≠ 'x')
    match readLanes? (cs.dropWhile (· ≠ 'x')) with
    | none => .error (.invalidLanes text)
    | some lanes =>
      if base = "bool".toList then .ok (bool.withLanes lanes)
      else if base = "handle".toList then .ok (handle.withLanes lanes)
      else
        match splitCode? base with
        | none => .error (.unknownCode text)
        | some (code, digits) =>
          match readBits? code digits with
          | none => .error (.invalidBits text)
          | some bits => .ok ⟨code, bits, lanes⟩

end DataType

end TensorTyping
