import TensorTyping.Dim.Basic

namespace TensorTyping

namespace DimOp

/-- The value of an operation on literals, if it is defined and everything computed on the way
    fits a word. -/
def fold? (op : DimOp) (m n : Word) : Option Word :=
  match op with
  | .add => Word.add? m n
  | .sub => Word.sub? m n
  | .mul => Word.mul? m n
  | .floorDiv => Word.floorDiv? m n
  | .floorMod => Word.floorMod? m n
  | .min => some (if m ≤ n then m else n)
  | .max => some (if m ≤ n then n else m)

/-- The unit and zero laws, for operands that are not both literals. -/
def shortcut? (op : DimOp) (a b : Dim) : Option Dim :=
  match op with
  | .add => if a = .const 0 then some b else if b = .const 0 then some a else none
  | .sub => if b = .const 0 then some a else if a = b then some (.const 0) else none
  | .mul =>
    if a = .const 0 ∨ b = .const 0 then some (.const 0)
    else if a = .const 1 then some b
    else if b = .const 1 then some a
    else none
  | .floorDiv => if b = .const 1 then some a else none
  | .floorMod => if b = .const 1 then some (.const 0) else none
  | .min | .max => if a = b then some a else none

end DimOp

namespace Dim

/-- An operation with its operands folded where that is possible: literals are computed with, units
    and zeros dropped, and `?` absorbs everything. A result that does not fit a word, or is
    undefined, stays an operation. -/
def combine (op : DimOp) : Dim → Dim → Dim
  | any, _ | _, any => any
  | const m, const n => ((op.fold? m n).map const).getD (binary op (const m) (const n))
  | a, b => (op.shortcut? a b).getD (binary op a b)

/-- The product of dimensions, multiplied from left to right; `1` for none. -/
def product (dims : List Dim) : Dim := dims.foldl (combine .mul) (const 1)

/-- Puts dimensions in place of size variables, folding on the way up. A variable without an image
    stays. -/
def substitute (f : SizeVar → Option Dim) : Dim → Dim
  | const n => const n
  | var v => (f v).getD (var v)
  | any => any
  | binary op a b => combine op (a.substitute f) (b.substitute f)

@[simp] theorem combine_any_left (op : DimOp) (b : Dim) : combine op any b = any := by
  cases b <;> rfl

@[simp] theorem combine_any_right (op : DimOp) (a : Dim) : combine op a any = any := by
  cases a <;> rfl

@[simp] theorem combine_const (op : DimOp) (m n : Word) :
    combine op (const m) (const n) =
      ((op.fold? m n).map const).getD (binary op (const m) (const n)) := rfl

/-- Without `?`, and with an operand that is not a literal, only the unit and zero laws apply. -/
theorem combine_eq_shortcut {op : DimOp} {a b : Dim} (ha : a ≠ any) (hb : b ≠ any)
    (hlit : a.const? = none ∨ b.const? = none) :
    combine op a b = (op.shortcut? a b).getD (binary op a b) := by
  cases a <;> cases b <;> simp_all [combine, const?]

end Dim

end TensorTyping
