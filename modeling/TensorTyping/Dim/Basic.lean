import TensorTyping.Word

namespace TensorTyping

/-- A symbolic size, such as a batch size. Two variables are the same when both the id and the
    name agree. -/
structure SizeVar where
  id : UInt32
  name : String
  deriving DecidableEq

/-- The operators on dimensions, in their sorting order. -/
inductive DimOp where
  | add
  | sub
  | mul
  | floorDiv
  | floorMod
  | min
  | max
  deriving DecidableEq

/-- A dimension of a tensor: a literal, a size variable, the dynamic dimension `?`, or integer
    arithmetic over those. -/
inductive Dim where
  | const (n : Word)
  | var (v : SizeVar)
  /-- The dimension known only at run time, printed as `?`. -/
  | any
  | binary (op : DimOp) (a b : Dim)
  deriving DecidableEq

/-- A choice of an integer for every size variable. -/
abbrev Assignment := SizeVar → Int

namespace DimOp

/-- The exact value of an operation. Division rounds down and the remainder takes the sign of the
    divisor; both are undefined for a zero divisor. -/
def eval (op : DimOp) (a b : Int) : Option Int :=
  match op with
  | .add => some (a + b)
  | .sub => some (a - b)
  | .mul => some (a * b)
  | .floorDiv => if b = 0 then none else some (a.fdiv b)
  | .floorMod => if b = 0 then none else some (a.fmod b)
  | .min => some (if a ≤ b then a else b)
  | .max => some (if a ≤ b then b else a)

/-- How an operation on two printed operands is written. -/
def render (op : DimOp) (a b : String) : String :=
  match op with
  | .add => s!"({a} + {b})"
  | .sub => s!"({a} - {b})"
  | .mul => s!"({a} * {b})"
  | .floorDiv => s!"({a} // {b})"
  | .floorMod => s!"({a} % {b})"
  | .min => s!"min({a}, {b})"
  | .max => s!"max({a}, {b})"

end DimOp

namespace Dim

/-- The literal of a dimension that is one. -/
def const? : Dim → Option Word
  | const n => some n
  | _ => none

/-- Whether `?` occurs anywhere. -/
def containsAny : Dim → Bool
  | any => true
  | const _ | var _ => false
  | binary _ a b => a.containsAny || b.containsAny

/-- Adds the size variables of a dimension to those already met, each once. -/
def collectVars : Dim → List SizeVar → List SizeVar
  | var v, seen => if v ∈ seen then seen else seen ++ [v]
  | const _, seen | any, seen => seen
  | binary _ a b, seen => b.collectVars (a.collectVars seen)

/-- The size variables of a dimension, in order of first occurrence. -/
def freeVars (d : Dim) : List SizeVar := d.collectVars []

/-- Whether a size variable occurs. -/
def Mentions (x : SizeVar) : Dim → Prop
  | var v => v = x
  | const _ | any => False
  | binary _ a b => a.Mentions x ∨ b.Mentions x

/-- The value under an assignment; none where `?` or a division by zero is met. -/
def eval (σ : Assignment) : Dim → Option Int
  | const n => some n.toInt
  | var v => some (σ v)
  | any => none
  | binary op a b => do
    let x ← a.eval σ
    let y ← b.eval σ
    op.eval x y

/-- The printed form, with every operation in parentheses or as a call. -/
def render : Dim → String
  | const n => toString n.toInt
  | var v => v.name
  | any => "?"
  | binary op a b => op.render a.render b.render

instance : ToString Dim := ⟨render⟩

theorem mem_collectVars {x : SizeVar} {d : Dim} {seen : List SizeVar} :
    x ∈ d.collectVars seen ↔ x ∈ seen ∨ d.Mentions x := by
  induction d generalizing seen with
  | const | any => simp [collectVars, Mentions]
  | var v =>
    unfold collectVars Mentions
    split
    · constructor
      · exact Or.inl
      · rintro (h | rfl) <;> assumption
    · simp [eq_comm]
  | binary op a b iha ihb => simp [collectVars, Mentions, iha, ihb, or_assoc]

/-- The listed variables are those that occur. -/
theorem mem_freeVars {x : SizeVar} {d : Dim} : x ∈ d.freeVars ↔ d.Mentions x := by
  simp [freeVars, mem_collectVars]

end Dim

end TensorTyping
