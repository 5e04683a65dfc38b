import TensorTyping.Dim.Order

namespace TensorTyping

/-- The six comparisons, in their sorting order. -/
inductive Comparison where
  | eq
  | ne
  | lt
  | le
  | gt
  | ge
  deriving DecidableEq

namespace Comparison

instance : Ord Comparison where
  compare a b := compare a.ctorIdx b.ctorIdx

/-- The written operator. -/
def symbol : Comparison → String
  | eq => "=="
  | ne => "!="
  | lt => "<"
  | le => "<="
  | gt => ">"
  | ge => ">="

/-- The comparison that says the same with the operands exchanged. -/
def swap : Comparison → Comparison
  | eq => eq
  | ne => ne
  | lt => gt
  | le => ge
  | gt => lt
  | ge => le

/-- Whether the comparison holds between two integers. -/
def holds (op : Comparison) (m n : Int) : Bool :=
  match op with
  | eq => m = n
  | ne => m ≠ n
  | lt => m < n
  | le => m ≤ n
  | gt => n < m
  | ge => n ≤ m

theorem holds_swap (op : Comparison) (m n : Int) : op.swap.holds n m = op.holds m n := by
  cases op <;> simp [swap, holds, eq_comm]

end Comparison

/-- A condition on dimensions. It has a truth value under an assignment exactly when both sides of
    every comparison in it have a value. -/
inductive Cond where
  | bool (b : Bool)
  | cmp (op : Comparison) (lhs rhs : Dim)
  | and (a b : Cond)
  | or (a b : Cond)
  | not (a : Cond)
  deriving DecidableEq

namespace Cond

/-- `lhs == rhs`. -/
abbrev eq (lhs rhs : Dim) : Cond := cmp .eq lhs rhs

/-- `lhs < rhs`. -/
abbrev lt (lhs rhs : Dim) : Cond := cmp .lt lhs rhs

/-- `lhs <= rhs`. -/
abbrev le (lhs rhs : Dim) : Cond := cmp .le lhs rhs

/-- The truth value under an assignment; none if some comparison in the condition has a side
    without a value. -/
def eval (σ : Assignment) : Cond → Option Bool
  | bool b => some b
  | cmp op lhs rhs => do
    let m ← lhs.eval σ
    let n ← rhs.eval σ
    some (op.holds m n)
  | and a b => do
    let x ← a.eval σ
    let y ← b.eval σ
    some (x && y)
  | or a b => do
    let x ← a.eval σ
    let y ← b.eval σ
    some (x || y)
  | not a => (a.eval σ).map (!·)

/-- The printed form. Conjunctions and disjunctions are in parentheses, comparisons are not. -/
def render : Cond → String
  | bool b => toString b
  | cmp op lhs rhs => lhs.render ++ " " ++ op.symbol ++ " " ++ rhs.render
  | and a b => "(" ++ a.render ++ " && " ++ b.render ++ ")"
  | or a b => "(" ++ a.render ++ " || " ++ b.render ++ ")"
  | not a => "!" ++ a.render

instance : ToString Cond := ⟨render⟩

/-- The place of a condition's form among the five forms. -/
def rank : Cond → Nat
  | bool _ => 0
  | cmp .. => 1
  | and .. => 2
  | or .. => 3
  | not _ => 4

/-- Lexicographic comparison by form, then by parts. -/
protected def compare : Cond → Cond → Ordering
  | bool a, bool b => compare a b
  | cmp op l r, cmp op' l' r' => (compare op op').then ((compare l l').then (compare r r'))
  | and a b, and a' b' | or a b, or a' b' => (Cond.compare a a').then (Cond.compare b b')
  | not a, not b => Cond.compare a b
  | a, b => compare a.rank b.rank

instance : Ord Cond := ⟨Cond.compare⟩

end Cond

end TensorTyping
