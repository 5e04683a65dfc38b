import Mathlib.Data.List.Basic
import Mathlib.Logic.Equiv.Nat

namespace TensorTyping

/-- The last list has the elements of the other two, in an order that keeps the order of each. -/
inductive Interleaves {α : Type} : List α → List α → List α → Prop
  | nil : Interleaves [] [] []
  | left {x : α} {as bs cs : List α} : Interleaves as bs cs → Interleaves (x :: as) bs (x :: cs)
  | right {x : α} {as bs cs : List α} : Interleaves as bs cs → Interleaves as (x :: bs) (x :: cs)

namespace Interleaves

variable {α : Type} {as bs cs : List α} {x : α}

theorem symm (h : Interleaves as bs cs) : Interleaves bs as cs := by
  induction h with
  | nil => exact .nil
  | left _ ih => exact .right ih
  | right _ ih => exact .left ih

theorem mem_iff (h : Interleaves as bs cs) : x ∈ cs ↔ x ∈ as ∨ x ∈ bs := by
  induction h with
  | nil => simp
  | left _ ih => rw [List.mem_cons, List.mem_cons, ih, or_assoc]
  | right _ ih => rw [List.mem_cons, List.mem_cons, ih, or_left_comm]

theorem snoc_left (h : Interleaves as bs cs) (x : α) :
    Interleaves (as ++ [x]) bs (cs ++ [x]) := by
  induction h with
  | nil => exact .left .nil
  | left _ ih => exact .left ih
  | right _ ih => exact .right ih

theorem filter (h : Interleaves as bs cs) (p : α → Bool) :
    Interleaves (as.filter p) (bs.filter p) (cs.filter p) := by
  induction h with
  | nil => exact .nil
  | @left x _ _ _ _ ih =>
    rw [List.filter_cons, List.filter_cons]
    split
    · exact .left ih
    · exact ih
  | @right x _ _ _ _ ih =>
    rw [List.filter_cons, List.filter_cons]
    split
    · exact .right ih
    · exact ih

theorem eq_nil_iff (h : Interleaves as bs cs) : cs = [] ↔ as = [] ∧ bs = [] := by
  cases h <;> simp

end Interleaves

/-- The positions of two lists in an interleaving of them, when the first element comes from the
left and the rest stand as they did. -/
def firstLeft (e : Nat ⊕ Nat ≃ Nat) : Nat ⊕ Nat ≃ Nat where
  toFun
    | .inl 0 => 0
    | .inl (n + 1) => e (.inl n) + 1
    | .inr n => e (.inr n) + 1
  invFun
    | 0 => .inl 0
    | k + 1 => (e.symm k).map (· + 1) id
  left_inv := by rintro ((_ | n) | n) <;> simp
  right_inv := by
    rintro (_ | k)
    · rfl
    · cases hk : e.symm k with
      | inl n => simp [hk, ← e.symm_apply_eq.mp hk]
      | inr n => simp [hk, ← e.symm_apply_eq.mp hk]

/-- The same when the first element comes from the right. -/
def firstRight (e : Nat ⊕ Nat ≃ Nat) : Nat ⊕ Nat ≃ Nat :=
  (Equiv.sumComm Nat Nat).trans (firstLeft ((Equiv.sumComm Nat Nat).trans e))

end TensorTyping
