import TensorTyping.Cond

open Std

namespace TensorTyping

/-- In a linear order the comparison of the ends of a chain follows from its
two links. Stated on comparison results, so that it composes with the
lexicographic `then` before any order instance is available. -/
theorem Ordering.chain_then : ∀ {x₁ x₂ x₃ y₁ y₂ y₃ : Ordering},
    (x₁.isLE → x₂.isLE → x₃ = x₁.then x₂) → (y₁.isLE → y₂.isLE → y₃ = y₁.then y₂) →
    (x₁.then y₁).isLE → (x₂.then y₂).isLE →
    x₃.then y₃ = (x₁.then y₁).then (x₂.then y₂) := by
  decide

/-- The chain law for a comparison that looks at a rank first. Only values of
one rank are left to compare by their parts. -/
theorem Ordering.chain_rank {r₁ r₂ r₃ : Nat} {x y z : Ordering}
    (hx : r₁ ≠ r₂ → x = compare r₁ r₂) (hy : r₂ ≠ r₃ → y = compare r₂ r₃)
    (hz : r₁ ≠ r₃ → z = compare r₁ r₃)
    (hsame : r₁ = r₂ → r₂ = r₃ → x.isLE → y.isLE → z = x.then y)
    (hxle : x.isLE) (hyle : y.isLE) : z = x.then y := by
  have hle {r s : Nat} {o : Ordering} (ho : r ≠ s → o = compare r s) (h : o.isLE) : r ≤ s := by
    by_cases hrs : r = s
    · omega
    · rw [ho hrs, Nat.isLE_compare] at h
      exact h
  have h₁₂ := hle hx hxle
  have h₂₃ := hle hy hyle
  by_cases hxr : r₁ = r₂
  · by_cases hyr : r₂ = r₃
    · exact hsame hxr hyr hxle hyle
    · rw [hz (by omega), hy hyr, Nat.compare_eq_lt.mpr (by omega), Nat.compare_eq_lt.mpr (by omega)]
      cases x <;> first | rfl | cases hxle
  · rw [hz (by omega), hx hxr, Nat.compare_eq_lt.mpr (by omega), Nat.compare_eq_lt.mpr (by omega)]
    rfl

theorem Ordering.isLE_then_of_isLE : ∀ {x y : Ordering}, x.isLE → y.isLE → (x.then y).isLE := by
  decide

theorem compare_chain {α : Type} [Ord α] [TransOrd α] {a b c : α}
    (hab : (compare a b).isLE) (hbc : (compare b c).isLE) :
    compare a c = (compare a b).then (compare b c) := by
  cases h : compare a b with
  | lt => exact TransCmp.lt_of_lt_of_isLE h hbc
  | eq => exact TransCmp.congr_left h
  | gt => simp [h] at hab

instance : TransOrd SizeVar :=
  inferInstanceAs (TransCmp (compareLex (compareOn SizeVar.id) (compareOn SizeVar.name)))

instance : LawfulEqOrd SizeVar where
  eq_of_compare {v w} h := by
    obtain ⟨id, name⟩ := v
    obtain ⟨id', name'⟩ := w
    change (compare id id').then (compare name name') = .eq at h
    rw [Ordering.then_eq_eq] at h
    simp [LawfulEqOrd.eq_of_compare h.1, LawfulEqOrd.eq_of_compare h.2]

instance : TransOrd DimOp :=
  inferInstanceAs (TransCmp (compareOn DimOp.ctorIdx))

instance : LawfulEqOrd DimOp where
  eq_of_compare {a b} h := by
    have hidx : a.ctorIdx = b.ctorIdx := LawfulEqOrd.eq_of_compare (α := Nat) h
    cases a <;> cases b <;> first | rfl | cases hidx

instance : TransOrd Comparison :=
  inferInstanceAs (TransCmp (compareOn Comparison.ctorIdx))

instance : LawfulEqOrd Comparison where
  eq_of_compare {a b} h := by
    have hidx : a.ctorIdx = b.ctorIdx := LawfulEqOrd.eq_of_compare (α := Nat) h
    cases a <;> cases b <;> first | rfl | cases hidx

namespace Dim

theorem cmp_eq_swap (a b : Dim) : a.cmp b = (b.cmp a).swap := by
  induction a generalizing b with
  | const | var =>
    cases b <;> simp only [cmp, rank] <;> exact OrientedCmp.eq_swap
  | any => cases b <;> rfl
  | binary op a₁ a₂ ih₁ ih₂ =>
    cases b with
    | const | var | any => rfl
    | binary op' b₁ b₂ =>
      rw [cmp, cmp, Ordering.swap_then, Ordering.swap_then, ← ih₁, ← ih₂,
        OrientedOrd.eq_swap (a := op)]

theorem eq_of_cmp {a b : Dim} (h : a.cmp b = .eq) : a = b := by
  induction a generalizing b with
  | const n =>
    cases b with
    | const m => rw [LawfulEqOrd.eq_of_compare h]
    | var | any | binary => cases h
  | var v =>
    cases b with
    | var w => rw [LawfulEqOrd.eq_of_compare h]
    | const | any | binary => cases h
  | any => cases b <;> first | rfl | cases h
  | binary op a₁ a₂ ih₁ ih₂ =>
    cases b with
    | const | var | any => cases h
    | binary op' b₁ b₂ =>
      simp only [cmp, Ordering.then_eq_eq] at h
      rw [LawfulEqOrd.eq_of_compare h.1, ih₁ h.2.1, ih₂ h.2.2]

theorem cmp_of_rank_ne {a b : Dim} (h : a.rank ≠ b.rank) : a.cmp b = compare a.rank b.rank := by
  cases a <;> cases b <;> first | rfl | exact absurd rfl h

theorem cmp_chain {a b c : Dim} (hab : (a.cmp b).isLE) (hbc : (b.cmp c).isLE) :
    a.cmp c = (a.cmp b).then (b.cmp c) := by
  induction a generalizing b c with
  | const n =>
    refine Ordering.chain_rank cmp_of_rank_ne cmp_of_rank_ne cmp_of_rank_ne ?_ hab hbc
    intro hr₁ hr₂ hab hbc
    cases b <;> cases hr₁
    cases c <;> cases hr₂
    exact compare_chain hab hbc
  | var v =>
    refine Ordering.chain_rank cmp_of_rank_ne cmp_of_rank_ne cmp_of_rank_ne ?_ hab hbc
    intro hr₁ hr₂ hab hbc
    cases b <;> cases hr₁
    cases c <;> cases hr₂
    exact compare_chain hab hbc
  | any =>
    refine Ordering.chain_rank cmp_of_rank_ne cmp_of_rank_ne cmp_of_rank_ne ?_ hab hbc
    intro hr₁ hr₂ _ _
    cases b <;> cases hr₁
    cases c <;> cases hr₂
    rfl
  | binary op a₁ a₂ ih₁ ih₂ =>
    refine Ordering.chain_rank cmp_of_rank_ne cmp_of_rank_ne cmp_of_rank_ne ?_ hab hbc
    intro hr₁ hr₂ hab hbc
    cases b <;> cases hr₁
    cases c <;> cases hr₂
    exact Ordering.chain_then compare_chain (Ordering.chain_then ih₁ ih₂) hab hbc

instance : TransOrd Dim where
  eq_swap {a b} := cmp_eq_swap a b
  isLE_trans {a b c} hab hbc := by
    change (a.cmp c).isLE
    rw [cmp_chain hab hbc]
    exact Ordering.isLE_then_of_isLE hab hbc

instance : LawfulEqOrd Dim where
  eq_of_compare := eq_of_cmp

end Dim

namespace Cond

theorem compare_eq_swap (a b : Cond) : a.compare b = (b.compare a).swap := by
  induction a generalizing b with
  | bool p =>
    cases b with
    | bool q => exact OrientedOrd.eq_swap
    | cmp | and | or | not => rfl
  | cmp op l r =>
    cases b with
    | cmp op' l' r' =>
      rw [Cond.compare, Cond.compare, Ordering.swap_then, Ordering.swap_then,
        OrientedOrd.eq_swap (a := op), OrientedOrd.eq_swap (a := l),
        OrientedOrd.eq_swap (a := r)]
    | bool | and | or | not => rfl
  | and a₁ a₂ ih₁ ih₂ =>
    cases b with
    | and b₁ b₂ => rw [Cond.compare, Cond.compare, Ordering.swap_then, ← ih₁, ← ih₂]
    | bool | cmp | or | not => rfl
  | or a₁ a₂ ih₁ ih₂ =>
    cases b with
    | or b₁ b₂ => rw [Cond.compare, Cond.compare, Ordering.swap_then, ← ih₁, ← ih₂]
    | bool | cmp | and | not => rfl
  | not a ih =>
    cases b with
    | not b => exact ih b
    | bool | cmp | and | or => rfl

theorem eq_of_compare {a b : Cond} (h : a.compare b = .eq) : a = b := by
  induction a generalizing b with
  | bool p =>
    cases b with
    | bool q => rw [LawfulEqOrd.eq_of_compare h]
    | cmp | and | or | not => cases h
  | cmp op l r =>
    cases b with
    | cmp op' l' r' =>
      simp only [Cond.compare, Ordering.then_eq_eq] at h
      rw [LawfulEqOrd.eq_of_compare h.1, LawfulEqOrd.eq_of_compare h.2.1,
        LawfulEqOrd.eq_of_compare h.2.2]
    | bool | and | or | not => cases h
  | and a₁ a₂ ih₁ ih₂ =>
    cases b with
    | and b₁ b₂ =>
      rw [Cond.compare, Ordering.then_eq_eq] at h
      rw [ih₁ h.1, ih₂ h.2]
    | bool | cmp | or | not => cases h
  | or a₁ a₂ ih₁ ih₂ =>
    cases b with
    | or b₁ b₂ =>
      rw [Cond.compare, Ordering.then_eq_eq] at h
      rw [ih₁ h.1, ih₂ h.2]
    | bool | cmp | and | not => cases h
  | not a ih =>
    cases b with
    | not b => rw [ih h]
    | bool | cmp | and | or => cases h

theorem compare_of_rank_ne {a b : Cond} (h : a.rank ≠ b.rank) :
    a.compare b = Ord.compare a.rank b.rank := by
  cases a <;> cases b <;> first | rfl | exact absurd rfl h

theorem compare_chain {a b c : Cond} (hab : (a.compare b).isLE) (hbc : (b.compare c).isLE) :
    a.compare c = (a.compare b).then (b.compare c) := by
  induction a generalizing b c with
  | bool p =>
    refine Ordering.chain_rank compare_of_rank_ne compare_of_rank_ne compare_of_rank_ne ?_ hab hbc
    intro hr₁ hr₂ hab hbc
    cases b <;> cases hr₁
    cases c <;> cases hr₂
    exact TensorTyping.compare_chain hab hbc
  | cmp op l r =>
    refine Ordering.chain_rank compare_of_rank_ne compare_of_rank_ne compare_of_rank_ne ?_ hab hbc
    intro hr₁ hr₂ hab hbc
    cases b <;> cases hr₁
    cases c <;> cases hr₂
    exact Ordering.chain_then TensorTyping.compare_chain
      (Ordering.chain_then TensorTyping.compare_chain TensorTyping.compare_chain) hab hbc
  | and a₁ a₂ ih₁ ih₂ | or a₁ a₂ ih₁ ih₂ =>
    refine Ordering.chain_rank compare_of_rank_ne compare_of_rank_ne compare_of_rank_ne ?_ hab hbc
    intro hr₁ hr₂ hab hbc
    cases b <;> cases hr₁
    cases c <;> cases hr₂
    exact Ordering.chain_then ih₁ ih₂ hab hbc
  | not a ih =>
    refine Ordering.chain_rank compare_of_rank_ne compare_of_rank_ne compare_of_rank_ne ?_ hab hbc
    intro hr₁ hr₂ hab hbc
    cases b <;> cases hr₁
    cases c <;> cases hr₂
    exact ih hab hbc

instance : TransOrd Cond where
  eq_swap {a b} := compare_eq_swap a b
  isLE_trans {a b c} hab hbc := by
    change (a.compare c).isLE
    rw [compare_chain hab hbc]
    exact Ordering.isLE_then_of_isLE hab hbc

instance : LawfulEqOrd Cond where
  eq_of_compare := eq_of_compare

end Cond

theorem pairwise_mergeSort_compare {α : Type} [Ord α] [TransOrd α] (xs : List α) :
    (xs.mergeSort fun a b => (compare a b).isLE).Pairwise fun a b => (compare a b).isLE := by
  refine List.pairwise_mergeSort ?_ ?_ xs
  · intro a b c hab hbc
    exact TransCmp.isLE_trans hab hbc
  · intro a b
    rw [OrientedOrd.eq_swap (a := b)]
    cases compare a b <;> rfl

theorem pairwise_lt_mergeSort_compare {α : Type} [Ord α] [TransOrd α] [LawfulEqOrd α] {xs : List α}
    (h : xs.Nodup) :
    (xs.mergeSort fun a b => (compare a b).isLE).Pairwise fun a b => compare a b = .lt := by
  have hnodup := (List.mergeSort_perm xs fun a b => (compare a b).isLE).nodup_iff.mpr h
  refine ((pairwise_mergeSort_compare xs).and hnodup).imp ?_
  rintro a b ⟨hle, hne⟩
  cases hcompare : compare a b with
  | lt => rfl
  | eq => exact absurd (LawfulEqOrd.eq_of_compare hcompare) hne
  | gt =>
    rw [hcompare] at hle
    cases hle

/-- Two arrangements of one list that are both sorted are the same. -/
theorem eq_of_perm_of_pairwise_compare {α : Type} [Ord α] [TransOrd α] [LawfulEqOrd α]
    {xs ys : List α} (hxs : xs.Pairwise fun a b => (compare a b).isLE)
    (hys : ys.Pairwise fun a b => (compare a b).isLE) (h : xs.Perm ys) : xs = ys :=
  List.Perm.eq_of_pairwise
    (fun _ _ _ _ hab hba => LawfulEqOrd.eq_of_compare (OrientedCmp.isLE_antisymm hab hba)) hxs hys h

/-- Sorting by a lawful order forgets how a list was arranged. -/
theorem mergeSort_eq_of_perm {α : Type} [Ord α] [TransOrd α] [LawfulEqOrd α] {xs ys : List α}
    (h : xs.Perm ys) :
    (xs.mergeSort fun a b => (compare a b).isLE) = ys.mergeSort fun a b => (compare a b).isLE :=
  eq_of_perm_of_pairwise_compare (pairwise_mergeSort_compare xs) (pairwise_mergeSort_compare ys)
    ((List.mergeSort_perm xs _).trans (h.trans (List.mergeSort_perm ys _).symm))

/-- Lists that hold the same entries of a kind show the same of them once sorted. -/
theorem filter_mergeSort_eq_of_perm {α : Type} [Ord α] [TransOrd α] [LawfulEqOrd α] {xs ys : List α}
    {keep : α → Bool} (h : (xs.filter keep).Perm (ys.filter keep)) :
    (xs.mergeSort fun a b => (compare a b).isLE).filter keep =
      (ys.mergeSort fun a b => (compare a b).isLE).filter keep :=
  eq_of_perm_of_pairwise_compare ((pairwise_mergeSort_compare xs).filter keep)
    ((pairwise_mergeSort_compare ys).filter keep)
    (((List.mergeSort_perm xs _).filter keep).trans
      (h.trans ((List.mergeSort_perm ys _).filter keep).symm))

end TensorTyping
