import TensorTyping.Proofs.Dim.Fold

namespace TensorTyping

/-- The exact result of an operation on two words, if it is defined and fits. -/
def DimOp.word? (op : DimOp) (m n : Word) : Option Word :=
  (op.eval m.toInt n.toInt).bind Word.ofInt?

namespace Word

/-- There is a remainder, but the quotient or its product with the divisor does not fit. -/
def RemainderLost (m n : Word) : Prop :=
  n ≠ 0 ∧ (ofInt? (m.toInt.fdiv n.toInt) = none ∨ ofInt? (m.toInt.fdiv n.toInt * n.toInt) = none)

instance (m n : Word) : Decidable (RemainderLost m n) := inferInstanceAs (Decidable (_ ∧ _))

variable {m n : Word}

theorem word?_floorMod (hn : n ≠ 0) :
    DimOp.word? .floorMod m n = ofInt? (m.toInt.fmod n.toInt) := by
  rw [DimOp.word?, DimOp.eval, if_neg fun h => hn (toInt_eq_zero_iff.mp h), Option.bind_some]

/-- A remainder is smaller than the divisor. -/
theorem natAbs_fmod_lt (hn : n ≠ 0) : (m.toInt.fmod n.toInt).natAbs < n.toInt.natAbs := by
  have hzero : n.toInt ≠ 0 := fun h => hn (toInt_eq_zero_iff.mp h)
  have hlower := Int.emod_nonneg m.toInt hzero
  have hupper := Int.emod_lt m.toInt hzero
  rw [Int.fmod_eq_emod]
  split
  · omega
  · rename_i h
    have hrest : m.toInt % n.toInt ≠ 0 := fun h' => h (Or.inr (Int.dvd_of_emod_eq_zero h'))
    omega

/-- The remainder itself always fits. -/
theorem isSome_word?_floorMod (hn : n ≠ 0) : (DimOp.word? .floorMod m n).isSome := by
  have hsmall := natAbs_fmod_lt (m := m) hn
  have hlo := Int64.le_toInt n
  have hhi := Int64.toInt_lt n
  rw [word?_floorMod hn, Option.isSome_iff_ne_none]
  intro h
  obtain h | h := ofInt?_eq_none_iff.mp h <;> omega

theorem floorMod?_eq (m n : Word) :
    floorMod? m n = if RemainderLost m n then none else DimOp.word? .floorMod m n := by
  unfold floorMod?
  rw [floorDiv?_eq]
  by_cases hn : n = 0
  · have hkept : ¬ RemainderLost m n := fun h => h.1 hn
    rw [if_pos hn, if_neg hkept, hn]
    rfl
  · rw [if_neg hn, word?_floorMod hn]
    cases hq : ofInt? (m.toInt.fdiv n.toInt) with
    | none =>
      have hlost : RemainderLost m n := ⟨hn, Or.inl hq⟩
      rw [if_pos hlost]
      rfl
    | some q =>
      have hquotient := ofInt?_eq_some_iff.mp hq
      rw [Option.bind_eq_bind, Option.bind_some, mul?, hquotient]
      cases hp : ofInt? (m.toInt.fdiv n.toInt * n.toInt) with
      | none =>
        have hlost : RemainderLost m n := ⟨hn, Or.inr hp⟩
        rw [if_pos hlost]
        rfl
      | some p =>
        have hkept : ¬ RemainderLost m n := by
          rintro ⟨-, h | h⟩
          · rw [hq] at h
            cases h
          · rw [hp] at h
            cases h
        rw [if_neg hkept, Option.bind_some, sub?, ofInt?_eq_some_iff.mp hp,
          Int.fdiv_mul_self, Int.sub_sub_self]

/-- The multiple of the divisor next to a dividend leaves the words only near an end. -/
theorem RemainderLost.near_end (h : RemainderLost m n) :
    m.toInt < -9223372036854775808 + n.toInt.natAbs ∨
      9223372036854775807 - n.toInt.natAbs < m.toInt := by
  obtain ⟨hn, h⟩ := h
  have hsmall := natAbs_fmod_lt (m := m) hn
  have hproduct := Int.fdiv_mul_self m.toInt n.toInt
  have hfar : 9223372036854775808 ≤ (m.toInt.fdiv n.toInt * n.toInt).natAbs := by
    obtain h | h := h
    · have hunit : 1 ≤ n.toInt.natAbs := by omega
      have hgrow := Nat.mul_le_mul_left (m.toInt.fdiv n.toInt).natAbs hunit
      rw [Nat.mul_one, ← Int.natAbs_mul] at hgrow
      obtain h | h := ofInt?_eq_none_iff.mp h <;> omega
    · obtain h | h := ofInt?_eq_none_iff.mp h <;> omega
  omega

end Word

/-- What is computed on literals is the exact result, unless it is a remainder that is lost. -/
theorem DimOp.fold?_eq (op : DimOp) (m n : Word) :
    op.fold? m n = if op = .floorMod ∧ m.RemainderLost n then none else op.word? m n := by
  cases op with
  | add | sub | mul => rfl
  | floorDiv =>
    simp only [DimOp.fold?, Word.floorDiv?_eq, DimOp.word?, DimOp.eval, Word.toInt_eq_zero_iff,
      reduceCtorEq, false_and, if_false]
    split <;> rfl
  | floorMod =>
    rw [DimOp.fold?, Word.floorMod?_eq]
    simp only [true_and]
  | min | max =>
    simp only [DimOp.fold?, DimOp.word?, DimOp.eval, Option.bind_some, Int64.le_iff_toInt_le,
      reduceCtorEq, false_and, if_false]
    split <;> rw [Word.ofInt?_toInt]

namespace Dim

/-- Folding of two literals, by any operation: to the exact result, if that is defined and fits, and
not at all otherwise. Only a remainder can be kept though it would fit, and only for dividends that
are closer to an end of the words than the divisor is to zero. -/
theorem combine_literals (op : DimOp) (m n : Word) :
    combine op (const m) (const n) =
      (if op = .floorMod ∧ m.RemainderLost n then binary op (const m) (const n)
      else ((op.word? m n).map const).getD (binary op (const m) (const n))) ∧
    (m.RemainderLost n → (DimOp.word? .floorMod m n).isSome ∧
      (m.toInt < -9223372036854775808 + n.toInt.natAbs ∨
        9223372036854775807 - n.toInt.natAbs < m.toInt)) := by
  refine ⟨?_, fun h => ⟨Word.isSome_word?_floorMod h.1, h.near_end⟩⟩
  rw [combine_const, DimOp.fold?_eq]
  split <;> rfl

/-- The least word leaves `1` when it is divided by `3`, but is not folded: three times the quotient
is one less than the least word. -/
theorem combine_literals_least :
    Word.RemainderLost (-9223372036854775808) 3 ∧
      combine .floorMod (const (-9223372036854775808)) (const 3) =
        binary .floorMod (const (-9223372036854775808)) (const 3) ∧
      (DimOp.word? .floorMod (-9223372036854775808) 3).isSome := by
  have hlost : Word.RemainderLost (-9223372036854775808) 3 := by decide +kernel
  obtain ⟨hcombine, hexact⟩ := combine_literals .floorMod (-9223372036854775808) 3
  rw [if_pos ⟨rfl, hlost⟩] at hcombine
  exact ⟨hlost, hcombine, (hexact hlost).1⟩

/-- Literals do not always fold to an exact result that fits. -/
theorem combine_literals_ne :
    DimOp.word? .floorMod (-9223372036854775808) 3 = some 1 ∧
      combine .floorMod (const (-9223372036854775808)) (const 3) ≠ const 1 := by
  decide +kernel

end Dim

end TensorTyping
