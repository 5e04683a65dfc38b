import TensorTyping.Proofs.Ranges.Narrowing

namespace TensorTyping

/-- Verdicts on the six comparisons fit together as the comparisons of two integers do. -/
structure Comparison.Coherent (verdict : Comparison → Verdict) : Prop where
  ne : verdict .ne = (verdict .eq).negate
  ge : verdict .ge = (verdict .lt).negate
  gt : verdict .gt = (verdict .le).negate
  lt_iff : verdict .lt = .proven ↔ verdict .le = .proven ∧ verdict .ne = .proven
  gt_iff : verdict .gt = .proven ↔ verdict .ge = .proven ∧ verdict .ne = .proven
  eq_iff : verdict .eq = .proven ↔ verdict .le = .proven ∧ verdict .ge = .proven

open Comparison (Coherent)

theorem coherent_unknown : Coherent fun _ => .unknown := by
  constructor <;> simp [Verdict.negate]

theorem Verdict.negate_ofBool (b : Bool) : (ofBool b).negate = ofBool !b := by
  cases b <;> rfl

theorem Verdict.ofBool_eq_proven_iff {b : Bool} : ofBool b = .proven ↔ b = true := by
  cases b <;> simp [ofBool]

theorem coherent_ofBool_holds (m n : Int) : Coherent fun op => .ofBool (op.holds m n) := by
  constructor <;>
    simp only [Verdict.negate_ofBool, Verdict.ofBool_eq_proven_iff, Comparison.holds,
      ← decide_not, decide_eq_true_eq] <;>
    first
      | omega
      | exact congrArg Verdict.ofBool (decide_eq_decide.mpr (by omega))

namespace Interval

variable {i : Interval} {n k : Int}

/-- The only member is zero where the ends exclude all other integers. -/
theorem point?_eq_zero_iff (hn : n ∈ i) :
    i.point? = some 0 ↔ i.below 1 = true ∧ i.above (-1) = true := by
  constructor
  · intro h
    rw [eq_point_of_point? h]
    exact ⟨rfl, rfl⟩
  · rintro ⟨hbelow, habove⟩
    obtain ⟨u, hu, hlt⟩ := below_iff.mp hbelow
    obtain ⟨l, hl, hlt'⟩ := above_iff.mp habove
    have hle := Int.le_trans (hn.1 l hl) (hn.2 u hu)
    obtain rfl : u = 0 := by omega
    obtain rfl : l = 0 := by omega
    have hpoint : i = point 0 := congr (congrArg Interval.mk hl) hu
    rw [hpoint]
    rfl

theorem below_mono (h : i.below n = true) (hnk : n ≤ k) : i.below k = true := by
  obtain ⟨u, hu, hlt⟩ := below_iff.mp h
  exact below_iff.mpr ⟨u, hu, Int.lt_of_lt_of_le hlt hnk⟩

theorem above_anti (h : i.above n = true) (hkn : k ≤ n) : i.above k = true := by
  obtain ⟨l, hl, hlt⟩ := above_iff.mp h
  exact above_iff.mpr ⟨l, hl, Int.lt_of_le_of_lt hkn hlt⟩

/-- An interval with a member is not below one integer and above the one before. -/
theorem above_eq_false_of_below (hn : n ∈ i) (h : i.below k = true) :
    i.above (k - 1) = false := by
  rw [Bool.eq_false_iff]
  intro habove
  have hlt := lt_of_below hn h
  have hlt' := lt_of_above hn habove
  omega

/-- What an interval with a member says of the six comparisons to zero fits together. -/
theorem coherent_compareZero (hn : n ∈ i) : Coherent fun op => i.compareZero op := by
  have hpoint := point?_eq_zero_iff hn
  have hbelow : i.below 0 = true → i.below 1 = true := fun h => below_mono h (by decide)
  have habove : i.above 0 = true → i.above (-1) = true := fun h => above_anti h (by decide)
  have hzero : i.below 0 = true → i.above (-1) = false := above_eq_false_of_below hn
  have hone : i.below 1 = true → i.above 0 = false := above_eq_false_of_below hn
  constructor <;> simp only [compareZero] <;> grind [Verdict.negate]

end Interval

namespace Ranges

variable {known : Ranges}

/-- Every interval that is computed from ranges with members has a member. -/
theorem Consistent.exists_mem_intervalOf (h : known.Consistent) (p : NormalForm) :
    ∃ n, n ∈ known.intervalOf p := by
  have hnarrows := narrows_intervalOf (refines_refl known) h p
  obtain ⟨n, hn⟩ := hnarrows.exists_mem
  exact ⟨n, hnarrows.mem hn⟩

/-- Where every registered range has a member, the verdicts on the six comparisons of two dimensions
fit together. Without that they need not: a size between one and zero is found to be at most zero, at
least zero and different from zero. -/
theorem compare_coherent (known : Ranges) (hknown : known.Consistent) (lhs rhs : Dim) :
    Coherent fun op => known.compare op lhs rhs := by
  unfold compare
  cases difference? lhs rhs with
  | none => exact coherent_unknown
  | some p =>
    dsimp only
    cases p.const? with
    | some d => exact coherent_ofBool_holds d.toInt 0
    | none =>
      obtain ⟨n, hn⟩ := hknown.exists_mem_intervalOf p
      exact Interval.coherent_compareZero hn

/-- The remainder of a size less a quotient is not positive for these ranges, and it may be zero: of
the six comparisons to zero, two are decided. -/
theorem compare_coherent_remainder :
    let n : SizeVar := ⟨0, "n"⟩
    let m : SizeVar := ⟨1, "m"⟩
    let known := none.bindAll [(m, ⟨4, 9⟩)]
    let d : Dim := .binary .sub (.binary .floorMod (.var n) (.const 3))
      (.binary .floorDiv (.var m) (.const 2))
    known.Consistent ∧ known.compare .le d (.const 0) = .proven ∧
      known.compare .eq d (.const 0) = .unknown ∧ known.compare .gt d (.const 0) = .refuted ∧
      known.compare .ge d (.const 0) ≠ .proven := by
  intro n m known d
  have hadmits : known.Admits fun _ => 5 := admits_bindAll (admits_none _) (by decide)
  have hle : known.compare .le d (.const 0) = .proven := by cbv
  have heq : known.compare .eq d (.const 0) = .unknown := by cbv
  have hcoherent := compare_coherent known hadmits.consistent d (.const 0)
  refine ⟨hadmits.consistent, hle, heq, ?_, fun hge => ?_⟩
  · have hgt := hcoherent.gt
    rw [hgt, hle]
    rfl
  · have hproven := hcoherent.eq_iff.mpr ⟨hle, hge⟩
    rw [heq] at hproven
    cases hproven

end Ranges

end TensorTyping
