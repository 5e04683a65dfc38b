namespace TensorTyping

/-- A signed 64-bit integer: the type of literal dimensions and of coefficients. -/
abbrev Word := Int64

namespace Word

/-- The word that denotes `n`, if `n` fits. -/
def ofInt? (n : Int) : Option Word :=
  if -9223372036854775808 ≤ n ∧ n ≤ 9223372036854775807 then some (Int64.ofInt n) else none

/-- Fitting is exactly being denoted by a word. -/
theorem ofInt?_eq_some_iff {n : Int} {w : Word} : ofInt? n = some w ↔ w.toInt = n := by
  unfold ofInt?
  split
  · rename_i h
    have hn : (Int64.ofInt n).toInt = n := Int64.toInt_ofInt_of_le (by omega) (by omega)
    constructor
    · rintro ⟨⟩
      exact hn
    · intro hw
      rw [Option.some.injEq, ← Int64.toInt_inj, hn, hw]
  · rename_i h
    have hlo := Int64.le_toInt w
    have hhi := Int64.toInt_lt w
    constructor
    · simp
    · omega

@[simp] theorem ofInt?_toInt (w : Word) : ofInt? w.toInt = some w :=
  ofInt?_eq_some_iff.mpr rfl

/-- Nothing is rejected except for its size. -/
theorem ofInt?_eq_none_iff {n : Int} :
    ofInt? n = none ↔ n < -9223372036854775808 ∨ 9223372036854775807 < n := by
  unfold ofInt?
  split <;> simp <;> omega

/-- The sum, if it fits. -/
def add? (a b : Word) : Option Word := ofInt? (a.toInt + b.toInt)

/-- The difference, if it fits. -/
def sub? (a b : Word) : Option Word := ofInt? (a.toInt - b.toInt)

/-- The product, if it fits. -/
def mul? (a b : Word) : Option Word := ofInt? (a.toInt * b.toInt)

/-- The opposite, if it fits; only the least word has none. -/
def neg? (a : Word) : Option Word := ofInt? (-a.toInt)

/-- The quotient rounded toward zero, if the divisor is not zero and the quotient fits. -/
def div? (a b : Word) : Option Word := if b = 0 then none else ofInt? (a.toInt.tdiv b.toInt)

/-- The quotient rounded down, if the divisor is not zero and the quotient fits. It is computed from
    the quotient rounded toward zero, which is too large by one where something remains and the
    signs differ. -/
def floorDiv? (a b : Word) : Option Word := do
  let quotient ← div? a b
  if a.toInt.tmod b.toInt ≠ 0 ∧ decide (a < 0) ≠ decide (b < 0) then sub? quotient 1
  else some quotient

/-- The remainder of the division that rounds down. It is computed as `a - (a // b) * b`, and
    there is no result when the quotient or the product on the way does not fit, even if the
    remainder itself would. -/
def floorMod? (a b : Word) : Option Word := do
  let quotient ← floorDiv? a b
  let product ← mul? quotient b
  sub? a product

/-- Rounding down from rounding toward zero. -/
private theorem fdiv_eq_tdiv {a b : Word} (hb : b ≠ 0) :
    a.toInt.fdiv b.toInt = a.toInt.tdiv b.toInt -
      if a.toInt.tmod b.toInt ≠ 0 ∧ decide (a < 0) ≠ decide (b < 0) then 1 else 0 := by
  have hzero : b.toInt ≠ 0 := fun h => hb (Int64.toInt_inj.mp h)
  rw [Int.fdiv_eq_tdiv]
  by_cases hdvd : b.toInt ∣ a.toInt
  · rw [if_pos hdvd, if_neg fun h => h.1 (Int.tmod_eq_zero_of_dvd hdvd)]
  · have hrest : a.toInt.tmod b.toInt ≠ 0 := fun h => hdvd (Int.dvd_of_tmod_eq_zero h)
    rw [if_neg hdvd]
    simp only [hrest, ne_eq, not_false_eq_true, true_and, decide_eq_decide, Int64.lt_iff_toInt_lt,
      Int64.toInt_zero]
    obtain hneg | hpos := Int.lt_or_gt_of_ne hzero
    · have hsign := Int.sign_eq_neg_one_of_neg hneg
      grind
    · have hsign := Int.sign_eq_one_of_pos hpos
      grind

/-- A quotient that does not fit leaves no remainder: its divisor is `-1`. -/
private theorem tmod_eq_zero_of_tdiv {a b : Word} (h : ofInt? (a.toInt.tdiv b.toInt) = none) :
    a.toInt.tmod b.toInt = 0 := by
  have hlo := Int64.le_toInt a
  have hhi := Int64.toInt_lt a
  have habs : (a.toInt.tdiv b.toInt).natAbs = a.toInt.natAbs / b.toInt.natAbs := Int.natAbs_tdiv ..
  have hlarge : 9223372036854775808 ≤ a.toInt.natAbs / b.toInt.natAbs := by
    obtain h | h := ofInt?_eq_none_iff.mp h <;> omega
  have hunit : ¬ 2 ≤ b.toInt.natAbs := by
    intro htwo
    have hhalf := Nat.div_le_div_left (a := a.toInt.natAbs) htwo (by decide)
    omega
  have hzero : b.toInt.natAbs ≠ 0 := by
    intro hzero
    rw [hzero, Nat.div_zero] at hlarge
    omega
  refine Int.tmod_eq_zero_of_dvd (Int.natAbs_dvd_natAbs.mp ?_)
  rw [show b.toInt.natAbs = 1 by omega]
  exact Nat.one_dvd _

/-- The correction makes the quotient exact, and nothing is lost on the way. -/
theorem floorDiv?_eq (a b : Word) :
    floorDiv? a b = if b = 0 then none else ofInt? (a.toInt.fdiv b.toInt) := by
  unfold floorDiv? div?
  by_cases hb : b = 0
  · rw [if_pos hb, if_pos hb]
    rfl
  · rw [if_neg hb, if_neg hb, fdiv_eq_tdiv hb]
    cases h : ofInt? (a.toInt.tdiv b.toInt) with
    | none =>
      rw [if_neg fun hrest => hrest.1 (tmod_eq_zero_of_tdiv h), Int.sub_zero, h]
      rfl
    | some q =>
      rw [← ofInt?_eq_some_iff.mp h, Option.bind_eq_bind, Option.bind_some]
      split
      · rfl
      · rw [Int.sub_zero, ofInt?_toInt]

end Word

/-- `n` itself, if it fits a signed 128-bit word. Bounds outside are treated as absent. -/
def within128? (n : Int) : Option Int :=
  if -170141183460469231731687303715884105728 ≤ n ∧ n ≤ 170141183460469231731687303715884105727
  then some n else none

/-- Keeping a bound never changes it. -/
theorem eq_of_within128? {n m : Int} (h : within128? n = some m) : n = m := by
  unfold within128? at h
  split at h <;> simp_all

end TensorTyping
