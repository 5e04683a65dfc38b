import TensorTyping.Proofs.Interval.Ends
import TensorTyping.Proofs.Ranges

namespace TensorTyping

theorem Verdict.eq_of_allows {v w : Verdict} {b : Bool} (hv : v.Allows b) (hw : w.Allows b)
    (hv' : v ≠ .unknown) (hw' : w ≠ .unknown) : v = w := by
  cases v <;> cases w <;> cases b <;> simp_all [Verdict.Allows]

namespace Interval

variable {i j : Interval} {op : Comparison} {k : Int}

/-- What an interval needs for a comparison of its members to zero to be decided. -/
def Decides (i : Interval) : Comparison → Prop
  | .eq | .ne => i.point? = some 0 ∨ i.below 0 ∨ i.above 0
  | .lt | .ge => i.below 0 ∨ i.above (-1)
  | .le | .gt => i.below 1 ∨ i.above 0

theorem compareZero_ne_unknown_iff : i.compareZero op ≠ .unknown ↔ i.Decides op := by
  cases op <;> simp only [compareZero, Decides] <;> grind

namespace Narrows

theorem below (h : i.Narrows j) (hj : j.below k = true) : i.below k = true := by
  obtain ⟨u, hu, hlt⟩ := below_iff.mp hj
  obtain ⟨u', hu', hle⟩ := h.upper u hu
  exact below_iff.mpr ⟨u', hu', Int.lt_of_le_of_lt hle hlt⟩

theorem above (h : i.Narrows j) (hj : j.above k = true) : i.above k = true := by
  obtain ⟨l, hl, hlt⟩ := above_iff.mp hj
  obtain ⟨l', hl', hle⟩ := h.lower l hl
  exact above_iff.mpr ⟨l', hl', Int.lt_of_lt_of_le hlt hle⟩

theorem point? (h : i.Narrows j) (hj : j.point? = some k) : i.point? = some k := by
  rw [h.eq_point hj, point?_point]

theorem decides (h : i.Narrows j) (hj : j.Decides op) : i.Decides op := by
  cases op with
  | eq | ne => exact hj.imp h.point? (Or.imp h.below h.above)
  | lt | le | gt | ge => exact hj.imp h.below h.above

/-- What is decided for an interval is decided alike for a narrower one. -/
theorem compareZero_eq (h : i.Narrows j) (hj : j.compareZero op ≠ .unknown) :
    i.compareZero op = j.compareZero op := by
  obtain ⟨n, hn⟩ := h.exists_mem
  refine Verdict.eq_of_allows (allows_compareZero op hn) (allows_compareZero op (h.mem hn)) ?_ hj
  exact compareZero_ne_unknown_iff.mpr (h.decides (compareZero_ne_unknown_iff.mp hj))

end Narrows

end Interval

namespace Ranges

/-- An interval that encloses the values of a dimension, with ends of any length. -/
def enclosureOfDim (known : Ranges) : Dim → Interval
  | .const n => .point n.toInt
  | .var x => known.intervalOfVar x
  | .any => .unbounded
  | .binary .add a b => (known.enclosureOfDim a).addExact (known.enclosureOfDim b)
  | .binary .sub a b => (known.enclosureOfDim a).addExact (known.enclosureOfDim b).mirror
  | .binary .mul a b => (known.enclosureOfDim a).mulExact (known.enclosureOfDim b)
  | .binary .min a b => (known.enclosureOfDim a).min (known.enclosureOfDim b)
  | .binary .max a b => (known.enclosureOfDim a).maxExact (known.enclosureOfDim b)
  | .binary .floorDiv a b =>
    match b.const? with
    | some d => if 0 < d then (known.enclosureOfDim a).floorDiv d.toInt else .unbounded
    | Option.none => .unbounded
  | .binary .floorMod _ b =>
    match b.const? with
    | some d => if 0 < d then .remainders d.toInt else .unbounded
    | Option.none => .unbounded

/-- An interval that encloses the values of a monomial, with ends of any length. -/
def enclosureOfMonomial (known : Ranges) (m : Monomial) : Interval :=
  m.foldl (fun acc a => acc.mulExact (known.enclosureOfDim a)) (.point 1)

/-- An interval that encloses the values of a normal form, with ends of any length. -/
def enclosureOf (known : Ranges) (p : NormalForm) : Interval :=
  p.terms.foldl (fun total t =>
    total.addExact ((known.enclosureOfMonomial t.1).scaleExact t.2.toInt)) (.point 0)

/-- Every range is kept or made smaller. -/
def Refines (known' known : Ranges) : Prop :=
  ∀ x, ∀ r ∈ known.range? x, ∃ r' ∈ known'.range? x,
    r.lo.toInt ≤ r'.lo.toInt ∧ r'.hi.toInt ≤ r.hi.toInt

variable {known known' : Ranges}

theorem refines_refl (known : Ranges) : known.Refines known :=
  fun _ r hr => ⟨r, hr, Int.le_refl _, Int.le_refl _⟩

theorem Refines.trans {known'' : Ranges} (h : known''.Refines known') (h' : known'.Refines known) :
    known''.Refines known := by
  intro x r hr
  obtain ⟨r', hr', hlo, hhi⟩ := h' x r hr
  obtain ⟨r'', hr'', hlo', hhi'⟩ := h x r' hr'
  exact ⟨r'', hr'', Int.le_trans hlo hlo', Int.le_trans hhi' hhi⟩

theorem refines_bind (known : Ranges) (x : SizeVar) (r : Range) :
    (known.bind x r).Refines known := by
  intro y old hold
  by_cases hy : y = x
  · subst hy
    simp only [bind, if_true, Option.mem_def.mp hold, Option.mem_some_iff, exists_eq_left']
    constructor
    · split
      · rename_i hle
        exact Int64.le_iff_toInt_le.mp hle
      · exact Int.le_refl _
    · split
      · exact Int.le_refl _
      · rename_i hnot
        rw [Int64.le_iff_toInt_le] at hnot
        omega
  · rw [range?_bind, if_neg hy]
    exact ⟨old, hold, Int.le_refl _, Int.le_refl _⟩

theorem refines_bindAll (known : Ranges) (bound : List (SizeVar × Range)) :
    (known.bindAll bound).Refines known := by
  induction bound generalizing known with
  | nil => exact refines_refl known
  | cons b bound ih => exact (ih (known.bind b.1 b.2)).trans (refines_bind known b.1 b.2)

section Narrows

variable (h : known'.Refines known) (hknown : known'.Consistent)
include h hknown

theorem narrows_intervalOfVar (x : SizeVar) :
    (known'.intervalOfVar x).Narrows (known.intervalOfVar x) := by
  unfold intervalOfVar
  cases hr : known.range? x with
  | none =>
    cases hr' : known'.range? x with
    | none => exact .unbounded
    | some r' =>
      refine ⟨?_, nofun, nofun⟩
      rintro l ⟨⟩ u ⟨⟩
      exact hknown x r' hr'
  | some r =>
    obtain ⟨r', hr', hlo, hhi⟩ := h x r hr
    rw [Option.mem_def.mp hr']
    refine ⟨?_, ?_, ?_⟩
    · rintro l ⟨⟩ u ⟨⟩
      exact hknown x r' hr'
    · rintro l ⟨⟩
      exact ⟨_, rfl, hlo⟩
    · rintro u ⟨⟩
      exact ⟨_, rfl, hhi⟩

theorem narrows_intervalOfDim (d : Dim) :
    (known'.enclosureOfDim d).Narrows (known.intervalOfDim d) := by
  induction d with
  | const n => exact .point n.toInt
  | var x => exact narrows_intervalOfVar h hknown x
  | any => exact .unbounded
  | binary op a b iha ihb =>
    cases op with
    | add => exact iha.add ihb
    | sub => exact iha.add ihb.mirror
    | mul => exact iha.mul ihb
    | min => exact iha.min ihb
    | max => exact iha.max ihb
    | floorDiv | floorMod =>
      unfold enclosureOfDim intervalOfDim
      cases b.const? with
      | none => exact .unbounded
      | some d =>
        dsimp only
        split
        · rename_i hd
          have hd : 0 < d.toInt := by simpa [Int64.lt_iff_toInt_lt] using hd
          first
            | exact iha.floorDiv hd
            | exact .remainders hd
        · exact .unbounded

theorem narrows_intervalOfMonomial (m : Monomial) :
    (known'.enclosureOfMonomial m).Narrows (known.intervalOfMonomial m) := by
  have hfold : ∀ {i i' : Interval}, i.Narrows i' →
      (m.foldl (fun acc a => acc.mulExact (known'.enclosureOfDim a)) i).Narrows
        (m.foldl (fun acc a => acc.mul (known.intervalOfDim a)) i') := by
    induction m with
    | nil => exact id
    | cons a m ih => exact fun hi => ih (hi.mul (narrows_intervalOfDim h hknown a))
  exact hfold (.point 1)

/-- An interval computed from narrower ranges is narrower, if its ends may have any length. -/
theorem narrows_intervalOf (p : NormalForm) :
    (known'.enclosureOf p).Narrows (known.intervalOf p) := by
  obtain ⟨ts⟩ := p
  have hfold : ∀ {i i' : Interval}, i.Narrows i' →
      (ts.foldl (fun total t =>
        total.addExact ((known'.enclosureOfMonomial t.1).scaleExact t.2.toInt)) i).Narrows
        (ts.foldl (fun total t =>
          total.add ((known.intervalOfMonomial t.1).scale t.2.toInt)) i') := by
    induction ts with
    | nil => exact id
    | cons t ts ih =>
      exact fun hi => ih (hi.add ((narrows_intervalOfMonomial h hknown t.1).scale t.2.toInt))
  exact hfold (.point 0)

/-- A decided comparison stays decided alike, or an end is given up for its length. -/
theorem compare_eq_or {op : Comparison} {lhs rhs : Dim}
    (hverdict : known.compare op lhs rhs ≠ .unknown) :
    known'.compare op lhs rhs = known.compare op lhs rhs ∨
      known'.compare op lhs rhs = .unknown ∧
        ∃ p, difference? lhs rhs = some p ∧ known'.intervalOf p ≠ known'.enclosureOf p := by
  unfold compare at hverdict ⊢
  cases hp : difference? lhs rhs with
  | none =>
    rw [hp] at hverdict
    exact absurd rfl hverdict
  | some p =>
    rw [hp] at hverdict
    dsimp only at hverdict ⊢
    cases hc : p.const? with
    | some c => exact Or.inl rfl
    | none =>
      rw [hc] at hverdict
      dsimp only at hverdict ⊢
      have hbefore := (narrows_intervalOf h hknown p).compareZero_eq hverdict
      have hafter := narrows_intervalOf (refines_refl known') hknown p
      by_cases hunknown : (known'.intervalOf p).compareZero op = .unknown
      · refine Or.inr ⟨hunknown, p, rfl, fun hexact => hverdict ?_⟩
        rw [← hbefore, ← hexact, hunknown]
      · exact Or.inl ((hafter.compareZero_eq hunknown).symm.trans hbefore)

end Narrows

/-- More knowledge never turns a decided comparison into the opposite. It leaves it undecided only
if an end of the interval for the difference is given up for its length, so that the interval is not
the one that integers of any length give. -/
theorem compare_bindAll (known : Ranges) (bound : List (SizeVar × Range)) (op : Comparison)
    (lhs rhs : Dim) (hconsistent : (known.bindAll bound).Consistent)
    (hverdict : known.compare op lhs rhs ≠ .unknown) :
    (known.bindAll bound).compare op lhs rhs = known.compare op lhs rhs ∨
      (known.bindAll bound).compare op lhs rhs = .unknown ∧
        ∃ p, difference? lhs rhs = some p ∧
          (known.bindAll bound).intervalOf p ≠ (known.bindAll bound).enclosureOf p :=
  compare_eq_or (refines_bindAll known bound) hconsistent hverdict

/-- A product of sizes, one of them cut off at zero, is not negative, and for narrower ranges of both
that is still known. -/
theorem compare_bindAll_product :
    let n : SizeVar := ⟨0, "n"⟩
    let m : SizeVar := ⟨1, "m"⟩
    let larger : Dim := .binary .max (.var n) (.const 0)
    let d : Dim := .binary .mul larger (.var m)
    let p : NormalForm := ⟨[([.var m, .binary .max (.const 0) (.var n)], 1)]⟩
    let known := none.bindAll [(m, ⟨3, 7⟩)]
    let known' := known.bindAll [(n, ⟨-2, 5⟩), (m, ⟨4, 100⟩)]
    known'.Consistent ∧ known.compare .ge d (.const 0) = .proven ∧
      difference? d (.const 0) = some p ∧ known'.intervalOf p = known'.enclosureOf p ∧
      known'.compare .ge d (.const 0) = .proven := by
  intro n m larger d p known known'
  have hadmits : known.Admits fun _ => 5 := admits_bindAll (admits_none _) (by decide)
  have hadmits' : known'.Admits fun _ => 5 := admits_bindAll hadmits (by decide)
  have hproven : known.compare .ge d (.const 0) = .proven := by cbv
  have hp : difference? d (.const 0) = some p := by cbv
  have hexact : known'.intervalOf p = known'.enclosureOf p := by cbv
  refine ⟨hadmits'.consistent, hproven, hp, hexact, ?_⟩
  obtain hkept | ⟨-, q, hq, hne⟩ := compare_bindAll known [(n, ⟨-2, 5⟩), (m, ⟨4, 100⟩)] .ge d
    (.const 0) hadmits'.consistent (by simp [hproven])
  · exact hkept.trans hproven
  · cases hp.symm.trans hq
    exact absurd hexact hne

/-- The third power of a size cut off at zero is not negative. For the greatest word it is too long
for its interval to have ends, and so that is not known any more. -/
theorem compare_bindAll_ne :
    let n : SizeVar := ⟨0, "n"⟩
    let larger : Dim := .binary .max (.var n) (.const 0)
    let d : Dim := .binary .mul (.binary .mul larger larger) larger
    let known := none.bindAll [(n, ⟨9223372036854775807, 9223372036854775807⟩)]
    known.Consistent ∧ none.compare .ge d (.const 0) = .proven ∧
      known.compare .ge d (.const 0) = .unknown := by
  intro n larger d known
  have hadmits : known.Admits fun _ => 9223372036854775807 :=
    admits_bindAll (admits_none _) (by decide)
  exact ⟨hadmits.consistent, by cbv, by cbv⟩

end Ranges

end TensorTyping
