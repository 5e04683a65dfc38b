import TensorTyping.Proofs.Interval.Ends
import TensorTyping.Proofs.Ranges.Deduction

namespace TensorTyping

/-- At most one size variable, as it is. -/
def Monomial.IsAffine (m : Monomial) : Prop := m = [] ∨ ∃ y, m = [.var y]

/-- A sum of multiples of size variables and a constant. -/
def NormalForm.IsAffine (p : NormalForm) : Prop := ∀ m ∈ p.terms.map (·.1), m.IsAffine

theorem Monomial.IsAffine.exists_eval {m : Monomial} (h : m.IsAffine) (σ : Assignment) :
    ∃ n, m.eval σ = some n := by
  obtain rfl | ⟨y, rfl⟩ := h
  · exact ⟨1, rfl⟩
  · exact ⟨_, rfl⟩

theorem Monomial.IsAffine.eq_of_mentions {m : Monomial} (h : m.IsAffine) {a : Dim} (ha : a ∈ m)
    {y : SizeVar} (hy : a.Mentions y) : m = [.var y] := by
  obtain rfl | ⟨z, rfl⟩ := h
  · cases ha
  · cases List.mem_singleton.mp ha
    cases hy
    rfl

theorem NormalForm.IsAffine.exists_eval {p : NormalForm} (h : p.IsAffine) (σ : Assignment) :
    ∃ n, p.eval σ = some n := by
  obtain ⟨ts⟩ := p
  induction ts with
  | nil => exact ⟨0, rfl⟩
  | cons t ts ih =>
    rw [IsAffine, List.map_cons, List.forall_mem_cons] at h
    obtain ⟨y, hy⟩ := h.1.exists_eval σ
    obtain ⟨z, hz⟩ := ih h.2
    exact ⟨_, eval_cons.mpr ⟨y, z, hy, hz, rfl⟩⟩

namespace Ranges

variable {known : Ranges} {σ τ : Assignment} {x : SizeVar}

theorem Admits.update (h : known.Admits σ) {n : Int} (hn : ∀ r ∈ known.range? x, r.Contains n) :
    known.Admits (Function.update σ x n) := by
  intro y r hr
  by_cases hy : y = x
  · subst hy
    rw [Function.update_self]
    exact hn r hr
  · rw [Function.update_of_ne hy]
    exact h y r hr

theorem Consistent.endsIn_intervalOfVar (h : known.Consistent) (y : SizeVar) :
    (known.intervalOfVar y).EndsIn fun n => ∃ σ, known.Admits σ ∧ σ y = n := by
  obtain ⟨σ, hσ⟩ := h.exists_admits
  have hupdate : ∀ n, (∀ r ∈ known.range? y, r.Contains n) → ∃ σ, known.Admits σ ∧ σ y = n :=
    fun n hn => ⟨_, hσ.update hn, Function.update_self y n σ⟩
  unfold intervalOfVar
  split
  · rename_i r hr
    have hends : ∀ n, n = r.lo.toInt ∨ n = r.hi.toInt → ∀ r ∈ known.range? y, r.Contains n := by
      intro n hn r' hr'
      obtain rfl := Option.some.inj (hr.symm.trans hr')
      have hle := h y r hr
      unfold Range.Contains
      omega
    rintro (_ | _) e ⟨⟩
    · exact hupdate _ (hends _ (Or.inl rfl))
    · exact hupdate _ (hends _ (Or.inr rfl))
  · rintro (_ | _) e ⟨⟩

/-- The ends of the interval for a multiple of at most one size variable are values of it. -/
theorem Consistent.endsIn_term (h : known.Consistent) {m : Monomial} (hm : m.IsAffine) (k : Int) :
    ((known.intervalOfMonomial m).scale k).EndsIn fun e =>
      ∃ σ n, known.Admits σ ∧ m.eval σ = some n ∧ k * n = e := by
  have hmonomial : (known.intervalOfMonomial m).EndsIn fun n =>
      ∃ σ, known.Admits σ ∧ m.eval σ = some n := by
    obtain rfl | ⟨y, rfl⟩ := hm
    · obtain ⟨σ, hσ⟩ := h.exists_admits
      exact Interval.endsIn_point ⟨σ, hσ, rfl⟩
    · have hvar := h.endsIn_intervalOfVar y
      obtain ⟨σ, hσ⟩ := h.exists_admits
      have hone := Interval.endsIn_point (S := (· = 1)) rfl
      refine (hone.mul ⟨1, rfl⟩ hvar ⟨_, σ, hσ, rfl⟩).imp ?_
      rintro _ ⟨_, _, rfl, ⟨τ, hτ, rfl⟩, rfl⟩
      exact ⟨τ, hτ, congrArg some (Int.mul_comm (τ y) 1)⟩
  obtain ⟨σ, hσ⟩ := h.exists_admits
  obtain ⟨n, hn⟩ := hm.exists_eval σ
  refine (hmonomial.scale ⟨n, σ, hσ, hn⟩ k).imp ?_
  rintro _ ⟨n, ⟨τ, hτ, hn⟩, rfl⟩
  exact ⟨τ, n, hτ, hn, Int.mul_comm k n⟩

/-- The size in a first term can be chosen apart from those in the others. -/
theorem Admits.exists_cons (hτ : known.Admits τ) (hσ : known.Admits σ) {t : Term} {ts : List Term}
    (ht : t.1.IsAffine) (hts : (NormalForm.mk ts).IsAffine) (hne : t.1 ∉ ts.map (·.1)) :
    ∃ ρ, known.Admits ρ ∧ t.1.eval ρ = t.1.eval τ ∧
      (NormalForm.mk ts).eval ρ = (NormalForm.mk ts).eval σ := by
  refine ⟨fun y => if t.1 = [.var y] then τ y else σ y, ?_, ?_, ?_⟩
  · intro y r hr
    dsimp only
    split
    · exact hτ y r hr
    · exact hσ y r hr
  · exact Monomial.eval_congr fun a ha y hy => if_pos (ht.eq_of_mentions ha hy)
  · refine NormalForm.eval_congr fun m hm a ha y hy => if_neg fun heq => ?_
    rw [heq, ← (hts m hm).eq_of_mentions ha hy] at hne
    exact hne hm

/-- An end of the enclosing interval is made of ends of what the terms are added to and of a value
of the terms. -/
private theorem exists_of_foldl_add (hknown : known.Consistent) {ts : List Term} {i : Interval}
    {upper : Bool} {e : Int} (hts : (NormalForm.mk ts).IsAffine) (hnodup : (ts.map (·.1)).Nodup)
    (he : (ts.foldl (fun total t => total.add ((known.intervalOfMonomial t.1).scale t.2.toInt))
      i).side? upper = some e) :
    ∃ a n σ, i.side? upper = some a ∧ known.Admits σ ∧ (NormalForm.mk ts).eval σ = some n ∧
      a + n = e := by
  induction ts generalizing i e with
  | nil =>
    obtain ⟨σ, hσ⟩ := hknown.exists_admits
    exact ⟨e, 0, σ, he, hσ, rfl, Int.add_zero e⟩
  | cons t ts ih =>
    rw [NormalForm.IsAffine, List.map_cons, List.forall_mem_cons] at hts
    rw [List.map_cons, List.nodup_cons] at hnodup
    obtain ⟨c, n, σ, hc, hσ, hn, rfl⟩ := ih hts.2 hnodup.2 he
    rw [Interval.side?_add] at hc
    obtain ⟨a, ha, hc⟩ := Option.bind_eq_some_iff.mp hc
    obtain ⟨w, hw, hc⟩ := Option.bind_eq_some_iff.mp hc
    obtain rfl := eq_of_within128? hc
    obtain ⟨τ, k, hτ, hk, rfl⟩ := hknown.endsIn_term hts.1 t.2.toInt upper w hw
    obtain ⟨ρ, hρ, hfirst, hrest⟩ := hτ.exists_cons hσ hts.1 hts.2 hnodup.1
    rw [hk] at hfirst
    rw [hn] at hrest
    exact ⟨a, _, ρ, ha, hρ, NormalForm.eval_cons.mpr ⟨k, n, hfirst, hrest, rfl⟩,
      (Int.add_assoc a _ n).symm⟩

/-- Every end of the interval that encloses an affine normal form is a value of it. -/
theorem Consistent.endsIn_intervalOf (h : known.Consistent) {p : NormalForm} (hp : p.IsAffine)
    (hnodup : (p.terms.map (·.1)).Nodup) :
    (known.intervalOf p).EndsIn fun e => ∃ σ, known.Admits σ ∧ p.eval σ = some e := by
  intro upper e he
  obtain ⟨a, n, σ, ha, hσ, hn, rfl⟩ := exists_of_foldl_add h hp hnodup he
  have hzero : a = 0 := by
    cases upper <;> exact (Option.some.inj ha).symm
  rw [hzero, Int.zero_add]
  exact ⟨σ, hσ, hn⟩

/-- A choice of sizes within the known ranges, but for one size that is given. -/
def AdmitsAt (known : Ranges) (x : SizeVar) (v : Int) (σ : Assignment) : Prop :=
  (∀ y, y ≠ x → ∀ r ∈ known.range? y, r.Contains (σ y)) ∧ σ x = v

theorem Admits.admitsAt (h : known.Admits σ) (x : SizeVar) (v : Int) :
    known.AdmitsAt x v (Function.update σ x v) := by
  refine ⟨fun y hy r hr => ?_, Function.update_self x v σ⟩
  rw [Function.update_of_ne hy]
  exact h y r hr

/-- Bounds deduced from an affine comparison contain exactly the integers for which the difference
of its sides stands in that comparison to zero, whatever the other sizes are. -/
theorem contains_iff_of_isAffine (hknown : known.Consistent) {op : Comparison} {lhs rhs : Dim}
    {p : NormalForm} {b : Bounds} (hp : difference? lhs rhs = some p) (haffine : p.IsAffine)
    (h : known.deduceBound? x (.cmp op lhs rhs) = some b) (v : Int) :
    b.Contains v ↔
      ∀ σ, known.AdmitsAt x v σ → ∃ n, p.eval σ = some n ∧ op.holds n 0 = true := by
  constructor
  · rintro hv σ ⟨hσ, rfl⟩
    obtain ⟨n, hn⟩ := haffine.exists_eval σ
    exact ⟨n, hn, holds_of_deduceBound? h hp hσ hv hn⟩
  · intro hall
    obtain ⟨p', k, op', q, e, hp', hisolates, hhardest, hb⟩ := exists_isolates_of_deduceBound? h
    obtain rfl := Option.some.inj (hp.symm.trans hp')
    have hq : q.IsAffine := fun m hm => haffine m (hisolates.monomials.subset hm)
    have hends := hknown.endsIn_intervalOf hq
      (hisolates.monomials.nodup (canonical_difference? hp).nodup)
    -- The hardest end is a value of the other side, and stays so when the size is put in.
    obtain ⟨σ, hσ, he⟩ := hhardest.isEnd.elim (hends false e) (hends true e)
    obtain ⟨n, hn, hzero⟩ := hall _ (hσ.admitsAt x v)
    obtain ⟨r, hr, hholds⟩ := hisolates.holds hn
    have hrest : q.eval (Function.update σ x v) = q.eval σ :=
      NormalForm.eval_congr fun m hm a ha y hy => Function.update_of_ne (fun hyx => by
        rw [hyx] at hy
        exact hisolates.absent m hm a ha hy) v σ
    obtain rfl : e = r := Option.some.inj ((hrest.trans he).symm.trans hr)
    rw [hholds, Function.update_self] at hzero
    exact (hb v).mpr hzero

/-- Bounds deduced from a comparison whose difference is affine are tight: where both sides have a
value for all other sizes within their ranges, the bounds contain exactly the integers that make the
comparison hold for all of them. The difference in normal form always has a value, and for it there
is nothing to presuppose. -/
theorem deduceBound?_tight (known : Ranges) (hknown : known.Consistent) (x : SizeVar)
    (op : Comparison) (lhs rhs : Dim) (p : NormalForm) (hp : difference? lhs rhs = some p)
    (haffine : p.IsAffine) (b : Bounds) (h : known.deduceBound? x (.cmp op lhs rhs) = some b)
    (v : Int) :
    (b.Contains v ↔
        ∀ σ, known.AdmitsAt x v σ → ∃ n, p.eval σ = some n ∧ op.holds n 0 = true) ∧
      ((∀ σ, known.AdmitsAt x v σ → ∃ t, (Cond.cmp op lhs rhs).eval σ = some t) →
        (b.Contains v ↔
          ∀ σ, known.AdmitsAt x v σ → (Cond.cmp op lhs rhs).eval σ = some true)) := by
  have hdifference := contains_iff_of_isAffine hknown hp haffine h v
  refine ⟨hdifference, fun hvalue => hdifference.trans (forall₂_congr fun σ hσ => ?_)⟩
  obtain ⟨t, ht⟩ := hvalue σ hσ
  obtain ⟨n, hn, rfl⟩ := eval_cmp_of_difference? hp ht
  rw [ht, hn]
  simp

/-- Twice the size has to exceed `3 + n - 5 * m`, which comes to eighteen at most, so nine is too
small. -/
theorem deduceBound?_tight_ceiling :
    let x : SizeVar := ⟨0, "x"⟩
    let n : SizeVar := ⟨1, "n"⟩
    let m : SizeVar := ⟨2, "m"⟩
    let known := none.bindAll [(n, ⟨0, 10⟩), (m, ⟨-1, 2⟩)]
    let lhs : Dim := .binary .sub (.const 3) (.binary .mul (.const 2) (.var x))
    let rhs : Dim := .binary .sub (.binary .mul (.const 5) (.var m)) (.var n)
    let p : NormalForm := ⟨[([], 3), ([.var x], -2), ([.var n], 1), ([.var m], -5)]⟩
    let b : Bounds := ⟨some 10, Option.none⟩
    known.Consistent ∧ difference? lhs rhs = some p ∧ p.IsAffine ∧
      known.deduceBound? x (.cmp .lt lhs rhs) = some b ∧
      (∀ σ, known.AdmitsAt x 10 σ → (Cond.cmp .lt lhs rhs).eval σ = some true) ∧
      ¬ ∀ σ, known.AdmitsAt x 9 σ → (Cond.cmp .lt lhs rhs).eval σ = some true := by
  intro x n m known lhs rhs p b
  have hadmits : known.Admits fun _ => 0 := admits_bindAll (admits_none _) (by decide)
  have hknown := hadmits.consistent
  have hp : difference? lhs rhs = some p := by cbv
  have haffine : p.IsAffine := by simp [p, NormalForm.IsAffine, Monomial.IsAffine]
  have hb : known.deduceBound? x (.cmp .lt lhs rhs) = some b := by cbv
  have htight v := (deduceBound?_tight known hknown x .lt lhs rhs p hp haffine b hb v).2
    fun σ _ => ⟨_, rfl⟩
  have hten : b.Contains 10 := by decide +kernel
  have hnine : ¬ b.Contains 9 := by decide +kernel
  exact ⟨hknown, hp, haffine, hb, (htight 10).mp hten, fun hall => hnine ((htight 9).mpr hall)⟩

/-- Where a side of the comparison has no value, the bounds are those of the difference: a product by
zero is dropped from it, although a division by zero may occur in that product. Whether the sizes
without a value are taken to violate the comparison or left aside, the bounds are not exact. -/
theorem deduceBound?_not_tight :
    let x : SizeVar := ⟨0, "x"⟩
    let n : SizeVar := ⟨1, "n"⟩
    let known := none.bindAll [(n, ⟨5, 10⟩)]
    let quotient : Dim := .binary .floorDiv (.var n) (.binary .sub (.var n) (.const 5))
    let lhs : Dim := .binary .add (.var x) (.binary .mul (.const 0) quotient)
    let p : NormalForm := ⟨[([.var x], 1), ([.var n], -1)]⟩
    let b : Bounds := ⟨Option.none, some 5⟩
    known.Consistent ∧ difference? lhs (.var n) = some p ∧ p.IsAffine ∧
      known.deduceBound? x (.cmp .le lhs (.var n)) = some b ∧
      (¬ ∀ v, b.Contains v ↔
        ∀ σ, known.AdmitsAt x v σ → (Cond.cmp .le lhs (.var n)).eval σ = some true) ∧
      ¬ ∀ v, b.Contains v ↔
        ∀ σ, known.AdmitsAt x v σ → (Cond.cmp .le lhs (.var n)).eval σ ≠ some false := by
  intro x n known quotient lhs p b
  have hadmits : known.Admits fun _ => 5 := admits_bindAll (admits_none _) (by decide)
  have hrange : known.range? n = some ⟨5, 10⟩ := by decide +kernel
  have haffine : p.IsAffine := by simp [p, NormalForm.IsAffine, Monomial.IsAffine]
  refine ⟨hadmits.consistent, by cbv, haffine, by cbv, fun htight => ?_, fun htight => ?_⟩
  · -- The divisor is zero at the least size.
    have hfive : b.Contains 5 := by decide +kernel
    have hvalue := (htight 5).mp hfive _ (hadmits.admitsAt x 5)
    exact absurd hvalue (by decide)
  · -- The divisor is zero at no other size, and these are six at least.
    have hsix : ¬ b.Contains 6 := by decide +kernel
    refine hsix ((htight 6).mpr fun σ hσ hfalse => ?_)
    have hn : 5 ≤ σ n := (hσ.1 n (by decide) _ hrange).1
    have hne : σ n - 5 ≠ 0 := by
      intro hzero
      simp [Cond.eval, Dim.eval, DimOp.eval, lhs, quotient, hzero] at hfalse
    simp [Cond.eval, Dim.eval, DimOp.eval, lhs, quotient, hne, hσ.2, Comparison.holds] at hfalse
    omega

end Ranges

end TensorTyping
