import Mathlib.Algebra.MvPolynomial.Funext
import TensorTyping.Proofs.NormalForm.Value
import TensorTyping.Proofs.NormalForm.Within
import TensorTyping.Proofs.Ranges

namespace TensorTyping

open MvPolynomial (coeff monomial coeff_monomial)

/-- Built from literals and size variables by sums, differences and products. -/
def Dim.IsPolynomial : Dim → Prop
  | const _ | var _ => True
  | any => False
  | binary op a b => (op = .add ∨ op = .sub ∨ op = .mul) ∧ a.IsPolynomial ∧ b.IsPolynomial

/-- A size variable by itself. -/
def Dim.IsVar (d : Dim) : Prop := ∃ x, d = var x

theorem Dim.IsPolynomial.exists_eval {d : Dim} (h : d.IsPolynomial) (σ : Assignment) :
    ∃ n, d.eval σ = some n := by
  induction d with
  | const n => exact ⟨n.toInt, rfl⟩
  | var x => exact ⟨σ x, rfl⟩
  | any => exact h.elim
  | binary op a b iha ihb =>
    obtain ⟨hop, ha, hb⟩ := h
    obtain ⟨m, hm⟩ := iha ha
    obtain ⟨n, hn⟩ := ihb hb
    obtain rfl | rfl | rfl := hop
    · exact ⟨m + n, by simp [Dim.eval, hm, hn, DimOp.eval]⟩
    · exact ⟨m - n, by simp [Dim.eval, hm, hn, DimOp.eval]⟩
    · exact ⟨m * n, by simp [Dim.eval, hm, hn, DimOp.eval]⟩

namespace Monomial

variable {m n : Monomial}

/-- How often each size variable is a factor. -/
noncomputable def exponents : Monomial → SizeVar →₀ ℕ
  | [] => 0
  | .var x :: m => Finsupp.single x 1 + exponents m
  | _ :: m => exponents m

theorem exponents_apply (m : Monomial) (x : SizeVar) : m.exponents x = m.count (.var x) := by
  induction m with
  | nil => rfl
  | cons a m ih =>
    cases a with
    | var y =>
      by_cases hxy : y = x
      · simp [exponents, ih, hxy, Nat.add_comm]
      · simp [exponents, ih, hxy]
    | _ => simp [exponents, ih]

/-- Sorted products of size variables with the same exponents are the same. -/
theorem eq_of_exponents_eq (hm : ∀ a ∈ m, a.IsVar) (hn : ∀ a ∈ n, a.IsVar)
    (hsm : m.Pairwise fun a b => (compare a b).isLE) (hsn : n.Pairwise fun a b => (compare a b).isLE)
    (h : exponents m = exponents n) : m = n := by
  have hperm : m.Perm n := by
    refine List.perm_iff_count.mpr fun a => ?_
    by_cases ha : a.IsVar
    · obtain ⟨x, rfl⟩ := ha
      rw [← exponents_apply, ← exponents_apply, h]
    · rw [List.count_eq_zero_of_not_mem fun hmem => ha (hm a hmem),
        List.count_eq_zero_of_not_mem fun hmem => ha (hn a hmem)]
  refine hperm.eq_of_pairwise (fun a b _ _ hab hba => ?_) hsm hsn
  exact Std.LawfulEqCmp.eq_of_compare (Std.OrientedCmp.isLE_antisymm hab hba)

theorem exponents_ne_zero (hm : ∀ a ∈ m, a.IsVar) (hne : m ≠ []) : m.exponents ≠ 0 := by
  intro h
  obtain ⟨a, m, rfl⟩ := List.exists_cons_of_ne_nil hne
  obtain ⟨x, rfl⟩ := hm a List.mem_cons_self
  have hx := exponents_apply (Dim.var x :: m) x
  rw [h, List.count_cons_self] at hx
  simp at hx

theorem eval_eq_prod (hm : ∀ a ∈ m, a.IsVar) (σ : Assignment) :
    m.eval σ = some ((exponents m).prod fun x k => σ x ^ k) := by
  induction m with
  | nil => rfl
  | cons a m ih =>
    rw [List.forall_mem_cons] at hm
    obtain ⟨⟨x, rfl⟩, hm⟩ := hm
    have hprod : (exponents (Dim.var x :: m)).prod (fun x k => σ x ^ k) =
        σ x * (exponents m).prod fun x k => σ x ^ k := by
      have hsingle : (Finsupp.single x 1).prod (fun x k => σ x ^ k) = σ x := by simp
      rw [exponents, Finsupp.prod_add_index' (fun _ => pow_zero _) fun _ _ _ => pow_add _ _ _,
        hsingle]
    rw [hprod]
    exact eval_cons.mpr ⟨_, _, rfl, ih hm, rfl⟩

end Monomial

namespace NormalForm

variable {p : NormalForm}

/-- Only size variables are atoms of the normal form of such a dimension. -/
theorem over_isVar_of_ofDim? {d : Dim} (hd : d.IsPolynomial) (h : ofDim? d = some p) :
    p.Over Dim.IsVar := by
  induction d generalizing p with
  | const n =>
    cases h
    exact over_constant n
  | var x =>
    cases h
    exact over_atom ⟨x, rfl⟩
  | any => cases h
  | binary op a b iha ihb =>
    obtain ⟨hop, ha, hb⟩ := hd
    simp only [ofDim?, Option.bind_eq_bind, Option.bind_eq_some_iff] at h
    obtain ⟨q, hq, r, hr, h⟩ := h
    obtain rfl | rfl | rfl := hop
    · exact over_add? (iha ha hq) (ihb hb hr) h
    · exact over_sub? (iha ha hq) (ihb hb hr) h
    · exact over_mul? (iha ha hq) (ihb hb hr) h

/-- The normal form as a polynomial in the size variables. -/
noncomputable def toPoly (p : NormalForm) : MvPolynomial SizeVar ℤ :=
  (p.terms.map fun t => monomial t.1.exponents t.2.toInt).sum

theorem eval_eq_eval_toPoly (hp : p.Over Dim.IsVar) (σ : Assignment) :
    p.eval σ = some (MvPolynomial.eval σ p.toPoly) := by
  rcases p with ⟨ts⟩
  induction ts with
  | nil => simp [toPoly, eval_nil]
  | cons t ts ih =>
    rw [Over, List.map_cons, List.forall_mem_cons] at hp
    refine eval_cons.mpr ⟨_, _, Monomial.eval_eq_prod hp.1 σ, ih hp.2, ?_⟩
    simp [toPoly, MvPolynomial.eval_monomial]

private theorem coeff_eq_zero {ts : List Term} {e : SizeVar →₀ ℕ}
    (h : ∀ t ∈ ts, t.1.exponents ≠ e) : coeff e (toPoly ⟨ts⟩) = 0 := by
  induction ts with
  | nil => simp [toPoly]
  | cons t ts ih =>
    rw [List.forall_mem_cons] at h
    simpa [toPoly, coeff_monomial, h.1] using ih h.2

/-- The coefficients of a canonical normal form are those of its polynomial. -/
theorem coeff_toPoly (hp : p.Canonical) (hvars : p.Over Dim.IsVar) {t : Term} (ht : t ∈ p.terms) :
    coeff t.1.exponents p.toPoly = t.2.toInt := by
  rcases p with ⟨ts⟩
  induction ts with
  | nil => cases ht
  | cons u ts ih =>
    obtain ⟨hlt, hsorted, -, hts⟩ := canonical_cons.mp hp
    rw [Over, List.map_cons, List.forall_mem_cons, List.forall_mem_map] at hvars
    have hne : ∀ v ∈ ts, v.1.exponents ≠ u.1.exponents := by
      intro v hv heq
      have huv := Monomial.eq_of_exponents_eq hvars.1 (hvars.2 v hv) hsorted (hts.sorted v hv) heq.symm
      have hself := hlt v hv
      rw [huv, Std.ReflOrd.compare_self] at hself
      cases hself
    obtain rfl | ht := List.mem_cons.mp ht
    · have hrest := coeff_eq_zero hne
      simpa [toPoly] using hrest
    · have hrest := ih hts (List.forall_mem_map.mpr hvars.2) ht
      simpa [toPoly, coeff_monomial, (hne t ht).symm] using hrest

/-- A canonical normal form without symbolic terms is constant. -/
theorem const?_of_terms (hp : p.Canonical) (h : ∀ t ∈ p.terms, t.1 = []) :
    ∃ c, p.const? = some c := by
  rcases p with ⟨ts⟩
  rcases ts with - | ⟨t, - | ⟨u, ts⟩⟩
  · exact ⟨0, rfl⟩
  · obtain ⟨m, c⟩ := t
    obtain rfl : m = [] := h (m, c) List.mem_cons_self
    exact ⟨c, rfl⟩
  · have hlt := (canonical_cons.mp hp).1 u List.mem_cons_self
    exact absurd (h u (by simp)) (ne_nil_of_compare_lt hlt)

/-- A normal form over size variables that has one value for all sizes is that constant: a
polynomial that is constant on all integers has no further coefficients. -/
theorem const?_of_eval_eq (hp : p.Canonical) (hvars : p.Over Dim.IsVar) {d : Int}
    (h : ∀ σ, p.eval σ = some d) : ∃ c, p.const? = some c ∧ c.toInt = d := by
  have hpoly : p.toPoly = MvPolynomial.C d := by
    refine MvPolynomial.funext fun σ => ?_
    rw [MvPolynomial.eval_C]
    exact Option.some.inj ((eval_eq_eval_toPoly hvars σ).symm.trans (h σ))
  have hterms : ∀ t ∈ p.terms, t.1 = [] := by
    intro t ht
    by_contra hne
    have hcoeff := coeff_toPoly hp hvars ht
    rw [hpoly, MvPolynomial.coeff_C,
      if_neg (Monomial.exponents_ne_zero (hvars _ (List.mem_map_of_mem ht)) hne).symm] at hcoeff
    exact hp.nonzero t ht (Word.toInt_eq_zero_iff.mp hcoeff.symm)
  obtain ⟨c, hc⟩ := const?_of_terms hp hterms
  refine ⟨c, hc, Option.some.inj ?_⟩
  rw [← eval_of_const? (σ := fun _ => 0) hc, h]

end NormalForm

namespace Ranges

/-- Where nothing is known, a product of size variables is anything. -/
theorem intervalOfMonomial_none {m : Monomial} (hm : ∀ a ∈ m, a.IsVar) (hne : m ≠ []) :
    none.intervalOfMonomial m = .unbounded := by
  have hvar : ∀ a ∈ m, none.intervalOfDim a = .unbounded := by
    intro a ha
    obtain ⟨x, rfl⟩ := hm a ha
    rfl
  obtain ⟨a, m, rfl⟩ := List.exists_cons_of_ne_nil hne
  rw [List.forall_mem_cons] at hvar
  rw [intervalOfMonomial, List.foldl_cons, hvar.1]
  refine List.foldlRecOn m _ (motive := (· = Interval.unbounded)) rfl fun i hi b hb => ?_
  rw [hi, hvar.2 b hb]
  rfl

private theorem foldl_add_unbounded (ts : List Term) (known : Ranges) :
    ts.foldl (fun total t => total.add ((known.intervalOfMonomial t.1).scale t.2.toInt))
      Interval.unbounded = .unbounded :=
  List.foldlRecOn ts _ (motive := (· = Interval.unbounded)) rfl fun i hi t _ => by
    rw [hi]
    rfl

/-- Where nothing is known, a normal form with a symbolic term is anything. -/
theorem intervalOf_none {p : NormalForm} (hp : p.Canonical) (hvars : p.Over Dim.IsVar) {t : Term}
    (ht : t ∈ p.terms) (hne : t.1 ≠ []) : none.intervalOf p = .unbounded := by
  have hm := intervalOfMonomial_none (hvars _ (List.mem_map_of_mem ht)) hne
  have hcoeff : t.2.toInt ≠ 0 := fun h => hp.nonzero t ht (Word.toInt_eq_zero_iff.mp h)
  have hscale : Interval.unbounded.scale t.2.toInt = .unbounded := by
    obtain hneg | hpos := Int.lt_or_gt_of_ne hcoeff
    · simp [Interval.scale, Interval.unbounded, hneg, Int.lt_asymm hneg]
    · simp [Interval.scale, Interval.unbounded, hpos]
  obtain ⟨ts, us, hsplit⟩ := List.append_of_mem ht
  have hadd : ∀ i : Interval, i.add .unbounded = .unbounded := by
    rintro ⟨- | l, - | h⟩ <;> rfl
  rw [intervalOf, hsplit, List.foldl_append, List.foldl_cons, hm, hscale, hadd]
  exact foldl_add_unbounded us none

theorem compareZero_unbounded (op : Comparison) : Interval.unbounded.compareZero op = .unknown := by
  cases op <;> rfl

/-- Where nothing is known and no coefficient overflows, two dimensions built from literals and
size variables by sums, differences and products are compared exactly. If they differ by the same
number for all sizes, that number decides every comparison; otherwise none is decided. -/
theorem compare_polynomials {lhs rhs : Dim} (hlhs : lhs.IsPolynomial) (hrhs : rhs.IsPolynomial)
    {p q r : NormalForm} (hp : NormalForm.ofDim? lhs = some p) (hq : NormalForm.ofDim? rhs = some q)
    (hr : p.sub? q = some r) :
    (∀ d : Int, (∀ σ, (Dim.binary .sub lhs rhs).eval σ = some d) →
      ∀ op, none.compare op lhs rhs = .ofBool (op.holds d 0)) ∧
    ((¬ ∃ d : Int, ∀ σ, (Dim.binary .sub lhs rhs).eval σ = some d) →
      ∀ op, none.compare op lhs rhs = .unknown) ∧
    (none.compare .eq lhs rhs = .proven ↔ ∀ σ, lhs.eval σ = rhs.eval σ) := by
  have hcanonical := NormalForm.canonical_sub? (NormalForm.canonical_ofDim? hp)
    (NormalForm.canonical_ofDim? hq) hr
  have hvars := NormalForm.over_sub? (NormalForm.over_isVar_of_ofDim? hlhs hp)
    (NormalForm.over_isVar_of_ofDim? hrhs hq) hr
  have hdifference : difference? lhs rhs = some r := by
    simp [difference?, (NormalForm.within_ofDim? hp).1, (NormalForm.within_ofDim? hq).1, hp, hq, hr]
  have heval : ∀ σ, (Dim.binary .sub lhs rhs).eval σ = r.eval σ := by
    intro σ
    obtain ⟨m, hm⟩ := hlhs.exists_eval σ
    obtain ⟨n, hn⟩ := hrhs.exists_eval σ
    rw [eval_difference? hm hn hdifference]
    simp [Dim.eval, hm, hn, DimOp.eval]
  have hconst : ∀ d : Int, (∀ σ, (Dim.binary .sub lhs rhs).eval σ = some d) →
      ∀ op, none.compare op lhs rhs = .ofBool (op.holds d 0) := by
    intro d hd op
    obtain ⟨c, hc, rfl⟩ := NormalForm.const?_of_eval_eq hcanonical hvars fun σ => heval σ ▸ hd σ
    simp [compare, hdifference, hc]
  have hunknown : (¬ ∃ d : Int, ∀ σ, (Dim.binary .sub lhs rhs).eval σ = some d) →
      ∀ op, none.compare op lhs rhs = .unknown := by
    intro hd op
    have hnone : r.const? = Option.none := by
      refine Option.eq_none_iff_forall_ne_some.mpr fun c hc => hd ⟨c.toInt, fun σ => ?_⟩
      rw [heval, NormalForm.eval_of_const? hc]
    obtain ⟨t, ht, hne⟩ : ∃ t ∈ r.terms, t.1 ≠ [] := by
      by_contra hall
      obtain ⟨c, hc⟩ := NormalForm.const?_of_terms hcanonical (by simpa using hall)
      rw [hc] at hnone
      cases hnone
    simp [compare, hdifference, hnone, intervalOf_none hcanonical hvars ht hne,
      compareZero_unbounded]
  refine ⟨hconst, hunknown, fun hproven σ => ?_, fun hagree => ?_⟩
  · obtain ⟨m, hm⟩ := hlhs.exists_eval σ
    obtain ⟨n, hn⟩ := hrhs.exists_eval σ
    have hallows := allows_compare (admits_none σ) .eq hm hn
    rw [hproven] at hallows
    rw [hm, hn, show m = n by simpa [Verdict.Allows, Comparison.holds] using hallows]
  · rw [hconst 0 (fun σ => ?_) .eq]
    · rfl
    · obtain ⟨n, hn⟩ := hrhs.exists_eval σ
      simp [Dim.eval, hagree, hn, DimOp.eval]

/-- A product of two sums exceeds what is left of it without its constant by that constant. -/
theorem compare_polynomials_product :
    let n : Dim := .var ⟨0, "n"⟩
    let m : Dim := .var ⟨1, "m"⟩
    let lhs : Dim := .binary .mul (.binary .add n (.const 1)) (.binary .add m (.const 2))
    let rhs : Dim := .binary .add m (.binary .mul n (.binary .add m (.const 2)))
    let q : NormalForm := ⟨[([n], 2), ([n, m], 1), ([m], 1)]⟩
    let p : NormalForm := ⟨([], 2) :: q.terms⟩
    let r : NormalForm := .constant 2
    lhs.IsPolynomial ∧ rhs.IsPolynomial ∧ NormalForm.ofDim? lhs = some p ∧
      NormalForm.ofDim? rhs = some q ∧ p.sub? q = some r ∧
      (∀ σ, (Dim.binary .sub lhs rhs).eval σ = some 2) ∧
      ∀ op, none.compare op lhs rhs = .ofBool (op.holds 2 0) := by
  intro n m lhs rhs q p r
  have hlhs : lhs.IsPolynomial := by simp [lhs, n, m, Dim.IsPolynomial]
  have hrhs : rhs.IsPolynomial := by simp [rhs, n, m, Dim.IsPolynomial]
  have hp : NormalForm.ofDim? lhs = some p := by cbv
  have hq : NormalForm.ofDim? rhs = some q := by cbv
  have hr : p.sub? q = some r := by cbv
  have heval : ∀ σ, (Dim.binary .sub lhs rhs).eval σ = some 2 := by
    intro σ
    simp only [lhs, rhs, n, m, Dim.eval, DimOp.eval, Option.bind_eq_bind, Option.bind_some,
      Option.some.injEq]
    change (σ ⟨0, "n"⟩ + 1) * (σ ⟨1, "m"⟩ + 2) - (σ ⟨1, "m"⟩ + σ ⟨0, "n"⟩ * (σ ⟨1, "m"⟩ + 2)) = 2
    ring
  exact ⟨hlhs, hrhs, hp, hq, hr, heval, (compare_polynomials hlhs hrhs hp hq hr).1 2 heval⟩

end Ranges

end TensorTyping
