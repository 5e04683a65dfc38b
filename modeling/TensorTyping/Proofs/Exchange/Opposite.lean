import Mathlib.Algebra.Ring.Int.Defs
import Mathlib.Data.List.Sort
import TensorTyping.Proofs.NormalForm.Value

namespace TensorTyping

/-- Only the least word has no opposite. -/
theorem Word.exists_neg? {w : Word} (h : w ≠ Int64.minValue) : ∃ k, neg? w = some k := by
  have hlo := Int64.le_toInt w
  have hhi := Int64.toInt_lt w
  have hne : w.toInt ≠ -9223372036854775808 := fun hw => h (Int64.toInt_inj.mp hw)
  cases hk : neg? w with
  | some k => exact ⟨k, rfl⟩
  | none => obtain hk | hk := ofInt?_eq_none_iff.mp hk <;> omega

namespace NormalForm

variable {p q r d e : NormalForm} {m n : Monomial}

/-- The coefficient of a monomial in some terms. -/
def coefficient (ts : List Term) (m : Monomial) : Int :=
  (ts.map fun t => if t.1 = m then t.2.toInt else 0).sum

theorem coefficient_cons (t : Term) (ts : List Term) (m : Monomial) :
    coefficient (t :: ts) m = (if t.1 = m then t.2.toInt else 0) + coefficient ts m := by
  rw [coefficient, List.map_cons, List.sum_cons, ← coefficient]

theorem coefficient_eq_zero {ts : List Term} (h : ∀ t ∈ ts, t.1 ≠ m) : coefficient ts m = 0 := by
  induction ts with
  | nil => rfl
  | cons t ts ih =>
    rw [List.forall_mem_cons] at h
    rw [coefficient_cons, if_neg h.1, ih h.2, Int.zero_add]

theorem coefficient_eq_total (ts : List Term) (m : Monomial) :
    coefficient ts m = total (fun n => if n = m then 1 else 0) ts := by
  simp [coefficient, total]

theorem coefficient_insert? {c : Word} {ts ts' : List Term} (h : insert? m c ts = some ts') :
    coefficient ts' n = coefficient ts n + if m = n then c.toInt else 0 := by
  rw [coefficient_eq_total, coefficient_eq_total, total_insert? h, mul_ite, Int.mul_one, Int.mul_zero]

theorem coefficient_add? (h : p.add? q = some r) :
    coefficient r.terms m = coefficient p.terms m + coefficient q.terms m := by
  simp only [coefficient_eq_total, total_add? h]

/-- The terms of an opposite are those of before with opposite coefficients. -/
theorem forall₂_of_neg? (h : p.neg? = some q) :
    List.Forall₂ (fun t u => u.1 = t.1 ∧ u.2.toInt = -t.2.toInt) p.terms q.terms := by
  obtain ⟨qs, hqs, rfl⟩ := Option.map_eq_some_iff.mp h
  dsimp only
  clear h
  generalize p.terms = ts at hqs
  induction ts generalizing qs with
  | nil =>
    cases hqs
    exact .nil
  | cons t ts ih =>
    simp only [List.mapM_cons, Option.pure_def, Option.bind_eq_bind, Option.bind_eq_some_iff,
      Option.map_eq_some_iff, Option.some.injEq] at hqs
    obtain ⟨u, ⟨c, hc, rfl⟩, us, hus, rfl⟩ := hqs
    exact .cons ⟨rfl, Word.ofInt?_eq_some_iff.mp hc⟩ (ih us hus)

/-- An opposite is constant exactly if what it is the opposite of is. -/
theorem const?_neg? (h : p.neg? = some q) :
    p.const? = none ∧ q.const? = none ∨
      ∃ m n, p.const? = some m ∧ q.const? = some n ∧ n.toInt = -m.toInt := by
  have hterms := forall₂_of_neg? h
  obtain ⟨ts⟩ := p
  obtain ⟨us⟩ := q
  cases hterms with
  | nil => exact Or.inr ⟨0, 0, rfl, rfl, rfl⟩
  | @cons t u ts us htu hrest =>
    obtain ⟨m, k⟩ := t
    obtain ⟨n, l⟩ := u
    obtain ⟨rfl, hl⟩ := htu
    cases hrest with
    | nil =>
      cases n with
      | nil => exact Or.inr ⟨k, l, rfl, rfl, hl⟩
      | cons => exact Or.inl ⟨rfl, rfl⟩
    | cons =>
      cases n <;> exact Or.inl ⟨rfl, rfl⟩

/-- There is an opposite if all coefficients have one. -/
theorem exists_neg? (h : ∀ t ∈ p.terms, ∃ c, Word.neg? t.2 = some c) : ∃ q, p.neg? = some q := by
  obtain ⟨ts⟩ := p
  induction ts with
  | nil => exact ⟨⟨[]⟩, rfl⟩
  | cons t ts ih =>
    rw [List.forall_mem_cons] at h
    obtain ⟨c, hc⟩ := h.1
    obtain ⟨q, hq⟩ := ih h.2
    obtain ⟨qs, hqs, rfl⟩ := Option.map_eq_some_iff.mp hq
    exact ⟨⟨(t.1, c) :: qs⟩, by simp [neg?, hc, hqs]⟩

theorem exists_neg?_of_ne (h : ∀ t ∈ p.terms, t.2 ≠ Int64.minValue) : ∃ q, p.neg? = some q :=
  exists_neg? fun t ht => Word.exists_neg? (h t ht)

theorem coefficient_neg? (h : p.neg? = some q) :
    coefficient q.terms m = -coefficient p.terms m := by
  simp only [coefficient_eq_total, total_neg? h]

theorem coefficient_sub? (h : p.sub? q = some r) :
    coefficient r.terms m = coefficient p.terms m - coefficient q.terms m := by
  simp only [coefficient_eq_total, total_sub? h]

namespace Canonical

theorem pairwise (h : p.Canonical) : p.terms.Pairwise fun t u => compare t.1 u.1 = .lt :=
  List.pairwise_map.mp h.increasing

theorem coefficient_of_mem (h : p.Canonical) {t : Term} (ht : t ∈ p.terms) :
    coefficient p.terms t.1 = t.2.toInt := by
  obtain ⟨ts⟩ := p
  induction ts with
  | nil => cases ht
  | cons u ts ih =>
    obtain ⟨hlt, -, -, hts⟩ := canonical_cons.mp h
    have hne : ∀ v ∈ ts, v.1 ≠ u.1 := by
      intro v hv heq
      have hself := hlt v hv
      rw [heq, Std.ReflOrd.compare_self] at hself
      cases hself
    rw [coefficient_cons]
    obtain rfl | ht := List.mem_cons.mp ht
    · rw [if_pos rfl, coefficient_eq_zero hne, Int.add_zero]
    · rw [if_neg (hne t ht).symm, Int.zero_add]
      exact ih hts ht

/-- The terms are the monomials with a coefficient, along with it. -/
theorem mem_iff (h : p.Canonical) (t : Term) :
    t ∈ p.terms ↔ coefficient p.terms t.1 = t.2.toInt ∧ t.2 ≠ 0 := by
  refine ⟨fun ht => ⟨h.coefficient_of_mem ht, h.nonzero t ht⟩, fun ⟨hcoeff, hne⟩ => ?_⟩
  have hmem : ∃ u ∈ p.terms, u.1 = t.1 := by
    by_contra hnone
    rw [coefficient_eq_zero fun u hu heq => hnone ⟨u, hu, heq⟩] at hcoeff
    exact hne (Word.toInt_eq_zero_iff.mp hcoeff.symm)
  obtain ⟨u, hu, heq⟩ := hmem
  have hcoeff' := h.coefficient_of_mem hu
  rw [heq, hcoeff] at hcoeff'
  rwa [← Prod.ext heq (Int64.toInt_inj.mp hcoeff').symm]

/-- Canonical normal forms with the same coefficients are the same. -/
theorem ext (hp : p.Canonical) (hq : q.Canonical)
    (h : ∀ m, coefficient p.terms m = coefficient q.terms m) : p = q := by
  let before (t u : Term) : Prop := compare t.1 u.1 = .lt
  have : Std.Antisymm before :=
    ⟨fun t u htu hut => absurd (Std.OrientedCmp.gt_of_lt htu) (by rw [hut]; nofun)⟩
  have : Std.Irrefl before := ⟨fun t ht => by
    have hself : compare t.1 t.1 = .eq := Std.ReflOrd.compare_self
    exact absurd (hself.symm.trans ht) nofun⟩
  have hterms : p.terms = q.terms := hp.pairwise.eq_of_mem_iff hq.pairwise fun t => by
    rw [hp.mem_iff, hq.mem_iff, h]
  exact congrArg NormalForm.mk hterms

/-- A normal form has an opposite if the coefficients of another one are the opposites. -/
theorem neg?_of_coefficient (hp : p.Canonical) (hq : q.Canonical)
    (h : ∀ m, coefficient q.terms m = -coefficient p.terms m) : p.neg? = some q := by
  have hall : ∀ t ∈ p.terms, ∃ c, Word.neg? t.2 = some c := by
    intro t ht
    have hcoeff : coefficient q.terms t.1 = -t.2.toInt := by rw [h, hp.coefficient_of_mem ht]
    have hmem : ∃ u ∈ q.terms, u.1 = t.1 := by
      by_contra hnone
      rw [coefficient_eq_zero fun u hu heq => hnone ⟨u, hu, heq⟩] at hcoeff
      exact hp.nonzero t ht (Word.toInt_eq_zero_iff.mp (by omega))
    obtain ⟨u, hu, heq⟩ := hmem
    refine ⟨u.2, Word.ofInt?_eq_some_iff.mpr ?_⟩
    rw [← hcoeff, ← heq, hq.coefficient_of_mem hu]
  obtain ⟨r, hr⟩ := exists_neg? hall
  have heq : r = q := (canonical_neg? hp hr).ext hq fun m => by rw [coefficient_neg? hr, h]
  rw [hr, heq]

/-- Of two normal forms, one difference is the opposite of the other. -/
theorem neg?_sub? (hp : p.Canonical) (hq : q.Canonical) (hd : p.sub? q = some d)
    (he : q.sub? p = some e) : d.neg? = some e := by
  refine (canonical_sub? hp hq hd).neg?_of_coefficient (canonical_sub? hq hp he) fun m => ?_
  rw [coefficient_sub? hd, coefficient_sub? he, Int.neg_sub]

end Canonical

end NormalForm

end TensorTyping
