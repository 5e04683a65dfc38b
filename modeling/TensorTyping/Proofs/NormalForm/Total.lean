import Mathlib.Algebra.BigOperators.Ring.List
import Mathlib.Algebra.Module.Submodule.Lattice
import Mathlib.Data.List.Permutation
import Mathlib.Tactic.Ring
import TensorTyping.Proofs.NormalForm.Canonical

-- `cbv` evaluates `≤` and `Prod.snd` by equations that `Submodule.Lattice` and `Permutation` hold.

namespace TensorTyping

namespace NormalForm

variable {p q r : NormalForm} {g : Monomial → Int} {ts us : List Term}

/-- What every step of a partial fold adds to some quantity, the whole fold adds up. -/
theorem sum_of_foldlM {α β : Type} {step : β → α → Option β} {f : β → Int} {g : α → Int}
    (hstep : ∀ b x b', step b x = some b' → f b' = f b + g x) {xs : List α} {b b' : β}
    (h : xs.foldlM step b = some b') : f b' = f b + (xs.map g).sum := by
  induction xs generalizing b with
  | nil =>
    cases h
    exact (Int.add_zero _).symm
  | cons x xs ih =>
    rw [List.foldlM_cons, Option.bind_eq_bind, Option.bind_eq_some_iff] at h
    obtain ⟨mid, hmid, h⟩ := h
    rw [ih h, hstep b x mid hmid, List.map_cons, List.sum_cons, Int.add_assoc]

/-- The sum of terms, with `g` giving what the monomials stand for. -/
def total (g : Monomial → Int) (ts : List Term) : Int := (ts.map fun t => t.2.toInt * g t.1).sum

@[simp] theorem total_nil : total g [] = 0 := rfl

@[simp] theorem total_cons (t : Term) (ts : List Term) :
    total g (t :: ts) = t.2.toInt * g t.1 + total g ts := by
  rw [total, List.map_cons, List.sum_cons, ← total]

@[simp] theorem total_append : total g (ts ++ us) = total g ts + total g us := by
  rw [total, List.map_append, List.sum_append, ← total, ← total]

theorem total_perm (h : ts.Perm us) : total g ts = total g us :=
  (h.map _).sum_eq

theorem total_insert? {m : Monomial} {c : Word} (h : insert? m c ts = some us) :
    total g us = total g ts + c.toInt * g m := by
  induction ts generalizing us with
  | nil =>
    cases h
    split
    · rename_i hc
      simp [hc]
    · simp
  | cons t ts ih =>
    rw [insert?] at h
    split at h
    · cases h
      split
      · rename_i hc
        simp [hc]
      · rw [total_cons, Int.add_comm]
    · rename_i heq
      obtain rfl : m = t.1 := Std.LawfulEqCmp.eq_of_compare heq
      obtain ⟨s, hs, rfl⟩ := Option.map_eq_some_iff.mp h
      have hsum : s.toInt = t.2.toInt + c.toInt := Word.ofInt?_eq_some_iff.mp hs
      have hterms : total g (if s = 0 then ts else (t.1, s) :: ts) = s.toInt * g t.1 + total g ts := by
        split
        · rename_i hzero
          simp [hzero]
        · exact total_cons _ _
      rw [hterms, hsum, total_cons, Int.add_mul]
      omega
    · obtain ⟨rest, hrest, rfl⟩ := Option.map_eq_some_iff.mp h
      rw [total_cons, total_cons, ih hrest, Int.add_assoc]

theorem total_add? (h : p.add? q = some r) :
    total g r.terms = total g p.terms + total g q.terms := by
  obtain ⟨rs, hrs, rfl⟩ := Option.map_eq_some_iff.mp h
  exact sum_of_foldlM (f := total g) (g := fun t : Term => t.2.toInt * g t.1)
    (fun _ _ _ => total_insert?) hrs

theorem total_mul? (h : p.mul? q = some r) :
    total g r.terms = (p.terms.map fun t => (q.terms.map fun u =>
      t.2.toInt * u.2.toInt * g (t.1.mul u.1)).sum).sum := by
  obtain ⟨rs, hrs, rfl⟩ := Option.map_eq_some_iff.mp h
  have hsum := sum_of_foldlM (f := total g) (g := fun t => (q.terms.map fun u =>
    t.2.toInt * u.2.toInt * g (t.1.mul u.1)).sum) ?_ hrs
  · exact hsum.trans (Int.zero_add _)
  · intro acc t acc' hrow
    refine sum_of_foldlM (f := total g) ?_ hrow
    intro acc u acc' hstep
    obtain ⟨c, hc, hstep⟩ := Option.bind_eq_some_iff.mp hstep
    have hproduct : c.toInt = t.2.toInt * u.2.toInt := Word.ofInt?_eq_some_iff.mp hc
    rw [total_insert? hstep, hproduct]

/-- Terms whose coefficients are all divided by a number make up a sum divided by it. -/
theorem total_mapM {step : Term → Option Term} {k : Int}
    (hstep : ∀ t u, step t = some u → u.1 = t.1 ∧ t.2.toInt = k * u.2.toInt)
    (h : ts.mapM step = some us) : total g ts = k * total g us := by
  induction ts generalizing us with
  | nil =>
    cases h
    exact (Int.mul_zero k).symm
  | cons t ts ih =>
    simp only [List.mapM_cons, Option.pure_def, Option.bind_eq_bind, Option.bind_eq_some_iff,
      Option.some.injEq] at h
    obtain ⟨u, hu, us, hus, rfl⟩ := h
    obtain ⟨hmonomial, hcoeff⟩ := hstep t u hu
    rw [total_cons, total_cons, ih hus, hmonomial, hcoeff, Int.mul_add, Int.mul_assoc]

theorem total_neg? (h : p.neg? = some q) : total g q.terms = -total g p.terms := by
  obtain ⟨qs, hqs, rfl⟩ := Option.map_eq_some_iff.mp h
  have htotal := total_mapM (g := g) (k := -1) ?_ hqs
  · rw [htotal, Int.neg_one_mul, Int.neg_neg]
  · intro t u hu
    obtain ⟨c, hc, rfl⟩ := Option.map_eq_some_iff.mp hu
    have hneg : c.toInt = -t.2.toInt := Word.ofInt?_eq_some_iff.mp hc
    exact ⟨rfl, by rw [hneg, Int.neg_one_mul, Int.neg_neg]⟩

theorem total_sub? (h : p.sub? q = some r) :
    total g r.terms = total g p.terms - total g q.terms := by
  obtain ⟨q', hq', h⟩ := Option.bind_eq_some_iff.mp h
  rw [total_add? h, total_neg? hq', Int.sub_eq_add_neg]

theorem total_divExact? {d : Word} (h : p.divExact? d = some q) :
    d ≠ 0 ∧ total g p.terms = d.toInt * total g q.terms := by
  unfold divExact? at h
  split at h
  · cases h
  rename_i hd
  obtain ⟨qs, hqs, rfl⟩ := Option.map_eq_some_iff.mp h
  refine ⟨hd, total_mapM (fun t u hu => ?_) hqs⟩
  split at hu
  · rename_i hdvd
    obtain ⟨c, hc, rfl⟩ := Option.map_eq_some_iff.mp hu
    have hquot : c.toInt = t.2.toInt / d.toInt := Word.ofInt?_eq_some_iff.mp hc
    exact ⟨rfl, by rw [hquot, Int.mul_ediv_cancel' hdvd]⟩
  · cases hu

end NormalForm

/-- The product, with `ν` giving the values of the atoms. -/
def Monomial.value (ν : Dim → Int) (m : Monomial) : Int := (m.map ν).prod

/-- The sum of the terms, with `ν` giving the values of the atoms. It is there for any `ν`, also where
    sizes give some atom no value. -/
def NormalForm.value (ν : Dim → Int) (p : NormalForm) : Int := total (Monomial.value ν) p.terms

variable {ν : Dim → Int}

theorem Monomial.value_mul (m n : Monomial) : (m.mul n).value ν = m.value ν * n.value ν := by
  have hperm : (m.mul n).Perm (m ++ n) := List.mergeSort_perm _ _
  rw [value, (hperm.map ν).prod_eq, List.map_append, List.prod_append, ← value, ← value]

theorem NormalForm.value_mul? {p q r : NormalForm} (h : p.mul? q = some r) :
    r.value ν = p.value ν * q.value ν := by
  have hrow (t : Term) : (q.terms.map fun u => t.2.toInt * u.2.toInt * (t.1.mul u.1).value ν).sum =
      t.2.toInt * t.1.value ν * q.value ν := by
    rw [value, total, ← List.sum_map_mul_left]
    refine congrArg List.sum (List.map_congr_left fun u _ => ?_)
    rw [Monomial.value_mul]
    ring
  rw [value, total_mul? h]
  simp only [hrow]
  rw [List.sum_map_mul_right, ← total, ← value]

end TensorTyping
