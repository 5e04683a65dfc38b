import TensorTyping.Proofs.NormalForm.Split
import TensorTyping.Proofs.NormalForm.Value

namespace TensorTyping.NormalForm

/-- A normal form made from dimensions by operations on normal forms. -/
inductive Derived : NormalForm → Prop
  | ofDim {d : Dim} {p : NormalForm} (h : ofDim? d = some p) : Derived p
  | add {p q r : NormalForm} (hp : Derived p) (hq : Derived q) (h : p.add? q = some r) : Derived r
  | neg {p q : NormalForm} (hp : Derived p) (h : p.neg? = some q) : Derived q
  | sub {p q r : NormalForm} (hp : Derived p) (hq : Derived q) (h : p.sub? q = some r) : Derived r
  | mul {p q r : NormalForm} (hp : Derived p) (hq : Derived q) (h : p.mul? q = some r) : Derived r
  | divExact {p q : NormalForm} {d : Word} (hp : Derived p) (h : p.divExact? d = some q) : Derived q
  | rest {p rest : NormalForm} {x : SizeVar} {c : Word} (hp : Derived p)
      (h : p.splitLinear? x = some (c, rest)) : Derived rest

variable {p q r rest : NormalForm} {x : SizeVar} {c : Word}

theorem Derived.canonical (h : Derived p) : p.Canonical := by
  induction h with
  | ofDim h => exact canonical_ofDim? h
  | add _ _ h ihp ihq => exact canonical_add? ihp ihq h
  | neg _ h ih => exact canonical_neg? ih h
  | sub _ _ h ihp ihq => exact canonical_sub? ihp ihq h
  | mul _ _ h => exact canonical_mul? h
  | divExact _ h ih => exact canonical_divExact? ih h
  | @rest p rest _ _ _ h ih =>
    obtain ⟨ts⟩ := rest
    obtain ⟨hterms, -⟩ := terms_splitLinear? h
    dsimp only at hterms
    rw [hterms]
    exact ih.sublist List.filter_sublist

/-- What holds of the atoms of dimensions holds of all atoms, as no operation makes new ones. -/
theorem Derived.over {A : Dim → Prop} (hA : ∀ d p, ofDim? d = some p → p.Over A) (h : Derived p) :
    p.Over A := by
  induction h with
  | ofDim h => exact hA _ _ h
  | add _ _ h ihp ihq => exact over_add? ihp ihq h
  | neg _ h ih => exact over_neg? ih h
  | sub _ _ h ihp ihq => exact over_sub? ihp ihq h
  | mul _ _ h ihp ihq => exact over_mul? ihp ihq h
  | divExact _ h ih => exact over_divExact? ih h
  | rest _ h ih => exact over_rest h ih

theorem Derived.containsAny_eq_false (h : Derived p) : p.Over (·.containsAny = false) :=
  h.over fun _ _ hp m hm a ha => (Dim.within_iff.mp ((within_ofDim? hp).2 m hm a ha)).1

/-- The terms are those of the rest and, unless it is zero, the multiple of the size variable. -/
theorem Canonical.perm_splitLinear? (hp : p.Canonical) (h : p.splitLinear? x = some (c, rest)) :
    p.terms.Perm ((if c = 0 then [] else [([.var x], c)]) ++ rest.terms) := by
  obtain ⟨hrest, hoccurring⟩ := terms_splitLinear? h
  have hmultiple : p.terms.filter (·.1.mentions x) = if c = 0 then [] else [([.var x], c)] := by
    obtain ⟨hc, hnil⟩ | hsingle := hoccurring
    · rw [hnil, if_pos hc]
    · have hmem : ([Dim.var x], c) ∈ p.terms.filter (·.1.mentions x) := by simp [hsingle]
      rw [hsingle, if_neg (hp.nonzero _ (List.mem_filter.mp hmem).1)]
  rw [← hmultiple, hrest]
  exact (List.filter_append_perm (·.1.mentions x) p.terms).symm

/-- The operations are those on the values of normal forms, with `ν` giving the values of atoms. -/
structure Computes (ν : Dim → Int) : Prop where
  add : ∀ {p q r : NormalForm}, p.add? q = some r → r.value ν = p.value ν + q.value ν
  neg : ∀ {p q : NormalForm}, p.neg? = some q → q.value ν = -p.value ν
  sub : ∀ {p q r : NormalForm}, p.sub? q = some r → r.value ν = p.value ν - q.value ν
  mul : ∀ {p q r : NormalForm}, p.mul? q = some r → r.value ν = p.value ν * q.value ν
  divExact : ∀ {p q : NormalForm} {d : Word}, p.divExact? d = some q →
    d ≠ 0 ∧ p.value ν = d.toInt * q.value ν
  splitLinear : ∀ {p rest : NormalForm} {x : SizeVar} {c : Word}, p.splitLinear? x = some (c, rest) →
    p.value ν = c.toInt * ν (.var x) + rest.value ν

theorem computes (ν : Dim → Int) : Computes ν where
  add := total_add?
  neg := total_neg?
  sub := total_sub?
  mul := value_mul?
  divExact := total_divExact?
  splitLinear := value_splitLinear?

/-- Normal forms made from dimensions have sorted products and no zero coefficients, and do not
mention `?`. A normal form has the value of the dimension it is made from, and each operation gives the
number it stands for. Splitting a size variable off leaves a rest whose atoms do not mention it.

The values of atoms may be chosen freely: where all atoms of a normal form have values for some sizes, it
has a value for them, and that is the one it has with any choice for other atoms. -/
theorem derived_exact :
    (∀ p, Derived p → p.Canonical ∧ p.Over (·.containsAny = false)) ∧
      (∀ d p, ofDim? d = some p → ∀ σ n, d.eval σ = some n → p.eval σ = some n) ∧
      (∀ ν, Computes ν) ∧
      (∀ ν σ, Dim.Extends ν σ → ∀ (p : NormalForm) n, p.eval σ = some n ↔
        p.Over (fun a => (a.eval σ).isSome) ∧ p.value ν = n) ∧
      ∀ p x c rest, Derived p → p.splitLinear? x = some (c, rest) →
        p.terms.Perm ((if c = 0 then [] else [([.var x], c)]) ++ rest.terms) ∧
          rest.Over (¬ ·.Mentions x) :=
  ⟨fun _ h => ⟨h.canonical, h.containsAny_eq_false⟩,
    fun _ _ h _ _ hn => eval_ofDim? h hn,
    computes,
    fun _ _ hν _ _ => eval_iff hν,
    fun _ _ _ _ hp h => ⟨hp.canonical.perm_splitLinear? h, over_splitLinear? h⟩⟩

/-- A quotient that cancels out: the difference has a value also where the divisor is zero. -/
theorem derived_exact_cancelled :
    let n : SizeVar := ⟨0, "n"⟩
    let quotient : Dim := .binary .floorDiv (.var ⟨1, "m"⟩) (.var ⟨2, "k"⟩)
    let p : NormalForm := ⟨[([.var n], 2), ([quotient], 1)]⟩
    let q : NormalForm := .atom quotient
    let r : NormalForm := ⟨[([.var n], 2)]⟩
    ofDim? (.binary .add (.binary .mul (.var n) (.const 2)) quotient) = some p ∧
      ofDim? quotient = some q ∧ p.sub? q = some r ∧ p.splitLinear? n = some (2, q) ∧
      (r.Canonical ∧ r.Over (·.containsAny = false)) ∧ q.Over (¬ ·.Mentions n) ∧
      (∀ ν, r.value ν = p.value ν - q.value ν) ∧ p.eval (fun _ => 0) = none ∧
      r.eval (fun _ => 0) = some 0 := by
  intro n quotient p q r
  have hp : ofDim? (.binary .add (.binary .mul (.var n) (.const 2)) quotient) = some p := by cbv
  have hq : ofDim? quotient = some q := by cbv
  have hr : p.sub? q = some r := by cbv
  have hsplit : p.splitLinear? n = some (2, q) := by cbv
  obtain ⟨hinvariant, -, hcomputes, heval, hrest⟩ := derived_exact
  have hzero := (heval _ _ (Dim.extends_valueOrZero fun _ => 0) r 0).mpr
    ⟨by simp [Over, r, Dim.eval], by cbv⟩
  exact ⟨hp, hq, hr, hsplit, hinvariant r (.sub (.ofDim hp) (.ofDim hq) hr),
    (hrest p n 2 q (.ofDim hp) hsplit).2, fun ν => (hcomputes ν).sub hr, by cbv, hzero⟩

end TensorTyping.NormalForm
