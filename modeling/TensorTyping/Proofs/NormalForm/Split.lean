import TensorTyping.Proofs.NormalForm.Eval

namespace TensorTyping

theorem Dim.eval_congr {σ τ : Assignment} {d : Dim} (h : ∀ y, d.Mentions y → σ y = τ y) :
    d.eval σ = d.eval τ := by
  induction d with
  | const n => rfl
  | var y => exact congrArg some (h y rfl)
  | any => rfl
  | binary op a b iha ihb =>
    rw [eval, eval, iha fun y hy => h y (Or.inl hy), ihb fun y hy => h y (Or.inr hy)]

theorem Monomial.eval_congr {σ τ : Assignment} {m : Monomial}
    (h : ∀ a ∈ m, ∀ y, a.Mentions y → σ y = τ y) : m.eval σ = m.eval τ := by
  induction m with
  | nil => rfl
  | cons a m ih =>
    rw [List.forall_mem_cons] at h
    rw [eval, eval, Dim.eval_congr h.1, ih h.2]

/-- The value of a normal form depends only on the sizes in it. -/
theorem NormalForm.eval_congr {σ τ : Assignment} {p : NormalForm}
    (h : p.Over fun a => ∀ y, a.Mentions y → σ y = τ y) : p.eval σ = p.eval τ := by
  obtain ⟨ts⟩ := p
  induction ts with
  | nil => rfl
  | cons t ts ih =>
    rw [Over, List.map_cons, List.forall_mem_cons] at h
    have hrest : (mk ts).eval σ = (mk ts).eval τ := ih h.2
    rw [eval] at hrest ⊢
    rw [eval] at hrest ⊢
    rw [List.foldr_cons, List.foldr_cons, Monomial.eval_congr h.1, hrest]

theorem Monomial.mentions_iff {m : Monomial} {x : SizeVar} :
    m.mentions x = true ↔ ∃ a ∈ m, a.Mentions x := by
  simp [mentions, Dim.mem_freeVars]

namespace NormalForm

variable {σ : Assignment} {p rest : NormalForm} {x : SizeVar} {c : Word} {n : Int}

/-- What remains are the terms without the size variable, and the others come to its multiple. -/
theorem terms_splitLinear? (h : p.splitLinear? x = some (c, rest)) :
    rest.terms = p.terms.filter (!·.1.mentions x) ∧
      (c = 0 ∧ p.terms.filter (·.1.mentions x) = [] ∨
        p.terms.filter (·.1.mentions x) = [([.var x], c)]) := by
  unfold splitLinear? at h
  rw [List.partition_eq_filter_filter] at h
  dsimp only at h
  split at h
  · rename_i hoccurring
    cases h
    exact ⟨rfl, Or.inl ⟨rfl, hoccurring⟩⟩
  · rename_i y k hoccurring
    cases h
    have hmem : ([Dim.var y], c) ∈ p.terms.filter (·.1.mentions x) := by simp [hoccurring]
    obtain ⟨a, ha, hmentions⟩ := Monomial.mentions_iff.mp (List.mem_filter.mp hmem).2
    obtain rfl := List.mem_singleton.mp ha
    obtain rfl : y = x := hmentions
    exact ⟨rfl, Or.inr hoccurring⟩
  · cases h

/-- The size variable does not occur in what remains. -/
theorem over_splitLinear? (h : p.splitLinear? x = some (c, rest)) :
    rest.Over (¬ ·.Mentions x) := by
  rw [Over, (terms_splitLinear? h).1, List.forall_mem_map]
  intro t ht a ha hmentions
  have hnot := (List.mem_filter.mp ht).2
  rw [Monomial.mentions_iff.mpr ⟨a, ha, hmentions⟩] at hnot
  cases hnot

theorem sublist_splitLinear? (h : p.splitLinear? x = some (c, rest)) :
    (rest.terms.map (·.1)).Sublist (p.terms.map (·.1)) := by
  rw [(terms_splitLinear? h).1]
  exact List.filter_sublist.map _

/-- A split normal form is the multiple of the size variable and what remains, whatever the
monomials stand for. -/
theorem total_splitLinear? {g : Monomial → Int} (h : p.splitLinear? x = some (c, rest)) :
    total g p.terms = c.toInt * g [.var x] + total g rest.terms := by
  obtain ⟨hrest, hoccurring⟩ := terms_splitLinear? h
  rw [← total_perm (List.filter_append_perm (·.1.mentions x) p.terms), total_append, ← hrest]
  obtain ⟨rfl, hnil⟩ | hsingle := hoccurring
  · simp [hnil]
  · simp [hsingle]

theorem value_splitLinear? {ν : Dim → Int} (h : p.splitLinear? x = some (c, rest)) :
    p.value ν = c.toInt * ν (.var x) + rest.value ν := by
  rw [value, total_splitLinear? h, Monomial.value, List.map_singleton, List.prod_singleton, value]

theorem over_rest {A : Dim → Prop} (h : p.splitLinear? x = some (c, rest)) (hp : p.Over A) :
    rest.Over A :=
  fun m hm => hp m ((sublist_splitLinear? h).subset hm)

theorem over_of_rest {A : Dim → Prop} (h : p.splitLinear? x = some (c, rest))
    (hx : A (.var x)) (hrest : rest.Over A) : p.Over A := by
  obtain ⟨hterms, hoccurring⟩ := terms_splitLinear? h
  refine List.forall_mem_map.mpr fun t ht => ?_
  cases hmentions : t.1.mentions x with
  | false =>
    refine hrest _ (List.mem_map_of_mem ?_)
    rw [hterms, List.mem_filter, hmentions]
    exact ⟨ht, rfl⟩
  | true =>
    have hmem : t ∈ p.terms.filter (·.1.mentions x) := List.mem_filter.mpr ⟨ht, hmentions⟩
    obtain ⟨-, hnil⟩ | hsingle := hoccurring
    · rw [hnil] at hmem
      cases hmem
    · rw [hsingle, List.mem_singleton] at hmem
      rw [hmem, List.forall_mem_singleton]
      exact hx

theorem eval_splitLinear? (h : p.splitLinear? x = some (c, rest)) :
    p.eval σ = some n ↔ ∃ r, rest.eval σ = some r ∧ c.toInt * σ x + r = n := by
  have hvar : Dim.valueOrZero σ (.var x) = σ x := rfl
  rw [eval_eq_some_iff, value_splitLinear? h, hvar]
  constructor
  · rintro ⟨hover, rfl⟩
    exact ⟨_, eval_eq_some_iff.mpr ⟨over_rest h hover, rfl⟩, rfl⟩
  · rintro ⟨r, hr, rfl⟩
    obtain ⟨hrest, rfl⟩ := eval_eq_some_iff.mp hr
    exact ⟨over_of_rest h rfl hrest, rfl⟩

end NormalForm

end TensorTyping
