import TensorTyping.Proofs.Broadcast.Unknown

namespace TensorTyping

open Shape

/-- Extents that go together although they are not equal: exactly one of them is one. -/
theorem Shape.Fits.one_of_ne {m n : Int} (h : Fits m n) (hne : m ≠ n) :
    m = 1 ∧ n ≠ 1 ∨ m ≠ 1 ∧ n = 1 := by
  obtain rfl | rfl | rfl := h
  · exact absurd rfl hne
  · exact Or.inl ⟨rfl, hne.symm⟩
  · exact Or.inr ⟨hne, rfl⟩

theorem Shape.exists_axis_of_mem_axes {as bs : List Dim} {e : Dim × Dim} (h : e ∈ axes as bs) :
    ∃ i, e = (axis (.const 1) as i, axis (.const 1) bs i) := by
  rw [axes_eq_map, List.mem_map] at h
  obtain ⟨i, -, rfl⟩ := h
  exact ⟨i, rfl⟩

theorem Ranges.ne_of_refuted {known : Ranges} {σ : Assignment} (hσ : known.Admits σ) {a b : Dim}
    {m n : Int} (hrefuted : known.prove (.eq a b) = .refuted) (hm : a.eval σ = some m)
    (hn : b.eval σ = some n) : m ≠ n := by
  have hallows := allows_prove hσ (c := .eq a b) (b := Comparison.eq.holds m n) (by
    simp [Cond.eval, hm, hn])
  rw [hrefuted] at hallows
  simpa [Verdict.Allows, Comparison.holds] using hallows

namespace Session

variable {s rest : Session} {r : Relation} {c : Cond}

theorem refuted_of_requireAll {conds : List Cond} {dst src : Ty} (hs : s.failure = none)
    (hresolve : r.rule.resolve (s.query r) = .requireAll conds (.conclude dst src))
    (hfailed : .asserted c false ∈ (s.outcome r).reports) (number : Nat) :
    c ∈ conds ∧ s.known.prove c = .refuted ∧
      (s.invoke number r).failure = some (.assertionFailed c r.span) := by
  obtain ⟨-, -, -, hfailure, -⟩ := invoke_fields s number r
  rw [hfailure]
  unfold outcome at hfailed ⊢
  rw [hresolve] at hfailed ⊢
  obtain ⟨s', -, heq⟩ | ⟨before, d, after, s', rfl, hyes, hno, heq⟩ :=
    run_requireAll { s with location := r.span } conds (.conclude dst src)
  · rw [heq] at hfailed
    simp [Resolution.conclude, Resolution.run] at hfailed
  · rw [heq] at hfailed ⊢
    obtain rfl : c = d := by simpa using hfailed
    obtain ⟨deferred, rfl⟩ := hyes.eq
    obtain ⟨hrefuted, hassert⟩ :=
      assert_of_no (s := { s with location := r.span, deferred }) hs hno
    rw [hassert]
    exact ⟨by simp, hrefuted, failure_fail hs _⟩

/-- A broadcast that is answered with no asks for the equality of the dimensions of an axis, neither of which
is a literal `1`. Whatever the sizes are within the registered ranges, the shapes do not broadcast, unless
exactly one of these two dimensions turns out to be one. -/
theorem broadcast_rejects (globals : Globals) (config : Config) (setup : List Setup)
    {s rest : Session} {number : Nat} {r : Relation} {c : Cond}
    (hturns : Turns (prepared globals config setup) s) (hnext : s.next? = some (number, r, rest))
    (hrule : r.rule = Rule.broadcast) (hfailed : .asserted c false ∈ (rest.outcome r).reports) :
    ∃ a b out i, (rest.query r).singleOutput? = some ([.tensor a, .tensor b], out) ∧
      a.dtype = b.dtype ∧ c = .eq (axis (.const 1) a.shape i) (axis (.const 1) b.shape i) ∧
      axis (.const 1) a.shape i ≠ .const 1 ∧ axis (.const 1) b.shape i ≠ .const 1 ∧
      (rest.invoke number r).failure = some (.assertionFailed c r.span) ∧
      ∀ σ : Assignment, (∀ x range, Setup.range x range ∈ setup → range.Contains (σ x)) →
        ∀ xs ys zs : List Int, List.Forall₂ (Measures σ) a.shape xs →
          List.Forall₂ (Measures σ) b.shape ys → Broadcasts xs ys zs →
          axis 1 xs i = 1 ∧ axis 1 ys i ≠ 1 ∨ axis 1 xs i ≠ 1 ∧ axis 1 ys i = 1 := by
  have hnone := Turns.failure hturns (untouched_prepared globals config setup).failure
  obtain ⟨queue, rfl, -⟩ := next?_eq_some hnext
  obtain hdone | ⟨a, b, -, hdifferent⟩ | ⟨a, b, out, hq, hdtype, hresolve⟩ :=
    Rule.resolve_broadcast_cases (query { s with queue } r)
  · rw [outcome, hrule, hdone] at hfailed
    cases hfailed
  · rw [outcome, hrule, hdifferent] at hfailed
    cases List.mem_singleton.mp hfailed
  · rw [← hrule] at hresolve
    obtain ⟨hasked, hrefuted, hfailure⟩ :=
      refuted_of_requireAll (s := { s with queue }) hnone hresolve hfailed number
    obtain ⟨e, he, ⟨hone, hany⟩, ⟨hone', hany'⟩, rfl⟩ := mem_questions.mp hasked
    obtain ⟨i, rfl⟩ := exists_axis_of_mem_axes he
    refine ⟨a, b, out, i, hq, hdtype, rfl, hone, hone', hfailure, fun σ hσ xs ys zs hxs hys hzs => ?_⟩
    have hadmits : s.known.Admits σ := Turns.admits hturns hσ
    have hliteral : Measures σ (.const 1) 1 := Or.inr rfl
    have hm := (axis_rel hliteral hxs i).eval hany
    have hn := (axis_rel hliteral hys i).eval hany'
    exact (hzs.fits i).one_of_ne (Ranges.ne_of_refuted hadmits hrefuted hm hn)

/-- A size of five or six does not go together with three, whichever of them it is. -/
theorem broadcast_rejects_range :
    let n : SizeVar := ⟨0, "n"⟩
    let a : TensorType := ⟨[.var n], .float 32⟩
    let b : TensorType := ⟨[.const 3], .float 32⟩
    let r : Relation := .broadcast a b ⟨0, .type⟩ .empty .dummy
    let s := prepared .empty .default [.range n ⟨5, 6⟩, .fresh .type, .relation r]
    let rest := { s with queue := [] }
    s.next? = some (0, r, rest) ∧
      .asserted (.eq (.var n) (.const 3)) false ∈ (rest.outcome r).reports ∧
      (rest.invoke 0 r).failure = some (.assertionFailed (.eq (.var n) (.const 3)) .dummy) ∧
      ∀ σ : Assignment, (⟨5, 6⟩ : Range).Contains (σ n) → ∀ zs, ¬ Broadcasts [σ n] [3] zs := by
  intro n a b r s rest
  have hnext : s.next? = some (0, r, rest) := rfl
  have hreports : (rest.outcome r).reports = [.asserted (.eq (.var n) (.const 3)) false] := by cbv
  have hfailed : .asserted (.eq (.var n) (.const 3)) false ∈ (rest.outcome r).reports :=
    hreports ▸ List.mem_singleton_self _
  obtain ⟨a', b', out, i, hq, -, -, ha, -, hfailure, hrejects⟩ :=
    broadcast_rejects .empty .default [.range n ⟨5, 6⟩, .fresh .type, .relation r] .refl hnext rfl
      hfailed
  have hquery : (rest.query r).singleOutput? = some ([.tensor a, .tensor b], .hole ⟨0, .type⟩) := rfl
  cases hquery.symm.trans hq
  refine ⟨hnext, hfailed, hfailure, fun σ hn zs hzs => ?_⟩
  have hranges : ∀ x range, Setup.range x range ∈ ([.range n ⟨5, 6⟩, .fresh .type, .relation r] :
      List Setup) → range.Contains (σ x) := by
    intro x range h
    simp only [List.mem_cons, Setup.range.injEq, reduceCtorEq, List.not_mem_nil, or_false] at h
    rw [h.1, h.2]
    exact hn
  have hone := hrejects σ hranges [σ n] [3] zs (.cons (Or.inr rfl) .nil) (.cons (Or.inr rfl) .nil) hzs
  obtain rfl : i = 0 := by
    by_contra hi
    exact ha (axis_of_length_le (Nat.one_le_iff_ne_zero.mpr hi))
  have hlo : 5 ≤ σ n := hn.1
  simp only [axis, List.reverse_singleton, List.getElem?_cons_zero, Option.getD_some] at hone
  omega

/-- A size of one or two is not a literal `1`, so it is rejected beside three, although it broadcasts where it
is one. -/
theorem broadcast_rejects_one :
    let n : SizeVar := ⟨0, "n"⟩
    let a : TensorType := ⟨[.var n], .float 32⟩
    let b : TensorType := ⟨[.const 3], .float 32⟩
    let r : Relation := .broadcast a b ⟨0, .type⟩ .empty .dummy
    let s := prepared .empty .default [.range n ⟨1, 2⟩, .fresh .type, .relation r]
    let rest := { s with queue := [] }
    let σ : Assignment := fun _ => 1
    s.next? = some (0, r, rest) ∧
      (rest.outcome r).reports = [.asserted (.eq (.var n) (.const 3)) false] ∧
      s.solve.2 = .error [.assertionFailed (.eq (.var n) (.const 3)) .dummy] ∧
      (⟨1, 2⟩ : Range).Contains (σ n) ∧ List.Forall₂ (Measures σ) a.shape [1] ∧
      List.Forall₂ (Measures σ) b.shape [3] ∧ Broadcasts [1] [3] ([3] : List Int) := by
  intro n a b r s rest σ
  have hzs : Broadcasts [1] [3] ([3] : List Int) := broadcasts_of_fits (by decide)
  exact ⟨rfl, by cbv, by cbv, by decide, .cons (Or.inr rfl) .nil, .cons (Or.inr rfl) .nil, hzs⟩

end Session

end TensorTyping
