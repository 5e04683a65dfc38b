import TensorTyping.Proofs.NormalForm.Rebuild

namespace TensorTyping

namespace NormalForm

variable {p q r : NormalForm} {a b : Dim} {op : DimOp}

section Constants

variable {c : Word}

theorem eq_constant_of_const? (hp : p.Canonical) (h : p.const? = some c) : p = constant c := by
  obtain ⟨ts⟩ := p
  unfold const? at h
  split at h
  · rename_i hts
    cases h
    cases hts
    rfl
  · rename_i hts
    cases h
    cases hts
    exact (constant_of_ne_zero (hp.nonzero _ List.mem_cons_self)).symm
  · cases h

/-- A constant is written as a literal. -/
theorem toDim_constant (c : Word) : (constant c).toDim = .const c := by
  have hwritten : (constant c).toDim = append none c .const := by
    unfold constant
    split
    · rename_i h
      rw [h]
      rfl
    · rfl
  rw [hwritten]
  unfold append
  rcases hsigned : signed c with ⟨negative, k⟩
  have hcases := signed_cases hsigned
  cases negative with
  | false => exact congrArg Dim.const hcases
  | true =>
    have hdifference : DimOp.sub.fold? 0 k = some c := by
      have hvalue : c.toInt = -k.toInt := Word.ofInt?_eq_some_iff.mp hcases
      refine Word.ofInt?_eq_some_iff.mpr ?_
      rw [hvalue, Int64.toInt_zero, Int.zero_sub]
    dsimp only
    rw [if_pos rfl, Dim.combine_const, hdifference]
    rfl

theorem const?_toDim (hp : p.Canonical) (h : p.const? = some c) : p.toDim.const? = some c := by
  rw [eq_constant_of_const? hp h, toDim_constant]
  rfl

end Constants

section Division

theorem divExact?_one (p : NormalForm) : p.divExact? 1 = some p := by
  have hone : (1 : Word) ≠ 0 := by decide
  have hterms : p.terms.mapM some = some p.terms := by
    rw [← Option.pure_def, ← Option.pure_def, List.mapM_pure, List.map_id']
  unfold divExact?
  rw [if_neg hone]
  simp [hterms]

theorem floorDiv_one (hp : p.Canonical) : p.floorDiv (constant 1) = p := by
  have hpos : (0 : Word) < 1 := by decide
  unfold floorDiv
  dsimp only
  rw [const?_constant]
  cases hc : p.const? with
  | none =>
    dsimp only
    rw [if_pos hpos, divExact?_one]
    rfl
  | some c =>
    have hfold : Word.floorDiv? c 1 = some c := by
      rw [Word.floorDiv?_eq, if_neg (by decide), Int64.toInt_one, Int.fdiv_one, Word.ofInt?_toInt]
    dsimp only
    rw [hfold]
    exact (eq_constant_of_const? hp hc).symm

end Division

/-- An operation that is kept is a stable atom, if normalising keeps it again, unless a unit or zero
law removes it. -/
private theorem over_stable_ofFolded (hp : ofDim? a = some p) (hq : ofDim? b = some q)
    (hkept : combine? op p q = some (ofFolded (.combine op a b)))
    (hshortcut : ∀ d, op.shortcut? a b = some d → .combine op a b = d → (ofFolded d).Over Stable) :
    (ofFolded (.combine op a b)).Over Stable := by
  obtain hcombine | ⟨-, hd⟩ | ⟨k, l, w, -, -, -, hcombine⟩ :=
    Dim.combine_cases op (ne_any_of_ofDim? hp) (ne_any_of_ofDim? hq)
  · rw [hcombine] at hkept ⊢
    exact over_atom (ofDim?_binary.mpr ⟨p, q, hp, hq, hkept⟩)
  · exact hshortcut _ hd rfl
  · rw [hcombine]
    exact over_constant w

/-- Where the difference is no constant, the operands are kept in order. -/
theorem extremum_of_bind_eq_none {pickLeft : Word → Bool} (h : (p.sub? q).bind const? = none) :
    extremum op pickLeft p q = ofFolded (if (compare p.toDim q.toDim).isLE
      then .combine op p.toDim q.toDim else .combine op q.toDim p.toDim) := by
  rw [extremum, h]

theorem extremum_of_bind_eq_some {pickLeft : Word → Bool} {c : Word}
    (h : (p.sub? q).bind const? = some c) :
    extremum op pickLeft p q = if pickLeft c then p else q := by
  rw [extremum, h]

section Operations

variable (hp : p.Canonical) (hq : q.Canonical) (hpa : p.Over Stable) (hqa : q.Over Stable)
include hp hq hpa hqa

theorem over_stable_floorDiv : (p.floorDiv q).Over Stable := by
  obtain hkept | ⟨-, -, c, -, -, -, hc⟩ | ⟨c, -, -, hc⟩ := floorDiv_cases p q
  · rw [hkept]
    refine over_stable_ofFolded (hp.ofDim?_toDim hpa) (hq.ofDim?_toDim hqa) (congrArg some hkept)
      fun d hd hcombine => ?_
    -- Only a divisor of one is dropped, and then the dividend was not kept as it is written.
    simp only [DimOp.shortcut?] at hd
    split at hd <;> cases hd
    rename_i hone
    have hq1 := hq.ofDim?_toDim hqa
    rw [hone] at hq1
    rw [hcombine, ← Option.some.inj hq1, floorDiv_one hp] at hkept
    rwa [← hkept]
  · rw [hc]
    exact over_constant c
  · exact over_divExact? hpa hc

theorem over_stable_floorMod : (p.floorMod q).Over Stable := by
  obtain hkept | ⟨-, -, c, -, -, -, hc⟩ | ⟨-, -, -, -, -, hc⟩ := floorMod_cases p q
  · rw [hkept]
    refine over_stable_ofFolded (hp.ofDim?_toDim hpa) (hq.ofDim?_toDim hqa) (congrArg some hkept)
      fun d hd _ => ?_
    simp only [DimOp.shortcut?] at hd
    split at hd <;> cases hd
    exact over_constant 0
  · exact hc ▸ over_constant c
  · exact hc ▸ over_constant 0

end Operations

/-- The test by which `min` and `max` pick an operand is conclusive for two operands: if they are kept,
they are not the same, and where they are kept the other way round, the test does not pick one of them
that way either. Two literals are never kept. -/
def Conclusive (p q : NormalForm) : Prop :=
  (p.sub? q).bind const? = none → p.const? = none ∨ q.const? = none →
    p ≠ q ∧ ((compare p.toDim q.toDim).isLE = false → (q.sub? p).bind const? = none)

/-- A difference that does not overflow is conclusive. -/
theorem Conclusive.of_sub? (hp : p.Canonical) (hq : q.Canonical) (h : p.sub? q = some r) :
    Conclusive p q := by
  intro hdifference _
  rw [h, Option.bind_some] at hdifference
  refine ⟨?_, fun _ => ?_⟩
  · rintro rfl
    rw [sub?_self h] at hdifference
    cases hdifference
  · cases he : q.sub? p with
    | none => rfl
    | some e =>
      obtain ⟨-, he'⟩ | ⟨m, -, hm, -⟩ := const?_neg? (hp.neg?_sub? hq h he)
      · exact he'
      · cases hdifference.symm.trans hm

section Extremum

variable {pickLeft : Word → Bool}

/-- Literals fold to the smaller or larger one. -/
private theorem exists_const_of_combine (hop : op = .min ∨ op = .max) {c k : Word}
    (ha : a.const? = some c) (hb : b.const? = some k) : ∃ w, Dim.combine op a b = .const w := by
  cases a <;> cases ha
  cases b <;> cases hb
  obtain rfl | rfl := hop <;> exact ⟨_, rfl⟩

private theorem over_stable_kept (hop : op = .min ∨ op = .max) (hp : ofDim? a = some p)
    (hq : ofDim? b = some q) (hkept : combine? op p q = some (ofFolded (.combine op a b)))
    (hne : p ≠ q) : (ofFolded (.combine op a b)).Over Stable := by
  refine over_stable_ofFolded hp hq hkept fun d hd _ => absurd ?_ hne
  have hab : a = b := by
    obtain rfl | rfl := hop <;> simp only [DimOp.shortcut?] at hd <;> split at hd <;>
      first | assumption | cases hd
  exact Option.some.inj (hp.symm.trans (hab ▸ hq))

theorem over_stable_extremum (hop : op = .min ∨ op = .max)
    (hcombine : ∀ p q, combine? op p q = some (extremum op pickLeft p q))
    (hp : p.Canonical) (hq : q.Canonical) (hpa : p.Over Stable) (hqa : q.Over Stable)
    (hpq : Conclusive p q) : (extremum op pickLeft p q).Over Stable := by
  cases hdifference : (p.sub? q).bind const? with
  | some c =>
    rw [extremum_of_bind_eq_some hdifference]
    split
    · exact hpa
    · exact hqa
  | none =>
    have hpd := hp.ofDim?_toDim hpa
    have hqd := hq.ofDim?_toDim hqa
    rw [extremum_of_bind_eq_none hdifference]
    by_cases hliterals : p.const? = none ∨ q.const? = none
    · obtain ⟨hne, hexchanged⟩ := hpq hdifference hliterals
      split
      · rename_i hle
        refine over_stable_kept hop hpd hqd ?_ hne
        rw [hcombine, extremum_of_bind_eq_none hdifference, if_pos hle]
      · rename_i hnot
        rw [Bool.not_eq_true] at hnot
        have hle : (compare q.toDim p.toDim).isLE = true := by
          have hswap : compare q.toDim p.toDim = (compare p.toDim q.toDim).swap :=
            Std.OrientedCmp.eq_swap
          rw [hswap]
          cases hcompare : compare p.toDim q.toDim with
          | gt => rfl
          | lt | eq =>
            rw [hcompare] at hnot
            cases hnot
        refine over_stable_kept hop hqd hpd ?_ hne.symm
        rw [hcombine, extremum_of_bind_eq_none (hexchanged hnot), if_pos hle]
    · rw [not_or, ← Ne, ← Ne, Option.ne_none_iff_exists', Option.ne_none_iff_exists'] at hliterals
      obtain ⟨⟨c, hc⟩, k, hk⟩ := hliterals
      have hc := const?_toDim hp hc
      have hk := const?_toDim hq hk
      split
      · obtain ⟨w, hw⟩ := exists_const_of_combine hop hc hk
        exact hw ▸ over_constant w
      · obtain ⟨w, hw⟩ := exists_const_of_combine hop hk hc
        exact hw ▸ over_constant w

end Extremum

end NormalForm

end TensorTyping
