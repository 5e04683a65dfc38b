import TensorTyping.Proofs.NormalForm.Stable

namespace TensorTyping

namespace NormalForm

variable {p q q' r : NormalForm} {m : Monomial} {c w : Word} {ts us : List Term}

section Sums

theorem coefficient_eq_zero_of_lt (h : ∀ t ∈ ts, compare m t.1 = .lt) : coefficient ts m = 0 := by
  refine coefficient_eq_zero fun t ht heq => ?_
  have hlt := h t ht
  rw [heq, Std.ReflOrd.compare_self] at hlt
  cases hlt

/-- A term is inserted if the coefficient that it leaves fits a word. -/
theorem exists_insert?_of_fits (hts : Canonical ⟨ts⟩)
    (h : ∃ w, Word.ofInt? (coefficient ts m + c.toInt) = some w) :
    ∃ us, insert? m c ts = some us := by
  induction ts with
  | nil => exact ⟨_, rfl⟩
  | cons t ts ih =>
    obtain ⟨hlt, -, -, hts⟩ := canonical_cons.mp hts
    rw [coefficient_cons] at h
    unfold insert?
    split
    · exact ⟨_, rfl⟩
    · rename_i heq
      obtain rfl : m = t.1 := Std.LawfulEqCmp.eq_of_compare heq
      rw [if_pos rfl, coefficient_eq_zero_of_lt hlt, Int.add_zero] at h
      obtain ⟨w, hw⟩ := h
      exact ⟨_, by rw [Word.add?, hw, Option.map_some]⟩
    · rename_i hgt
      have hne : t.1 ≠ m := by
        rintro rfl
        rw [Std.ReflOrd.compare_self] at hgt
        cases hgt
      rw [if_neg hne, Int.zero_add] at h
      obtain ⟨us, hus⟩ := ih hts h
      exact ⟨_, by rw [hus, Option.map_some]⟩

/-- A sum overflows only where one of its coefficients does not fit a word. -/
theorem exists_add?_of_fits (hp : p.Canonical) (hq : q.Canonical)
    (h : ∀ m, ∃ w, Word.ofInt? (coefficient p.terms m + coefficient q.terms m) = some w) :
    ∃ r, p.add? q = some r := by
  obtain ⟨ts⟩ := p
  obtain ⟨us⟩ := q
  suffices hall : ∃ rs, us.foldlM (fun acc (t : Term) => insert? t.1 t.2 acc) ts = some rs by
    obtain ⟨rs, hrs⟩ := hall
    exact ⟨⟨rs⟩, congrArg (Option.map mk) hrs⟩
  dsimp only at h
  induction us generalizing ts with
  | nil => exact ⟨ts, rfl⟩
  | cons u us ih =>
    obtain ⟨hlt, hsorted, -, hus⟩ := canonical_cons.mp hq
    have hu := h u.1
    rw [coefficient_cons, if_pos rfl, coefficient_eq_zero_of_lt hlt, Int.add_zero] at hu
    obtain ⟨mid, hmid⟩ := exists_insert?_of_fits hp hu
    have hrest : ∀ m, ∃ w, Word.ofInt? (coefficient mid m + coefficient us m) = some w := by
      intro m
      rw [coefficient_insert? hmid, Int.add_assoc, ← coefficient_cons]
      exact h m
    obtain ⟨rs, hrs⟩ := ih mid (canonical_insert? hsorted hp hmid) hus hrest
    refine ⟨rs, ?_⟩
    rw [List.foldlM_cons, hmid]
    exact hrs

end Sums

section Symbolic

theorem coefficient_nil (hp : p.Canonical) : coefficient p.terms [] = p.constantTerm.toInt := by
  have hzero : coefficient p.symbolic [] = 0 := coefficient_eq_zero fun t => ne_nil_of_mem_symbolic
  obtain ⟨hnone, hterms⟩ | ⟨-, hterms⟩ := hp.constantTerm_cases
  · rw [hterms, hzero, hnone, Int64.toInt_zero]
  · rw [hterms, coefficient_cons, if_pos rfl, hzero, Int.add_zero]

theorem coefficient_symbolic (hp : p.Canonical) (hm : m ≠ []) :
    coefficient p.symbolic m = coefficient p.terms m := by
  obtain ⟨-, hterms⟩ | ⟨-, hterms⟩ := hp.constantTerm_cases
  · rw [hterms]
  · rw [hterms, coefficient_cons, if_neg hm.symm, Int.zero_add]

/-- Two normal forms differ by a constant if their symbolic terms are the same. -/
theorem symbolic_eq_iff (hp : p.Canonical) (hq : q.Canonical) :
    p.symbolic = q.symbolic ↔ ∀ m, m ≠ [] → coefficient p.terms m = coefficient q.terms m := by
  constructor
  · intro h m hm
    rw [← coefficient_symbolic hp hm, ← coefficient_symbolic hq hm, h]
  · intro h
    refine congrArg terms (hp.symbolic.ext hq.symbolic fun m => ?_)
    by_cases hm : m = []
    · rw [coefficient_eq_zero, coefficient_eq_zero] <;> intro t ht <;> rw [hm] <;>
        exact ne_nil_of_mem_symbolic ht
    · exact (coefficient_symbolic hp hm).trans ((h m hm).trans (coefficient_symbolic hq hm).symm)

theorem const?_of_symbolic_eq_nil (hp : p.Canonical) (h : p.symbolic = []) :
    p.const? = some p.constantTerm := by
  unfold const?
  obtain ⟨hzero, hterms⟩ | ⟨-, hterms⟩ := hp.constantTerm_cases
  · rw [hterms, h, hzero]
  · rw [hterms, h]

theorem symbolic_eq_nil_of_const? (h : p.const? = some c) : p.symbolic = [] := by
  unfold const? at h
  split at h
  · rename_i hterms
    rw [symbolic, hterms, List.filter_nil]
  · rename_i hterms
    rw [symbolic, hterms]
    rfl
  · cases h

theorem symbolic_symbolic (p : NormalForm) : (mk p.symbolic).symbolic = p.symbolic :=
  List.filter_eq_self.mpr fun _ ht => (List.mem_filter.mp ht).2

/-- A constant difference that fits a word is found if what is subtracted has an opposite. -/
theorem sub?_of_symbolic_eq (hp : p.Canonical) (hq : q.Canonical) (hneg : q.neg? = some q')
    (hsymbolic : p.symbolic = q.symbolic)
    (hw : Word.ofInt? (p.constantTerm.toInt - q.constantTerm.toInt) = some w) :
    p.sub? q = some (constant w) := by
  have hdifference : ∀ m, coefficient p.terms m - coefficient q.terms m =
      coefficient (constant w).terms m := by
    intro m
    rw [coefficient_constant]
    by_cases hm : m = []
    · rw [hm, if_pos rfl, coefficient_nil hp, coefficient_nil hq, Word.ofInt?_eq_some_iff.mp hw]
    · rw [if_neg hm, (symbolic_eq_iff hp hq).mp hsymbolic m hm, Int.sub_self]
  have hfits : ∀ m, ∃ k, Word.ofInt? (coefficient p.terms m + coefficient q'.terms m) = some k := by
    intro m
    rw [coefficient_neg? hneg, ← Int.sub_eq_add_neg, hdifference, coefficient_constant]
    split
    · exact ⟨w, Word.ofInt?_toInt w⟩
    · exact ⟨0, rfl⟩
  obtain ⟨r, hr⟩ := exists_add?_of_fits hp (canonical_neg? hq hneg) hfits
  have hsub : p.sub? q = some r := by
    rw [sub?, hneg]
    exact hr
  rw [hsub, (canonical_sub? hp hq hsub).ext (canonical_constant w) fun m => ?_]
  rw [coefficient_sub? hsub, hdifference]

end Symbolic

section Order

variable {d : Dim}

private theorem combine_literal {op : DimOp} (hop : op = .add ∨ op = .sub) (hlit : d.const? = none)
    (hany : d ≠ .any) (hc : c ≠ 0) : Dim.combine op d (.const c) = .binary op d (.const c) := by
  have hright : Dim.const c ≠ .any := by
    rintro ⟨⟩
  have hzero : Dim.const c ≠ .const 0 := fun h => hc (Dim.const.inj h)
  have hd : ∀ k, d ≠ .const k := by
    rintro k rfl
    cases hlit
  rw [Dim.combine_eq_shortcut hany hright (Or.inl hlit)]
  obtain rfl | rfl := hop
  · rw [DimOp.shortcut?, if_neg (hd 0), if_neg hzero]
    rfl
  · rw [DimOp.shortcut?, if_neg hzero, if_neg (hd c)]
    rfl

theorem append_of_pos (hlit : d.const? = none) (hany : d ≠ .any) (hc : 0 < c.toInt) :
    append (some d) c .const = .binary .add d (.const c) := by
  have hsigned : signed c = (false, c) := by
    rw [signed, if_neg]
    rw [Int64.lt_iff_toInt_lt, Int64.toInt_zero]
    omega
  have hc0 : c ≠ 0 := by
    rintro rfl
    exact absurd hc (by decide)
  rw [append, hsigned]
  exact combine_literal (Or.inl rfl) hlit hany hc0

theorem append_of_neg (hlit : d.const? = none) (hany : d ≠ .any) (hc : c.toInt < 0)
    (hleast : c ≠ Int64.minValue) : ∃ k, append (some d) c .const = .binary .sub d (.const k) := by
  obtain ⟨k, hk⟩ := Word.exists_neg? hleast
  have hsigned : signed c = (true, k) := by
    rw [signed, if_pos, hk]
    rwa [Int64.lt_iff_toInt_lt, Int64.toInt_zero]
  have hk0 : k ≠ 0 := by
    rintro rfl
    have hvalue : (0 : Int) = -c.toInt := Word.ofInt?_eq_some_iff.mp hk
    omega
  rw [append, hsigned]
  exact ⟨k, combine_literal (Or.inr rfl) hlit hany hk0⟩

/-- Of two operands with the same symbolic terms, the one with a positive constant term stands before
the one with a negative one, because a sum stands before a difference. -/
theorem compare_toDim_of_symbolic_eq (hp : p.Canonical) (hpa : p.Over Stable)
    (hsymbolic : p.symbolic = q.symbolic) (hne : p.symbolic ≠ []) (hpos : 0 < p.constantTerm.toInt)
    (hneg : q.constantTerm.toInt < 0) (hleast : q.constantTerm ≠ Int64.minValue) :
    compare p.toDim q.toDim = .lt := by
  obtain ⟨hsome, hnone⟩ := ofDim?_written hp hpa
  cases hwritten : written p.symbolic with
  | none => exact absurd (hnone hwritten) hne
  | some d =>
    have hround := hsome d hwritten
    have hany := ne_any_of_ofDim? hround
    have hlit : d.const? = none := by
      cases d with
      | const k =>
        have hconst : (mk p.symbolic).const? = some k := by
          rw [← Option.some.inj hround, const?_constant]
        have hnil := symbolic_eq_nil_of_const? hconst
        rw [symbolic_symbolic] at hnil
        exact absurd hnil hne
      | var | any | binary => rfl
    obtain ⟨k, hk⟩ := append_of_neg hlit hany hneg hleast
    rw [toDim_eq_append, toDim_eq_append, ← hsymbolic, hwritten, append_of_pos hlit hany hpos, hk]
    rfl

end Order

/-- If two operands differ by a constant and are not constant themselves, the right one has an
opposite: none of its coefficients is the least word. -/
def Subtractable (p q : NormalForm) : Prop :=
  p.symbolic = q.symbolic → p.symbolic ≠ [] → ∀ t ∈ q.terms, t.2 ≠ Int64.minValue

instance (p q : NormalForm) : Decidable (Subtractable p q) :=
  inferInstanceAs (Decidable (_ → _ → ∀ t ∈ q.terms, _))

/-- A constant difference one way round is one the other way round. -/
private theorem symbolic_eq_of_sub? (hp : p.Canonical) (hq : q.Canonical)
    (h : (q.sub? p).bind const? = some c) : p.symbolic = q.symbolic := by
  obtain ⟨e, he, hc⟩ := Option.bind_eq_some_iff.mp h
  refine (symbolic_eq_iff hp hq).mpr fun m hm => ?_
  have hzero := coefficient_sub? (m := m) he
  rw [eq_constant_of_const? (canonical_sub? hq hp he) hc, coefficient_constant, if_neg hm] at hzero
  omega

/-- A constant difference is missed one way round and found the other way round only if the operands
are in order. -/
private theorem isLE_of_sub? (hp : p.Canonical) (hq : q.Canonical) (hpa : p.Over Stable)
    (hsymbolic : p.symbolic = q.symbolic) (hne : p.symbolic ≠ [])
    (hwords : ∀ t ∈ q.terms, t.2 ≠ Int64.minValue) (hmissed : (p.sub? q).bind const? = none)
    (hfound : (q.sub? p).bind const? = some c) : (compare p.toDim q.toDim).isLE = true := by
  obtain ⟨q', hq'⟩ := exists_neg?_of_ne hwords
  have hoverflow : Word.ofInt? (p.constantTerm.toInt - q.constantTerm.toInt) = none := by
    cases hw : Word.ofInt? (p.constantTerm.toInt - q.constantTerm.toInt) with
    | none => rfl
    | some w =>
      rw [sub?_of_symbolic_eq hp hq hq' hsymbolic hw, Option.bind_some, const?_constant] at hmissed
      cases hmissed
  have hvalue : c.toInt = q.constantTerm.toInt - p.constantTerm.toInt := by
    obtain ⟨e, he, hc⟩ := Option.bind_eq_some_iff.mp hfound
    have hnil := coefficient_sub? (m := []) he
    rwa [eq_constant_of_const? (canonical_sub? hq hp he) hc, coefficient_constant, if_pos rfl,
      coefficient_nil hp, coefficient_nil hq] at hnil
  have hleast : q.constantTerm ≠ Int64.minValue := by
    obtain ⟨hzero, -⟩ | ⟨-, hterms⟩ := hq.constantTerm_cases
    · rw [hzero]
      decide
    · exact hwords ([], q.constantTerm) (hterms ▸ List.mem_cons_self)
  have hleastValue : q.constantTerm.toInt ≠ -9223372036854775808 :=
    fun h => hleast (Int64.toInt_inj.mp h)
  -- The differences fit a word one way round only, so one of them is the least word.
  have hrange := Word.ofInt?_eq_none_iff.mp hoverflow
  have hclo := Int64.le_toInt c
  have hchi := Int64.toInt_lt c
  have hphi := Int64.toInt_lt p.constantTerm
  have hqlo := Int64.le_toInt q.constantTerm
  rw [compare_toDim_of_symbolic_eq hp hpa hsymbolic hne (by omega) (by omega) hleast]
  rfl

theorem Subtractable.conclusive (hp : p.Canonical) (hq : q.Canonical) (hpa : p.Over Stable)
    (h : Subtractable p q) : Conclusive p q := by
  intro hmissed hliterals
  by_cases hsymbolic : p.symbolic = q.symbolic
  · have hne : p.symbolic ≠ [] := by
      intro hnil
      rw [const?_of_symbolic_eq_nil hp hnil, const?_of_symbolic_eq_nil hq (hsymbolic ▸ hnil)]
        at hliterals
      exact hliterals.elim nofun nofun
    have hwords := h hsymbolic hne
    refine ⟨?_, fun hexchanged => ?_⟩
    · rintro rfl
      obtain ⟨q', hq'⟩ := exists_neg?_of_ne hwords
      rw [sub?_self_eq_nil hq'] at hmissed
      cases hmissed
    · cases hfound : (q.sub? p).bind const? with
      | none => rfl
      | some c =>
        rw [isLE_of_sub? hp hq hpa hsymbolic hne hwords hmissed hfound] at hexchanged
        cases hexchanged
  · refine ⟨fun heq => hsymbolic (congrArg symbolic heq), fun _ => ?_⟩
    cases hfound : (q.sub? p).bind const? with
    | none => rfl
    | some c => exact absurd (symbolic_eq_of_sub? hp hq hfound) hsymbolic

end NormalForm

open NormalForm (ofDim?)

/-- At every `min` and `max` of a dimension, an operand that is subtracted from one with the same
symbolic terms has an opposite. -/
def Dim.Subtractable : Dim → Prop
  | binary op a b => a.Subtractable ∧ b.Subtractable ∧
      (op = .min ∨ op = .max → ∀ p ∈ ofDim? a, ∀ q ∈ ofDim? b, NormalForm.Subtractable p q)
  | _ => True

def Dim.decideSubtractable : (d : Dim) → Decidable d.Subtractable
  | const _ | var _ | any => .isTrue trivial
  | binary _ a b =>
    have := a.decideSubtractable
    have := b.decideSubtractable
    inferInstanceAs (Decidable (_ ∧ _ ∧ (_ → ∀ p ∈ ofDim? a, ∀ q ∈ ofDim? b, _)))

instance : DecidablePred Dim.Subtractable := Dim.decideSubtractable

/-- Every atom of the normal form of such a dimension is stable. -/
theorem Dim.Subtractable.over_stable {d : Dim} {p : NormalForm} (hd : d.Subtractable)
    (h : ofDim? d = some p) : p.Over NormalForm.Stable := by
  induction d generalizing p with
  | const n =>
    cases h
    exact NormalForm.over_constant n
  | var x =>
    cases h
    exact NormalForm.over_atom rfl
  | any => cases h
  | binary op a b iha ihb =>
    obtain ⟨ha, hb, hab⟩ := hd
    obtain ⟨q, r, hq, hr, h⟩ := NormalForm.ofDim?_binary.mp h
    have hqc := NormalForm.canonical_ofDim? hq
    have hrc := NormalForm.canonical_ofDim? hr
    have hqa := iha ha hq
    have hra := ihb hb hr
    cases op with
    | add => exact NormalForm.over_add? hqa hra h
    | sub => exact NormalForm.over_sub? hqa hra h
    | mul => exact NormalForm.over_mul? hqa hra h
    | floorDiv =>
      cases h
      exact NormalForm.over_stable_floorDiv hqc hrc hqa hra
    | floorMod =>
      cases h
      exact NormalForm.over_stable_floorMod hqc hrc hqa hra
    | min =>
      cases h
      exact NormalForm.over_stable_extremum (Or.inl rfl) (fun _ _ => rfl) hqc hrc hqa hra
        ((hab (Or.inl rfl) q hq r hr).conclusive hqc hrc hqa)
    | max =>
      cases h
      exact NormalForm.over_stable_extremum (Or.inr rfl) (fun _ _ => rfl) hqc hrc hqa hra
        ((hab (Or.inr rfl) q hq r hr).conclusive hqc hrc hqa)

end TensorTyping
