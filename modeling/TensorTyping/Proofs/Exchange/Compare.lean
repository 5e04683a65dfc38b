import TensorTyping.Proofs.Exchange.Opposite
import TensorTyping.Proofs.Interval.Ends
import TensorTyping.Proofs.Ranges

namespace TensorTyping

namespace Interval

/-- The least 128-bit word. -/
def least : Int := -170141183460469231731687303715884105728

/-- No end is the least 128-bit word. -/
def Reversible (i : Interval) : Prop := i.lo ≠ some least ∧ i.hi ≠ some least

instance (i : Interval) : Decidable i.Reversible := inferInstanceAs (Decidable (_ ∧ _))

variable {i j : Interval} {k n : Int}

/-- An opposite fits where the integer does, but for the least one and the opposite of that. -/
theorem within128?_neg (h : within128? n ≠ some least) (h' : within128? (-n) ≠ some least) :
    within128? (-n) = (within128? n).map (-·) := by
  have hn : n ≠ least := by
    rintro rfl
    exact h rfl
  have hn' : -n ≠ least := by
    intro hn'
    rw [hn'] at h'
    exact h' rfl
  unfold least at hn hn'
  unfold within128?
  split <;> split
  · rfl
  · omega
  · omega
  · rfl

theorem bind_within128?_neg {o : Option Int} {k : Int}
    (h : (o.bind fun x => within128? (x * k)) ≠ some least)
    (h' : (o.bind fun x => within128? (x * -k)) ≠ some least) :
    (o.bind fun x => within128? (x * -k)) = (o.bind fun x => within128? (x * k)).map (-·) := by
  cases o with
  | none => rfl
  | some x =>
    simp only [Option.bind_some, Int.mul_neg] at h h' ⊢
    exact within128?_neg h h'

/-- The multiples by an opposite. -/
theorem scale_neg (h : (i.scale k).Reversible) (h' : (i.scale (-k)).Reversible) :
    i.scale (-k) = (i.scale k).mirror := by
  obtain hk | rfl | hk := Int.lt_trichotomy k 0
  · rw [scale_of_neg i hk] at h ⊢
    rw [scale_of_pos i (Int.neg_pos_of_neg hk)] at h' ⊢
    exact congrArg₂ mk (bind_within128?_neg h.2 h'.1) (bind_within128?_neg h.1 h'.2)
  · rfl
  · rw [scale_of_pos i hk] at h ⊢
    rw [scale_of_neg i (Int.neg_neg_of_pos hk)] at h' ⊢
    exact congrArg₂ mk (bind_within128?_neg h.2 h'.1) (bind_within128?_neg h.1 h'.2)

/-- The sums of opposites. -/
theorem add_mirror (h : (i.add j).Reversible) (h' : (i.mirror.add j.mirror).Reversible) :
    i.mirror.add j.mirror = (i.add j).mirror := by
  have hends : ∀ {a b : Option Int}, (do within128? ((← a) + (← b))) ≠ some least →
      (do within128? ((← a.map (-·)) + (← b.map (-·)))) ≠ some least →
      (do within128? ((← a.map (-·)) + (← b.map (-·)))) =
        (do within128? ((← a) + (← b))).map (-·) := by
    intro a b hab hab'
    cases a with
    | none => rfl
    | some a =>
      cases b with
      | none => rfl
      | some b =>
        simp only [Option.map_some, Option.bind_eq_bind, Option.bind_some, ← Int.neg_add]
          at hab hab' ⊢
        exact within128?_neg hab hab'
  exact congrArg₂ mk (hends h.2 h'.1) (hends h.1 h'.2)

/-- Whether all members are zero does not change when they are replaced by their opposites. -/
theorem compareZero_mirror (i : Interval) : i.mirror.compareZero .eq = i.compareZero .eq := by
  obtain ⟨lo, hi⟩ := i
  have hpoint : (mirror ⟨lo, hi⟩).point? = some 0 ↔ point? ⟨lo, hi⟩ = some 0 := by
    cases lo <;> cases hi <;> simp [mirror, point?]
    omega
  have hbelow : (mirror ⟨lo, hi⟩).below 0 = above ⟨lo, hi⟩ 0 := by
    cases lo <;> simp [mirror, below, above]
  have habove : (mirror ⟨lo, hi⟩).above 0 = below ⟨lo, hi⟩ 0 := by
    cases hi <;> simp [mirror, below, above]
  unfold compareZero
  dsimp only
  rw [hbelow, habove, Bool.or_comm]
  exact if_congr hpoint rfl rfl

end Interval

namespace Ranges

variable {known : Ranges} {p q : NormalForm} {d e : Dim}

/-- No end that is met in enclosing a normal form is the least 128-bit word, be it of a term or of
the sum of the first few. -/
structure Reversible (known : Ranges) (p : NormalForm) : Prop where
  terms : ∀ t ∈ p.terms, ((known.intervalOfMonomial t.1).scale t.2.toInt).Reversible
  sums : ∀ ts, ts <+: p.terms → (known.intervalOf ⟨ts⟩).Reversible

private theorem foldl_mirror {ts us : List Term} {i : Interval}
    (h : List.Forall₂ (fun t u => u.1 = t.1 ∧ u.2.toInt = -t.2.toInt) ts us)
    (hts : ∀ t ∈ ts, ((known.intervalOfMonomial t.1).scale t.2.toInt).Reversible)
    (hus : ∀ u ∈ us, ((known.intervalOfMonomial u.1).scale u.2.toInt).Reversible)
    (hsums : ∀ vs, vs <+: ts → (vs.foldl (fun total t => total.add
      ((known.intervalOfMonomial t.1).scale t.2.toInt)) i).Reversible)
    (hsums' : ∀ vs, vs <+: us → (vs.foldl (fun total t => total.add
      ((known.intervalOfMonomial t.1).scale t.2.toInt)) i.mirror).Reversible) :
    us.foldl (fun total t => total.add ((known.intervalOfMonomial t.1).scale t.2.toInt)) i.mirror =
      (ts.foldl (fun total t => total.add ((known.intervalOfMonomial t.1).scale t.2.toInt))
        i).mirror := by
  induction h generalizing i with
  | nil => rfl
  | @cons t u ts us htu _ ih =>
    rw [List.forall_mem_cons] at hts hus
    have hfirst := hsums [t] (List.cons_prefix_cons.mpr ⟨rfl, List.nil_prefix⟩)
    have hfirst' := hsums' [u] (List.cons_prefix_cons.mpr ⟨rfl, List.nil_prefix⟩)
    have hscale : (known.intervalOfMonomial u.1).scale u.2.toInt =
        ((known.intervalOfMonomial t.1).scale t.2.toInt).mirror := by
      have hu := hus.1
      rw [htu.1, htu.2] at hu ⊢
      exact Interval.scale_neg hts.1 hu
    have hadd : i.mirror.add ((known.intervalOfMonomial u.1).scale u.2.toInt) =
        (i.add ((known.intervalOfMonomial t.1).scale t.2.toInt)).mirror := by
      rw [List.foldl_cons, List.foldl_nil, hscale] at hfirst'
      rw [hscale]
      exact Interval.add_mirror hfirst hfirst'
    rw [List.foldl_cons, List.foldl_cons, hadd]
    refine ih hts.2 hus.2 (fun vs hvs => ?_) fun vs hvs => ?_
    · exact hsums (t :: vs) (List.cons_prefix_cons.mpr ⟨rfl, hvs⟩)
    · have hrest := hsums' (u :: vs) (List.cons_prefix_cons.mpr ⟨rfl, hvs⟩)
      rwa [List.foldl_cons, hadd] at hrest

/-- The opposite of a normal form is enclosed by the opposites. -/
theorem intervalOf_neg? (h : p.neg? = some q) (hp : known.Reversible p) (hq : known.Reversible q) :
    known.intervalOf q = (known.intervalOf p).mirror :=
  foldl_mirror (NormalForm.forall₂_of_neg? h) hp.terms hq.terms hp.sums hq.sums

/-- Overflow does not tell the two sides of an equality apart: either both differences exist or none
does, and where they are enclosed no end is met that has no opposite. -/
structure Balanced (known : Ranges) (d e : Dim) : Prop where
  overflow : (difference? d e).isSome = (difference? e d).isSome
  reversible : ∀ p, difference? d e = some p ∨ difference? e d = some p → known.Reversible p

theorem Balanced.symm (h : known.Balanced d e) : known.Balanced e d :=
  ⟨h.overflow.symm, fun p hp => h.reversible p hp.symm⟩

theorem neg?_difference? (hp : difference? d e = some p) (hq : difference? e d = some q) :
    p.neg? = some q := by
  unfold difference? at hp hq
  split at hp
  · cases hp
  split at hq
  · cases hq
  obtain ⟨a, ha, hp⟩ := Option.bind_eq_some_iff.mp hp
  obtain ⟨b, hb, hp⟩ := Option.bind_eq_some_iff.mp hp
  rw [ha, hb] at hq
  exact (NormalForm.canonical_ofDim? ha).neg?_sub? (NormalForm.canonical_ofDim? hb) hp hq

/-- Equality of two dimensions is decided alike the other way round. -/
theorem Balanced.compare_comm (h : known.Balanced d e) :
    known.compare .eq d e = known.compare .eq e d := by
  have hoverflow := h.overflow
  unfold compare
  cases hp : difference? d e with
  | none =>
    rw [hp, eq_comm, Option.isSome_none, Option.isSome_eq_false_iff,
      Option.isNone_iff_eq_none] at hoverflow
    rw [hoverflow]
  | some p =>
    rw [hp, eq_comm, Option.isSome_some, Option.isSome_iff_exists] at hoverflow
    obtain ⟨q, hq⟩ := hoverflow
    have hneg := neg?_difference? hp hq
    rw [hq]
    dsimp only
    obtain ⟨hp₀, hq₀⟩ | ⟨m, n, hm, hn, hvalue⟩ := NormalForm.const?_neg? hneg
    · rw [hp₀, hq₀]
      dsimp only
      rw [intervalOf_neg? hneg (h.reversible p (Or.inl hp)) (h.reversible q (Or.inr hq)),
        Interval.compareZero_mirror]
    · rw [hm, hn]
      dsimp only
      rw [hvalue]
      congr 1
      simp [Comparison.holds]

theorem reversible_point (w : Word) : (Interval.point w.toInt).Reversible := by
  have hlo := Int64.le_toInt w
  have hne : w.toInt ≠ Interval.least := by
    unfold Interval.least
    omega
  exact ⟨fun h => hne (Option.some.inj h), fun h => hne (Option.some.inj h)⟩

/-- What encloses a constant is a single word. -/
theorem reversible_of_const? {c : Word} (h : p.const? = some c) : known.Reversible p := by
  obtain ⟨ts⟩ := p
  unfold NormalForm.const? at h
  dsimp only at h
  split at h
  · refine ⟨fun t ht => absurd ht List.not_mem_nil, fun ts hts => ?_⟩
    rw [List.prefix_nil.mp hts]
    exact reversible_point 0
  · rename_i w
    refine ⟨fun t ht => ?_, fun ts hts => ?_⟩
    · rw [List.mem_singleton.mp ht]
      exact Interval.scale_point_one w ▸ reversible_point w
    · obtain rfl | ⟨us, rfl, hus⟩ := List.prefix_cons_iff.mp hts
      · exact reversible_point 0
      · rw [List.prefix_nil.mp hus, known.intervalOf_constantTerm]
        exact reversible_point w
  · cases h

/-- Whether a dimension equals itself is the same question the other way round. -/
theorem balanced_self (d : Dim) : known.Balanced d d := by
  refine ⟨rfl, fun p hp => ?_⟩
  have hp := or_self_iff.mp hp
  unfold difference? at hp
  split at hp
  · cases hp
  obtain ⟨a, ha, hp⟩ := Option.bind_eq_some_iff.mp hp
  have hsub : a.sub? a = some p := by simpa [ha] using hp
  rw [NormalForm.sub?_self hsub]
  exact reversible_of_const? (c := 0) rfl

end Ranges

end TensorTyping
