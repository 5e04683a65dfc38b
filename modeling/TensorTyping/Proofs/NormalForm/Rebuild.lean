import TensorTyping.Proofs.Exchange.Opposite
import TensorTyping.Proofs.NormalForm.Within

namespace TensorTyping

namespace NormalForm

variable {p q r : NormalForm} {m n : Monomial} {a b d : Dim}

/-- A dimension that normalises to itself as an atom. -/
def Stable (a : Dim) : Prop := ofDim? a = some (atom a)

theorem ofDim?_binary {op : DimOp} : ofDim? (.binary op a b) = some r ↔
    ∃ p q, ofDim? a = some p ∧ ofDim? b = some q ∧ combine? op p q = some r := by
  simp only [ofDim?, Option.bind_eq_bind, Option.bind_eq_some_iff]
  constructor
  · rintro ⟨p, hp, q, hq, hr⟩
    exact ⟨p, q, hp, hq, hr⟩
  · rintro ⟨p, q, hp, hq, hr⟩
    exact ⟨p, hp, q, hq, hr⟩

theorem ne_any_of_ofDim? (h : ofDim? a = some p) : a ≠ .any := by
  rintro rfl
  cases h

section Coefficients

theorem coefficient_constant (k : Word) :
    coefficient (constant k).terms m = if m = [] then k.toInt else 0 := by
  unfold constant
  split
  · rename_i h
    simp [coefficient, h]
  · simp [coefficient, eq_comm]

theorem coefficient_mul? (h : p.mul? q = some r) :
    coefficient r.terms m = (p.terms.map fun t => (q.terms.map fun u =>
      if t.1.mul u.1 = m then t.2.toInt * u.2.toInt else 0).sum).sum := by
  simp only [coefficient_eq_total, total_mul? h, mul_ite, Int.mul_one, Int.mul_zero]

end Coefficients

/-- Sorted products that stay sorted when they are put together are multiplied that way. -/
theorem Monomial.mul_eq_append (h : (m ++ n).Pairwise fun a b => (compare a b).isLE) :
    m.mul n = m ++ n :=
  List.mergeSort_of_pairwise h

theorem Monomial.nil_mul (h : m.Pairwise fun a b => (compare a b).isLE) : Monomial.mul [] m = m :=
  mul_eq_append h

theorem Monomial.mul_nil (h : m.Pairwise fun a b => (compare a b).isLE) : m.mul [] = m := by
  rw [mul_eq_append] <;> rw [List.append_nil]
  exact h

section Fold

/-- Folding literals gives the constant that the operation on constants gives. -/
private theorem constant_of_fold? {op : DimOp} {k l w : Word} (hop : op = .add ∨ op = .sub ∨ op = .mul)
    (h : combine? op (constant k) (constant l) = some r) (hw : op.fold? k l = some w) :
    r = constant w := by
  refine (canonical_combine? (canonical_constant k) (canonical_constant l) h).ext
    (canonical_constant w) fun m => ?_
  obtain rfl | rfl | rfl := hop
  · have hvalue : w.toInt = k.toInt + l.toInt := Word.ofInt?_eq_some_iff.mp hw
    rw [coefficient_add? h, coefficient_constant, coefficient_constant, coefficient_constant]
    split <;> omega
  · have hvalue : w.toInt = k.toInt - l.toInt := Word.ofInt?_eq_some_iff.mp hw
    rw [coefficient_sub? h, coefficient_constant, coefficient_constant, coefficient_constant]
    split <;> omega
  · have hvalue : w.toInt = k.toInt * l.toInt := Word.ofInt?_eq_some_iff.mp hw
    rw [coefficient_mul? h, coefficient_constant, hvalue]
    by_cases hk : k = 0
    · simp [constant, hk]
    · by_cases hl : l = 0
      · simp [constant, hl]
      · have hnil : Monomial.mul [] [] = [] := Monomial.nil_mul .nil
        by_cases hm : m = []
        · simp [constant, hk, hl, hnil, hm]
        · simp [constant, hk, hl, hnil, hm, Ne.symm hm]

private theorem eq_right_of_mul? (hq : q.Canonical) (h : (constant 1).mul? q = some r) : r = q := by
  refine (canonical_mul? h).ext hq fun m => ?_
  rw [coefficient_mul? h]
  have hone : (constant 1).terms = [([], 1)] := rfl
  rw [hone, List.map_singleton, List.sum_singleton, coefficient]
  congr 1
  refine List.map_congr_left fun u hu => ?_
  rw [Monomial.nil_mul (hq.sorted u hu)]
  simp

private theorem eq_left_of_mul? (hp : p.Canonical) (h : p.mul? (constant 1) = some r) : r = p := by
  refine (canonical_mul? h).ext hp fun m => ?_
  rw [coefficient_mul? h]
  have hone : (constant 1).terms = [([], 1)] := rfl
  rw [hone, coefficient]
  congr 1
  refine List.map_congr_left fun t ht => ?_
  rw [List.map_singleton, List.sum_singleton, Monomial.mul_nil (hp.sorted t ht)]
  simp

private theorem eq_zero_of_mul? (h : p.mul? q = some r) (hzero : p = constant 0 ∨ q = constant 0) :
    r = constant 0 := by
  refine (canonical_mul? h).ext (canonical_constant 0) fun m => ?_
  rw [coefficient_mul? h, coefficient_constant]
  have hnil : (constant 0).terms = [] := rfl
  obtain rfl | rfl := hzero <;> simp [hnil]

/-- The unit and zero laws of sums, differences and products hold for normal forms. -/
private theorem ofDim?_shortcut? {op : DimOp} (hop : op = .add ∨ op = .sub ∨ op = .mul)
    (h : ofDim? (.binary op a b) = some r) (hd : op.shortcut? a b = some d) :
    ofDim? d = some r := by
  obtain ⟨p, q, hp, hq, hr⟩ := ofDim?_binary.mp h
  have hpc := canonical_ofDim? hp
  have hqc := canonical_ofDim? hq
  have hrc := canonical_combine? hpc hqc hr
  have hconst : ∀ {e : Dim} {s : NormalForm} {k : Word}, ofDim? e = some s → e = .const k →
      s = constant k := by
    rintro e s k hs rfl
    exact (Option.some.inj hs).symm
  obtain rfl | rfl | rfl := hop
  · simp only [DimOp.shortcut?] at hd
    split at hd
    · rename_i ha
      cases hd
      rw [hq, hrc.ext hqc fun m => ?_]
      rw [coefficient_add? hr, hconst hp ha, coefficient_constant]
      simp
    · split at hd <;> cases hd
      rename_i hb
      rw [hp, hrc.ext hpc fun m => ?_]
      rw [coefficient_add? hr, hconst hq hb, coefficient_constant]
      simp
  · simp only [DimOp.shortcut?] at hd
    split at hd
    · rename_i hb
      cases hd
      rw [hp, hrc.ext hpc fun m => ?_]
      rw [coefficient_sub? hr, hconst hq hb, coefficient_constant]
      simp
    · split at hd <;> cases hd
      rename_i hab
      obtain rfl : p = q := Option.some.inj (hp.symm.trans (hab ▸ hq))
      rw [sub?_self hr]
      rfl
  · simp only [DimOp.shortcut?] at hd
    split at hd
    · rename_i hzero
      cases hd
      rw [eq_zero_of_mul? hr (hzero.imp (hconst hp) (hconst hq))]
      rfl
    · split at hd
      · rename_i ha
        cases hd
        rw [hconst hp ha] at hr
        rw [hq, eq_right_of_mul? hqc hr]
      · split at hd <;> cases hd
        rename_i hb
        rw [hconst hq hb] at hr
        rw [hp, eq_left_of_mul? hpc hr]

/-- Folding a sum, a difference or a product does not change its normal form. -/
theorem ofDim?_combine {op : DimOp} (hop : op = .add ∨ op = .sub ∨ op = .mul)
    (h : ofDim? (.binary op a b) = some r) : ofDim? (.combine op a b) = some r := by
  obtain ⟨p, q, hp, hq, hr⟩ := ofDim?_binary.mp h
  obtain hkept | ⟨-, hd⟩ | ⟨k, l, w, rfl, rfl, hw, hfold⟩ :=
    Dim.combine_cases op (ne_any_of_ofDim? hp) (ne_any_of_ofDim? hq)
  · rwa [hkept]
  · exact ofDim?_shortcut? hop h hd
  · cases hp
    cases hq
    rw [hfold, constant_of_fold? hop hr hw]
    rfl

end Fold

section Terms

variable {c k : Word} {ts us : List Term}

/-- A monomial greater than all others is inserted at the end. -/
theorem insert?_last (h : ∀ t ∈ ts, compare t.1 m = .lt) (hc : c ≠ 0) :
    insert? m c ts = some (ts ++ [(m, c)]) := by
  induction ts with
  | nil => rw [insert?, if_neg hc, List.nil_append]
  | cons t ts ih =>
    rw [List.forall_mem_cons] at h
    rw [insert?, Std.OrientedCmp.gt_of_lt h.1]
    dsimp only
    rw [ih h.2, Option.map_some, List.cons_append]

/-- The empty monomial is inserted at the front. -/
theorem insert?_nil (h : ∀ t ∈ ts, t.1 ≠ []) (hc : c ≠ 0) :
    insert? [] c ts = some (([], c) :: ts) := by
  cases ts with
  | nil => rw [insert?, if_neg hc]
  | cons t ts =>
    obtain ⟨a, m, ht⟩ := List.exists_cons_of_ne_nil (h t List.mem_cons_self)
    have hlt : compare [] t.1 = .lt := by
      rw [ht]
      rfl
    rw [insert?, hlt]
    dsimp only
    rw [if_neg hc]

theorem add?_single : (mk ts).add? ⟨[(m, c)]⟩ = (insert? m c ts).map mk := by
  simp [add?]

theorem mul?_single {x y z : Word} (hz : Word.mul? x y = some z) (hne : z ≠ 0) :
    (mk [(m, x)]).mul? ⟨[(n, y)]⟩ = some ⟨[(m.mul n, z)]⟩ := by
  simp [mul?, hz, insert?, hne]

theorem constant_of_ne_zero (hk : k ≠ 0) : constant k = ⟨[([], k)]⟩ := by
  rw [constant, if_neg hk]

private theorem ofDim?_foldl_combine (hd : ofDim? d = some ⟨[(m, 1)]⟩)
    (hstable : ∀ a ∈ n, Stable a) (hsorted : (m ++ n).Pairwise fun a b => (compare a b).isLE) :
    ofDim? (n.foldl (.combine .mul) d) = some ⟨[(m ++ n, 1)]⟩ := by
  induction n generalizing d m with
  | nil => rwa [List.foldl_nil, List.append_nil]
  | cons a n ih =>
    rw [List.forall_mem_cons] at hstable
    rw [List.append_cons] at hsorted ⊢
    have hone : Word.mul? 1 1 = some 1 := rfl
    have hproduct : (mk [(m, 1)]).mul? (atom a) = some ⟨[(m ++ [a], 1)]⟩ := by
      rw [atom, mul?_single hone (by decide), Monomial.mul_eq_append (hsorted.sublist (by simp))]
    refine ih (ofDim?_combine (by simp) ?_) hstable.2 hsorted
    exact ofDim?_binary.mpr ⟨_, _, hd, hstable.1, hproduct⟩

/-- A product of stable atoms is written out as a dimension with that product as its normal form. -/
theorem ofDim?_monomial (hstable : ∀ a ∈ m, Stable a)
    (hsorted : m.Pairwise fun a b => (compare a b).isLE) : ofDim? m.toDim = some ⟨[(m, 1)]⟩ := by
  cases m with
  | nil => rfl
  | cons a m =>
    rw [List.forall_mem_cons] at hstable
    exact ofDim?_foldl_combine hstable.1 hstable.2 hsorted

theorem ofDim?_term (hstable : ∀ a ∈ m, Stable a)
    (hsorted : m.Pairwise fun a b => (compare a b).isLE) (hk : k ≠ 0) :
    ofDim? (.combine .mul m.toDim (.const k)) = some ⟨[(m, k)]⟩ := by
  have hfits : Word.mul? 1 k = some k :=
    Word.ofInt?_eq_some_iff.mpr (by rw [Int64.toInt_one, Int.one_mul])
  have hproduct : (mk [(m, 1)]).mul? (constant k) = some ⟨[(m, k)]⟩ := by
    rw [constant_of_ne_zero hk, mul?_single hfits hk, Monomial.mul_nil hsorted]
  refine ofDim?_combine (by simp) ?_
  exact ofDim?_binary.mpr ⟨_, _, ofDim?_monomial hstable hsorted, rfl, hproduct⟩

/-- The literal written for a coefficient is that or its opposite. -/
theorem signed_cases {negative : Bool} (h : signed c = (negative, k)) :
    if negative then Word.neg? k = some c else k = c := by
  have hvalue := eval_signed h
  cases negative with
  | false => exact Int64.toInt_inj.mp (by simpa using hvalue.symm)
  | true => exact Word.ofInt?_eq_some_iff.mpr (by simpa using hvalue)

theorem neg?_single (h : Word.neg? k = some c) : (mk [(m, k)]).neg? = some ⟨[(m, c)]⟩ := by
  simp [neg?, h]

/-- A written term is inserted into the normal form of what stands before it. -/
theorem ofDim?_append {before : Option Dim} {term : Word → Dim}
    (hbefore : ∀ d ∈ before, ofDim? d = some ⟨ts⟩) (hnone : before = none → ts = [])
    (hterm : ∀ k, k ≠ 0 → ofDim? (term k) = some ⟨[(m, k)]⟩) (hc : c ≠ 0)
    (hinsert : insert? m c ts = some us) : ofDim? (append before c term) = some ⟨us⟩ := by
  have hsum : (mk ts).add? ⟨[(m, c)]⟩ = some ⟨us⟩ := by
    rw [add?_single, hinsert, Option.map_some]
  have hdifference : ∀ {d k}, Word.neg? k = some c → ofDim? d = some ⟨ts⟩ →
      ofDim? (.combine .sub d (term k)) = some ⟨us⟩ := by
    intro d k hk hd
    have hk0 : k ≠ 0 := by
      rintro rfl
      cases hk
      exact hc rfl
    refine ofDim?_combine (by simp) (ofDim?_binary.mpr ⟨_, _, hd, hterm k hk0, ?_⟩)
    rw [combine?, sub?, neg?_single hk]
    exact hsum
  unfold append
  rcases hsigned : signed c with ⟨negative, k⟩
  have hcases := signed_cases hsigned
  dsimp only
  cases negative with
  | true =>
    cases before with
    | none => exact hdifference hcases (by rw [hnone rfl]; rfl)
    | some d => exact hdifference hcases (hbefore d rfl)
  | false =>
    obtain rfl : k = c := hcases
    cases before with
    | none =>
      obtain rfl := hnone rfl
      rw [insert?, if_neg hc] at hinsert
      cases hinsert
      exact hterm k hc
    | some d =>
      exact ofDim?_combine (by simp) (ofDim?_binary.mpr ⟨_, _, hbefore d rfl, hterm k hc, hsum⟩)

theorem ofDim?_append_zero {before : Option Dim} (hbefore : ∀ d ∈ before, ofDim? d = some ⟨ts⟩)
    (hnone : before = none → ts = []) : ofDim? (append before 0 .const) = some ⟨ts⟩ := by
  have hsigned : signed 0 = (false, 0) := by decide
  unfold append
  rw [hsigned]
  cases before with
  | none =>
    rw [hnone rfl]
    rfl
  | some d =>
    refine ofDim?_combine (Or.inl rfl) ?_
    exact ofDim?_binary.mpr ⟨_, _, hbefore d rfl, rfl, rfl⟩

private theorem ofDim?_foldl_append (us : List Term) (before : Option Dim)
    (hbefore : ∀ d ∈ before, ofDim? d = some ⟨us⟩) (hnone : before = none → us = [])
    (hcanonical : Canonical ⟨us ++ ts⟩) (hstable : Over Stable ⟨ts⟩) :
    let after := ts.foldl (fun before t => some (append before t.2 fun k =>
      .combine .mul t.1.toDim (.const k))) before
    (∀ d ∈ after, ofDim? d = some ⟨us ++ ts⟩) ∧ (after = none → us ++ ts = []) := by
  induction ts generalizing before us with
  | nil => simpa using ⟨hbefore, hnone⟩
  | cons t ts ih =>
    rw [Over, List.map_cons, List.forall_mem_cons] at hstable
    have ht : t ∈ us ++ t :: ts := by simp
    have hlast : ∀ u ∈ us, compare u.1 t.1 = .lt := by
      intro u hu
      exact (List.pairwise_append.mp hcanonical.pairwise).2.2 u hu t List.mem_cons_self
    have hinsert := insert?_last hlast (hcanonical.nonzero t ht)
    rw [List.append_cons] at hcanonical ⊢
    refine ih _ _ ?_ (fun h => by cases h) hcanonical hstable.2
    rintro d ⟨⟩
    exact ofDim?_append hbefore hnone
      (fun k => ofDim?_term hstable.1 (hcanonical.sorted t (by simp))) (hcanonical.nonzero t (by simp))
      hinsert

end Terms

/-- Terms written one after another. -/
def written (ts : List Term) : Option Dim :=
  ts.foldl (fun before t => some (append before t.2 fun k => .combine .mul t.1.toDim (.const k))) none

theorem toDim_eq_append (p : NormalForm) :
    p.toDim = append (written p.symbolic) p.constantTerm .const := rfl

theorem ofDim?_written (hp : p.Canonical) (hstable : p.Over Stable) :
    (∀ d ∈ written p.symbolic, ofDim? d = some ⟨p.symbolic⟩) ∧
      (written p.symbolic = none → p.symbolic = []) := by
  have hover : Over Stable ⟨p.symbolic⟩ := fun m hm =>
    hstable m ((List.filter_sublist.map _).subset hm)
  exact ofDim?_foldl_append [] none nofun (fun _ => rfl) hp.symbolic hover

/-- A canonical normal form over stable atoms is the normal form of the dimension it is written as. -/
theorem Canonical.ofDim?_toDim (hp : p.Canonical) (hstable : p.Over Stable) :
    ofDim? p.toDim = some p := by
  obtain ⟨hsome, hnone⟩ := ofDim?_written hp hstable
  rw [toDim_eq_append]
  obtain ⟨hzero, hterms⟩ | ⟨hne, hterms⟩ := hp.constantTerm_cases
  · -- Without a constant term, zero is added in the end, or stands alone.
    rw [hzero, ofDim?_append_zero hsome hnone, ← hterms]
  · have hinsert : insert? [] p.constantTerm p.symbolic = some p.terms := by
      rw [insert?_nil (fun t => ne_nil_of_mem_symbolic) hne, ← hterms]
    refine ofDim?_append hsome hnone (fun k hk => ?_) hne hinsert
    exact congrArg some (constant_of_ne_zero hk)

end NormalForm

end TensorTyping
