import TensorTyping.NormalForm
import TensorTyping.Proofs.Order

namespace TensorTyping.NormalForm

/-- Terms stand in strictly increasing order of their monomials, which are
sorted themselves, and no coefficient is zero. -/
structure Canonical (p : NormalForm) : Prop where
  increasing : (p.terms.map (·.1)).Pairwise fun m n => compare m n = .lt
  sorted : ∀ t ∈ p.terms, t.1.Pairwise fun a b => (compare a b).isLE
  nonzero : ∀ t ∈ p.terms, t.2 ≠ 0

theorem canonical_nil : Canonical ⟨[]⟩ := by
  constructor <;> simp

theorem canonical_constant (n : Word) : (constant n).Canonical := by
  unfold constant
  split
  · exact canonical_nil
  · rename_i h
    constructor <;> simp [h]

theorem canonical_atom (d : Dim) : (atom d).Canonical := by
  constructor <;> simp [atom]

theorem canonical_ofFolded (d : Dim) : (ofFolded d).Canonical := by
  cases d with
  | const n => exact canonical_constant n
  | var | any | binary => exact canonical_atom _

theorem canonical_cons {t : Term} {ts : List Term} :
    Canonical ⟨t :: ts⟩ ↔ (∀ u ∈ ts, compare t.1 u.1 = .lt) ∧
      t.1.Pairwise (fun a b => (compare a b).isLE) ∧ t.2 ≠ 0 ∧ Canonical ⟨ts⟩ := by
  constructor
  · rintro ⟨hinc, hsorted, hne⟩
    simp only [List.map_cons, List.pairwise_cons, List.mem_map, forall_exists_index, and_imp,
      forall_apply_eq_imp_iff₂, List.mem_cons, forall_eq_or_imp] at hinc hsorted hne
    exact ⟨hinc.1, hsorted.1, hne.1, hinc.2, hsorted.2, hne.2⟩
  · rintro ⟨hlt, hsorted, hne, hts⟩
    constructor
    · simpa using ⟨fun m c h => hlt (m, c) h, hts.increasing⟩
    · simpa using ⟨hsorted, fun m c h => hts.sorted (m, c) h⟩
    · simpa using ⟨hne, fun m c h => hts.nonzero (m, c) h⟩

theorem ne_nil_of_compare_lt {m n : Monomial} (h : compare m n = .lt) : n ≠ [] := by
  rintro rfl
  cases m <;> cases h

/-- The terms other than the constant one. -/
def symbolic (p : NormalForm) : List Term := p.terms.filter (!·.1.isEmpty)

theorem ne_nil_of_mem_symbolic {p : NormalForm} {t : Term} (ht : t ∈ p.symbolic) : t.1 ≠ [] := by
  simpa using (List.mem_filter.mp ht).2

/-- Only the first term can be the constant one. -/
theorem Canonical.constantTerm_cases {p : NormalForm} (h : p.Canonical) :
    p.constantTerm = 0 ∧ p.terms = p.symbolic ∨
      p.constantTerm ≠ 0 ∧ p.terms = ([], p.constantTerm) :: p.symbolic := by
  obtain ⟨ts⟩ := p
  unfold symbolic
  cases ts with
  | nil => exact Or.inl ⟨rfl, rfl⟩
  | cons t ts =>
    obtain ⟨hlt, -, hne, -⟩ := canonical_cons.mp h
    have hsymbolic : ∀ u ∈ ts, u.1.isEmpty = false := by
      intro u hu
      simpa using ne_nil_of_compare_lt (hlt u hu)
    have hfilter : ts.filter (!·.1.isEmpty) = ts := by
      rw [List.filter_eq_self]
      intro u hu
      simp [hsymbolic u hu]
    obtain ⟨m, c⟩ := t
    cases m with
    | nil => exact Or.inr ⟨hne, by simp [constantTerm, hfilter]⟩
    | cons a m =>
      have hfind : ts.find? (·.1.isEmpty) = none := by
        rw [List.find?_eq_none]
        intro u hu
        simp [hsymbolic u hu]
      exact Or.inl ⟨by simp [constantTerm, hfind], by simp [hfilter]⟩

theorem Canonical.sublist {ts us : List Term} (h : Canonical ⟨ts⟩) (hus : us.Sublist ts) :
    Canonical ⟨us⟩ :=
  ⟨h.increasing.sublist (hus.map _), fun t ht => h.sorted t (hus.subset ht),
    fun t ht => h.nonzero t (hus.subset ht)⟩

theorem Canonical.symbolic {p : NormalForm} (h : p.Canonical) : Canonical ⟨p.symbolic⟩ :=
  h.sublist List.filter_sublist

theorem Canonical.nodup {p : NormalForm} (h : p.Canonical) : (p.terms.map (·.1)).Nodup :=
  h.increasing.imp fun hlt heq => by
    rw [heq, Std.ReflOrd.compare_self] at hlt
    cases hlt

/-- The monomials after an insertion are the inserted one and those of before. -/
theorem mem_of_mem_insert? {m : Monomial} {c : Word} {ts ts' : List Term} {t : Term}
    (h : insert? m c ts = some ts') (ht : t ∈ ts') : t.1 = m ∨ ∃ u ∈ ts, u.1 = t.1 := by
  induction ts generalizing ts' with
  | nil =>
    cases h
    split at ht
    · cases ht
    · rw [List.mem_singleton.mp ht]
      exact Or.inl rfl
  | cons u us ih =>
    rw [insert?] at h
    split at h
    · cases h
      split at ht
      · exact Or.inr ⟨t, ht, rfl⟩
      · rcases List.mem_cons.mp ht with rfl | ht
        · exact Or.inl rfl
        · exact Or.inr ⟨t, ht, rfl⟩
    · obtain ⟨s, _, rfl⟩ := Option.map_eq_some_iff.mp h
      split at ht
      · exact Or.inr ⟨t, List.mem_cons_of_mem _ ht, rfl⟩
      · rcases List.mem_cons.mp ht with rfl | ht
        · exact Or.inr ⟨u, List.mem_cons_self, rfl⟩
        · exact Or.inr ⟨t, List.mem_cons_of_mem _ ht, rfl⟩
    · obtain ⟨rest, hrest, rfl⟩ := Option.map_eq_some_iff.mp h
      rcases List.mem_cons.mp ht with rfl | ht
      · exact Or.inr ⟨t, List.mem_cons_self, rfl⟩
      · exact (ih hrest ht).imp_right fun ⟨v, hv, heq⟩ => ⟨v, List.mem_cons_of_mem _ hv, heq⟩

theorem canonical_insert? {m : Monomial} {c : Word} {ts ts' : List Term}
    (hm : m.Pairwise fun a b => (compare a b).isLE) (hts : Canonical ⟨ts⟩)
    (h : insert? m c ts = some ts') : Canonical ⟨ts'⟩ := by
  induction ts generalizing ts' with
  | nil =>
    cases h
    split
    · exact canonical_nil
    · rename_i hc
      exact canonical_cons.mpr ⟨by simp, hm, hc, canonical_nil⟩
  | cons u us ih =>
    obtain ⟨hlt, hsorted, hne, hus⟩ := canonical_cons.mp hts
    rw [insert?] at h
    split at h
    · rename_i hmu
      cases h
      split
      · exact hts
      · rename_i hc
        refine canonical_cons.mpr ⟨?_, hm, hc, hts⟩
        intro v hv
        rcases List.mem_cons.mp hv with rfl | hv
        · exact hmu
        · exact Std.TransCmp.lt_trans hmu (hlt v hv)
    · obtain ⟨s, _, rfl⟩ := Option.map_eq_some_iff.mp h
      split
      · exact hus
      · rename_i hs
        exact canonical_cons.mpr ⟨hlt, hsorted, hs, hus⟩
    · rename_i hmu
      obtain ⟨rest, hrest, rfl⟩ := Option.map_eq_some_iff.mp h
      refine canonical_cons.mpr ⟨?_, hsorted, hne, ih hus hrest⟩
      intro v hv
      rcases mem_of_mem_insert? hrest hv with hvm | ⟨w, hw, hwv⟩
      · rw [hvm]
        exact Std.OrientedCmp.lt_of_gt hmu
      · rw [← hwv]
        exact hlt w hw

/-- What every step of a partial fold keeps holds of its result. -/
theorem foldlM_keeps {α β : Type} {P : β → Prop} {step : β → α → Option β} {xs : List α}
    (hstep : ∀ b x b', x ∈ xs → P b → step b x = some b' → P b') {b b' : β} (hb : P b)
    (h : xs.foldlM step b = some b') : P b' := by
  induction xs generalizing b with
  | nil =>
    cases h
    exact hb
  | cons x xs ih =>
    rw [List.foldlM_cons, Option.bind_eq_bind, Option.bind_eq_some_iff] at h
    obtain ⟨mid, hmid, h⟩ := h
    exact ih (fun b y b' hy => hstep b y b' (List.mem_cons_of_mem _ hy))
      (hstep b x mid List.mem_cons_self hb hmid) h

/-- Changing only coefficients, none to zero, keeps the form. -/
theorem canonical_of_map_fst_eq {p q : NormalForm} (hp : p.Canonical)
    (hfst : q.terms.map (·.1) = p.terms.map (·.1)) (hne : ∀ t ∈ q.terms, t.2 ≠ 0) :
    q.Canonical := by
  refine ⟨hfst ▸ hp.increasing, ?_, hne⟩
  intro t ht
  have hmem : t.1 ∈ p.terms.map (·.1) := hfst ▸ List.mem_map_of_mem ht
  obtain ⟨u, hu, heq⟩ := List.mem_map.mp hmem
  exact heq ▸ hp.sorted u hu

theorem canonical_add? {p q r : NormalForm} (hp : p.Canonical) (hq : q.Canonical)
    (h : p.add? q = some r) : r.Canonical := by
  obtain ⟨rs, hrs, rfl⟩ := Option.map_eq_some_iff.mp h
  exact foldlM_keeps (P := fun ts => Canonical ⟨ts⟩)
    (fun acc t acc' ht hacc hstep => canonical_insert? (hq.sorted t ht) hacc hstep) hp hrs

theorem mapM_terms {f : Term → Option Word} {ts us : List Term}
    (h : ts.mapM (fun t => (f t).map (t.1, ·)) = some us) :
    us.map (·.1) = ts.map (·.1) ∧ ∀ u ∈ us, ∃ t ∈ ts, f t = some u.2 := by
  induction ts generalizing us with
  | nil =>
    cases h
    simp
  | cons t ts ih =>
    simp only [List.mapM_cons, Option.pure_def, Option.bind_eq_bind, Option.bind_eq_some_iff,
      Option.some.injEq] at h
    obtain ⟨u, hu, us', hus', rfl⟩ := h
    obtain ⟨c, hc, rfl⟩ := Option.map_eq_some_iff.mp hu
    obtain ⟨hfst, hmem⟩ := ih hus'
    refine ⟨by rw [List.map_cons, List.map_cons, hfst], ?_⟩
    intro v hv
    rcases List.mem_cons.mp hv with rfl | hv
    · exact ⟨t, List.mem_cons_self, hc⟩
    · obtain ⟨t', ht', heq⟩ := hmem v hv
      exact ⟨t', List.mem_cons_of_mem _ ht', heq⟩

theorem canonical_neg? {p q : NormalForm} (hp : p.Canonical) (h : p.neg? = some q) :
    q.Canonical := by
  obtain ⟨qs, hqs, rfl⟩ := Option.map_eq_some_iff.mp h
  obtain ⟨hfst, hmem⟩ := mapM_terms (f := fun t => Word.neg? t.2) hqs
  refine canonical_of_map_fst_eq hp hfst ?_
  intro u hu hzero
  obtain ⟨t, ht, hneg⟩ := hmem u hu
  have hval : u.2.toInt = -t.2.toInt := Word.ofInt?_eq_some_iff.mp hneg
  apply hp.nonzero t ht
  rw [← Int64.toInt_inj, Int64.toInt_zero]
  rw [hzero, Int64.toInt_zero] at hval
  omega

theorem canonical_sub? {p q r : NormalForm} (hp : p.Canonical) (hq : q.Canonical)
    (h : p.sub? q = some r) : r.Canonical := by
  simp only [sub?, Option.bind_eq_bind, Option.bind_eq_some_iff] at h
  obtain ⟨q', hq', h⟩ := h
  exact canonical_add? hp (canonical_neg? hq hq') h

/-- The opposites of all terms cancel them, from the first to the last. -/
private theorem cancel {ts us : List Term}
    (h : ts.mapM (fun t => (Word.neg? t.2).map (t.1, ·)) = some us) :
    us.foldlM (fun acc t => insert? t.1 t.2 acc) ts = some [] := by
  induction ts generalizing us with
  | nil =>
    cases h
    rfl
  | cons t ts ih =>
    simp only [List.mapM_cons, Option.bind_eq_bind, Option.bind_eq_some_iff, Option.map_eq_some_iff,
      Option.pure_def, Option.some.injEq] at h
    obtain ⟨u, ⟨c, hc, rfl⟩, us, hus, rfl⟩ := h
    have hzero : Word.add? t.2 c = some 0 := by
      rw [Word.neg?, Word.ofInt?_eq_some_iff] at hc
      rw [Word.add?, Word.ofInt?_eq_some_iff, hc, Int.add_right_neg]
      rfl
    have hinsert : insert? t.1 c (t :: ts) = some ts := by
      have hself : compare t.1 t.1 = .eq := Std.ReflCmp.compare_self
      simp only [insert?, hself, hzero, Option.map_some, if_true]
    rw [List.foldlM_cons, hinsert]
    exact ih hus

/-- A difference of equals is zero, unless an opposite overflows. -/
theorem sub?_self {p r : NormalForm} (h : p.sub? p = some r) : r = ⟨[]⟩ := by
  obtain ⟨q, hq, hadd⟩ := Option.bind_eq_some_iff.mp h
  obtain ⟨us, hus, rfl⟩ := Option.map_eq_some_iff.mp hq
  rw [add?, cancel hus] at hadd
  exact (Option.some.inj hadd).symm

/-- A normal form with an opposite leaves nothing when subtracted from itself. -/
theorem sub?_self_eq_nil {p q : NormalForm} (h : p.neg? = some q) : p.sub? p = some ⟨[]⟩ := by
  obtain ⟨us, hus, rfl⟩ := Option.map_eq_some_iff.mp h
  rw [sub?, h, Option.bind_eq_bind, Option.bind_some, add?, cancel hus]
  rfl

private theorem sorted_mul (m n : Monomial) :
    (m.mul n).Pairwise fun a b => (compare a b).isLE :=
  pairwise_mergeSort_compare (m ++ n)

theorem canonical_mul? {p q r : NormalForm} (h : p.mul? q = some r) : r.Canonical := by
  obtain ⟨rs, hrs, rfl⟩ := Option.map_eq_some_iff.mp h
  refine foldlM_keeps (P := fun ts => Canonical ⟨ts⟩) ?_ canonical_nil hrs
  intro acc t acc' _ hacc hrow
  refine foldlM_keeps (P := fun ts => Canonical ⟨ts⟩) ?_ hacc hrow
  intro acc u acc' _ hacc hstep
  obtain ⟨c, _, hstep⟩ := Option.bind_eq_some_iff.mp hstep
  exact canonical_insert? (sorted_mul _ _) hacc hstep

/-- Exact division divides every coefficient and leaves the monomials. -/
theorem terms_divExact? {p q : NormalForm} {d : Word} (h : p.divExact? d = some q) :
    q.terms.map (·.1) = p.terms.map (·.1) ∧
      ∀ u ∈ q.terms, ∃ t ∈ p.terms, t.2.toInt = d.toInt * u.2.toInt := by
  unfold divExact? at h
  split at h
  · cases h
  obtain ⟨qs, hqs, rfl⟩ := Option.map_eq_some_iff.mp h
  let quotient (t : Term) : Option Word :=
    if d.toInt ∣ t.2.toInt then Word.ofInt? (t.2.toInt / d.toInt) else none
  have hquotient : qs.map (·.1) = p.terms.map (·.1) ∧ ∀ u ∈ qs, ∃ t ∈ p.terms, quotient t = some u.2 := by
    apply mapM_terms
    rw [← hqs]
    congr 1
    funext t
    simp only [quotient]
    split <;> rfl
  refine ⟨hquotient.1, fun u hu => ?_⟩
  obtain ⟨t, ht, hdiv⟩ := hquotient.2 u hu
  simp only [quotient] at hdiv
  split at hdiv
  · rename_i hdvd
    have hval : u.2.toInt = t.2.toInt / d.toInt := Word.ofInt?_eq_some_iff.mp hdiv
    exact ⟨t, ht, by rw [hval, Int.mul_ediv_cancel' hdvd]⟩
  · cases hdiv

theorem canonical_divExact? {p q : NormalForm} {d : Word} (hp : p.Canonical)
    (h : p.divExact? d = some q) : q.Canonical := by
  obtain ⟨hfst, hmem⟩ := terms_divExact? h
  refine canonical_of_map_fst_eq hp hfst fun u hu hzero => ?_
  obtain ⟨t, ht, hdiv⟩ := hmem u hu
  apply hp.nonzero t ht
  rw [← Int64.toInt_inj, Int64.toInt_zero, hdiv, hzero, Int64.toInt_zero, Int.mul_zero]

/-- A quotient of constants is computed where it fits, one by a positive constant is taken where that
divides everything, and any other is kept. -/
theorem floorDiv_cases (p q : NormalForm) :
    p.floorDiv q = ofFolded (.combine .floorDiv p.toDim q.toDim) ∨
      (∃ m n k, p.const? = some m ∧ q.const? = some n ∧ Word.floorDiv? m n = some k ∧
        p.floorDiv q = constant k) ∨
      ∃ n, q.const? = some n ∧ 0 < n ∧ p.divExact? n = some (p.floorDiv q) := by
  unfold floorDiv
  dsimp only
  split
  · rename_i m n hm hn
    cases hk : Word.floorDiv? m n with
    | none => exact Or.inl rfl
    | some k => exact Or.inr (Or.inl ⟨m, n, k, hm, hn, hk, rfl⟩)
  · rename_i n _ hn
    split
    · rename_i hpos
      cases hr : p.divExact? n with
      | none => exact Or.inl rfl
      | some r => exact Or.inr (Or.inr ⟨n, hn, hpos, hr⟩)
    · exact Or.inl rfl
  · exact Or.inl rfl

/-- A remainder is computed or zero under the same conditions, and kept otherwise. -/
theorem floorMod_cases (p q : NormalForm) :
    p.floorMod q = ofFolded (.combine .floorMod p.toDim q.toDim) ∨
      (∃ m n k, p.const? = some m ∧ q.const? = some n ∧ Word.floorMod? m n = some k ∧
        p.floorMod q = constant k) ∨
      ∃ n r, q.const? = some n ∧ 0 < n ∧ p.divExact? n = some r ∧ p.floorMod q = constant 0 := by
  unfold floorMod
  dsimp only
  split
  · rename_i m n hm hn
    cases hk : Word.floorMod? m n with
    | none => exact Or.inl rfl
    | some k => exact Or.inr (Or.inl ⟨m, n, k, hm, hn, hk, rfl⟩)
  · rename_i n _ hn
    split
    · rename_i hcond
      obtain ⟨r, hr⟩ := Option.isSome_iff_exists.mp hcond.2
      exact Or.inr (Or.inr ⟨n, r, hn, hcond.1, hr, rfl⟩)
    · exact Or.inl rfl
  · exact Or.inl rfl

/-- A constant difference picks one of two operands, and otherwise both are kept, in their order. -/
theorem extremum_cases (op : DimOp) (pickLeft : Word → Bool) (p q : NormalForm) :
    (∃ r d, p.sub? q = some r ∧ r.const? = some d ∧
      extremum op pickLeft p q = if pickLeft d then p else q) ∨
      extremum op pickLeft p q = ofFolded (.combine op p.toDim q.toDim) ∨
      extremum op pickLeft p q = ofFolded (.combine op q.toDim p.toDim) := by
  unfold extremum
  split
  · rename_i d hd
    obtain ⟨r, hr, hd⟩ := Option.bind_eq_some_iff.mp hd
    exact Or.inl ⟨r, d, hr, hd, rfl⟩
  · dsimp only
    split
    · exact Or.inr (Or.inl rfl)
    · exact Or.inr (Or.inr rfl)

theorem canonical_floorDiv {p : NormalForm} (hp : p.Canonical) (q : NormalForm) :
    (p.floorDiv q).Canonical := by
  obtain h | ⟨-, -, k, -, -, -, h⟩ | ⟨n, -, -, h⟩ := floorDiv_cases p q
  · exact h ▸ canonical_ofFolded _
  · exact h ▸ canonical_constant k
  · exact canonical_divExact? hp h

theorem canonical_floorMod (p q : NormalForm) : (p.floorMod q).Canonical := by
  obtain h | ⟨-, -, k, -, -, -, h⟩ | ⟨-, -, -, -, -, h⟩ := floorMod_cases p q
  · exact h ▸ canonical_ofFolded _
  · exact h ▸ canonical_constant k
  · exact h ▸ canonical_constant 0

theorem canonical_extremum {p q : NormalForm} (op : DimOp) (pickLeft : Word → Bool)
    (hp : p.Canonical) (hq : q.Canonical) : (extremum op pickLeft p q).Canonical := by
  obtain ⟨-, d, -, -, h⟩ | h | h := extremum_cases op pickLeft p q
  · rw [h]
    split
    · exact hp
    · exact hq
  · exact h ▸ canonical_ofFolded _
  · exact h ▸ canonical_ofFolded _

theorem canonical_combine? {op : DimOp} {p q r : NormalForm} (hp : p.Canonical) (hq : q.Canonical)
    (h : combine? op p q = some r) : r.Canonical := by
  cases op with
  | add => exact canonical_add? hp hq h
  | sub => exact canonical_sub? hp hq h
  | mul => exact canonical_mul? h
  | floorDiv =>
    cases h
    exact canonical_floorDiv hp q
  | floorMod =>
    cases h
    exact canonical_floorMod p q
  | min | max =>
    cases h
    exact canonical_extremum _ _ hp hq

/-- Every dimension with a normal form has a canonical one. -/
theorem canonical_ofDim? {d : Dim} {p : NormalForm} (h : ofDim? d = some p) : p.Canonical := by
  induction d generalizing p with
  | const n =>
    cases h
    exact canonical_constant n
  | var x =>
    cases h
    exact canonical_atom _
  | any => cases h
  | binary op a b iha ihb =>
    simp only [ofDim?, Option.bind_eq_bind, Option.bind_eq_some_iff] at h
    obtain ⟨q, hq, r, hr, h⟩ := h
    exact canonical_combine? (iha hq) (ihb hr) h

end TensorTyping.NormalForm
