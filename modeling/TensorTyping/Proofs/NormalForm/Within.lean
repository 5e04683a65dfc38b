import TensorTyping.Proofs.Dim.Fold
import TensorTyping.Proofs.NormalForm.Canonical

namespace TensorTyping

/-- A dimension without `?`, made of some size variables only. -/
def Dim.Within (V : SizeVar → Prop) : Dim → Prop
  | const _ => True
  | var x => V x
  | any => False
  | binary _ a b => a.Within V ∧ b.Within V

variable {V : SizeVar → Prop}

namespace Dim

theorem within_iff {d : Dim} :
    d.Within V ↔ d.containsAny = false ∧ ∀ x, d.Mentions x → V x := by
  induction d with
  | const n => simp [Within, containsAny, Mentions]
  | var y => simp [Within, containsAny, Mentions]
  | any => simp [Within, containsAny]
  | binary op a b iha ihb =>
    simp only [Within, iha, ihb, containsAny, Mentions, Bool.or_eq_false_iff, or_imp, forall_and]
    exact and_and_and_comm

/-- The unit and zero laws leave an operand or zero. -/
theorem eq_of_shortcut? {op : DimOp} {a b d : Dim} (h : op.shortcut? a b = some d) :
    d = a ∨ d = b ∨ d = const 0 := by
  cases op <;> simp only [DimOp.shortcut?] at h <;> (repeat' split at h) <;> cases h <;> simp

theorem within_combine (op : DimOp) {a b : Dim} (ha : a.Within V) (hb : b.Within V) :
    (combine op a b).Within V := by
  have hanyl : a ≠ any := by
    rintro rfl
    exact ha
  have hanyr : b ≠ any := by
    rintro rfl
    exact hb
  obtain hkept | ⟨-, hd⟩ | ⟨k, l, w, -, -, -, hfold⟩ := combine_cases op hanyl hanyr
  · exact hkept ▸ ⟨ha, hb⟩
  · generalize combine op a b = d at hd
    obtain rfl | rfl | rfl := eq_of_shortcut? hd
    · exact ha
    · exact hb
    · trivial
  · rw [hfold]
    trivial

end Dim

/-- All atoms are of some form. -/
def NormalForm.Over (A : Dim → Prop) (p : NormalForm) : Prop :=
  ∀ m ∈ p.terms.map (·.1), ∀ a ∈ m, A a

/-- All atoms are made of some size variables only. -/
def NormalForm.Within (V : SizeVar → Prop) (p : NormalForm) : Prop :=
  ∀ m ∈ p.terms.map (·.1), ∀ a ∈ m, a.Within V

theorem Monomial.within_toDim {m : Monomial} (h : ∀ a ∈ m, a.Within V) : m.toDim.Within V := by
  cases m with
  | nil => trivial
  | cons a m =>
    rw [List.forall_mem_cons] at h
    exact List.foldlRecOn m (Dim.combine .mul) (motive := Dim.Within V) h.1
      fun d hd b hb => Dim.within_combine .mul hd (h.2 b hb)

namespace NormalForm

variable {p q r : NormalForm}

section Over

variable {A : Dim → Prop}

theorem over_constant (n : Word) : (constant n).Over A := by
  unfold constant
  split <;> simp [Over]

theorem over_atom {d : Dim} (h : A d) : (atom d).Over A := by
  simpa [Over, atom] using h

theorem over_insert? {m : Monomial} {c : Word} {ts ts' : List Term} (hm : ∀ a ∈ m, A a)
    (hts : Over A ⟨ts⟩) (h : insert? m c ts = some ts') : Over A ⟨ts'⟩ := by
  refine List.forall_mem_map.mpr fun t ht => ?_
  obtain heq | ⟨u, hu, heq⟩ := mem_of_mem_insert? h ht
  · rwa [heq]
  · rw [← heq]
    exact hts _ (List.mem_map_of_mem hu)

theorem over_add? (hp : p.Over A) (hq : q.Over A) (h : p.add? q = some r) : r.Over A := by
  obtain ⟨rs, hrs, rfl⟩ := Option.map_eq_some_iff.mp h
  exact foldlM_keeps (P := fun ts => Over A ⟨ts⟩)
    (fun acc t acc' ht hacc hstep => over_insert? (hq _ (List.mem_map_of_mem ht)) hacc hstep) hp hrs

theorem over_neg? (hp : p.Over A) (h : p.neg? = some q) : q.Over A := by
  obtain ⟨qs, hqs, rfl⟩ := Option.map_eq_some_iff.mp h
  obtain ⟨hfst, -⟩ := mapM_terms (f := fun t => Word.neg? t.2) hqs
  rw [Over, hfst]
  exact hp

theorem over_sub? (hp : p.Over A) (hq : q.Over A) (h : p.sub? q = some r) : r.Over A := by
  simp only [sub?, Option.bind_eq_bind, Option.bind_eq_some_iff] at h
  obtain ⟨q', hq', h⟩ := h
  exact over_add? hp (over_neg? hq hq') h

theorem over_mul? (hp : p.Over A) (hq : q.Over A) (h : p.mul? q = some r) : r.Over A := by
  obtain ⟨rs, hrs, rfl⟩ := Option.map_eq_some_iff.mp h
  refine foldlM_keeps (P := fun ts => Over A ⟨ts⟩) ?_ (by simp [Over]) hrs
  intro acc t acc' ht hacc hrow
  refine foldlM_keeps (P := fun ts => Over A ⟨ts⟩) ?_ hacc hrow
  intro acc u acc' hu hacc hstep
  obtain ⟨c, -, hstep⟩ := Option.bind_eq_some_iff.mp hstep
  refine over_insert? (fun a ha => ?_) hacc hstep
  rw [Monomial.mul, List.mem_mergeSort, List.mem_append] at ha
  exact ha.elim (hp _ (List.mem_map_of_mem ht) a) (hq _ (List.mem_map_of_mem hu) a)

theorem over_divExact? {d : Word} (hp : p.Over A) (h : p.divExact? d = some q) : q.Over A := by
  rw [Over, (terms_divExact? h).1]
  exact hp

end Over

theorem within_ofFolded {d : Dim} (h : d.Within V) : (ofFolded d).Within V := by
  cases d with
  | const n => exact over_constant n
  | var | any | binary => exact over_atom h

theorem within_append {before : Option Dim} (c : Word) {term : Word → Dim}
    (hbefore : ∀ d ∈ before, d.Within V) (hterm : ∀ k, (term k).Within V) :
    (append before c term).Within V := by
  unfold append
  rcases signed c with ⟨negative, k⟩
  cases before with
  | none =>
    cases negative with
    | false => exact hterm k
    | true => exact Dim.within_combine .sub trivial (hterm k)
  | some d => exact Dim.within_combine _ (hbefore d rfl) (hterm k)

theorem within_toDim (hp : p.Within V) : p.toDim.Within V := by
  refine within_append _ ?_ fun _ => trivial
  refine List.foldlRecOn _ _ (motive := fun before : Option Dim => ∀ d ∈ before, d.Within V)
    (fun d hd => nomatch hd) fun before hbefore t ht => ?_
  rintro d ⟨⟩
  refine within_append _ hbefore fun k => Dim.within_combine .mul ?_ trivial
  exact Monomial.within_toDim (hp _ (List.mem_map_of_mem (List.mem_filter.mp ht).1))

private theorem within_folded (op : DimOp) (hp : p.Within V) (hq : q.Within V) :
    (ofFolded (.combine op p.toDim q.toDim)).Within V :=
  within_ofFolded (Dim.within_combine op (within_toDim hp) (within_toDim hq))

theorem within_floorDiv (hp : p.Within V) (hq : q.Within V) : (p.floorDiv q).Within V := by
  obtain h | ⟨-, -, k, -, -, -, h⟩ | ⟨n, -, -, h⟩ := floorDiv_cases p q
  · exact h ▸ within_folded .floorDiv hp hq
  · exact h ▸ over_constant k
  · exact over_divExact? hp h

theorem within_floorMod (hp : p.Within V) (hq : q.Within V) : (p.floorMod q).Within V := by
  obtain h | ⟨-, -, k, -, -, -, h⟩ | ⟨-, -, -, -, -, h⟩ := floorMod_cases p q
  · exact h ▸ within_folded .floorMod hp hq
  · exact h ▸ over_constant k
  · exact h ▸ over_constant 0

theorem within_extremum (op : DimOp) (pickLeft : Word → Bool) (hp : p.Within V)
    (hq : q.Within V) : (extremum op pickLeft p q).Within V := by
  obtain ⟨-, d, -, -, h⟩ | h | h := extremum_cases op pickLeft p q
  · rw [h]
    split
    · exact hp
    · exact hq
  · exact h ▸ within_folded op hp hq
  · exact h ▸ within_folded op hq hp

theorem within_combine? {op : DimOp} (hp : p.Within V) (hq : q.Within V)
    (h : combine? op p q = some r) : r.Within V := by
  cases op with
  | add => exact over_add? hp hq h
  | sub => exact over_sub? hp hq h
  | mul => exact over_mul? hp hq h
  | floorDiv =>
    cases h
    exact within_floorDiv hp hq
  | floorMod =>
    cases h
    exact within_floorMod hp hq
  | min | max =>
    cases h
    exact within_extremum _ _ hp hq

/-- A dimension with a normal form is free of `?`, and the normal form mentions no further size
variable. -/
theorem within_ofDim? {d : Dim} (h : ofDim? d = some p) :
    d.containsAny = false ∧ p.Within d.Mentions := by
  have hmono : ∀ {V W : SizeVar → Prop} {p : NormalForm}, (∀ x, V x → W x) → p.Within V →
      p.Within W := by
    intro V W p hVW hp m hm a ha
    have ha := Dim.within_iff.mp (hp m hm a ha)
    exact Dim.within_iff.mpr ⟨ha.1, fun x hx => hVW x (ha.2 x hx)⟩
  induction d generalizing p with
  | const n =>
    cases h
    exact ⟨rfl, over_constant n⟩
  | var x =>
    cases h
    exact ⟨rfl, over_atom (rfl : (Dim.var x).Mentions x)⟩
  | any => cases h
  | binary op a b iha ihb =>
    simp only [ofDim?, Option.bind_eq_bind, Option.bind_eq_some_iff] at h
    obtain ⟨q, hq, r, hr, h⟩ := h
    obtain ⟨haany, ha⟩ := iha hq
    obtain ⟨hbany, hb⟩ := ihb hr
    refine ⟨by simp [Dim.containsAny, haany, hbany], within_combine? ?_ ?_ h⟩
    · exact hmono (fun _ => Or.inl) ha
    · exact hmono (fun _ => Or.inr) hb

end NormalForm

end TensorTyping
