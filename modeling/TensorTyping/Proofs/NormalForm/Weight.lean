import Mathlib.Algebra.BigOperators.Ring.List
import Mathlib.Algebra.Order.BigOperators.Group.List
import Mathlib.Algebra.Order.Ring.Nat
import TensorTyping.Proofs.NormalForm.Stable

namespace TensorTyping

/-- The greatest word. -/
def Word.limit : Nat := 9223372036854775807

theorem Word.exists_ofInt? {n : Int} (h : n.natAbs ≤ limit) :
    ∃ w, ofInt? n = some w ∧ w.toInt = n := by
  unfold limit at h
  cases hw : ofInt? n with
  | some w => exact ⟨w, rfl, ofInt?_eq_some_iff.mp hw⟩
  | none => obtain h' | h' := ofInt?_eq_none_iff.mp hw <;> omega

/-- How much an operation can make of the weights of its operands. -/
def DimOp.weight (op : DimOp) (m n : Nat) : Nat :=
  match op with
  | .add | .sub | .min | .max => m + n
  | .mul => m * n
  | .floorDiv | .floorMod => Max.max m n

/-- The weight of a dimension: a literal weighs its magnitude and at least one, as a size variable
does. -/
def Dim.weight : Dim → Nat
  | const n => Max.max n.toInt.natAbs 1
  | var _ | any => 1
  | binary op a b => op.weight a.weight b.weight

theorem DimOp.le_weight (op : DimOp) {m n : Nat} (hm : 1 ≤ m) (hn : 1 ≤ n) :
    m ≤ op.weight m n ∧ n ≤ op.weight m n := by
  cases op with
  | add | sub | min | max => exact ⟨Nat.le_add_right m n, Nat.le_add_left n m⟩
  | mul => exact ⟨Nat.le_mul_of_pos_right m hn, Nat.le_mul_of_pos_left n hm⟩
  | floorDiv | floorMod => exact ⟨Nat.le_max_left m n, Nat.le_max_right m n⟩

theorem Dim.one_le_weight (d : Dim) : 1 ≤ d.weight := by
  induction d with
  | const n => exact Nat.le_max_right _ 1
  | var | any => exact Nat.le_refl 1
  | binary op a b iha ihb => exact Nat.le_trans iha (DimOp.le_weight op iha ihb).1

/-- A quotient, a remainder, a minimum and a maximum are no greater than the operands. -/
theorem DimOp.natAbs_eval_le {op : DimOp}
    (hop : op = .floorDiv ∨ op = .floorMod ∨ op = .min ∨ op = .max) {x y n : Int}
    (h : op.eval x y = some n) : n.natAbs ≤ Max.max x.natAbs y.natAbs := by
  obtain rfl | rfl | hop := hop
  · simp only [eval] at h
    split at h <;> cases h
    exact Nat.le_trans (Int.natAbs_fdiv_le_natAbs x y) (Nat.le_max_left _ _)
  · simp only [eval] at h
    split at h <;> cases h
    rename_i hy
    refine Nat.le_trans ?_ (Nat.le_max_right _ _)
    -- A remainder has the sign of the divisor, and the opposites of both have the opposite remainder.
    obtain hneg | hpos := Int.lt_or_gt_of_ne hy
    · have hlt := Int.fmod_lt_of_pos (-x) (Int.neg_pos_of_neg hneg)
      have hle := Int.fmod_nonneg_of_pos (-x) (Int.neg_pos_of_neg hneg)
      rw [Int.neg_fmod_neg] at hlt hle
      omega
    · have hlt := Int.fmod_lt_of_pos x hpos
      have hle := Int.fmod_nonneg_of_pos x hpos
      omega
  · obtain rfl | rfl := hop <;> cases h <;> split <;> omega

namespace NormalForm

variable {p q r : NormalForm} {m : Monomial} {c : Word} {ts us : List Term}

/-- The sum of the magnitudes of the coefficients. -/
def magnitude (ts : List Term) : Nat := (ts.map fun t => t.2.toInt.natAbs).sum

theorem magnitude_cons (m : Monomial) (c : Word) (ts : List Term) :
    magnitude ((m, c) :: ts) = c.toInt.natAbs + magnitude ts := by
  rw [magnitude, List.map_cons, List.sum_cons, ← magnitude]

theorem magnitude_constant (k : Word) : magnitude (constant k).terms = k.toInt.natAbs := by
  unfold constant
  split
  · rename_i h
    rw [h]
    rfl
  · exact Nat.add_zero _

theorem natAbs_le_magnitude {t : Term} (ht : t ∈ ts) : t.2.toInt.natAbs ≤ magnitude ts :=
  List.le_sum_of_mem (List.mem_map_of_mem ht)

section Fits

/-- A term is inserted where its coefficient and those before fit a word together. -/
theorem exists_insert? (h : magnitude ts + c.toInt.natAbs ≤ Word.limit) :
    ∃ us, insert? m c ts = some us ∧ magnitude us ≤ magnitude ts + c.toInt.natAbs := by
  induction ts with
  | nil =>
    refine ⟨_, rfl, ?_⟩
    split <;> simp [magnitude]
  | cons t ts ih =>
    rw [magnitude_cons] at h ⊢
    unfold insert?
    split
    · refine ⟨_, rfl, ?_⟩
      split
      · rw [magnitude_cons]
        omega
      · rw [magnitude_cons, magnitude_cons]
        omega
    · obtain ⟨s, hs, hvalue⟩ := Word.exists_ofInt? (n := t.2.toInt + c.toInt) (by omega)
      refine ⟨if s = 0 then ts else (t.1, s) :: ts, by rw [Word.add?, hs, Option.map_some], ?_⟩
      split
      · omega
      · rw [magnitude_cons]
        omega
    · obtain ⟨us, hus, hle⟩ := ih (by omega)
      refine ⟨t :: us, by rw [hus, Option.map_some], ?_⟩
      rw [magnitude_cons]
      omega

/-- A fold of insertions succeeds where all that they add fits a word. -/
private theorem exists_foldlM {α : Type} {step : List Term → α → Option (List Term)} (g : α → Nat)
    (hstep : ∀ ts x, magnitude ts + g x ≤ Word.limit →
      ∃ us, step ts x = some us ∧ magnitude us ≤ magnitude ts + g x) (xs : List α) (ts : List Term)
    (h : magnitude ts + (xs.map g).sum ≤ Word.limit) :
    ∃ us, xs.foldlM step ts = some us ∧ magnitude us ≤ magnitude ts + (xs.map g).sum := by
  induction xs generalizing ts with
  | nil => exact ⟨ts, rfl, Nat.le_add_right _ _⟩
  | cons x xs ih =>
    rw [List.map_cons, List.sum_cons] at h ⊢
    obtain ⟨mid, hmid, hle⟩ := hstep ts x (by omega)
    obtain ⟨us, hus, hle'⟩ := ih mid (by omega)
    refine ⟨us, ?_, by omega⟩
    rw [List.foldlM_cons, hmid]
    exact hus

theorem exists_add? (h : magnitude p.terms + magnitude q.terms ≤ Word.limit) :
    ∃ r, p.add? q = some r ∧ magnitude r.terms ≤ magnitude p.terms + magnitude q.terms := by
  obtain ⟨us, hus, hle⟩ := exists_foldlM (fun t : Term => t.2.toInt.natAbs)
    (fun ts t => exists_insert? (m := t.1)) q.terms p.terms h
  exact ⟨⟨us⟩, by rw [add?, hus, Option.map_some], hle⟩

theorem magnitude_neg? (h : p.neg? = some q) : magnitude q.terms = magnitude p.terms := by
  have hterms := forall₂_of_neg? h
  generalize p.terms = ts at hterms
  generalize q.terms = us at hterms
  induction hterms with
  | nil => rfl
  | cons htu _ ih => rw [magnitude_cons, magnitude_cons, ih, htu.2, Int.natAbs_neg]

theorem ne_minValue_of_magnitude (h : magnitude ts ≤ Word.limit) {t : Term} (ht : t ∈ ts) :
    t.2 ≠ Int64.minValue := by
  intro heq
  have hle := natAbs_le_magnitude ht
  have hleast : (Int64.minValue : Word).toInt.natAbs = 9223372036854775808 := by decide
  rw [heq, hleast] at hle
  unfold Word.limit at h
  omega

theorem exists_sub? (h : magnitude p.terms + magnitude q.terms ≤ Word.limit) :
    ∃ r, p.sub? q = some r ∧ magnitude r.terms ≤ magnitude p.terms + magnitude q.terms := by
  have hright : magnitude q.terms ≤ Word.limit := by omega
  obtain ⟨q', hq'⟩ := exists_neg?_of_ne fun t => ne_minValue_of_magnitude hright
  rw [← magnitude_neg? hq'] at h ⊢
  obtain ⟨r, hr, hle⟩ := exists_add? h
  exact ⟨r, by rw [sub?, hq']; exact hr, hle⟩

theorem exists_mul? (h : magnitude p.terms * magnitude q.terms ≤ Word.limit) :
    ∃ r, p.mul? q = some r ∧ magnitude r.terms ≤ magnitude p.terms * magnitude q.terms := by
  have hsum : (p.terms.map fun t => (q.terms.map fun u =>
      t.2.toInt.natAbs * u.2.toInt.natAbs).sum).sum = magnitude p.terms * magnitude q.terms := by
    simp only [List.sum_map_mul_left, List.sum_map_mul_right, magnitude]
  have hempty : magnitude [] = 0 := rfl
  rw [← hsum, ← Nat.zero_add (List.sum _), ← hempty] at h ⊢
  have hproduct : ∀ (t : Term) acc (u : Term),
      magnitude acc + t.2.toInt.natAbs * u.2.toInt.natAbs ≤ Word.limit →
      ∃ us, ((Word.mul? t.2 u.2).bind fun c => insert? (t.1.mul u.1) c acc) = some us ∧
        magnitude us ≤ magnitude acc + t.2.toInt.natAbs * u.2.toInt.natAbs := by
    intro t acc u hfits
    rw [← Int.natAbs_mul] at hfits ⊢
    obtain ⟨c, hc, hvalue⟩ := Word.exists_ofInt? (n := t.2.toInt * u.2.toInt) (by omega)
    rw [← hvalue] at hfits ⊢
    rw [Word.mul?, hc]
    exact exists_insert? hfits
  have hrow := fun t : Term => exists_foldlM _ (hproduct t) q.terms
  obtain ⟨us, hus, hle⟩ := exists_foldlM _ (fun ts t => hrow t ts) p.terms [] h
  exact ⟨⟨us⟩, congrArg (Option.map mk) hus, hle⟩

end Fits

theorem magnitude_divExact? (h : p.divExact? c = some q) :
    magnitude q.terms ≤ magnitude p.terms := by
  unfold divExact? at h
  split at h
  · cases h
  obtain ⟨us, hus, rfl⟩ := Option.map_eq_some_iff.mp h
  dsimp only
  clear h
  generalize p.terms = ts at hus
  induction ts generalizing us with
  | nil =>
    cases hus
    exact Nat.le_refl _
  | cons t ts ih =>
    simp only [List.mapM_cons, Option.pure_def, Option.bind_eq_bind, Option.bind_eq_some_iff,
      Option.some.injEq] at hus
    obtain ⟨u, hu, us, hus, rfl⟩ := hus
    split at hu
    · obtain ⟨k, hk, rfl⟩ := Option.map_eq_some_iff.mp hu
      rw [magnitude_cons, magnitude_cons, Word.ofInt?_eq_some_iff.mp hk]
      exact Nat.add_le_add (Int.natAbs_ediv_le_natAbs _ _) (ih us hus)
    · cases hu

section Kept

variable {op : DimOp} (hop : op = .floorDiv ∨ op = .floorMod ∨ op = .min ∨ op = .max)
  (hp : p.Canonical) (hq : q.Canonical) (hpa : p.Over Stable) (hqa : q.Over Stable)

theorem magnitude_ofFolded {d : Dim} (h : d.const? = none) : magnitude (ofFolded d).terms = 1 := by
  cases d with
  | const => cases h
  | var | any | binary => rfl

theorem eq_constant_of_toDim {k : Word} (hp : p.Canonical) (hpa : p.Over Stable)
    (h : p.toDim = .const k) : p = constant k := by
  have hround := hp.ofDim?_toDim hpa
  rw [h] at hround
  exact (Option.some.inj hround).symm

include hop

/-- Where not both operands are literals, no literal but zero is left of an operation that is not kept. -/
theorem const?_of_shortcut? {a b d : Dim} (hlit : a.const? = none ∨ b.const? = none)
    (hd : op.shortcut? a b = some d) : d = .const 0 ∨ d.const? = none := by
  obtain rfl | rfl | hop := hop
  · simp only [DimOp.shortcut?] at hd
    split at hd <;> cases hd
    rename_i hone
    rw [hone] at hlit
    exact Or.inr (hlit.resolve_right fun h => by cases h)
  · simp only [DimOp.shortcut?] at hd
    split at hd <;> cases hd
    exact Or.inl rfl
  · have hab : a = b ∧ d = a := by
      obtain rfl | rfl := hop <;> simp only [DimOp.shortcut?] at hd <;> split at hd <;> cases hd <;>
        exact ⟨‹a = b›, rfl⟩
    rw [← hab.1, or_self_iff] at hlit
    exact Or.inr (hab.2 ▸ hlit)

include hp hq

theorem natAbs_le_of_fold? {k l w : Word} (hk : p.const? = some k) (hl : q.const? = some l)
    (hw : op.fold? k l = some w) :
    w.toInt.natAbs ≤ Max.max (magnitude p.terms) (magnitude q.terms) := by
  rw [eq_constant_of_const? hp hk, eq_constant_of_const? hq hl, magnitude_constant,
    magnitude_constant]
  exact DimOp.natAbs_eval_le hop (DimOp.eval_fold? hw)

include hpa hqa

/-- An operation that is kept is an atom, or literals fold. -/
theorem magnitude_kept : magnitude (ofFolded (.combine op p.toDim q.toDim)).terms ≤
    Max.max (Max.max (magnitude p.terms) (magnitude q.terms)) 1 := by
  obtain hkept | ⟨hlit, hd⟩ | ⟨k, l, w, hk, hl, hw, hfold⟩ := Dim.combine_cases op
    (ne_any_of_ofDim? (hp.ofDim?_toDim hpa)) (ne_any_of_ofDim? (hq.ofDim?_toDim hqa))
  · rw [hkept]
    exact Nat.le_max_right _ 1
  · obtain hzero | hnone := const?_of_shortcut? hop hlit hd
    · rw [hzero]
      exact Nat.zero_le _
    · rw [magnitude_ofFolded hnone]
      exact Nat.le_max_right _ 1
  · have hk := eq_constant_of_toDim hp hpa hk
    have hl := eq_constant_of_toDim hq hqa hl
    rw [hfold, ofFolded, magnitude_constant]
    refine Nat.le_trans (natAbs_le_of_fold? hop hp hq ?_ ?_ hw) (Nat.le_max_left _ 1)
    · rw [hk, const?_constant]
    · rw [hl, const?_constant]

end Kept

section Operations

variable (hp : p.Canonical) (hq : q.Canonical) (hpa : p.Over Stable) (hqa : q.Over Stable)

include hp hq hpa hqa

theorem magnitude_floorDiv : magnitude (p.floorDiv q).terms ≤
    Max.max (Max.max (magnitude p.terms) (magnitude q.terms)) 1 := by
  obtain h | ⟨m, n, k, hm, hn, hk, h⟩ | ⟨n, -, -, h⟩ := floorDiv_cases p q
  · rw [h]
    exact magnitude_kept (Or.inl rfl) hp hq hpa hqa
  · rw [h, magnitude_constant]
    exact Nat.le_trans (natAbs_le_of_fold? (Or.inl rfl) hp hq hm hn hk)
      (Nat.le_max_left _ 1)
  · have hle := magnitude_divExact? h
    omega

theorem magnitude_floorMod : magnitude (p.floorMod q).terms ≤
    Max.max (Max.max (magnitude p.terms) (magnitude q.terms)) 1 := by
  obtain h | ⟨m, n, k, hm, hn, hk, h⟩ | ⟨-, -, -, -, -, h⟩ := floorMod_cases p q
  · rw [h]
    exact magnitude_kept (Or.inr (Or.inl rfl)) hp hq hpa hqa
  · rw [h, magnitude_constant]
    exact Nat.le_trans (natAbs_le_of_fold? (Or.inr (Or.inl rfl)) hp hq hm hn hk)
      (Nat.le_max_left _ 1)
  · rw [h]
    exact Nat.zero_le _

theorem magnitude_extremum {op : DimOp} (hop : op = .min ∨ op = .max)
    (pickLeft : Word → Bool) : magnitude (extremum op pickLeft p q).terms ≤
      Max.max (Max.max (magnitude p.terms) (magnitude q.terms)) 1 := by
  obtain ⟨-, d, -, -, h⟩ | h | h := extremum_cases op pickLeft p q
  · rw [h]
    split <;> omega
  · rw [h]
    exact magnitude_kept (Or.inr (Or.inr hop)) hp hq hpa hqa
  · rw [h, Nat.max_comm (magnitude p.terms)]
    exact magnitude_kept (Or.inr (Or.inr hop)) hq hp hqa hpa

/-- An operation on normal forms succeeds where its weight fits a word, and keeps the weight and
stable atoms. -/
theorem exists_combine? {op : DimOp} {m n : Nat} (hm : magnitude p.terms ≤ m)
    (hn : magnitude q.terms ≤ n) (hm1 : 1 ≤ m) (hn1 : 1 ≤ n) (h : op.weight m n ≤ Word.limit) :
    ∃ r, combine? op p q = some r ∧ magnitude r.terms ≤ op.weight m n ∧ r.Over Stable := by
  have hconclusive (hsum : m + n ≤ Word.limit) : Conclusive p q := by
    obtain ⟨r, hr, -⟩ := exists_sub? (p := p) (q := q) (by omega)
    exact .of_sub? hp hq hr
  cases op with
  | add =>
    obtain ⟨r, hr, hle⟩ := exists_add? (Nat.le_trans (Nat.add_le_add hm hn) h)
    exact ⟨r, hr, Nat.le_trans hle (Nat.add_le_add hm hn), over_add? hpa hqa hr⟩
  | sub =>
    obtain ⟨r, hr, hle⟩ := exists_sub? (Nat.le_trans (Nat.add_le_add hm hn) h)
    exact ⟨r, hr, Nat.le_trans hle (Nat.add_le_add hm hn), over_sub? hpa hqa hr⟩
  | mul =>
    obtain ⟨r, hr, hle⟩ := exists_mul? (Nat.le_trans (Nat.mul_le_mul hm hn) h)
    exact ⟨r, hr, Nat.le_trans hle (Nat.mul_le_mul hm hn), over_mul? hpa hqa hr⟩
  | floorDiv =>
    have hle := magnitude_floorDiv hp hq hpa hqa
    refine ⟨_, rfl, ?_, over_stable_floorDiv hp hq hpa hqa⟩
    rw [DimOp.weight]
    omega
  | floorMod =>
    have hle := magnitude_floorMod hp hq hpa hqa
    refine ⟨_, rfl, ?_, over_stable_floorMod hp hq hpa hqa⟩
    rw [DimOp.weight]
    omega
  | min =>
    have hle := magnitude_extremum hp hq hpa hqa (Or.inl rfl) (· ≤ 0)
    refine ⟨_, rfl, ?_, over_stable_extremum (Or.inl rfl) (fun _ _ => rfl) hp hq hpa hqa
      (hconclusive h)⟩
    rw [DimOp.weight]
    omega
  | max =>
    have hle := magnitude_extremum hp hq hpa hqa (Or.inr rfl) (0 ≤ ·)
    refine ⟨_, rfl, ?_, over_stable_extremum (Or.inr rfl) (fun _ _ => rfl) hp hq hpa hqa
      (hconclusive h)⟩
    rw [DimOp.weight]
    omega

end Operations

end NormalForm

open NormalForm in
/-- A dimension without `?` whose weight fits a word has a normal form, with no more magnitude. -/
theorem Dim.exists_ofDim? {d : Dim} (hany : d.containsAny = false) (h : d.weight ≤ Word.limit) :
    ∃ p, ofDim? d = some p ∧ magnitude p.terms ≤ d.weight ∧ p.Over Stable := by
  induction d with
  | const k =>
    refine ⟨_, rfl, ?_, over_constant k⟩
    rw [magnitude_constant]
    exact Nat.le_max_left _ 1
  | var x => exact ⟨_, rfl, Nat.le_refl 1, over_atom rfl⟩
  | any => cases hany
  | binary op a b iha ihb =>
    rw [containsAny, Bool.or_eq_false_iff] at hany
    obtain ⟨hle, hle'⟩ := DimOp.le_weight op a.one_le_weight b.one_le_weight
    obtain ⟨p, hp, hpm, hpa⟩ := iha hany.1 (Nat.le_trans hle h)
    obtain ⟨q, hq, hqm, hqa⟩ := ihb hany.2 (Nat.le_trans hle' h)
    obtain ⟨r, hr, hrm, hra⟩ := exists_combine? (canonical_ofDim? hp) (canonical_ofDim? hq) hpa hqa
      hpm hqm a.one_le_weight b.one_le_weight h
    exact ⟨r, ofDim?_binary.mpr ⟨p, q, hp, hq, hr⟩, hrm, hra⟩

end TensorTyping
