import TensorTyping.Proofs.NormalForm.Total
import TensorTyping.Proofs.NormalForm.Within

namespace TensorTyping

/-- Each dimension with a value for some sizes has that value. -/
def Dim.Extends (ν : Dim → Int) (σ : Assignment) : Prop := ∀ a n, a.eval σ = some n → ν a = n

/-- The values of dimensions for some sizes, and zero where there is none. -/
def Dim.valueOrZero (σ : Assignment) (a : Dim) : Int := (a.eval σ).getD 0

theorem Dim.extends_valueOrZero (σ : Assignment) : Extends (valueOrZero σ) σ :=
  fun a n hn => by rw [valueOrZero, hn, Option.getD_some]

namespace Monomial

theorem eval_cons {σ : Assignment} {a : Dim} {m : Monomial} {n : Int} :
    eval σ (a :: m) = some n ↔ ∃ x y, a.eval σ = some x ∧ eval σ m = some y ∧ x * y = n := by
  simp only [eval, Option.bind_eq_bind, Option.bind_eq_some_iff, Option.some.injEq]
  constructor
  · rintro ⟨x, hx, y, hy, hn⟩
    exact ⟨x, y, hx, hy, hn⟩
  · rintro ⟨x, y, hx, hy, hn⟩
    exact ⟨x, hx, y, hy, hn⟩

theorem eval_iff {σ : Assignment} {ν : Dim → Int} (hν : Dim.Extends ν σ) {m : Monomial} {n : Int} :
    m.eval σ = some n ↔ (∀ a ∈ m, (a.eval σ).isSome) ∧ m.value ν = n := by
  induction m generalizing n with
  | nil => simp [eval, value]
  | cons a m ih =>
    rw [eval_cons, List.forall_mem_cons, value, List.map_cons, List.prod_cons, ← value]
    constructor
    · rintro ⟨x, y, hx, hy, rfl⟩
      obtain ⟨hatoms, rfl⟩ := ih.mp hy
      exact ⟨⟨Option.isSome_of_eq_some hx, hatoms⟩, by rw [hν a x hx]⟩
    · rintro ⟨⟨ha, hatoms⟩, rfl⟩
      obtain ⟨x, hx⟩ := Option.isSome_iff_exists.mp ha
      exact ⟨x, value ν m, hx, ih.mpr ⟨hatoms, rfl⟩, by rw [hν a x hx]⟩

/-- The written product is multiplied from the left, so the induction carries
the value of what stands before. -/
private theorem eval_foldl_combine {σ : Assignment} {m : Monomial} {d : Dim} {x y : Int}
    (hd : d.eval σ = some x) (hm : eval σ m = some y) :
    (m.foldl (Dim.combine .mul) d).eval σ = some (x * y) := by
  induction m generalizing d x y with
  | nil =>
    cases hm
    rw [List.foldl_nil, hd, Int.mul_one]
  | cons a m ih =>
    obtain ⟨u, v, hu, hv, rfl⟩ := eval_cons.mp hm
    have hstep : (Dim.combine .mul d a).eval σ = some (x * u) :=
      Dim.eval_combine (Dim.eval_binary.mpr ⟨x, u, hd, hu, rfl⟩)
    rw [List.foldl_cons, ih hstep hv, Int.mul_assoc]

theorem eval_toDim {σ : Assignment} {m : Monomial} {x : Int} (h : eval σ m = some x) :
    m.toDim.eval σ = some x := by
  cases m with
  | nil => exact h
  | cons a m =>
    obtain ⟨u, v, hu, hv, rfl⟩ := eval_cons.mp h
    exact eval_foldl_combine hu hv

end Monomial

namespace NormalForm

theorem eval_nil (σ : Assignment) : (mk []).eval σ = some 0 := rfl

theorem eval_cons {σ : Assignment} {t : Term} {ts : List Term} {n : Int} :
    (mk (t :: ts)).eval σ = some n ↔
      ∃ x y, t.1.eval σ = some x ∧ (mk ts).eval σ = some y ∧ t.2.toInt * x + y = n := by
  simp only [eval, List.foldr_cons, Option.bind_eq_bind, Option.bind_eq_some_iff, Option.some.injEq]
  constructor
  · rintro ⟨x, hx, y, hy, hn⟩
    exact ⟨x, y, hx, hy, hn⟩
  · rintro ⟨x, y, hx, hy, hn⟩
    exact ⟨x, hx, y, hy, hn⟩

theorem eval_constant (σ : Assignment) (n : Word) : (constant n).eval σ = some n.toInt := by
  unfold constant
  split
  · rename_i h
    rw [h]
    rfl
  · exact eval_cons.mpr ⟨1, 0, rfl, rfl, by simp⟩

theorem eval_atom {σ : Assignment} {d : Dim} {n : Int} (h : d.eval σ = some n) :
    (atom d).eval σ = some n :=
  eval_cons.mpr ⟨n, 0, Monomial.eval_cons.mpr ⟨n, 1, h, rfl, by simp⟩, rfl, by simp⟩

theorem eval_ofFolded {σ : Assignment} {d : Dim} {n : Int} (h : d.eval σ = some n) :
    (ofFolded d).eval σ = some n := by
  cases d with
  | const k =>
    rw [← h]
    exact eval_constant σ k
  | var | any | binary => exact eval_atom h

theorem const?_constant (n : Word) : (constant n).const? = some n := by
  unfold constant
  split
  · rename_i h
    rw [h]
    rfl
  · rfl

theorem neg?_constant (n : Word) : (constant n).neg? = (Word.neg? n).map constant := by
  by_cases hn : n = 0
  · subst hn
    rfl
  · rw [constant, if_neg hn, neg?, List.mapM_cons]
    cases hk : Word.neg? n with
    | none => rfl
    | some k =>
      have hk0 : k ≠ 0 := by
        rintro rfl
        have hzero : (0 : Int) = -n.toInt := Word.ofInt?_eq_some_iff.mp hk
        exact hn (Word.toInt_eq_zero_iff.mp (by omega))
      rw [Option.map_some, Option.map_some, constant, if_neg hk0]
      rfl

theorem add?_constant (m k : Word) :
    (constant m).add? (constant k) = (Word.add? m k).map constant := by
  by_cases hk : k = 0
  · have hm : Word.add? m 0 = some m := by
      rw [Word.add?, Int64.toInt_zero, Int.add_zero, Word.ofInt?_toInt]
    rw [hk, hm]
    rfl
  · by_cases hm : m = 0
    · have hzero : Word.add? 0 k = some k := by
        rw [Word.add?, Int64.toInt_zero, Int.zero_add, Word.ofInt?_toInt]
      rw [hm, hzero]
      simp [constant, hk, add?, insert?]
    · have hinsert : insert? [] k [([], m)] =
          (Word.add? m k).map fun s => if s = 0 then [] else [([], s)] := rfl
      simp only [constant, if_neg hm, if_neg hk, add?, List.foldlM_cons, List.foldlM_nil, hinsert]
      cases Word.add? m k <;> rfl

/-- Constants are subtracted as words are: by adding the opposite. -/
theorem sub?_constant (m n : Word) : (constant m).sub? (constant n) =
    ((Word.neg? n).bind (Word.add? m)).map constant := by
  rw [sub?, neg?_constant]
  cases Word.neg? n with
  | none => rfl
  | some k => exact add?_constant m k

theorem eval_of_const? {σ : Assignment} {p : NormalForm} {c : Word} (h : p.const? = some c) :
    p.eval σ = some c.toInt := by
  obtain ⟨ts⟩ := p
  unfold const? at h
  split at h
  · rename_i hts
    cases h
    cases hts
    rfl
  · rename_i hts
    cases h
    cases hts
    exact eval_cons.mpr ⟨1, 0, rfl, rfl, by simp⟩
  · cases h

/-- A normal form has a value where all its atoms have one. -/
theorem eval_iff {σ : Assignment} {ν : Dim → Int} (hν : Dim.Extends ν σ) {p : NormalForm} {n : Int} :
    p.eval σ = some n ↔ p.Over (fun a => (a.eval σ).isSome) ∧ p.value ν = n := by
  obtain ⟨ts⟩ := p
  induction ts generalizing n with
  | nil => simp [eval_nil, Over, value]
  | cons t ts ih =>
    rw [eval_cons, Over, List.map_cons, List.forall_mem_cons, value, total_cons]
    constructor
    · rintro ⟨x, y, hx, hy, rfl⟩
      obtain ⟨hfirst, rfl⟩ := (Monomial.eval_iff hν).mp hx
      obtain ⟨hrest, rfl⟩ := ih.mp hy
      exact ⟨⟨hfirst, hrest⟩, rfl⟩
    · rintro ⟨⟨hfirst, hrest⟩, rfl⟩
      exact ⟨_, _, (Monomial.eval_iff hν).mpr ⟨hfirst, rfl⟩, ih.mpr ⟨hrest, rfl⟩, rfl⟩

section Operations

variable {σ : Assignment} {p q r : NormalForm} {x y : Int}

theorem eval_eq_some_iff : p.eval σ = some x ↔
    p.Over (fun a => (a.eval σ).isSome) ∧ p.value (Dim.valueOrZero σ) = x :=
  eval_iff (Dim.extends_valueOrZero σ)

theorem eval_add? (hp : p.eval σ = some x) (hq : q.eval σ = some y) (h : p.add? q = some r) :
    r.eval σ = some (x + y) := by
  obtain ⟨hpa, rfl⟩ := eval_eq_some_iff.mp hp
  obtain ⟨hqa, rfl⟩ := eval_eq_some_iff.mp hq
  exact eval_eq_some_iff.mpr ⟨over_add? hpa hqa h, total_add? h⟩

theorem eval_neg? (hp : p.eval σ = some x) (h : p.neg? = some q) : q.eval σ = some (-x) := by
  obtain ⟨hpa, rfl⟩ := eval_eq_some_iff.mp hp
  exact eval_eq_some_iff.mpr ⟨over_neg? hpa h, total_neg? h⟩

theorem eval_sub? (hp : p.eval σ = some x) (hq : q.eval σ = some y) (h : p.sub? q = some r) :
    r.eval σ = some (x - y) := by
  obtain ⟨hpa, rfl⟩ := eval_eq_some_iff.mp hp
  obtain ⟨hqa, rfl⟩ := eval_eq_some_iff.mp hq
  exact eval_eq_some_iff.mpr ⟨over_sub? hpa hqa h, total_sub? h⟩

theorem eval_mul? (hp : p.eval σ = some x) (hq : q.eval σ = some y) (h : p.mul? q = some r) :
    r.eval σ = some (x * y) := by
  obtain ⟨hpa, rfl⟩ := eval_eq_some_iff.mp hp
  obtain ⟨hqa, rfl⟩ := eval_eq_some_iff.mp hq
  exact eval_eq_some_iff.mpr ⟨over_mul? hpa hqa h, value_mul? h⟩

theorem eval_divExact? {d : Word} (hp : p.eval σ = some x) (h : p.divExact? d = some q) :
    ∃ y, q.eval σ = some y ∧ x = d.toInt * y := by
  obtain ⟨hpa, rfl⟩ := eval_eq_some_iff.mp hp
  exact ⟨_, eval_eq_some_iff.mpr ⟨over_divExact? hpa h, rfl⟩, (total_divExact? h).2⟩

end Operations

theorem eval_signed {c k : Word} {negative : Bool} (h : signed c = (negative, k)) :
    c.toInt = if negative then -k.toInt else k.toInt := by
  unfold signed at h
  split at h
  · split at h
    · rename_i hk
      cases h
      have hneg : k.toInt = -c.toInt := Word.ofInt?_eq_some_iff.mp hk
      simp only [if_true]
      omega
    · cases h
      rfl
  · cases h
    rfl

theorem eval_append {σ : Assignment} {before : Option Dim} (c : Word) (term : Word → Dim) {x y : Int}
    (hbefore : ∀ d ∈ before, d.eval σ = some x) (hnone : before = none → x = 0)
    (hterm : ∀ k, (term k).eval σ = some (k.toInt * y)) :
    (append before c term).eval σ = some (x + c.toInt * y) := by
  unfold append
  rcases hsigned : signed c with ⟨negative, k⟩
  have hc := eval_signed hsigned
  dsimp only
  cases before with
  | none =>
    rw [hnone rfl, Int.zero_add]
    cases negative with
    | false => simpa [hc] using hterm k
    | true =>
      have hsub : (Dim.binary .sub (.const 0) (term k)).eval σ = some (0 - k.toInt * y) :=
        Dim.eval_binary.mpr ⟨0, _, rfl, hterm k, rfl⟩
      rw [if_pos rfl, Dim.eval_combine hsub, hc, if_pos rfl, Int.neg_mul, Int.zero_sub]
  | some d =>
    have hd := hbefore d rfl
    cases negative with
    | false =>
      have hadd : (Dim.binary .add d (term k)).eval σ = some (x + k.toInt * y) :=
        Dim.eval_binary.mpr ⟨x, _, hd, hterm k, rfl⟩
      simpa [hc] using Dim.eval_combine hadd
    | true =>
      have hsub : (Dim.binary .sub d (term k)).eval σ = some (x - k.toInt * y) :=
        Dim.eval_binary.mpr ⟨x, _, hd, hterm k, rfl⟩
      simpa [hc, Int.sub_eq_add_neg, Int.neg_mul] using Dim.eval_combine hsub

end NormalForm

end TensorTyping
