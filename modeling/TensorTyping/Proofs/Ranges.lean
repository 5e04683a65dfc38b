import TensorTyping.Proofs.Interval
import TensorTyping.Proofs.NormalForm.Value

namespace TensorTyping

/-- An integer lies in an inclusive range. -/
def Range.Contains (r : Range) (n : Int) : Prop := r.lo.toInt ≤ n ∧ n ≤ r.hi.toInt

instance (r : Range) (n : Int) : Decidable (r.Contains n) :=
  inferInstanceAs (Decidable (_ ∧ _))

namespace Ranges

/-- Ranges with some more registered, one after another. -/
def bindAll (known : Ranges) (bound : List (SizeVar × Range)) : Ranges :=
  bound.foldl (fun known b => known.bind b.1 b.2) known

/-- Every range has a member. -/
def Consistent (known : Ranges) : Prop := ∀ x, ∀ r ∈ known.range? x, r.lo.toInt ≤ r.hi.toInt

theorem admits_none (σ : Assignment) : none.Admits σ := by
  intro x r hr
  cases hr

theorem range?_bind (known : Ranges) (x y : SizeVar) (r : Range) :
    (known.bind x r).range? y = if y = x then (known.bind x r).range? x else known.range? y := by
  by_cases h : y = x
  · rw [if_pos h, h]
  · simp [Ranges.bind, h]

theorem Admits.bind {known : Ranges} {σ : Assignment} {x : SizeVar} {r : Range}
    (hknown : known.Admits σ) (hx : r.Contains (σ x)) : (known.bind x r).Admits σ := by
  intro y s hs
  by_cases hy : y = x
  · subst hy
    simp only [Ranges.bind, if_true] at hs
    cases hold : known.range? y with
    | none =>
      simp only [hold, Option.mem_some_iff] at hs
      exact hs ▸ hx
    | some old =>
      simp only [hold, Option.mem_some_iff] at hs
      obtain ⟨hlo, hhi⟩ := hknown y old hold
      obtain ⟨hlo', hhi'⟩ := hx
      subst hs
      constructor <;> dsimp only <;> split <;> assumption
  · rw [range?_bind, if_neg hy] at hs
    exact hknown y s hs

theorem admits_bindAll {known : Ranges} {σ : Assignment} {bound : List (SizeVar × Range)}
    (hknown : known.Admits σ) (hbound : ∀ b ∈ bound, b.2.Contains (σ b.1)) :
    (known.bindAll bound).Admits σ := by
  induction bound generalizing known with
  | nil => exact hknown
  | cons b bound ih =>
    exact ih (hknown.bind (hbound b List.mem_cons_self))
      fun c hc => hbound c (List.mem_cons_of_mem _ hc)

variable {known : Ranges} {σ : Assignment}

theorem Admits.consistent (h : known.Admits σ) : known.Consistent :=
  fun x r hr => Int.le_trans (h x r hr).1 (h x r hr).2

/-- Ranges with a member each admit some sizes. -/
theorem Consistent.exists_admits (h : known.Consistent) : ∃ σ, known.Admits σ := by
  refine ⟨fun x => ((known.range? x).map (·.lo.toInt)).getD 0, fun x r hr => ?_⟩
  have hlo : ((known.range? x).map (·.lo.toInt)).getD 0 = r.lo.toInt := by
    rw [Option.mem_def.mp hr]
    rfl
  dsimp only
  rw [hlo]
  exact ⟨Int.le_refl _, h x r hr⟩

theorem mem_intervalOfVar (hσ : known.Admits σ) (x : SizeVar) : σ x ∈ known.intervalOfVar x := by
  unfold intervalOfVar
  split
  · rename_i r hr
    obtain ⟨hlo, hhi⟩ := hσ x r hr
    refine Interval.mem_iff.mpr ⟨?_, ?_⟩
    · rintro l ⟨⟩
      exact hlo
    · rintro h ⟨⟩
      exact hhi
  · exact Interval.mem_unbounded _

theorem mem_intervalOfDim (hσ : known.Admits σ) {d : Dim} {n : Int} (hn : d.eval σ = some n) :
    n ∈ known.intervalOfDim d := by
  induction d generalizing n with
  | const k =>
    cases hn
    exact Interval.mem_point _
  | var x =>
    cases hn
    exact mem_intervalOfVar hσ x
  | any => cases hn
  | binary op a b iha ihb =>
    obtain ⟨x, y, hx, hy, hop⟩ := Dim.eval_binary.mp hn
    have hmemx := iha hx
    have hmemy := ihb hy
    cases op with
    | add =>
      cases hop
      exact Interval.add_mem_add hmemx hmemy
    | sub =>
      cases hop
      rw [Int.sub_eq_add_neg]
      exact Interval.add_mem_add hmemx (Interval.neg_mem_neg hmemy)
    | mul =>
      cases hop
      exact Interval.mul_mem_mul hmemx hmemy
    | floorDiv | floorMod =>
      simp only [DimOp.eval] at hop
      split at hop
      · cases hop
      cases hop
      unfold intervalOfDim
      cases b with
      | const d =>
        rw [Dim.eval_const, Option.some.injEq] at hy
        simp only [Dim.const?]
        split
        · rename_i hpos
          have hpos : 0 < d.toInt := by simpa [Int64.lt_iff_toInt_lt] using hpos
          rw [← hy]
          first
            | exact Interval.fdiv_mem_floorDiv hpos hmemx
            | exact Interval.fmod_mem_remainders hpos
        · exact Interval.mem_unbounded _
      | var | any | binary => exact Interval.mem_unbounded _
    | min =>
      have hmin : n = Min.min x y := by
        simp only [DimOp.eval, Option.some.injEq] at hop
        omega
      rw [hmin]
      exact Interval.min_mem_min hmemx hmemy
    | max =>
      have hmax : n = Max.max x y := by
        simp only [DimOp.eval, Option.some.injEq] at hop
        omega
      rw [hmax]
      exact Interval.max_mem_max hmemx hmemy

private theorem mem_foldl_mul (hσ : known.Admits σ) {m : Monomial} {i : Interval} {x y : Int}
    (hx : x ∈ i) (hy : m.eval σ = some y) :
    x * y ∈ m.foldl (fun acc a => acc.mul (known.intervalOfDim a)) i := by
  induction m generalizing i x y with
  | nil =>
    cases hy
    simpa using hx
  | cons a m ih =>
    obtain ⟨u, v, hu, hv, rfl⟩ := Monomial.eval_cons.mp hy
    rw [List.foldl_cons, ← Int.mul_assoc]
    exact ih (Interval.mul_mem_mul hx (mem_intervalOfDim hσ hu)) hv

theorem mem_intervalOfMonomial (hσ : known.Admits σ) {m : Monomial} {n : Int}
    (hn : m.eval σ = some n) : n ∈ known.intervalOfMonomial m := by
  have hmem := mem_foldl_mul hσ (Interval.mem_point 1) hn
  rwa [Int.one_mul] at hmem

private theorem mem_foldl_add (hσ : known.Admits σ) {ts : List Term} {i : Interval} {x y : Int}
    (hx : x ∈ i) (hy : (NormalForm.mk ts).eval σ = some y) :
    x + y ∈ ts.foldl (fun total t => total.add ((known.intervalOfMonomial t.1).scale t.2.toInt))
      i := by
  induction ts generalizing i x y with
  | nil =>
    cases hy
    simpa using hx
  | cons t ts ih =>
    obtain ⟨u, v, hu, hv, rfl⟩ := NormalForm.eval_cons.mp hy
    rw [List.foldl_cons, ← Int.add_assoc, Int.mul_comm]
    exact ih (Interval.add_mem_add hx (Interval.mul_mem_scale _ (mem_intervalOfMonomial hσ hu))) hv

/-- The value of a normal form lies in the interval computed for it. -/
theorem mem_intervalOf (hσ : known.Admits σ) {p : NormalForm} {n : Int} (hn : p.eval σ = some n) :
    n ∈ known.intervalOf p := by
  have hmem := mem_foldl_add hσ (Interval.mem_point 0) hn
  rwa [Int.zero_add] at hmem

theorem intervalOfMonomial_nil (known : Ranges) : known.intervalOfMonomial [] = .point 1 := rfl

theorem intervalOf_constantTerm (known : Ranges) (w : Word) :
    known.intervalOf ⟨[([], w)]⟩ = .point w.toInt := by
  rw [intervalOf, List.foldl_cons, List.foldl_nil, intervalOfMonomial_nil, Interval.scale_point_one,
    Interval.point_zero_add]

/-- A constant is enclosed by itself. -/
theorem intervalOf_constant (known : Ranges) (w : Word) :
    known.intervalOf (.constant w) = .point w.toInt := by
  unfold NormalForm.constant
  split
  · rename_i h
    rw [h]
    rfl
  · exact known.intervalOf_constantTerm w

theorem eval_difference? {lhs rhs : Dim} {p : NormalForm} {m n : Int} (hm : lhs.eval σ = some m)
    (hn : rhs.eval σ = some n) (h : difference? lhs rhs = some p) : p.eval σ = some (m - n) := by
  unfold difference? at h
  split at h
  · cases h
  simp only [Option.bind_eq_bind, Option.bind_eq_some_iff] at h
  obtain ⟨q, hq, r, hr, h⟩ := h
  exact NormalForm.eval_sub? (NormalForm.eval_ofDim? hq hm) (NormalForm.eval_ofDim? hr hn) h

theorem canonical_difference? {lhs rhs : Dim} {p : NormalForm} (h : difference? lhs rhs = some p) :
    p.Canonical := by
  unfold difference? at h
  split at h
  · cases h
  simp only [Option.bind_eq_bind, Option.bind_eq_some_iff] at h
  obtain ⟨q, hq, r, hr, h⟩ := h
  exact NormalForm.canonical_sub? (NormalForm.canonical_ofDim? hq) (NormalForm.canonical_ofDim? hr) h

theorem holds_sub (op : Comparison) (m n : Int) : op.holds (m - n) 0 = op.holds m n := by
  cases op <;> simp only [Comparison.holds, decide_eq_decide] <;> omega

/-- A comparison with a value says of its difference what the comparison says of it and zero. -/
theorem eval_cmp_of_difference? {op : Comparison} {lhs rhs : Dim} {p : NormalForm} {t : Bool}
    (hp : difference? lhs rhs = some p) (ht : (Cond.cmp op lhs rhs).eval σ = some t) :
    ∃ n, p.eval σ = some n ∧ op.holds n 0 = t := by
  simp only [Cond.eval, Option.bind_eq_bind, Option.bind_eq_some_iff, Option.some.injEq] at ht
  obtain ⟨m, hm, n, hn, rfl⟩ := ht
  exact ⟨m - n, eval_difference? hm hn hp, holds_sub op m n⟩

/-- A decided comparison is decided rightly, for all sizes within the known
ranges for which both sides have a value. -/
theorem allows_compare (hσ : known.Admits σ) (op : Comparison) {lhs rhs : Dim} {m n : Int}
    (hm : lhs.eval σ = some m) (hn : rhs.eval σ = some n) :
    (known.compare op lhs rhs).Allows (op.holds m n) := by
  unfold Ranges.compare
  split
  · trivial
  · rename_i p hp
    have hval := eval_difference? hm hn hp
    rw [← holds_sub]
    split
    · rename_i d hd
      rw [NormalForm.eval_of_const? hd, Option.some.injEq] at hval
      rw [hval]
      exact Verdict.allows_ofBool _
    · exact Interval.allows_compareZero op (mem_intervalOf hσ hval)

theorem allows_prove (hσ : known.Admits σ) {c : Cond} {b : Bool} (hb : c.eval σ = some b) :
    (known.prove c).Allows b := by
  induction c generalizing b with
  | bool a =>
    cases hb
    exact Verdict.allows_ofBool _
  | cmp op lhs rhs =>
    simp only [Cond.eval, Option.bind_eq_bind, Option.bind_eq_some_iff, Option.some.injEq] at hb
    obtain ⟨m, hm, n, hn, rfl⟩ := hb
    exact allows_compare hσ op hm hn
  | and c d ihc ihd =>
    simp only [Cond.eval, Option.bind_eq_bind, Option.bind_eq_some_iff, Option.some.injEq] at hb
    obtain ⟨x, hx, y, hy, rfl⟩ := hb
    exact Verdict.allows_and (ihc hx) (ihd hy)
  | or c d ihc ihd =>
    simp only [Cond.eval, Option.bind_eq_bind, Option.bind_eq_some_iff, Option.some.injEq] at hb
    obtain ⟨x, hx, y, hy, rfl⟩ := hb
    exact Verdict.allows_or (ihc hx) (ihd hy)
  | not c ih =>
    obtain ⟨x, hx, rfl⟩ := Option.map_eq_some_iff.mp hb
    exact Verdict.allows_negate (ih hx)

/-- A dimension is never told apart from itself. -/
theorem compare_self_ne_refuted (d : Dim) : known.compare .eq d d ≠ .refuted := by
  unfold compare difference?
  split
  · nofun
  · rename_i r h
    split at h
    · cases h
    · obtain ⟨p, hp, h⟩ := Option.bind_eq_some_iff.mp h
      rw [hp] at h
      rw [NormalForm.sub?_self h]
      nofun

/-- A dimension is known to be equal to itself exactly if it is free of `?` and has
a normal form with an opposite. -/
theorem compare_self_iff {d : Dim} : known.compare .eq d d = .proven ↔
    d.containsAny = false ∧ ∃ p q, NormalForm.ofDim? d = some p ∧ p.neg? = some q := by
  constructor
  · intro h
    unfold compare at h
    split at h
    · cases h
    · rename_i r hr
      unfold difference? at hr
      split at hr
      · cases hr
      · rename_i hany
        obtain ⟨p, hp, hr⟩ := Option.bind_eq_some_iff.mp hr
        have hsub : p.sub? p = some r := by simpa [hp] using hr
        obtain ⟨q, hq, -⟩ := Option.bind_eq_some_iff.mp hsub
        exact ⟨by simpa using hany, p, q, hp, hq⟩
  · rintro ⟨hany, p, q, hp, hq⟩
    have hdifference : difference? d d = some ⟨[]⟩ := by
      simp [difference?, hany, hp, NormalForm.sub?_self_eq_nil hq]
    unfold compare
    rw [hdifference]
    rfl

theorem compare_literals (op : Comparison) (m n : Word) :
    known.compare op (.const m) (.const n) =
      ((Word.neg? n).bind (Word.add? m)).elim .unknown fun d => .ofBool (op.holds d.toInt 0) := by
  have hsub : difference? (.const m) (.const n) =
      (NormalForm.constant m).sub? (NormalForm.constant n) := rfl
  unfold compare
  rw [hsub, NormalForm.sub?_constant]
  cases (Word.neg? n).bind (Word.add? m) with
  | none => rfl
  | some d =>
    dsimp only [Option.map_some]
    rw [NormalForm.const?_constant]
    rfl

/-- Comparisons of literals are decided, as far as their difference is a word. -/
theorem compare_const_of_fits {m n : Word} (hn : n.toInt ≠ -9223372036854775808)
    (hlo : -9223372036854775808 ≤ m.toInt - n.toInt) (hhi : m.toInt - n.toInt ≤ 9223372036854775807)
    (op : Comparison) :
    known.compare op (.const m) (.const n) = .ofBool (op.holds m.toInt n.toInt) := by
  have hnlo := Int64.le_toInt n
  have hnhi := Int64.toInt_lt n
  rw [compare_literals]
  cases hk : Word.neg? n with
  | none => obtain h | h := Word.ofInt?_eq_none_iff.mp hk <;> omega
  | some k =>
    have hk : k.toInt = -n.toInt := Word.ofInt?_eq_some_iff.mp hk
    rw [Option.bind_some]
    cases hd : Word.add? m k with
    | none => obtain h | h := Word.ofInt?_eq_none_iff.mp hd <;> omega
    | some d =>
      have hd : d.toInt = m.toInt + k.toInt := Word.ofInt?_eq_some_iff.mp hd
      rw [Option.elim_some, hd, hk, ← Int.sub_eq_add_neg, holds_sub]

/-- Comparisons of literals that are not negative are decided. -/
theorem compare_const {m n : Word} (hm : 0 ≤ m.toInt) (hn : 0 ≤ n.toInt) (op : Comparison) :
    known.compare op (.const m) (.const n) = .ofBool (op.holds m.toInt n.toInt) := by
  have hmlt := Int64.toInt_lt m
  have hnlt := Int64.toInt_lt n
  exact compare_const_of_fits (by omega) (by omega) (by omega) op

/-- Whatever ranges were registered, a verdict on a condition is right for
every choice of sizes within them that gives all sides of its comparisons a
value. Sizes without a range are arbitrary. -/
theorem prove_sound (bound : List (SizeVar × Range)) (σ : Assignment) (c : Cond) (b : Bool)
    (hσ : ∀ e ∈ bound, e.2.Contains (σ e.1)) (hb : c.eval σ = some b) :
    ((none.bindAll bound).prove c = .proven → b = true) ∧
      ((none.bindAll bound).prove c = .refuted → b = false) := by
  have hallows := allows_prove (admits_bindAll (admits_none σ) hσ) hb
  constructor
  · intro h
    rwa [h] at hallows
  · intro h
    rwa [h] at hallows

/-- Half of a size between one and eight is less than five. -/
theorem prove_sound_half :
    let n : SizeVar := ⟨0, "n"⟩
    let half : Cond := .lt (.binary .floorDiv (.var n) (.const 2)) (.const 5)
    let known := none.bindAll [(n, ⟨1, 8⟩)]
    known.prove half = .proven ∧ half.eval (fun _ => 7) = some true ∧
      (known.prove half = .proven → true = true) ∧
      (known.prove half = .refuted → true = false) := by
  intro n half known
  have heval : half.eval (fun _ => 7) = some true := rfl
  refine ⟨by decide +kernel, heval, prove_sound [(n, ⟨1, 8⟩)] (fun _ => 7) half true ?_ heval⟩
  intro e he
  rw [List.mem_singleton.mp he]
  decide

end Ranges

end TensorTyping
