import TensorTyping.Proofs.NormalForm.Canonical
import TensorTyping.Proofs.NormalForm.Eval

namespace TensorTyping.NormalForm

/-- Splitting the constant term off leaves exactly the symbolic terms. -/
theorem eval_split {σ : Assignment} {p : NormalForm} {x : Int} (hp : p.Canonical)
    (hx : p.eval σ = some x) :
    ∃ y, (mk p.symbolic).eval σ = some y ∧ x = y + p.constantTerm.toInt := by
  obtain ⟨hzero, hterms⟩ | ⟨-, hterms⟩ := hp.constantTerm_cases
  · rw [← hterms, hzero, Int64.toInt_zero]
    exact ⟨x, hx, (Int.add_zero x).symm⟩
  · rw [eval, hterms] at hx
    obtain ⟨u, v, hu, hv, rfl⟩ := eval_cons.mp hx
    cases hu
    refine ⟨v, hv, ?_⟩
    rw [Int.mul_one, Int.add_comm]

/-- The printed sum has the value of its terms added to what stands before. -/
private theorem eval_foldl_append {σ : Assignment} {ts : List Term} (before : Option Dim) {x y : Int}
    (hts : (mk ts).eval σ = some y) (hbefore : ∀ d ∈ before, d.eval σ = some x)
    (hnone : before = none → x = 0) :
    let after := ts.foldl (fun before t => some (append before t.2 fun k =>
      .combine .mul t.1.toDim (.const k))) before
    (∀ d ∈ after, d.eval σ = some (x + y)) ∧ (after = none → x + y = 0) := by
  induction ts generalizing before x y with
  | nil =>
    cases hts
    simpa using ⟨hbefore, hnone⟩
  | cons t ts ih =>
    obtain ⟨u, v, hu, hv, rfl⟩ := eval_cons.mp hts
    have hterm (k : Word) : (Dim.combine .mul t.1.toDim (.const k)).eval σ = some (k.toInt * u) :=
      Dim.eval_combine (Dim.eval_binary.mpr
        ⟨u, k.toInt, Monomial.eval_toDim hu, rfl, congrArg some (Int.mul_comm u k.toInt)⟩)
    have hstep := eval_append t.2 (fun k => .combine .mul t.1.toDim (.const k)) hbefore hnone hterm
    rw [← Int.add_assoc]
    refine ih _ hv ?_ (fun h => by cases h)
    rintro d ⟨⟩
    exact hstep

/-- Writing a normal form out as a dimension keeps its value. -/
theorem eval_toDim {σ : Assignment} {p : NormalForm} {x : Int} (hp : p.Canonical)
    (hx : p.eval σ = some x) : p.toDim.eval σ = some x := by
  obtain ⟨y, hy, rfl⟩ := eval_split hp hx
  obtain ⟨hsome, hnone⟩ := eval_foldl_append none (x := 0) hy (by simp) (fun _ => rfl)
  rw [Int.zero_add] at hsome hnone
  have hvalue := eval_append p.constantTerm Dim.const (y := 1) hsome hnone (by simp)
  rwa [Int.mul_one] at hvalue

private theorem eval_folded {σ : Assignment} {op : DimOp} {p q : NormalForm} {x y n : Int}
    (hp : p.Canonical) (hq : q.Canonical) (hx : p.eval σ = some x) (hy : q.eval σ = some y)
    (hn : op.eval x y = some n) : (ofFolded (.combine op p.toDim q.toDim)).eval σ = some n :=
  eval_ofFolded (Dim.eval_combine (Dim.eval_binary.mpr
    ⟨x, y, eval_toDim hp hx, eval_toDim hq hy, hn⟩))

/-- What two constants fold to is the value of the operation. -/
private theorem eval_of_fold? {σ : Assignment} {op : DimOp} {p q : NormalForm} {x y n : Int}
    {m k w : Word} (hm : p.const? = some m) (hk : q.const? = some k) (hx : p.eval σ = some x)
    (hy : q.eval σ = some y) (hn : op.eval x y = some n) (hw : op.fold? m k = some w) :
    (constant w).eval σ = some n := by
  rw [eval_of_const? hm, Option.some.injEq] at hx
  rw [eval_of_const? hk, Option.some.injEq] at hy
  rw [← hx, ← hy, DimOp.eval_fold? hw, Option.some.injEq] at hn
  rw [← hn]
  exact eval_constant σ w

theorem eval_floorDiv {σ : Assignment} {p q : NormalForm} {x y n : Int} (hp : p.Canonical)
    (hq : q.Canonical) (hx : p.eval σ = some x) (hy : q.eval σ = some y)
    (hn : DimOp.floorDiv.eval x y = some n) : (p.floorDiv q).eval σ = some n := by
  obtain h | ⟨m, k, w, hm, hk, hw, h⟩ | ⟨k, hk, hpos, h⟩ := floorDiv_cases p q
  · rw [h]
    exact eval_folded hp hq hx hy hn
  · rw [h]
    exact eval_of_fold? hm hk hx hy hn hw
  · obtain ⟨z, hz, rfl⟩ := eval_divExact? hx h
    rw [eval_of_const? hk, Option.some.injEq] at hy
    have hpos : 0 < k.toInt := by simpa [Int64.lt_iff_toInt_lt] using hpos
    rw [← hy, DimOp.eval, if_neg (Int.ne_of_gt hpos), Option.some.injEq,
      Int.mul_fdiv_cancel_left _ (Int.ne_of_gt hpos)] at hn
    rw [← hn]
    exact hz

theorem eval_floorMod {σ : Assignment} {p q : NormalForm} {x y n : Int} (hp : p.Canonical)
    (hq : q.Canonical) (hx : p.eval σ = some x) (hy : q.eval σ = some y)
    (hn : DimOp.floorMod.eval x y = some n) : (p.floorMod q).eval σ = some n := by
  obtain h | ⟨m, k, w, hm, hk, hw, h⟩ | ⟨k, r, hk, hpos, hdiv, h⟩ := floorMod_cases p q
  · rw [h]
    exact eval_folded hp hq hx hy hn
  · rw [h]
    exact eval_of_fold? hm hk hx hy hn hw
  · obtain ⟨z, -, rfl⟩ := eval_divExact? hx hdiv
    rw [eval_of_const? hk, Option.some.injEq] at hy
    have hpos : 0 < k.toInt := by simpa [Int64.lt_iff_toInt_lt] using hpos
    rw [← hy, DimOp.eval, if_neg (Int.ne_of_gt hpos), Option.some.injEq, Int.mul_fmod_right] at hn
    rw [h, ← hn]
    exact eval_constant σ 0

theorem eval_extremum {σ : Assignment} {op : DimOp} {pickLeft : Word → Bool} {p q : NormalForm}
    {x y n : Int} (hp : p.Canonical) (hq : q.Canonical) (hx : p.eval σ = some x)
    (hy : q.eval σ = some y) (hn : op.eval x y = some n) (hcomm : op.eval y x = some n)
    (hpick : ∀ d : Word, d.toInt = x - y → n = if pickLeft d then x else y) :
    (extremum op pickLeft p q).eval σ = some n := by
  obtain ⟨r, d, hr, hd, h⟩ | h | h := extremum_cases op pickLeft p q
  · have hdiff : d.toInt = x - y := by
      have hval := eval_sub? hx hy hr
      rw [eval_of_const? hd, Option.some.injEq] at hval
      exact hval
    rw [h, hpick d hdiff]
    split
    · exact hx
    · exact hy
  · exact h ▸ eval_folded hp hq hx hy hn
  · exact h ▸ eval_folded hq hp hy hx hcomm

theorem eval_combine? {σ : Assignment} {op : DimOp} {p q r : NormalForm} {x y n : Int}
    (hp : p.Canonical) (hq : q.Canonical) (hx : p.eval σ = some x) (hy : q.eval σ = some y)
    (hn : op.eval x y = some n) (h : combine? op p q = some r) : r.eval σ = some n := by
  cases op with
  | add =>
    cases hn
    exact eval_add? hx hy h
  | sub =>
    cases hn
    exact eval_sub? hx hy h
  | mul =>
    cases hn
    exact eval_mul? hx hy h
  | floorDiv =>
    cases h
    exact eval_floorDiv hp hq hx hy hn
  | floorMod =>
    cases h
    exact eval_floorMod hp hq hx hy hn
  | min =>
    cases h
    cases hn
    refine eval_extremum hp hq hx hy rfl ?_ ?_
    · simp only [DimOp.eval, Option.some.injEq]
      split <;> split <;> omega
    · intro d hd
      simp only [Int64.le_iff_toInt_le, Int64.toInt_zero, decide_eq_true_eq]
      split <;> split <;> omega
  | max =>
    cases h
    cases hn
    refine eval_extremum hp hq hx hy rfl ?_ ?_
    · simp only [DimOp.eval, Option.some.injEq]
      split <;> split <;> omega
    · intro d hd
      simp only [Int64.le_iff_toInt_le, Int64.toInt_zero, decide_eq_true_eq]
      split <;> split <;> omega

/-- Where a dimension has a value, its normal form has the same one. The
normal form may have a value where the dimension has none. -/
theorem eval_ofDim? {σ : Assignment} {d : Dim} {p : NormalForm} {n : Int} (h : ofDim? d = some p)
    (hn : d.eval σ = some n) : p.eval σ = some n := by
  induction d generalizing p n with
  | const k =>
    cases h
    cases hn
    exact eval_constant σ k
  | var x =>
    cases h
    exact eval_atom hn
  | any => cases h
  | binary op a b iha ihb =>
    simp only [ofDim?, Option.bind_eq_bind, Option.bind_eq_some_iff] at h
    obtain ⟨q, hq, r, hr, h⟩ := h
    obtain ⟨x, y, hx, hy, hn⟩ := Dim.eval_binary.mp hn
    exact eval_combine? (canonical_ofDim? hq) (canonical_ofDim? hr) (iha hq hx) (ihb hr hy) hn h

end TensorTyping.NormalForm
