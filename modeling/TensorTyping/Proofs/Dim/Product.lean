import Mathlib.Algebra.Ring.Int.Defs
import Mathlib.Data.List.Forall2
import TensorTyping.Proofs.Dim.Fold
import TensorTyping.TensorType

namespace TensorTyping

namespace Dim

variable {σ : Assignment} {acc : Dim} {dims : List Dim}

theorem eval_foldl_combine {x : Int} {ns : List Int} (hacc : acc.eval σ = some x)
    (hdims : List.Forall₂ (fun d n => d.eval σ = some n) dims ns) :
    (dims.foldl (combine .mul) acc).eval σ = some (x * ns.prod) := by
  induction hdims generalizing acc x with
  | nil => rw [List.foldl_nil, List.prod_nil, Int.mul_one, hacc]
  | cons hd _ ih =>
    rw [List.foldl_cons, List.prod_cons, ← Int.mul_assoc]
    exact ih (eval_combine (eval_binary.mpr ⟨_, _, hacc, hd, rfl⟩))

/-- A product has the product of the values. -/
theorem eval_product {ns : List Int} (h : List.Forall₂ (fun d n => d.eval σ = some n) dims ns) :
    (product dims).eval σ = some ns.prod := by
  have hfold := eval_foldl_combine (eval_const σ 1) h
  rwa [Int64.toInt_one, Int.one_mul] at hfold

theorem foldl_combine_any (dims : List Dim) : dims.foldl (combine .mul) any = any := by
  induction dims with
  | nil => rfl
  | cons d dims ih => rw [List.foldl_cons, combine_any_left, ih]

theorem product_eq_any (h : any ∈ dims) : product dims = any := by
  obtain ⟨before, after, rfl⟩ := List.append_of_mem h
  rw [product, List.foldl_append, List.foldl_cons, combine_any_right, foldl_combine_any]

/-- How a product of literals that are not negative stands after some factors: as a literal if it
fits, and as an operation if it does not. -/
inductive Multiplied (p : Int) : Dim → Prop where
  | literal (w : Word) : w.toInt = p → Multiplied p (const w)
  | operation {d : Dim} : d.const? = none → d ≠ any → 9223372036854775807 < p → Multiplied p d

theorem Multiplied.combine {p : Int} {w : Word} (h : Multiplied p acc) (hp : 0 ≤ p)
    (hw : 0 ≤ w.toInt) : Multiplied (p * w.toInt) (combine .mul acc (const w)) := by
  cases h with
  | literal u hu =>
    rw [combine_const]
    have hfold : DimOp.mul.fold? u w = Word.ofInt? (p * w.toInt) := by rw [← hu]; rfl
    rw [hfold]
    cases hv : Word.ofInt? (p * w.toInt) with
    | some v => exact .literal v (Word.ofInt?_eq_some_iff.mp hv)
    | none =>
      refine .operation rfl (by simp) ?_
      have hpositive := Int.mul_nonneg hp hw
      obtain h | h := Word.ofInt?_eq_none_iff.mp hv <;> omega
  | operation hliteral hany hlarge =>
    have hacc : ∀ k, acc ≠ const k := by
      rintro k rfl
      cases hliteral
    have hconst : const w ≠ any := by simp
    rw [combine_eq_shortcut hany hconst (Or.inl hliteral)]
    simp only [DimOp.shortcut?, hacc, false_or, if_false, const.injEq]
    -- a zero is absorbed, a one is dropped, and anything larger keeps the product too large
    by_cases hzero : w = 0
    · rw [if_pos hzero, hzero, Int64.toInt_zero, Int.mul_zero]
      exact .literal 0 Int64.toInt_zero
    · rw [if_neg hzero]
      by_cases hone : w = 1
      · rw [if_pos hone, hone, Int64.toInt_one, Int.mul_one]
        exact .operation hliteral hany hlarge
      · rw [if_neg hone]
        have hpositive : 1 ≤ w.toInt := by
          have hne : w.toInt ≠ 0 := fun h => hzero (Word.toInt_eq_zero_iff.mp h)
          omega
        have hgrow := Int.mul_le_mul_of_nonneg_left hpositive hp
        exact .operation rfl (by simp) (by omega)

theorem Multiplied.foldl {p : Int} {ws : List Word} (h : Multiplied p acc) (hp : 0 ≤ p)
    (hws : ∀ w ∈ ws, 0 ≤ w.toInt) :
    Multiplied (p * (ws.map Int64.toInt).prod) ((ws.map const).foldl (Dim.combine .mul) acc) := by
  induction ws generalizing acc p with
  | nil => rwa [List.map_nil, List.prod_nil, Int.mul_one]
  | cons w ws ih =>
    rw [List.forall_mem_cons] at hws
    rw [List.map_cons, List.map_cons, List.prod_cons, ← Int.mul_assoc, List.foldl_cons]
    exact ih (h.combine hp hws.1) (Int.mul_nonneg hp hws.1) hws.2

end Dim

namespace TensorType

/-- The size of a tensor. Where all dimensions have a value, it has the product of the values; if some
dimension is `?`, it is `?`; and if all dimensions are literals that are not negative, it is their
product as a literal if that fits, and not a literal otherwise. -/
theorem size_exact (t : TensorType) :
    (∀ (σ : Assignment) (ns : List Int), List.Forall₂ (fun d n => d.eval σ = some n) t.shape ns →
      t.size.eval σ = some ns.prod) ∧
    (.any ∈ t.shape → t.size = .any) ∧
    ∀ ws : List Word, t.shape = ws.map .const → (∀ w ∈ ws, 0 ≤ w) →
      (∀ w, Word.ofInt? (ws.map Int64.toInt).prod = some w → t.size = .const w) ∧
        (Word.ofInt? (ws.map Int64.toInt).prod = none → t.size.const? = none) := by
  refine ⟨fun σ ns hns => ?_, Dim.product_eq_any, fun ws hshape hws => ?_⟩
  · have hsize := Dim.eval_foldl_combine (Dim.eval_const σ 1) hns
    rwa [Int64.toInt_one, Int.one_mul] at hsize
  · have hsize : Dim.Multiplied (ws.map Int64.toInt).prod t.size := by
      have hone : Dim.Multiplied 1 (.const 1) := .literal 1 Int64.toInt_one
      have hfold := hone.foldl (by decide) fun w hw => Int64.le_iff_toInt_le.mp (hws w hw)
      rwa [Int.one_mul, ← hshape] at hfold
    generalize (ws.map Int64.toInt).prod = p, t.size = d at hsize
    cases hsize with
    | literal w hw =>
      rw [← hw, Word.ofInt?_toInt]
      exact ⟨fun v hv => congrArg Dim.const (Option.some.inj hv), nofun⟩
    | operation hliteral hany hlarge =>
      rw [Word.ofInt?_eq_none_iff.mpr (Or.inr hlarge)]
      exact ⟨nofun, fun _ => hliteral⟩

/-- With a zero behind it, a product that does not fit is the literal `0` again; with a one behind it,
it stays an operation. -/
theorem size_exact_zero :
    let n : SizeVar := ⟨0, "n"⟩
    let large : Word := 9223372036854775807
    (⟨[.var n, .const 4, .var n], .float 32⟩ : TensorType).size.eval (fun _ => 3) = some 36 ∧
      (⟨[.var n, .any], .float 32⟩ : TensorType).size = .any ∧
      (ofWords [2, large, 0] (.float 32)).size = .const 0 ∧
      (ofWords [2, large, 1] (.float 32)).size.const? = none := by
  intro n large
  have hdims : List.Forall₂ (fun (d : Dim) k => d.eval (fun _ => 3) = some k)
      [.var n, .const 4, .var n] [3, 4, 3] :=
    .cons rfl (.cons (by decide) (.cons rfl .nil))
  exact ⟨(size_exact ⟨[.var n, .const 4, .var n], .float 32⟩).1 (fun _ => 3) [3, 4, 3] hdims,
    (size_exact ⟨[.var n, .any], .float 32⟩).2.1 (by decide),
    ((size_exact (ofWords [2, large, 0] (.float 32))).2.2 _ rfl (by simp [large])).1 0 (by decide),
    ((size_exact (ofWords [2, large, 1] (.float 32))).2.2 _ rfl (by simp [large])).2 (by decide)⟩

end TensorType

end TensorTyping
