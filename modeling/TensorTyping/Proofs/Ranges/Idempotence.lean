import TensorTyping.Proofs.NormalForm.Difference
import TensorTyping.Proofs.Ranges

namespace TensorTyping

namespace Ranges

variable {known : Ranges} {d : Dim}

theorem simplify_of_ofDim? {p : NormalForm} (h : NormalForm.ofDim? d = some p) :
    known.simplify d = (((known.intervalOf p).point?.bind Word.ofInt?).map .const).getD p.toDim := by
  rw [simplify, h]
  dsimp only
  cases (known.intervalOf p).point?.bind Word.ofInt? <;> rfl

theorem simplify_const (known : Ranges) (n : Word) : known.simplify (.const n) = .const n := by
  have hpoint : (Interval.point n.toInt).point? = some n.toInt := if_pos rfl
  rw [simplify_of_ofDim? rfl, intervalOf_constant, hpoint, Option.bind_some, Word.ofInt?_toInt]
  rfl

/-- Simplifying twice is simplifying once, whatever is known, for a dimension that has no normal form
or in which no `min` or `max` misses a constant difference because the least word has no opposite. -/
theorem simplify_simplify (known : Ranges) (d : Dim)
    (h : (NormalForm.ofDim? d).isSome → d.Subtractable) :
    known.simplify (known.simplify d) = known.simplify d := by
  cases hp : NormalForm.ofDim? d with
  | none =>
    have hunchanged : known.simplify d = d := by
      rw [simplify, hp]
    rw [hunchanged, hunchanged]
  | some p =>
    rw [simplify_of_ofDim? hp]
    cases hpoint : (known.intervalOf p).point?.bind Word.ofInt? with
    | some n => exact known.simplify_const n
    | none =>
      have hstable := (h (hp ▸ rfl)).over_stable hp
      rw [Option.map_none, Option.getD_none,
        simplify_of_ofDim? ((NormalForm.canonical_ofDim? hp).ofDim?_toDim hstable), hpoint]
      rfl

/-- The larger of a size and a remainder is kept, halved and scaled, the smaller of two sums is written
with its operands exchanged, and two sums are kept whose difference does not fit a word. None of them
changes any more. -/
theorem simplify_simplify_kept :
    let n : Dim := .var ⟨0, "n"⟩
    let m : Dim := .var ⟨1, "m"⟩
    let half : Dim := .binary .floorDiv (.binary .max n (.binary .floorMod m (.const 3))) (.const 2)
    let smaller : Dim := .binary .min (.binary .sub (.const 5) m)
      (.binary .max (.binary .add n (.const 1)) n)
    let far : Dim := .binary .min (.binary .add n (.const 5))
      (.binary .sub n (.const 9223372036854775807))
    let d : Dim := .binary .sub (.binary .sub (.binary .mul half (.const 4)) smaller) far
    ((NormalForm.ofDim? d).isSome → d.Subtractable) ∧ none.simplify d ≠ d ∧
      none.simplify (none.simplify d) = none.simplify d := by
  intro n m half smaller far d
  have hsubtractable : (NormalForm.ofDim? d).isSome → d.Subtractable := by decide +kernel
  exact ⟨hsubtractable, by decide +kernel, simplify_simplify none d hsubtractable⟩

/-- The difference of `n - 1` and the sum of `n` and the least word fits a word, but the least word has
no opposite. What is kept first is decided by a second pass, the other way round. -/
theorem simplify_simplify_ne :
    let n : Dim := .var ⟨0, "n"⟩
    let least : Dim := .binary .add n (.const (-9223372036854775808))
    let d : Dim := .binary .min (.binary .sub n (.const 1)) least
    none.simplify d = .binary .min least (.binary .sub n (.const 1)) ∧
      none.simplify (none.simplify d) = least ∧
      none.simplify (none.simplify d) ≠ none.simplify d := by
  decide +kernel

end Ranges

end TensorTyping
