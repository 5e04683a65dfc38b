import TensorTyping.Proofs.NormalForm.Weight
import TensorTyping.Proofs.Ranges

namespace TensorTyping.Ranges

/-- A dimension without a normal form is not known to be equal to itself. -/
theorem compare_self_of_overflow (known : Ranges) {d : Dim} (h : NormalForm.ofDim? d = Option.none) :
    known.compare .eq d d = .unknown := by
  have hdifference : difference? d d = Option.none := by
    unfold difference?
    rw [h]
    split <;> rfl
  rw [compare, hdifference]

/-- Whatever is known, a dimension without `?` is known to be equal to itself if it normalises
without overflow to coefficients other than the least word, as it does if its weight fits a word. If
normalising overflows, nothing is known. -/
theorem compare_refl (known : Ranges) (d : Dim) (hany : d.containsAny = false) :
    (∀ p, NormalForm.ofDim? d = some p → (∀ t ∈ p.terms, t.2 ≠ Int64.minValue) →
      known.compare .eq d d = .proven) ∧
    (NormalForm.ofDim? d = Option.none → known.compare .eq d d = .unknown) ∧
    (d.weight ≤ Word.limit → known.compare .eq d d = .proven) := by
  have hproven : ∀ p, NormalForm.ofDim? d = some p → (∀ t ∈ p.terms, t.2 ≠ Int64.minValue) →
      known.compare .eq d d = .proven := by
    intro p hp hne
    obtain ⟨q, hq⟩ := NormalForm.exists_neg?_of_ne hne
    exact compare_self_iff.mpr ⟨hany, p, q, hp, hq⟩
  refine ⟨hproven, known.compare_self_of_overflow, fun hweight => ?_⟩
  obtain ⟨p, hp, hmagnitude, -⟩ := Dim.exists_ofDim? hany hweight
  exact hproven p hp fun t =>
    NormalForm.ne_minValue_of_magnitude (Nat.le_trans hmagnitude hweight)

/-- All operators, a division by zero, and coefficients as great as they can be. -/
theorem compare_refl_nested :
    let n : Dim := .var ⟨0, "n"⟩
    let m : Dim := .var ⟨1, "m"⟩
    let quotient : Dim := .binary .floorDiv (.binary .sub (.binary .mul n m) (.const 7)) (.const 0)
    let d : Dim := .binary .add (.binary .floorMod quotient n)
      (.binary .min (.binary .max n (.binary .mul (.const (-2)) m)) (.const 3))
    let great : Dim := .binary .mul (.const 9223372036854775807) n
    let e : Dim := .binary .add (.binary .sub great great) great
    (d.containsAny = false ∧ d.weight ≤ Word.limit ∧ none.compare .eq d d = .proven) ∧
      e.containsAny = false ∧ none.compare .eq e e = .proven := by
  intro n m quotient d great e
  have hd : d.weight ≤ Word.limit := by decide
  have he : NormalForm.ofDim? e = some ⟨[([n], 9223372036854775807)]⟩ := by decide +kernel
  exact ⟨⟨rfl, hd, (compare_refl none d rfl).2.2 hd⟩, rfl,
    (compare_refl none e rfl).1 _ he (by decide)⟩

/-- The greatest word and one do not add up, and the sum is not known to be equal to itself. -/
theorem compare_not_refl :
    let d : Dim := .binary .add (.const 9223372036854775807) (.const 1)
    d.containsAny = false ∧ none.compare .eq d d = .unknown ∧ none.compare .eq d d ≠ .proven := by
  decide

end TensorTyping.Ranges
