import TensorTyping.Proofs.Dim.Fold
import TensorTyping.Proofs.NormalForm.Within

namespace TensorTyping.Dim

variable {f : SizeVar → Option Dim} {d : Dim}

/-- What stands in place of a size variable after a substitution. -/
def image (f : SizeVar → Option Dim) (x : SizeVar) : Dim := (f x).getD (var x)

/-- Substituting dimensions evaluates like assigning their values. -/
theorem eval_substitute {σ ρ : Assignment} {n : Int}
    (hρ : ∀ x, d.Mentions x → (image f x).eval σ = some (ρ x)) (hn : d.eval ρ = some n) :
    (d.substitute f).eval σ = some n := by
  induction d generalizing n with
  | const k => exact hn
  | var x =>
    cases hn
    exact hρ x rfl
  | any => cases hn
  | binary op a b iha ihb =>
    obtain ⟨u, v, hu, hv, hop⟩ := eval_binary.mp hn
    have ha := iha (fun x hx => hρ x (Or.inl hx)) hu
    have hb := ihb (fun x hx => hρ x (Or.inr hx)) hv
    exact eval_combine (eval_binary.mpr ⟨u, v, ha, hb, hop⟩)

/-- `?` is put in for the whole dimension as soon as it is put in for a part. -/
theorem substitute_eq_any
    (h : d.containsAny = true ∨ ∃ x, d.Mentions x ∧ f x = some any) : d.substitute f = any := by
  induction d with
  | const k => simp [containsAny, Mentions] at h
  | var x =>
    obtain h | ⟨y, rfl, hy⟩ := h
    · cases h
    · rw [substitute, hy, Option.getD_some]
  | any => rfl
  | binary op a b iha ihb =>
    simp only [containsAny, Bool.or_eq_true, Mentions, or_and_right, exists_or] at h
    obtain (ha | hb) | (ha | hb) := h
    · rw [substitute, iha (Or.inl ha), combine_any_left]
    · rw [substitute, ihb (Or.inl hb), combine_any_right]
    · rw [substitute, iha (Or.inr ha), combine_any_left]
    · rw [substitute, ihb (Or.inr hb), combine_any_right]

/-- Folding brings in no `?`. -/
theorem containsAny_substitute (hd : d.containsAny = false)
    (hf : ∀ x, d.Mentions x → (image f x).containsAny = false) :
    (d.substitute f).containsAny = false := by
  suffices hwithin : (d.substitute f).Within fun _ => True from (within_iff.mp hwithin).1
  have hfree : ∀ {e : Dim}, e.containsAny = false → e.Within fun _ => True :=
    fun he => within_iff.mpr ⟨he, fun _ _ => trivial⟩
  induction d with
  | const k => trivial
  | var x => exact hfree (hf x rfl)
  | any => cases hd
  | binary op a b iha ihb =>
    rw [containsAny, Bool.or_eq_false_iff] at hd
    exact within_combine op (iha hd.1 fun x hx => hf x (Or.inl hx))
      (ihb hd.2 fun x hx => hf x (Or.inr hx))

/-- Substitution by any images. Where the images of the size variables have values, the result has
the value that the original has for those, if it has one. Images that are either `?` or free of it
give `?` if `?` occurs or is put in for some size variable that occurs, and a dimension free of it
otherwise. -/
theorem substitute_exact (f : SizeVar → Option Dim) (d : Dim) :
    (∀ (σ ρ : Assignment) (n : Int), (∀ x, d.Mentions x → (image f x).eval σ = some (ρ x)) →
      d.eval ρ = some n → (d.substitute f).eval σ = some n) ∧
    ((∀ x, ∀ e ∈ f x, e = any ∨ e.containsAny = false) →
      ((d.containsAny = true ∨ ∃ x, d.Mentions x ∧ f x = some any) → d.substitute f = any) ∧
      ((¬ (d.containsAny = true ∨ ∃ x, d.Mentions x ∧ f x = some any)) →
        (d.substitute f).containsAny = false)) := by
  refine ⟨fun σ ρ n => eval_substitute, fun hf => ⟨substitute_eq_any, fun h => ?_⟩⟩
  rw [not_or, Bool.not_eq_true] at h
  refine containsAny_substitute h.1 fun x hx => ?_
  unfold image
  cases hfx : f x with
  | none => rfl
  | some e => exact (hf x e hfx).resolve_left fun he => h.2 ⟨x, hx, he ▸ hfx⟩

/-- With `m - 1` for `n` and `?` for `k`, the quotient of `n + 1` by `m - n` is a quotient by
`m - (m - 1)`, which is not folded any further, and the larger of it and `k` is `?`. -/
theorem substitute_exact_quotient :
    let n : SizeVar := ⟨0, "n"⟩
    let m : SizeVar := ⟨1, "m"⟩
    let k : SizeVar := ⟨2, "k"⟩
    let less : Dim := .binary .sub (.var m) (.const 1)
    let f : SizeVar → Option Dim :=
      fun x => if x = n then some less else if x = k then some any else none
    let quotient : Dim :=
      .binary .floorDiv (.binary .add (.var n) (.const 1)) (.binary .sub (.var m) (.var n))
    let larger : Dim := .binary .max quotient (.var k)
    quotient.eval (fun x => if x = n then 6 else 7) = some 7 ∧
      (quotient.substitute f).eval (fun _ => 7) = some 7 ∧
      (quotient.substitute f).containsAny = false ∧ larger.substitute f = any := by
  intro n m k less f quotient larger
  have hvalue : quotient.eval (fun x => if x = n then 6 else 7) = some 7 := by decide
  have himages : ∀ x, quotient.Mentions x →
      (image f x).eval (fun _ => 7) = some (if x = n then 6 else 7) := by
    intro x hx
    simp only [quotient, Mentions, or_false] at hx
    obtain rfl | rfl | rfl := hx <;> decide
  have hfree : ∀ x, ∀ e ∈ f x, e = any ∨ e.containsAny = false := by
    intro x e he
    simp only [f] at he
    split at he
    · cases he
      exact Or.inr rfl
    · split at he <;> cases he
      exact Or.inl rfl
  have hnone : ¬ (quotient.containsAny = true ∨ ∃ x, quotient.Mentions x ∧ f x = some any) := by
    rintro (hany | ⟨x, hx, hfx⟩)
    · cases hany
    · simp only [quotient, Mentions, or_false] at hx
      obtain rfl | rfl | rfl := hx <;> exact absurd hfx (by decide)
  exact ⟨hvalue, (substitute_exact f quotient).1 _ _ 7 himages hvalue,
    ((substitute_exact f quotient).2 hfree).2 hnone,
    ((substitute_exact f larger).2 hfree).1 (Or.inr ⟨k, Or.inr rfl, rfl⟩)⟩

end TensorTyping.Dim
