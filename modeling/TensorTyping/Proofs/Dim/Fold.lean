import TensorTyping.Dim.Fold

namespace TensorTyping

theorem Word.toInt_eq_zero_iff {w : Word} : w.toInt = 0 ↔ w = 0 := by
  rw [← Int64.toInt_inj, Int64.toInt_zero]

theorem Word.eval_floorDiv? {m n k : Word} (h : Word.floorDiv? m n = some k) :
    n.toInt ≠ 0 ∧ m.toInt.fdiv n.toInt = k.toInt := by
  rw [Word.floorDiv?_eq] at h
  split at h
  · cases h
  · rename_i hn
    exact ⟨fun hz => hn (Word.toInt_eq_zero_iff.mp hz), (Word.ofInt?_eq_some_iff.mp h).symm⟩

theorem Word.eval_floorMod? {m n k : Word} (h : Word.floorMod? m n = some k) :
    n.toInt ≠ 0 ∧ m.toInt.fmod n.toInt = k.toInt := by
  simp only [Word.floorMod?, Option.bind_eq_bind, Option.bind_eq_some_iff] at h
  obtain ⟨q, hq, p, hp, hk⟩ := h
  obtain ⟨hn, hdiv⟩ := eval_floorDiv? hq
  have hprod : p.toInt = q.toInt * n.toInt := Word.ofInt?_eq_some_iff.mp hp
  have hdiff : k.toInt = m.toInt - p.toInt := Word.ofInt?_eq_some_iff.mp hk
  refine ⟨hn, ?_⟩
  rw [Int.fmod_def, hdiv, hdiff, hprod, Int.mul_comm]

/-- What folds is exact. Intermediate results that do not fit only prevent
folding. -/
theorem DimOp.eval_fold? {op : DimOp} {m n k : Word} (h : op.fold? m n = some k) :
    op.eval m.toInt n.toInt = some k.toInt := by
  cases op with
  | add | sub | mul =>
    have hk := Word.ofInt?_eq_some_iff.mp h
    rw [hk]
    rfl
  | floorDiv =>
    obtain ⟨hn, hk⟩ := Word.eval_floorDiv? h
    rw [DimOp.eval, if_neg hn, hk]
  | floorMod =>
    obtain ⟨hn, hk⟩ := Word.eval_floorMod? h
    rw [DimOp.eval, if_neg hn, hk]
  | min | max =>
    cases h
    simp only [DimOp.eval, ← Int64.le_iff_toInt_le]
    split <;> rfl

namespace Dim

@[simp] theorem eval_const (σ : Assignment) (n : Word) : (const n).eval σ = some n.toInt := rfl

theorem eval_binary {σ : Assignment} {op : DimOp} {a b : Dim} {n : Int} :
    (binary op a b).eval σ = some n ↔
      ∃ x y, a.eval σ = some x ∧ b.eval σ = some y ∧ op.eval x y = some n := by
  simp only [eval, Option.bind_eq_bind, Option.bind_eq_some_iff]
  constructor
  · rintro ⟨x, hx, y, hy, hn⟩
    exact ⟨x, y, hx, hy, hn⟩
  · rintro ⟨x, y, hx, hy, hn⟩
    exact ⟨x, hx, y, hy, hn⟩

theorem eval_const_zero {σ : Assignment} {n : Int} (h : (const 0).eval σ = some n) : n = 0 := by
  simpa using h.symm

theorem eval_const_one {σ : Assignment} {n : Int} (h : (const 1).eval σ = some n) : n = 1 := by
  simpa using h.symm

/-- The unit and zero laws keep a defined value. They may give a value where
the operation has none. -/
theorem eval_shortcut? {σ : Assignment} {op : DimOp} {a b d : Dim} {x y n : Int}
    (ha : a.eval σ = some x) (hb : b.eval σ = some y) (hn : op.eval x y = some n)
    (hd : op.shortcut? a b = some d) : d.eval σ = some n := by
  cases op with
  | add =>
    cases hn
    simp only [DimOp.shortcut?] at hd
    split at hd
    · rename_i hz
      cases hd
      rw [hz] at ha
      rw [hb, eval_const_zero ha, Int.zero_add]
    · split at hd <;> cases hd
      rename_i hz
      rw [hz] at hb
      rw [ha, eval_const_zero hb, Int.add_zero]
  | sub =>
    cases hn
    simp only [DimOp.shortcut?] at hd
    split at hd
    · rename_i hz
      cases hd
      rw [hz] at hb
      rw [ha, eval_const_zero hb, Int.sub_zero]
    · split at hd <;> cases hd
      rename_i hab
      rw [hab, hb] at ha
      cases ha
      simp
  | mul =>
    cases hn
    simp only [DimOp.shortcut?] at hd
    split at hd
    · rename_i hz
      cases hd
      rcases hz with hz | hz
      · rw [hz] at ha
        simp [eval_const_zero ha]
      · rw [hz] at hb
        simp [eval_const_zero hb]
    · split at hd
      · rename_i hone
        cases hd
        rw [hone] at ha
        rw [hb, eval_const_one ha, Int.one_mul]
      · split at hd <;> cases hd
        rename_i hone
        rw [hone] at hb
        rw [ha, eval_const_one hb, Int.mul_one]
  | floorDiv =>
    simp only [DimOp.shortcut?] at hd
    split at hd <;> cases hd
    rename_i hone
    rw [hone] at hb
    rw [eval_const_one hb] at hn
    simpa [DimOp.eval, ha] using hn
  | floorMod =>
    simp only [DimOp.shortcut?] at hd
    split at hd <;> cases hd
    rename_i hone
    rw [hone] at hb
    rw [eval_const_one hb] at hn
    simpa [DimOp.eval] using hn
  | min | max =>
    simp only [DimOp.shortcut?] at hd
    split at hd <;> cases hd
    rename_i hab
    rw [hab, hb] at ha
    cases ha
    simpa [DimOp.eval, hab, hb] using hn

/-- Without `?`, an operation is kept, or a unit or zero law removes it, or two literals fold. -/
theorem combine_cases (op : DimOp) {a b : Dim} (ha : a ≠ any) (hb : b ≠ any) :
    combine op a b = binary op a b ∨
      (a.const? = none ∨ b.const? = none) ∧ op.shortcut? a b = some (combine op a b) ∨
      ∃ k l w, a = const k ∧ b = const l ∧ op.fold? k l = some w ∧ combine op a b = const w := by
  by_cases hlit : a.const? = none ∨ b.const? = none
  · rw [combine_eq_shortcut ha hb hlit]
    cases op.shortcut? a b with
    | none => exact Or.inl rfl
    | some d => exact Or.inr (Or.inl ⟨hlit, rfl⟩)
  · rw [not_or, ← Ne, ← Ne, Option.ne_none_iff_exists', Option.ne_none_iff_exists'] at hlit
    obtain ⟨⟨k, hk⟩, l, hl⟩ := hlit
    cases a <;> cases hk
    cases b <;> cases hl
    rw [combine_const]
    cases hw : op.fold? k l with
    | none => exact Or.inl rfl
    | some w => exact Or.inr (Or.inr ⟨k, l, w, rfl, rfl, hw, rfl⟩)

/-- A folding operation has the value of the operation wherever that has
one. -/
theorem eval_combine {σ : Assignment} {op : DimOp} {a b : Dim} {n : Int}
    (h : (binary op a b).eval σ = some n) : (combine op a b).eval σ = some n := by
  obtain ⟨x, y, ha, hb, hn⟩ := eval_binary.mp h
  have hanyl : a ≠ any := by
    rintro rfl
    cases ha
  have hanyr : b ≠ any := by
    rintro rfl
    cases hb
  obtain hkept | ⟨-, hd⟩ | ⟨k, l, w, rfl, rfl, hw, hfold⟩ := combine_cases op hanyl hanyr
  · rwa [hkept]
  · exact eval_shortcut? ha hb hn hd
  · cases ha
    cases hb
    rw [hfold, eval_const, ← DimOp.eval_fold? hw, hn]

end Dim

end TensorTyping
