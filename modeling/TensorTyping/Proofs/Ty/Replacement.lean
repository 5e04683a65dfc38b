import TensorTyping.Proofs.Ty.Fill

namespace TensorTyping.Ty

variable {f : Placeholder → Option Ty}

theorem replaceAll?_eq_none_iff {ts : List Ty} :
    replaceAll? f ts = none ↔ ∀ t ∈ ts, t.replace? f = none := by
  induction ts with
  | nil => simp [replaceAll?]
  | cons t ts ih =>
    rw [List.forall_mem_cons, ← ih, replaceAll?]
    cases t.replace? f <;> cases replaceAll? f ts <;> simp

/-- Nothing is reported to have changed exactly where no placeholder has a replacement. -/
theorem replace?_eq_none_iff {t : Ty} :
    t.replace? f = none ↔ ∀ p ∈ t.occurrences, f p = none := by
  induction t using Ty.induction with
  | tensor | var | global | hole => simp [replace?, occurrences]
  | tuple ts ih =>
    rw [replace?, Option.map_eq_none_iff, replaceAll?_eq_none_iff, occurrences_tuple,
      List.forall_mem_flatMap]
    exact forall₂_congr ih
  | ref t ih => rw [replace?, Option.map_eq_none_iff, ih, occurrences]
  | call u ts ihu ihts =>
    rw [occurrences_call, List.forall_mem_append, List.forall_mem_flatMap, ← forall₂_congr ihts,
      ← ihu, ← replaceAll?_eq_none_iff, replace?]
    cases u.replace? f <;> cases replaceAll? f ts <;> simp
  | func ts r vs ihts ihr =>
    rw [occurrences_func, List.forall_mem_append, List.forall_mem_flatMap, ← forall₂_congr ihts,
      ← ihr, ← replaceAll?_eq_none_iff, replace?]
    cases replaceAll? f ts <;> cases r.replace? f <;> simp

theorem mem_ids_subst {t : Ty} {id : UInt32} :
    id ∈ (t.subst f).ids ↔
      (∃ p ∈ t.occurrences, f p = none ∧ p.id = id) ∨
        ∃ p ∈ t.occurrences, ∃ u, f p = some u ∧ id ∈ u.ids := by
  have himage (p : Placeholder) : id ∈ ((f p).getD (hole p)).ids ↔
      f p = none ∧ p.id = id ∨ ∃ u, f p = some u ∧ id ∈ u.ids := by
    cases f p <;> simp [ids_hole, eq_comm]
  have hwalk : id ∈ (t.subst f).ids ↔ ∃ p ∈ t.occurrences, id ∈ ((f p).getD (hole p)).ids := by
    rw [ids, occurrences_subst, List.map_flatMap, List.mem_flatMap]
    rfl
  rw [hwalk, ← exists_or]
  exact exists_congr fun p => by rw [himage, and_or_left]

/-- Replacement that shares what it does not change is the plain structural map. The type stays as
it is if no placeholder of it has a replacement, and the ids of the result are those without a
replacement and those of the replacements. -/
theorem replace_exact (f : Placeholder → Option Ty) (t : Ty) :
    t.replace f = t.subst f ∧
      ((∀ p ∈ t.occurrences, f p = none) → t.replace f = t) ∧
      ∀ id, id ∈ (t.replace f).ids ↔
        (∃ p ∈ t.occurrences, f p = none ∧ p.id = id) ∨
          ∃ p ∈ t.occurrences, ∃ u, f p = some u ∧ id ∈ u.ids := by
  have hsubst := replace_eq_subst f t
  refine ⟨hsubst, fun hnone => ?_, fun id => ?_⟩
  · rw [replace, replace?_eq_none_iff.mpr hnone, Option.getD_none]
  · rw [hsubst]
    exact mem_ids_subst

/-- A signature stays as it is where only other placeholders have replacements. -/
theorem replace_exact_untouched :
    let a : Placeholder := ⟨0, .type⟩
    let b : Placeholder := ⟨1, .type⟩
    let t : Ty := .func [.ref (.hole a), .call (.hole b) [.hole a]] (.tuple [.hole b]) [⟨2, "T", .type⟩]
    let f : Placeholder → Option Ty := fun p => if p.id = 7 then some (.tuple []) else none
    (∀ p ∈ t.occurrences, f p = none) ∧ t.replace f = t := by
  intro a b t f
  have hnone : ∀ p ∈ t.occurrences, f p = none := by
    simp [t, f, a, b, occurrences, occurrencesAll]
  exact ⟨hnone, (replace_exact f t).2.1 hnone⟩

end TensorTyping.Ty
