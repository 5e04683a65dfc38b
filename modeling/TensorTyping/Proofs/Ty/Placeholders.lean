import TensorTyping.Ty.Walk

namespace TensorTyping.Ty

@[simp] theorem occurrences_tuple (ts : List Ty) :
    (tuple ts).occurrences = ts.flatMap occurrences := by
  rw [occurrences, occurrencesAll_eq_flatMap]

@[simp] theorem occurrences_call (f : Ty) (ts : List Ty) :
    (call f ts).occurrences = f.occurrences ++ ts.flatMap occurrences := by
  rw [occurrences, occurrencesAll_eq_flatMap]

@[simp] theorem occurrences_func (ts : List Ty) (r : Ty) (vs : List TypeVar) :
    (func ts r vs).occurrences = ts.flatMap occurrences ++ r.occurrences := by
  rw [occurrences, occurrencesAll_eq_flatMap]

theorem ids_tuple (ts : List Ty) : (tuple ts).ids = ts.flatMap ids := by
  rw [ids, occurrences_tuple, List.map_flatMap]
  rfl

theorem ids_call (f : Ty) (ts : List Ty) : (call f ts).ids = f.ids ++ ts.flatMap ids := by
  rw [ids, occurrences_call, List.map_append, List.map_flatMap]
  rfl

theorem ids_func (ts : List Ty) (r : Ty) (vs : List TypeVar) :
    (func ts r vs).ids = ts.flatMap ids ++ r.ids := by
  rw [ids, occurrences_func, List.map_append, List.map_flatMap]
  rfl

theorem ids_hole (p : Placeholder) : (hole p).ids = [p.id] := rfl

theorem mem_ids {t : Ty} {id : UInt32} : id ∈ t.ids ↔ ∃ p ∈ t.occurrences, p.id = id :=
  List.mem_map

theorem forall_mem_ids {t : Ty} {P : UInt32 → Prop} :
    (∀ i ∈ t.ids, P i) ↔ ∀ p ∈ t.occurrences, P p.id :=
  List.forall_mem_map

theorem isComplete_iff (t : Ty) : t.isComplete = true ↔ t.occurrences = [] := by
  induction t using parts_induction with
  | step t ih =>
    rw [isComplete_eq_parts, occurrences_eq_parts, Bool.and_eq_true, List.all_eq_true,
      List.append_eq_nil_iff, List.flatMap_eq_nil_iff]
    exact and_congr (by simp) (forall₂_congr ih)

theorem mentions_iff {t : Ty} {id : UInt32} : t.mentions id = true ↔ id ∈ t.ids := by
  induction t using parts_induction with
  | step t ih =>
    rw [mentions_eq_parts, ids, occurrences_eq_parts, List.map_append, List.map_flatMap,
      Bool.or_eq_true, List.any_eq_true, List.mem_append, List.mem_flatMap]
    refine or_congr ?_ (exists_congr fun u => and_congr_right (ih u))
    cases t.hole? <;> simp [eq_comm]

theorem mem_occurrences_of_mem_holes {t : Ty} {p : Placeholder} (h : p ∈ t.holes) :
    p ∈ t.occurrences :=
  List.mem_of_find?_eq_some ((t.firsts_holes.mem_iff p).mp h)

theorem holes_eq_nil_iff (t : Ty) : t.holes = [] ↔ t.isComplete = true := by
  have hids : t.holes.map (·.id) = [] ↔ t.ids = [] := by
    simp only [List.eq_nil_iff_forall_not_mem, id_mem_holes]
  rw [List.map_eq_nil_iff, ids, List.map_eq_nil_iff] at hids
  rw [hids, isComplete_iff]

/-- The traversals agree. The walk comes to a type before its parts and to those from left to
right. The list of placeholders has no id twice; it holds those that the walk comes to before any
other with their id, in the order in which it does. The ids in it are those that the type mentions,
and it is empty exactly for a complete type. -/
theorem holes_exact (t : Ty) :
    t.occurrences = t.hole?.toList ++ t.parts.flatMap occurrences ∧
      (t.holes.map (·.id)).Nodup ∧
      (∀ p, p ∈ t.holes ↔ t.occurrences.find? (·.id = p.id) = some p) ∧
      t.holes.Pairwise (fun p q => t.ids.idxOf p.id < t.ids.idxOf q.id) ∧
      (∀ id, id ∈ t.holes.map (·.id) ↔ t.mentions id = true) ∧
      (t.isComplete = true ↔ t.holes = []) := by
  have hfirsts := t.firsts_holes
  refine ⟨occurrences_eq_parts t, hfirsts.nodup, hfirsts.mem_iff, hfirsts.ordered, fun id => ?_,
    (holes_eq_nil_iff t).symm⟩
  rw [id_mem_holes, mentions_iff]

/-- A callee is met before the arguments and a result after the parameters. -/
example : (func [call (hole ⟨3, .type⟩) [ref (hole ⟨1, .type⟩)], hole ⟨3, .type⟩] (hole ⟨0, .type⟩)
    []).holes.map (·.id) = [3, 1, 0] := by decide

end TensorTyping.Ty
