import TensorTyping.Proofs.Session.Soundness

namespace TensorTyping.Session

open Ty

variable {s s' : Session} {sol : Solution}

theorem mem_ids_sortedPlaceholders {i : UInt32} :
    i ∈ s.sortedPlaceholders.map (·.id) ↔ s.classes.Registered i := by
  rw [Classes.registered_iff_mem, List.mem_map]
  constructor
  · rintro ⟨p, hp, rfl⟩
    obtain ⟨x, hx, rfl⟩ := List.mem_map.mp (List.mem_mergeSort.mp hp)
    exact ⟨x, hx, rfl⟩
  · rintro ⟨x, hx, rfl⟩
    exact ⟨_, List.mem_mergeSort.mpr (List.mem_map_of_mem hx), rfl⟩

/-- A complete type is known for every placeholder. -/
def Complete (s : Session) : Prop :=
  ∀ p : Placeholder, s.classes.Registered p.id → (s.resolve (hole p)).isComplete = true

theorem complete_of_conclude (h : s.conclude = .ok sol) : s.Complete := by
  intro p hp
  obtain ⟨x, hx, hid⟩ := Classes.registered_iff_mem.mp hp
  have hcomplete := (conclude_ok h).1 _ (List.mem_map_of_mem hx)
  rw [resolve, Classes.resolve_hole, Classes.image, Classes.image?_congr hid] at hcomplete
  rw [resolve, Classes.resolve_hole, Classes.image]
  cases himage : s.classes.image? p with
  | none =>
    rw [himage] at hcomplete
    cases hcomplete
  | some t =>
    rw [himage] at hcomplete
    exact hcomplete

theorem conclude_of_complete (h : s.Complete) : ∃ sol, s.conclude = .ok sol := by
  have hholes : (s.sortedPlaceholders.map fun p => (p.id, s.resolve (hole p))).flatMap (·.2.holes) =
      [] := by
    refine List.flatMap_eq_nil_iff.mpr fun e he => ?_
    obtain ⟨p, hp, rfl⟩ := List.mem_map.mp he
    refine (holes_eq_nil_iff _).mpr (h p ?_)
    rw [← mem_ids_sortedPlaceholders]
    exact List.mem_map_of_mem hp
  unfold conclude
  dsimp only
  rw [foldl_addLeftovers, ← sortedPlaceholders, hholes]
  exact ⟨_, rfl⟩

theorem pairwise_mergeSort_ids (ps : List Placeholder) :
    ((ps.mergeSort fun p q => decide (p.id ≤ q.id)).map (·.id)).Pairwise (· ≤ ·) := by
  rw [List.pairwise_map]
  refine (List.pairwise_mergeSort ?_ ?_ _).imp fun h => by simpa using h
  · intro p q r hpq hqr
    simp only [decide_eq_true_eq] at hpq hqr ⊢
    exact UInt32.le_trans hpq hqr
  · intro p q
    simpa using UInt32.le_total p.id q.id

theorem nodup_sortedPlaceholders (hc : s.classes.Valid) :
    (s.sortedPlaceholders.map (·.id)).Nodup := by
  have hperm := (List.mergeSort_perm s.classes.placeholders
    fun p q => decide (p.id ≤ q.id)).map (·.id)
  have hnodup := hc.nodup
  rw [sortedPlaceholders, hperm.nodup_iff, Classes.placeholders, List.map_map]
  exact hnodup

/-- Sessions that know each other's placeholders list the same ids. -/
theorem ids_sortedPlaceholders_eq (hc : s.classes.Valid) (hc' : s'.classes.Valid)
    (h : ∀ i, s.classes.Registered i ↔ s'.classes.Registered i) :
    s.sortedPlaceholders.map (·.id) = s'.sortedPlaceholders.map (·.id) := by
  refine List.Perm.eq_of_pairwise (fun _ _ _ _ => UInt32.le_antisymm) (pairwise_mergeSort_ids _)
    (pairwise_mergeSort_ids _) ?_
  rw [List.perm_ext_iff_of_nodup (nodup_sortedPlaceholders hc) (nodup_sortedPlaceholders hc')]
  intro i
  rw [mem_ids_sortedPlaceholders, mem_ids_sortedPlaceholders]
  exact h i

end TensorTyping.Session
