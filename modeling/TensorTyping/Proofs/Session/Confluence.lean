import TensorTyping.Proofs.Session.Conclusion
import TensorTyping.Proofs.Session.Shadow

namespace TensorTyping

open Ty

/-- Solutions that find the same types for the same placeholders, up to the names of
type parameters, and put off the same conditions, but for those of a kind. -/
structure Solution.Same (E : Cond → Prop) (sol sol' : Solution) : Prop where
  bindings : List.Forall₂ (fun b b' => b.1 = b'.1 ∧ b.2.Same b'.2) sol.bindings sol'.bindings
  deferred : ∀ keep : Cond → Bool, (∀ c, E c → keep c = false) →
    sol.deferred.filter keep = sol'.deferred.filter keep

namespace Solution.Same

variable {E E' : Cond → Prop} {sol sol' : Solution}

theorem symm (h : sol.Same E sol') : sol'.Same E sol :=
  ⟨h.bindings.flip.imp fun _ _ hb => ⟨hb.1.symm, hb.2.symm⟩,
    fun keep hkeep => (h.deferred keep hkeep).symm⟩

theorem mono (h : sol.Same E sol') (hE : ∀ c, E c → E' c) : sol.Same E' sol' :=
  ⟨h.bindings, fun keep hkeep => h.deferred keep fun c hc => hkeep c (hE c hc)⟩

end Solution.Same

namespace Session

variable {E : Cond → Prop} {s s' : Session} {sol : Solution}

theorem Knows.complete (h : Knows E s s') (h' : Knows E s' s) (hc : s.classes.Valid)
    (hc' : s'.classes.Valid) (hcomplete : s.Complete) : s'.Complete := by
  intro p hp
  rw [isComplete_iff, List.eq_nil_iff_forall_not_mem]
  intro q hq
  have hsettled : s'.classes.Settled q.id :=
    hc'.resolved_resolve (hole p) q.id (mem_ids.mpr ⟨q, hq, rfl⟩)
  rw [resolve, Classes.resolve_hole] at hq
  have hregistered := h'.registered _ (hc'.registered_image hp (mem_ids.mpr ⟨q, hq, rfl⟩))
  refine Classes.not_same_of_settled hc' hsettled (u := s.resolve (hole q)) ?_ fun θ hθ =>
    (Grounding.satisfies_iff_resolve hc).mp (h.satisfies θ hθ) (hole q)
  have hcomplete := hcomplete q hregistered
  cases hresolve : s.resolve (hole q) with
  | hole r =>
    rw [hresolve] at hcomplete
    cases hcomplete
  | _ => rfl

theorem Knows.same (h : Knows E s s') (hc : s.classes.Valid) (hc' : s'.classes.Valid)
    (hcomplete : s.Complete) (hcomplete' : s'.Complete) {p q : Placeholder} (hpq : p.id = q.id)
    (hp : s.classes.Registered p.id) : (s.resolve (hole p)).Same (s'.resolve (hole q)) := by
  obtain ⟨θ, hθ, -⟩ := Grounding.exists_satisfies hc' .unit
  have hsame := (Grounding.satisfies_iff_resolve hc).mp (h.satisfies θ hθ) (hole p)
  have hsame' := (Grounding.satisfies_iff_resolve hc').mp hθ (hole q)
  have hq : s'.classes.Registered q.id := hpq ▸ h.registered _ hp
  have hleft : (s.classes.resolve (hole p)).ground θ = s.classes.resolve (hole p) :=
    fill_of_isComplete (hcomplete p hp) _
  have hright : (s'.classes.resolve (hole q)).ground θ = s'.classes.resolve (hole q) :=
    fill_of_isComplete (hcomplete' q hq) _
  rw [hleft, ground_hole] at hsame
  rw [hright, ground_hole, ← hpq] at hsame'
  exact hsame.symm.trans hsame'

/-- Sessions that know the same come to the same. -/
theorem Knows.conclude (h : Knows E s s') (h' : Knows E s' s) (hc : s.classes.Valid)
    (hc' : s'.classes.Valid) (hnodup : s.deferred.Nodup) (hnodup' : s'.deferred.Nodup)
    (hconclude : s.conclude = .ok sol) : ∃ sol', s'.conclude = .ok sol' ∧ sol.Same E sol' := by
  have hcomplete := complete_of_conclude hconclude
  have hcomplete' := h.complete h' hc hc' hcomplete
  obtain ⟨sol', hconclude'⟩ := conclude_of_complete hcomplete'
  obtain ⟨-, hbindings, hdeferred⟩ := conclude_ok hconclude
  obtain ⟨-, hbindings', hdeferred'⟩ := conclude_ok hconclude'
  have hids := ids_sortedPlaceholders_eq hc hc' fun i => ⟨h.registered i, h'.registered i⟩
  refine ⟨sol', hconclude', ?_, ?_⟩
  · rw [← List.forall₂_eq_eq_eq, List.forall₂_map_left_iff, List.forall₂_map_right_iff] at hids
    have hregistered : ∀ p ∈ s.sortedPlaceholders, s.classes.Registered p.id :=
      fun p hp => mem_ids_sortedPlaceholders.mp (List.mem_map_of_mem hp)
    rw [hbindings, hbindings', List.forall₂_map_left_iff, List.forall₂_map_right_iff]
    refine ((List.forall₂_and_left _ _).mpr ⟨hregistered, hids⟩).imp ?_
    rintro p q ⟨hp, hpq⟩
    exact ⟨hpq, h.same hc hc' hcomplete hcomplete' hpq hp⟩
  · intro keep hkeep
    rw [hdeferred, hdeferred']
    refine filter_mergeSort_eq_of_perm
      ((List.perm_ext_iff_of_nodup (hnodup.filter keep) (hnodup'.filter keep)).mpr fun c => ?_)
    rw [List.mem_filter, List.mem_filter]
    refine and_congr_left fun hc => ?_
    have hE : ¬ E c := fun hE => by simp [hkeep c hE] at hc
    exact ⟨fun hmem => h.deferred c hmem hE, fun hmem => h'.deferred c hmem hE⟩

theorem Rearranges.lenient {s₀ s₀' : Session} (h : Rearranges s₀ s₀') :
    Rearranges s₀.lenient s₀'.lenient :=
  ⟨h.globals, h.known, h.relations, h.registered⟩

end Session

end TensorTyping
