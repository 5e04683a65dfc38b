import TensorTyping.Proofs.Session.Passage

namespace TensorTyping.Classes

open Ty

/-- Classes of the same placeholders that put the same into every type. Leaders, ranks and the
order in which placeholders were registered may differ. -/
structure Equivalent (c c' : Classes) : Prop where
  left : c.Valid
  right : c'.Valid
  resolve : ∀ t, c'.resolve t = c.resolve t
  placeholders : ∀ p, p ∈ c'.placeholders ↔ p ∈ c.placeholders

variable {c c' : Classes} {p q : Placeholder}

theorem Valid.settled_iff_image (h : c.Valid) : c.Settled p.id ↔ c.image p = hole p := by
  refine ⟨fun hp => hp.image rfl, fun hp => ?_⟩
  have hresolved := h.resolved_image p
  rw [hp] at hresolved
  exact Site.settled_of_resolved_hole hresolved

theorem mem_placeholders_ensure_iff :
    q ∈ (c.ensure p).placeholders ↔ q ∈ c.placeholders ∨ (q = p ∧ ¬ c.Registered p.id) := by
  refine ⟨mem_placeholders_ensure, fun hq => ?_⟩
  unfold ensure
  split
  · rename_i hp
    exact hq.resolve_right fun h => h.2 hp
  · rw [placeholders, List.map_append, List.mem_append]
    exact hq.imp id fun h => List.mem_singleton.mpr h.1

/-- The least member of a class that nothing else stands for is registered under its id. -/
theorem Valid.least_mem (h : c.Valid) (hp : c.Registered p.id) (hsettled : c.Settled p.id) :
    c.least p ∈ c.placeholders ∧ (c.least p).id = p.id := by
  obtain ⟨r, hr⟩ := h.exists_class? hp
  obtain ⟨x, hx, hplaceholder, -⟩ := h.least hr
  have hleast : c.least p = r.least := by simp [Classes.least, hr]
  rw [hleast]
  refine ⟨?_, ((settled_iff hr).mp hsettled).2⟩
  rw [← hplaceholder]
  exact List.mem_map_of_mem (List.mem_of_find?_eq_some hx)

theorem Partitioned.eq_of_mem_placeholders (h : c.Partitioned) (hp : p ∈ c.placeholders)
    (hq : q ∈ c.placeholders) (hid : p.id = q.id) : p = q := by
  refine List.inj_on_of_nodup_map ?_ hp hq hid
  rw [placeholders, List.map_map]
  exact h.nodup

namespace Equivalent

theorem refl (h : c.Valid) : c.Equivalent c := ⟨h, h, fun _ => rfl, fun _ => Iff.rfl⟩

theorem registered (h : c.Equivalent c') (i : UInt32) : c'.Registered i ↔ c.Registered i := by
  simp only [registered_iff_placeholders, h.placeholders]

theorem settled (h : c.Equivalent c') (i : UInt32) : c'.Settled i ↔ c.Settled i := by
  have himage := h.resolve (hole ⟨i, .type⟩)
  rw [resolve_hole, resolve_hole] at himage
  have hleft := h.left.settled_iff_image (p := ⟨i, .type⟩)
  have hright := h.right.settled_iff_image (p := ⟨i, .type⟩)
  rw [hleft, hright, himage]

theorem resolved (h : c.Equivalent c') {t : Ty} : c'.Resolved t ↔ c.Resolved t :=
  forall₂_congr fun i _ => h.settled i

theorem least (h : c.Equivalent c') (hp : c.Registered p.id) (hsettled : c.Settled p.id) :
    c'.least p = c.least p := by
  obtain ⟨hmem, hid⟩ := h.left.least_mem hp hsettled
  obtain ⟨hmem', hid'⟩ := h.right.least_mem ((h.registered _).mpr hp) ((h.settled _).mpr hsettled)
  exact h.left.eq_of_mem_placeholders ((h.placeholders _).mp hmem') hmem (hid'.trans hid.symm)

theorem ensure (h : c.Equivalent c') (p : Placeholder) :
    (c.ensure p).Equivalent (c'.ensure p) := by
  have hc := registers_ensure h.left p
  have hc' := registers_ensure h.right p
  refine ⟨hc.valid, hc'.valid, fun t => ?_, fun q => ?_⟩
  · rw [hc.resolve, hc'.resolve, h.resolve]
  · rw [mem_placeholders_ensure_iff, mem_placeholders_ensure_iff, h.placeholders, h.registered]

theorem ensureAll (h : c.Equivalent c') (ps : List Placeholder) :
    (c.ensureAll ps).Equivalent (c'.ensureAll ps) := by
  induction ps generalizing c c' with
  | nil => exact h
  | cons p ps ih => exact ih (h.ensure p)

/-- It does not matter which of two placeholders is registered first, unless both are new and one
under two kinds. -/
theorem ensure_comm (h : c.Equivalent c')
    (hkind : p.id = q.id → c.Registered p.id ∨ p.kind = q.kind) :
    ((c.ensure p).ensure q).Equivalent ((c'.ensure q).ensure p) := by
  have hc := (registers_ensure h.left p).trans (registers_ensure (h.left.ensure p) q)
  have hc' := (registers_ensure h.right q).trans (registers_ensure (h.right.ensure q) p)
  refine ⟨hc.valid, hc'.valid, fun t => ?_, fun r => ?_⟩
  · rw [hc.resolve, hc'.resolve, h.resolve]
  · simp only [mem_placeholders_ensure_iff, registered_ensure, h.placeholders, h.registered]
    by_cases hid : p.id = q.id
    · obtain hregistered | hkind := hkind hid
      · have hregistered' := hid ▸ hregistered
        simp [hregistered, hregistered']
      · obtain rfl : p = q := by
          cases p
          cases q
          simp_all
        rfl
    · simp only [hid, Ne.symm hid, or_false]
      rw [or_assoc, or_assoc, or_comm (a := r = p ∧ _)]

end Equivalent

end TensorTyping.Classes
