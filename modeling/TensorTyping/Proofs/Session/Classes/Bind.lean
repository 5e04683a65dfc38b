import TensorTyping.Proofs.Session.Classes.Refresh

namespace TensorTyping.Classes

open Ty

/-- Binding a class leaves its users. -/
theorem users_bind (c : Classes) (leader : UInt32) (t : Ty) (i : UInt32) :
    (c.bind leader t).users i = c.users i := by
  have hclass := class?_modify (c := c) (f := fun x => { x with binding := some t }) leader
    (fun _ => rfl) (fun _ => rfl) i
  rw [bind, users_refresh, users, hclass, users]
  cases c.class? i with
  | none => rfl
  | some r =>
    rw [Option.map_some, Option.map_some, Option.map_some]
    split <;> rfl

theorem leader_bind (c : Classes) (leader : UInt32) (t : Ty) (i : UInt32) :
    (c.bind leader t).leader i = c.leader i := by
  rw [bind, leader_refresh]
  exact leader_modify leader (by intro _; rfl) (by intro _; rfl) i

/-- Binding a class gives a binding to its members, and to no one else. -/
theorem Partitioned.isSome_binding?_bind {c : Classes} (h : c.Partitioned) (leader : UInt32) (t : Ty)
    (i : UInt32) : ((c.bind leader t).binding? i).isSome ↔
      (c.binding? i).isSome ∨ (c.Registered i ∧ c.leader i = leader) := by
  have hclass := class?_modify (c := c) (f := fun x => { x with binding := some t }) leader
    (fun _ => rfl) (fun _ => rfl) i
  rw [bind, binding?_refresh, Option.isSome_map, binding?, hclass, binding?]
  by_cases hi : c.Registered i
  · obtain ⟨r, hr⟩ := h.exists_class? hi
    rw [hr, Option.map_some, Option.bind_some, Option.bind_some, (h.class?_eq_some hr).2.1]
    split
    · rename_i hleader
      exact iff_of_true rfl (Or.inr ⟨hi, hleader⟩)
    · rename_i hleader
      exact ⟨Or.inl, fun hbound => hbound.elim id fun hmem => absurd hmem.2 hleader⟩
  · simp [class?_of_not_registered hi, hi]

theorem eliminates_bind {c : Classes} (h : c.Valid) {id : UInt32} {t : Ty}
    (hsettled : c.Settled id) (hid : c.Registered id)
    (ht : ∀ i ∈ t.ids, c.Settled i ∧ c.Registered i)
    (hfree : ∀ i ∈ t.ids, c.leader i ≠ c.leader id) :
    Eliminates c (c.bind (c.leader id) t) id t := by
  obtain ⟨r, hr⟩ := h.exists_class? hid
  obtain ⟨hb, hleast⟩ := (settled_iff hr).mp hsettled
  have hself : ∀ {i s}, c.class? i = some s → c.leader i = c.leader id → s = r := by
    intro i s hs hleader
    rw [class?_congr (registered_of_class? hs) hid hleader, hr, Option.some.injEq] at hs
    exact hs.symm
  have hclass := class?_modify (c := c) (f := fun x => { x with binding := some t })
    (c.leader id) (fun _ => rfl) (fun _ => rfl)
  have hregistered := registered_modify (c := c) (f := fun x => { x with binding := some t })
    (c.leader id) (fun _ => rfl)
  have hother : ∀ {i}, c.leader i ≠ c.leader id →
      (c.modify (c.leader id) fun x => { x with binding := some t }).class? i = c.class? i :=
    h.class?_modify_of_ne (c.leader id) (by intro _; rfl) (by intro _; rfl)
  have husers : ∀ i, c.users i ⊆
      (c.modify (c.leader id) fun x => { x with binding := some t }).users i := by
    intro i
    have heq := users_bind c (c.leader id) t i
    rw [bind, users_refresh] at heq
    rw [heq]
    exact fun _ hn => hn
  refine eliminates_refresh h (h.modify _ ?_ ?_ ?_) hregistered ht (fun hmem => hfree id hmem rfl)
    ?_ ?_ ?_ husers
  · exact fun _ => rfl
  · exact fun _ => rfl
  · exact fun _ => rfl
  · intro i u hu
    obtain ⟨s, hs, hsu⟩ := Option.bind_eq_some_iff.mp hu
    have hne : c.leader i ≠ c.leader id := by
      intro hleader
      rw [hself hs hleader, hb] at hsu
      cases hsu
    rw [binding?, hother hne, hs, Option.bind_some, hsu]
  · intro i hi hne
    by_cases hmem : c.Registered i
    · obtain ⟨s, hs⟩ := h.exists_class? hmem
      have hleader : c.leader i ≠ c.leader id := by
        intro hleader
        rw [hself hs hleader] at hs
        exact hne (((settled_iff hs).mp hi).2.symm.trans hleast)
      exact (settled_iff ((hother hleader).trans hs)).mpr ((settled_iff hs).mp hi)
    · apply settled_of_not_registered
      rwa [hregistered]
  · intro p hp
    by_cases hmem : c.Registered p.id
    · obtain ⟨s, hs⟩ := h.exists_class? hmem
      obtain ⟨q, himage, hq⟩ := exists_image_eq_hole hs ((binding?_eq_none hs).mp hp)
      by_cases hleader : c.leader p.id = c.leader id
      · have hqid : q.id = id := by rw [hq, hself hs hleader, hleast]
        have hbinding : (c.modify (c.leader id) fun x => { x with binding := some t }).binding? p.id =
            some t := by
          rw [binding?, hclass, hs, Option.map_some, if_pos]
          · rfl
          · rw [(h.class?_eq_some hs).2.1, hleader]
        rw [himage, image_of_binding? hbinding, ← hqid, eliminate_hole_self]
      · have hne : q.id ≠ id := by
          intro heq
          have hmember := (h.class?_least hs).2.1
          rw [← hq, heq] at hmember
          exact hleader hmember.symm
        rw [himage, eliminate_hole_of_ne hne, ← himage]
        simp only [image, image?, hother hleader]
    · have hne : p.id ≠ id := by
        rintro rfl
        exact hmem hid
      have hmem' := mt (hregistered p.id).mp hmem
      rw [(settled_of_not_registered hmem).image rfl, (settled_of_not_registered hmem').image rfl,
        eliminate_hole_of_ne hne]

end TensorTyping.Classes
