import TensorTyping.Proofs.Session.Classes.Use
import TensorTyping.Session.Equations

namespace TensorTyping.Classes

open Ty

section refresh

variable {c : Classes}

/-- A cell with its binding brought up to date. -/
private def refreshed (c : Classes) (x : Cell) : Cell :=
  { x with binding := x.binding.map c.resolve }

theorem class?_refresh (id : UInt32) :
    c.refresh.class? id =
      (c.class? id).map fun x => { x with binding := x.binding.map c.resolve } :=
  class?_map (f := c.refreshed) (fun _ _ => rfl) (fun _ _ => rfl) id

theorem registered_refresh (id : UInt32) : c.refresh.Registered id ↔ c.Registered id :=
  registered_map (f := c.refreshed) (fun _ _ => rfl) id

theorem leader_refresh (id : UInt32) : c.refresh.leader id = c.leader id := by
  have hcell : c.refresh.cell? id = (c.cell? id).map c.refreshed :=
    cell?_map (f := c.refreshed) (fun _ _ => rfl) id
  rw [leader, leader, hcell]
  cases c.cell? id <;> rfl

theorem Partitioned.refresh (h : c.Partitioned) : c.refresh.Partitioned :=
  h.map (f := c.refreshed) (fun _ _ => rfl) (fun _ _ => rfl) fun _ _ => rfl

theorem binding?_refresh (id : UInt32) :
    c.refresh.binding? id = (c.binding? id).map c.resolve := by
  rw [binding?, class?_refresh, binding?]
  cases c.class? id <;> rfl

theorem users_refresh (id : UInt32) : c.refresh.users id = c.users id := by
  rw [users, class?_refresh, users]
  cases c.class? id <;> rfl

theorem image?_refresh (p : Placeholder) :
    c.refresh.image? p = ((c.binding? p.id).map c.resolve).or (c.image? p) := by
  rw [image?, class?_refresh, image?, binding?]
  cases c.class? p.id with
  | none => rfl
  | some x => cases hb : x.binding <;> simp [hb]

theorem settled_refresh (id : UInt32) : c.refresh.Settled id ↔ c.Settled id := by
  refine forall₂_congr fun p hp => ?_
  rw [image?_refresh]
  cases hb : c.binding? p.id with
  | none => rfl
  | some t =>
    obtain ⟨x, hx, ht⟩ := Option.bind_eq_some_iff.mp hb
    simp [image?, hx, ht]

end refresh

theorem eliminate_hole_of_ne {p : Placeholder} {id : UInt32} (h : p.id ≠ id) (t : Ty) :
    (hole p).eliminate id t = hole p := by
  rw [eliminate_eq_fill, fill_hole, if_neg h]

theorem eliminate_hole_self {p : Placeholder} (t : Ty) : (hole p).eliminate p.id t = t := by
  rw [eliminate_eq_fill, fill_hole, if_pos rfl]

theorem Settled.binding?_eq {c : Classes} {id : UInt32} (h : c.Settled id) :
    c.binding? id = none := by
  cases hb : c.binding? id with
  | none => rfl
  | some t =>
    obtain ⟨r, hr, ht⟩ := Option.bind_eq_some_iff.mp hb
    rw [((settled_iff hr).mp h).1] at ht
    cases ht

/-- The classes after a placeholder was solved for: everything known is as
before, with a type in the placeholder's place, and nobody stops waiting. -/
structure Eliminates (c c' : Classes) (id : UInt32) (t : Ty) : Prop where
  valid : c'.Valid
  registered : ∀ i, c'.Registered i ↔ c.Registered i
  settled : ∀ i, c.Settled i → i ≠ id → c'.Settled i
  resolve : ∀ u, c'.resolve u = (c.resolve u).eliminate id t
  users : ∀ i, c.users i ⊆ c'.users i

theorem eliminates_refresh {c c' : Classes} (h : c.Valid) (h' : c'.Partitioned)
    (hregistered : ∀ i, c'.Registered i ↔ c.Registered i) {id : UInt32} {t : Ty}
    (ht : ∀ i ∈ t.ids, c.Settled i ∧ c.Registered i) (hid : id ∉ t.ids)
    (hbound : ∀ {i u}, c.binding? i = some u → c'.binding? i = some u)
    (hsettled : ∀ i, c.Settled i → i ≠ id → c'.Settled i)
    (himage : ∀ p, c.binding? p.id = none → c'.image p = (c.image p).eliminate id t)
    (husers : ∀ i, c.users i ⊆ c'.users i) : Eliminates c c'.refresh id t := by
  have hresolve : ∀ {u}, c.Resolved u → c'.resolve u = u.eliminate id t := by
    intro u hu
    rw [resolve_eq_fill, eliminate_eq_fill]
    refine fill_congr fun p hp => ?_
    have hp := hu p.id (mem_ids.mpr ⟨p, hp, rfl⟩)
    rw [himage p hp.binding?_eq, hp.image rfl, eliminate_eq_fill, fill_hole]
  -- A type that is resolved stays so, but for the placeholder that is solved for.
  have hkeep : ∀ {u}, c.Resolved u → ∀ i ∈ (u.eliminate id t).ids,
      c.Settled i ∧ i ≠ id ∧ (c.Registered i ∨ i ∈ u.ids) := by
    intro u hu i hi
    obtain hi | ⟨hi, hne⟩ := mem_ids_eliminate hi
    · exact ⟨(ht i hi).1, fun h => hid (h ▸ hi), Or.inl (ht i hi).2⟩
    · exact ⟨hu i hi, hne, Or.inr hi⟩
  have hvalue : ∀ p, c'.refresh.image p = (c.image p).eliminate id t := by
    intro p
    have hresolved := h.resolved_image p
    rw [image, image?_refresh]
    cases hb : c'.binding? p.id with
    | none =>
      have hnone : c.binding? p.id = none := by
        cases hb' : c.binding? p.id with
        | none => rfl
        | some u =>
          rw [hbound hb'] at hb
          cases hb
      rw [Option.map_none, Option.none_or]
      exact himage p hnone
    | some u =>
      rw [Option.map_some, Option.some_or, Option.getD_some]
      cases hb' : c.binding? p.id with
      | none =>
        have hu : u = (c.image p).eliminate id t := by
          rw [← himage p hb', image_of_binding? hb]
        have hu' : c.Resolved u := fun i hi => (hkeep hresolved i (hu ▸ hi)).1
        rw [hresolve hu', eliminate_eq_self, hu]
        exact fun hi => (hkeep hresolved id (hu ▸ hi)).2.1 rfl
      | some v =>
        have hv : v = u := by
          rw [hbound hb', Option.some.injEq] at hb
          exact hb
        rw [image_of_binding? hb', hv] at hresolved ⊢
        exact hresolve hresolved
  refine ⟨⟨h'.refresh, ?_⟩, ?_, ?_, ?_, fun i => users_refresh (c := c') i ▸ husers i⟩
  · intro i w hw
    have hi : c.Registered i := by
      rw [← hregistered, ← registered_refresh]
      obtain ⟨r, hr, -⟩ := Option.bind_eq_some_iff.mp hw
      exact registered_of_class? hr
    have hw : w = (c.image ⟨i, .type⟩).eliminate id t := by
      rw [← hvalue]
      exact (image_of_binding? (p := ⟨i, .type⟩) hw).symm
    subst hw
    constructor
    · intro j hj
      obtain ⟨hsettledj, hne, -⟩ := hkeep (h.resolved_image ⟨i, .type⟩) j hj
      exact (settled_refresh j).mpr (hsettled j hsettledj hne)
    · intro j hj
      rw [registered_refresh, hregistered]
      obtain ⟨-, -, hj | hj⟩ := hkeep (h.resolved_image ⟨i, .type⟩) j hj
      · exact hj
      · exact h.registered_image hi hj
  · intro i
    rw [registered_refresh, hregistered]
  · intro i hi hne
    exact (settled_refresh i).mpr (hsettled i hi hne)
  · intro u
    rw [resolve_eq_fill, resolve_eq_fill, eliminate_eq_fill, fill_fill]
    refine fill_congr fun p _ => ?_
    rw [hvalue, eliminate_eq_fill]

end TensorTyping.Classes
