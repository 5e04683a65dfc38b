import TensorTyping.Proofs.Session.Classes

namespace TensorTyping.Classes

open Ty

section map

variable {c : Classes} {f : Cell → Cell}

theorem Partitioned.map (h : c.Partitioned)
    (hplaceholder : ∀ x ∈ c.cells, (f x).placeholder = x.placeholder)
    (hleader : ∀ x ∈ c.cells, (f x).leader = x.leader)
    (hleast : ∀ x ∈ c.cells, (f x).least = x.least) :
    (Classes.mk (c.cells.map f)).Partitioned := by
  have hid : ∀ x ∈ c.cells, (f x).placeholder.id = x.placeholder.id := fun x hx => by
    rw [hplaceholder x hx]
  have hmem : ∀ {id x}, c.cell? id = some x → x ∈ c.cells := List.mem_of_find?_eq_some
  refine ⟨?_, ?_, ?_⟩
  · have hids : (c.cells.map f).map (·.placeholder.id) = c.cells.map (·.placeholder.id) := by
      rw [List.map_map]
      exact List.map_congr_left hid
    rw [hids]
    exact h.nodup
  · intro id y hy
    rw [cell?_map hid] at hy
    obtain ⟨x, hx, rfl⟩ := Option.map_eq_some_iff.mp hy
    obtain ⟨r, hr, hlead⟩ := h.leads hx
    refine ⟨f r, ?_, ?_⟩
    · rw [hleader x (hmem hx), cell?_map hid, hr, Option.map_some]
    · rw [hleader r (hmem hr), hleader x (hmem hx), hlead]
  · intro id s hs
    rw [class?_map hid hleader] at hs
    obtain ⟨r, hr, rfl⟩ := Option.map_eq_some_iff.mp hs
    obtain ⟨-, -, hcell⟩ := h.class?_eq_some hr
    obtain ⟨x, hx, hleastx, hlead⟩ := h.least hr
    refine ⟨f x, ?_, ?_, ?_⟩
    · rw [hleast r (hmem hcell), cell?_map hid, hx, Option.map_some]
    · rw [hplaceholder x (hmem hx), hleast r (hmem hcell), hleastx]
    · rw [hleader x (hmem hx), hleader r (hmem hcell), hlead]

end map

section modify

variable {c : Classes} (leader : UInt32) {f : Cell → Cell}
  (hplaceholder : ∀ x, (f x).placeholder = x.placeholder) (hleader : ∀ x, (f x).leader = x.leader)
include hplaceholder

theorem registered_modify (id : UInt32) :
    (c.modify leader f).Registered id ↔ c.Registered id := by
  refine registered_map (fun x _ => ?_) id
  split
  · rw [hplaceholder]
  · rfl

include hleader

theorem class?_modify (id : UInt32) :
    (c.modify leader f).class? id =
      (c.class? id).map fun x => if x.placeholder.id = leader then f x else x := by
  refine class?_map (fun x _ => ?_) (fun x _ => ?_) id
  · split
    · rw [hplaceholder]
    · rfl
  · split
    · rw [hleader]
    · rfl

theorem leader_modify (id : UInt32) : (c.modify leader f).leader id = c.leader id := by
  have hcell : (c.modify leader f).cell? id =
      (c.cell? id).map fun x => if x.placeholder.id = leader then f x else x := by
    refine cell?_map (fun x _ => ?_) id
    split
    · rw [hplaceholder]
    · rfl
  rw [Classes.leader, Classes.leader, hcell]
  cases c.cell? id with
  | none => rfl
  | some x =>
    rw [Option.map_some, Option.map_some, Option.map_some]
    split
    · rw [hleader]
    · rfl

theorem Partitioned.modify (h : c.Partitioned) (hleast : ∀ x, (f x).least = x.least) :
    (c.modify leader f).Partitioned := by
  refine h.map (fun x _ => ?_) (fun x _ => ?_) (fun x _ => ?_)
  · split
    · rw [hplaceholder]
    · rfl
  · split
    · rw [hleader]
    · rfl
  · split
    · rw [hleast]
    · rfl

theorem Partitioned.class?_modify_of_ne (h : c.Partitioned) {id : UInt32}
    (hne : c.leader id ≠ leader) : (c.modify leader f).class? id = c.class? id := by
  rw [class?_modify leader hplaceholder hleader]
  cases hr : c.class? id with
  | none => rfl
  | some r =>
    have hid := (h.class?_eq_some hr).2.1
    rw [Option.map_some, if_neg (hid ▸ hne)]

end modify

section use

variable {c : Classes} (leader : UInt32) (new : List Nat)

theorem registered_use (id : UInt32) : (c.use leader new).Registered id ↔ c.Registered id :=
  registered_modify leader (by intro _; rfl) id

theorem leader_use (id : UInt32) : (c.use leader new).leader id = c.leader id :=
  leader_modify leader (by intro _; rfl) (by intro _; rfl) id

theorem class?_use (id : UInt32) : (c.use leader new).class? id = (c.class? id).map fun x =>
    if x.placeholder.id = leader then { x with users := addUsers x.users new } else x :=
  class?_modify leader (by intro _; rfl) (by intro _; rfl) id

theorem binding?_use (id : UInt32) : (c.use leader new).binding? id = c.binding? id := by
  rw [binding?, binding?, class?_use]
  cases c.class? id with
  | none => rfl
  | some x =>
    rw [Option.map_some, Option.bind_some, Option.bind_some]
    split <;> rfl

theorem image?_use : (c.use leader new).image? = c.image? := by
  funext p
  rw [image?, image?, class?_use]
  cases c.class? p.id with
  | none => rfl
  | some x =>
    rw [Option.map_some]
    by_cases hx : x.placeholder.id = leader
    · simp only [hx, if_true]
    · simp only [hx, if_false]

theorem Partitioned.mem_users_use (h : c.Partitioned) {id : UInt32} {n : Nat} :
    n ∈ (c.use leader new).users id ↔
      n ∈ c.users id ∨ (c.Registered id ∧ c.leader id = leader ∧ n ∈ new) := by
  by_cases hid : c.Registered id
  · obtain ⟨r, hr⟩ := h.exists_class? hid
    have hr' := class?_use (c := c) leader new id
    rw [hr, Option.map_some, (h.class?_eq_some hr).2.1] at hr'
    rw [users_of_class? hr, users_of_class? hr']
    split
    · rename_i hleader
      rw [mem_addUsers]
      exact or_congr_right ⟨fun hn => ⟨hid, hleader, hn⟩, fun hn => hn.2.2⟩
    · rename_i hleader
      exact ⟨Or.inl, fun hn => hn.resolve_right fun hn => hleader hn.2.1⟩
  · constructor
    · intro hn
      exact absurd ((registered_use leader new id).mp (registered_of_mem_users hn)) hid
    · rintro (hn | hn)
      · exact absurd (registered_of_mem_users hn) hid
      · exact absurd hn.1 hid

theorem Valid.use (h : c.Valid) : (c.use leader new).Valid := by
  refine ⟨h.modify leader (by intro _; rfl) (by intro _; rfl) (by intro _; rfl), ?_⟩
  intro id t ht
  rw [binding?_use] at ht
  obtain ⟨hresolved, hregistered⟩ := h.bound ht
  refine ⟨fun i hi => ?_, fun i hi => (registered_use leader new i).mpr (hregistered i hi)⟩
  rw [Settled, image?_use]
  exact hresolved i hi

end use

end TensorTyping.Classes
