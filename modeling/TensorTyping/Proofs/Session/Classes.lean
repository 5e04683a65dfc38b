import TensorTyping.Proofs.Ty.Fill
import TensorTyping.Session.Classes

namespace TensorTyping

theorem mem_addUsers {users new : List Nat} {n : Nat} :
    n ∈ addUsers users new ↔ n ∈ users ∨ n ∈ new := by
  induction new generalizing users with
  | nil => simp [addUsers]
  | cons m new ih =>
    rw [addUsers, List.foldl_cons, ← addUsers, ih]
    split
    · rename_i hm
      rw [List.mem_cons]
      constructor
      · exact Or.imp id Or.inr
      · rintro (hn | rfl | hn)
        · exact Or.inl hn
        · exact Or.inl hm
        · exact Or.inr hn
    · rw [List.mem_append, List.mem_singleton, List.mem_cons, or_assoc]

namespace Classes

open Ty

/-- A placeholder belongs to the session. -/
def Registered (c : Classes) (id : UInt32) : Prop := (c.cell? id).isSome = true

/-- What stands for a placeholder: its binding, or the least member of its
class. -/
def image (c : Classes) (p : Placeholder) : Ty := (c.image? p).getD (hole p)

section lookup

variable (c : Classes)

theorem resolve_eq_fill (t : Ty) : c.resolve t = t.fill c.image := by
  rw [resolve, replace_eq_subst, subst_eq_fill]
  rfl

@[simp] theorem resolve_hole (p : Placeholder) : c.resolve (hole p) = c.image p := by
  rw [resolve_eq_fill, fill_hole]

variable {c}

theorem id_of_cell? {id : UInt32} {x : Cell} (h : c.cell? id = some x) : x.placeholder.id = id := by
  simpa using List.find?_some h

theorem leader_of_cell? {id : UInt32} {x : Cell} (h : c.cell? id = some x) :
    c.leader id = x.leader := by
  simp [leader, h]

theorem class?_of_cell? {id : UInt32} {x : Cell} (h : c.cell? id = some x) :
    c.class? id = c.cell? x.leader := by
  simp [class?, h]

theorem class?_of_not_registered {id : UInt32} (h : ¬ c.Registered id) : c.class? id = none := by
  have hnone : c.cell? id = none := by simpa [Registered] using h
  simp [class?, hnone]

theorem class?_congr {i j : UInt32} (hi : c.Registered i) (hj : c.Registered j)
    (hleader : c.leader i = c.leader j) : c.class? i = c.class? j := by
  obtain ⟨x, hx⟩ := Option.isSome_iff_exists.mp hi
  obtain ⟨y, hy⟩ := Option.isSome_iff_exists.mp hj
  rw [leader_of_cell? hx, leader_of_cell? hy] at hleader
  rw [class?_of_cell? hx, class?_of_cell? hy, hleader]

theorem registered_of_class? {id : UInt32} {r : Cell} (h : c.class? id = some r) :
    c.Registered id := by
  obtain ⟨x, hx, -⟩ := Option.bind_eq_some_iff.mp h
  exact Option.isSome_iff_exists.mpr ⟨x, hx⟩

theorem binding?_eq_none {id : UInt32} {r : Cell} (hr : c.class? id = some r) :
    c.binding? id = none ↔ r.binding = none := by
  simp [binding?, hr]

theorem users_of_class? {id : UInt32} {r : Cell} (h : c.class? id = some r) :
    c.users id = r.users := by
  simp [users, h]

theorem registered_of_mem_users {id : UInt32} {n : Nat} (h : n ∈ c.users id) : c.Registered id := by
  cases hr : c.class? id with
  | none => simp [users, hr] at h
  | some r => exact registered_of_class? hr

theorem registered_iff_mem {id : UInt32} :
    c.Registered id ↔ ∃ x ∈ c.cells, x.placeholder.id = id := by
  simp [Registered, cell?]

theorem image?_congr {p q : Placeholder} (h : p.id = q.id) : c.image? p = c.image? q := by
  simp only [image?, h]

theorem image_of_binding? {p : Placeholder} {t : Ty} (h : c.binding? p.id = some t) :
    c.image p = t := by
  obtain ⟨x, hx, ht⟩ := Option.bind_eq_some_iff.mp h
  simp [image, image?, hx, ht]

end lookup

section map

variable {c : Classes} {f : Cell → Cell}

theorem cell?_map (hid : ∀ x ∈ c.cells, (f x).placeholder.id = x.placeholder.id) (id : UInt32) :
    (Classes.mk (c.cells.map f)).cell? id = (c.cell? id).map f := by
  obtain ⟨cells⟩ := c
  induction cells with
  | nil => rfl
  | cons x cells ih =>
    simp only [List.mem_cons, forall_eq_or_imp] at hid
    have htail := ih hid.2
    simp only [cell?] at htail ⊢
    rw [List.map_cons, List.find?_cons, List.find?_cons, hid.1, htail]
    split <;> rfl

theorem class?_map (hid : ∀ x ∈ c.cells, (f x).placeholder.id = x.placeholder.id)
    (hleader : ∀ x ∈ c.cells, (f x).leader = x.leader) (id : UInt32) :
    (Classes.mk (c.cells.map f)).class? id = (c.class? id).map f := by
  unfold class?
  rw [cell?_map hid]
  cases h : c.cell? id with
  | none => rfl
  | some x =>
    have hx : x ∈ c.cells := List.mem_of_find?_eq_some h
    simp [hleader x hx, cell?_map hid]

theorem registered_map (hid : ∀ x ∈ c.cells, (f x).placeholder.id = x.placeholder.id)
    (id : UInt32) : (Classes.mk (c.cells.map f)).Registered id ↔ c.Registered id := by
  simp [Registered, cell?_map hid]

end map

/-- Nothing but itself stands for a placeholder. -/
def Settled (c : Classes) (id : UInt32) : Prop := ∀ p : Placeholder, p.id = id → c.image? p = none

/-- Everything known is put into a type. -/
def Resolved (c : Classes) (t : Ty) : Prop := ∀ id ∈ t.ids, c.Settled id

/-- The cells form classes: every member points to a leader that leads itself,
and the least member of a class is one of its members. -/
structure Partitioned (c : Classes) : Prop where
  nodup : (c.cells.map (·.placeholder.id)).Nodup
  leads : ∀ {id x}, c.cell? id = some x → ∃ r, c.cell? x.leader = some r ∧ r.leader = x.leader
  least : ∀ {id r}, c.class? id = some r →
    ∃ x, c.cell? r.least.id = some x ∧ x.placeholder = r.least ∧ x.leader = r.leader

/-- The cells form classes, and what classes are bound to is resolved and holds
registered placeholders only. -/
structure Valid (c : Classes) : Prop extends Partitioned c where
  bound : ∀ {id t}, c.binding? id = some t → c.Resolved t ∧ ∀ i ∈ t.ids, c.Registered i

section Settled

variable {c : Classes}

theorem Settled.image {id : UInt32} (h : c.Settled id) {p : Placeholder} (hp : p.id = id) :
    c.image p = hole p := by
  rw [Classes.image, h p hp, Option.getD_none]

theorem Settled.eq_none {p : Placeholder} (h : c.Settled p.id) : c.image? p = none := h p rfl

theorem settled_of_not_registered {id : UInt32} (hid : ¬ c.Registered id) : c.Settled id := by
  rintro p rfl
  simp [image?, class?_of_not_registered hid]

theorem Resolved.resolve_eq {t : Ty} (h : c.Resolved t) : c.resolve t = t := by
  rw [resolve_eq_fill]
  exact fill_eq_self fun p hp => (h p.id (mem_ids.mpr ⟨p, hp, rfl⟩)).image rfl

theorem image_of_unbound {p : Placeholder} {r : Cell} (hr : c.class? p.id = some r)
    (hb : r.binding = none) : c.image p = if r.least.id = p.id then hole p else hole r.least := by
  simp only [Classes.image, image?, hr, hb]
  split <;> rfl

theorem exists_image_eq_hole {p : Placeholder} {r : Cell} (hr : c.class? p.id = some r)
    (hb : r.binding = none) : ∃ q, c.image p = hole q ∧ q.id = r.least.id := by
  rw [image_of_unbound hr hb]
  split
  · rename_i hid
    exact ⟨p, rfl, hid.symm⟩
  · exact ⟨r.least, rfl, rfl⟩

theorem settled_iff {id : UInt32} {r : Cell} (hr : c.class? id = some r) :
    c.Settled id ↔ r.binding = none ∧ r.least.id = id := by
  have himage : ∀ p : Placeholder, p.id = id →
      (c.image? p = none ↔ r.binding = none ∧ r.least.id = id) := by
    rintro p rfl
    simp only [image?, hr]
    cases r.binding with
    | none => simp
    | some t => simp
  exact ⟨fun h => (himage ⟨id, .type⟩ rfl).mp (h _ rfl), fun h p hp => (himage p hp).mpr h⟩

end Settled

namespace Partitioned

variable {c : Classes}

theorem class?_eq_some (h : c.Partitioned) {id : UInt32} {r : Cell} (hr : c.class? id = some r) :
    r.leader = c.leader id ∧ r.placeholder.id = c.leader id ∧ c.cell? r.leader = some r := by
  obtain ⟨x, hx, hr⟩ := Option.bind_eq_some_iff.mp hr
  obtain ⟨r', hr', hleader⟩ := h.leads hx
  have heq : r' = r := by
    rw [hr'] at hr
    exact Option.some.inj hr
  subst heq
  rw [leader_of_cell? hx]
  exact ⟨hleader, id_of_cell? hr', hleader ▸ hr'⟩

theorem exists_class? (h : c.Partitioned) {id : UInt32} (hid : c.Registered id) :
    ∃ r, c.class? id = some r := by
  obtain ⟨x, hx⟩ := Option.isSome_iff_exists.mp hid
  obtain ⟨r, hr, -⟩ := h.leads hx
  exact ⟨r, by rw [class?_of_cell? hx, hr]⟩

theorem leader_of_not_registered {id : UInt32} (hid : ¬ c.Registered id) : c.leader id = id := by
  have hnone : c.cell? id = none := by simpa [Registered] using hid
  simp [leader, hnone]

theorem registered_of_leader_eq (h : c.Partitioned) {i j : UInt32} (hi : c.Registered i)
    (hleader : c.leader i = c.leader j) : c.Registered j := by
  by_contra hj
  obtain ⟨x, hx⟩ := Option.isSome_iff_exists.mp hi
  obtain ⟨r, hr, -⟩ := h.leads hx
  rw [leader_of_not_registered hj, leader_of_cell? hx] at hleader
  exact hj (hleader ▸ Option.isSome_iff_exists.mpr ⟨r, hr⟩)

/-- The least member of a class belongs to it. -/
theorem class?_least (h : c.Partitioned) {id : UInt32} {r : Cell} (hr : c.class? id = some r) :
    c.Registered r.least.id ∧ c.leader r.least.id = c.leader id ∧ c.class? r.least.id = some r := by
  obtain ⟨x, hx, -, hleader⟩ := h.least hr
  obtain ⟨hr', -, hcell⟩ := h.class?_eq_some hr
  refine ⟨Option.isSome_iff_exists.mpr ⟨x, hx⟩, ?_, ?_⟩
  · rw [leader_of_cell? hx, hleader, hr']
  · rw [class?_of_cell? hx, hleader, hcell]

theorem settled_least (h : c.Partitioned) {id : UInt32} {r : Cell} (hr : c.class? id = some r)
    (hb : r.binding = none) : c.Settled r.least.id :=
  (settled_iff (h.class?_least hr).2.2).mpr ⟨hb, rfl⟩

/-- Placeholders of one class that nothing else stands for are one. -/
theorem eq_of_settled (h : c.Partitioned) {i j : UInt32} (hi : c.Registered i)
    (hj : c.Registered j) (hsi : c.Settled i) (hsj : c.Settled j)
    (hleader : c.leader i = c.leader j) : i = j := by
  obtain ⟨r, hr⟩ := h.exists_class? hi
  have hr' := (class?_congr hi hj hleader).symm.trans hr
  exact ((settled_iff hr).mp hsi).2.symm.trans ((settled_iff hr').mp hsj).2

end Partitioned

namespace Valid

variable {c : Classes}

theorem resolved_image (h : c.Valid) (p : Placeholder) : c.Resolved (c.image p) := by
  by_cases hp : c.Registered p.id
  · obtain ⟨r, hr⟩ := h.exists_class? hp
    cases hb : r.binding with
    | none =>
      have hleast := h.settled_least hr hb
      rw [image_of_unbound hr hb]
      split
      · rename_i hid
        simpa [Resolved, ids, occurrences, ← hid] using hleast
      · simpa [Resolved, ids, occurrences] using hleast
    | some t =>
      have ht : c.binding? p.id = some t := by simp [binding?, hr, hb]
      rw [image_of_binding? ht]
      exact (h.bound ht).1
  · have hsettled := settled_of_not_registered hp
    rw [hsettled.image rfl]
    simpa [Resolved, ids, occurrences] using hsettled

theorem registered_image (h : c.Valid) {p : Placeholder} {id : UInt32} (hp : c.Registered p.id)
    (hid : id ∈ (c.image p).ids) : c.Registered id := by
  obtain ⟨r, hr⟩ := h.exists_class? hp
  cases hb : r.binding with
  | none =>
    rw [image_of_unbound hr hb] at hid
    split at hid
    · simp only [ids, occurrences, List.map_cons, List.map_nil, List.mem_singleton] at hid
      exact hid ▸ hp
    · simp only [ids, occurrences, List.map_cons, List.map_nil, List.mem_singleton] at hid
      exact hid ▸ (h.class?_least hr).1
  | some t =>
    have ht : c.binding? p.id = some t := by simp [binding?, hr, hb]
    rw [image_of_binding? ht] at hid
    exact (h.bound ht).2 id hid

theorem resolved_resolve (h : c.Valid) (t : Ty) : c.Resolved (c.resolve t) := by
  intro id hid
  rw [resolve_eq_fill] at hid
  obtain ⟨p, hp, rfl⟩ := mem_ids.mp hid
  obtain ⟨q, -, hpq⟩ := mem_occurrences_fill.mp hp
  exact h.resolved_image q p.id (mem_ids.mpr ⟨p, hpq, rfl⟩)

/-- Resolving brings in registered placeholders only, and leaves those in that are
not registered. -/
theorem registered_or_mem_resolve (h : c.Valid) (t : Ty) (id : UInt32) :
    c.Registered id ∨ id ∈ (c.resolve t).ids ↔ c.Registered id ∨ id ∈ t.ids := by
  rw [resolve_eq_fill]
  constructor
  · rintro (hid | hid)
    · exact Or.inl hid
    · obtain ⟨p, hp, rfl⟩ := mem_ids.mp hid
      obtain ⟨q, hq, hpq⟩ := mem_occurrences_fill.mp hp
      by_cases hregistered : c.Registered q.id
      · exact Or.inl (h.registered_image hregistered (mem_ids.mpr ⟨p, hpq, rfl⟩))
      · rw [(settled_of_not_registered hregistered).image rfl] at hpq
        simp only [occurrences, List.mem_singleton] at hpq
        exact Or.inr (mem_ids.mpr ⟨q, hq, hpq ▸ rfl⟩)
  · rintro (hid | hid)
    · exact Or.inl hid
    · by_cases hregistered : c.Registered id
      · exact Or.inl hregistered
      · obtain ⟨p, hp, rfl⟩ := mem_ids.mp hid
        refine Or.inr (mem_ids.mpr ⟨p, mem_occurrences_fill.mpr ⟨p, hp, ?_⟩, rfl⟩)
        rw [(settled_of_not_registered hregistered).image rfl]
        simp [occurrences]

/-- Resolving again changes nothing. -/
theorem resolve_resolve (h : c.Valid) (t : Ty) : c.resolve (c.resolve t) = c.resolve t :=
  (h.resolved_resolve t).resolve_eq

end Valid

end Classes

end TensorTyping
