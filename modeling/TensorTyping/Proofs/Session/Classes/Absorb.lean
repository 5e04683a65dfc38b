import TensorTyping.Proofs.Session.Classes.Refresh

namespace TensorTyping.Classes

open Ty

/-- The cell of a member after its class was put under the leader of another. -/
def merged (root child : Cell) (rank : Nat) (x : Cell) : Cell :=
  if x.placeholder.id = root.placeholder.id then
    { root with
      rank
      least := if child.least.id < root.least.id then child.least else root.least
      binding := root.binding.or child.binding
      users := addUsers root.users child.users }
  else if x.leader = child.placeholder.id then
    { x with leader := root.placeholder.id, users := [] }
  else x

/-- A cell that leads a class of its own. -/
def Leads (c : Classes) (r : Cell) : Prop :=
  c.cell? r.placeholder.id = some r ∧ r.leader = r.placeholder.id

section absorb

variable {c : Classes} {root child : Cell} (rank : Nat)

theorem merged_placeholder_id (x : Cell) :
    (merged root child rank x).placeholder.id = x.placeholder.id := by
  unfold merged
  split
  · rename_i hid
    exact hid.symm
  · split <;> rfl

private theorem cell?_merged (id : UInt32) :
    (Classes.mk (c.cells.map (merged root child rank))).cell? id =
      (c.cell? id).map (merged root child rank) :=
  cell?_map (fun x _ => merged_placeholder_id rank x) id

private theorem merged_root : (merged root child rank root).leader = root.leader ∧
    (merged root child rank root).placeholder = root.placeholder := by
  unfold merged
  rw [if_pos rfl]
  exact ⟨rfl, rfl⟩

private theorem merged_leader (hroot : Leads c root)
    (hne : root.placeholder.id ≠ child.placeholder.id) {id : UInt32} {x : Cell}
    (hx : c.cell? id = some x) : (merged root child rank x).leader =
      if x.leader = child.placeholder.id then root.placeholder.id else x.leader := by
  by_cases hid : x.placeholder.id = root.placeholder.id
  · rw [id_of_cell? hx] at hid
    rw [hid, hroot.1, Option.some.injEq] at hx
    subst hx
    rw [(merged_root rank).1, hroot.2, if_neg hne]
  · unfold merged
    rw [if_neg hid]
    split <;> rfl

private theorem merged_placeholder (hroot : Leads c root) {id : UInt32} {x : Cell}
    (hx : c.cell? id = some x) : (merged root child rank x).placeholder = x.placeholder := by
  by_cases hid : x.placeholder.id = root.placeholder.id
  · rw [id_of_cell? hx] at hid
    rw [hid, hroot.1, Option.some.injEq] at hx
    subst hx
    exact (merged_root rank).2
  · unfold merged
    rw [if_neg hid]
    split <;> rfl

private theorem Leads.class?_eq {r : Cell} (hr : Leads c r) :
    c.class? r.placeholder.id = some r := by
  rw [class?_of_cell? hr.1, hr.2, hr.1]

theorem Leads.class?_of_leader {r : Cell} (hr : Leads c r) {id : UInt32}
    (hid : c.Registered id) (hleader : c.leader id = r.placeholder.id) : c.class? id = some r := by
  obtain ⟨x, hx⟩ := Option.isSome_iff_exists.mp hid
  rw [class?_of_cell? hx, ← leader_of_cell? hx, hleader, hr.1]

private theorem exists_least (h : c.Partitioned) {r : Cell} (hr : Leads c r) :
    ∃ x, c.cell? r.least.id = some x ∧ x.placeholder = r.least ∧
      x.leader = r.placeholder.id := by
  obtain ⟨x, hx, hplaceholder, hlead⟩ := h.least hr.class?_eq
  exact ⟨x, hx, hplaceholder, hlead.trans hr.2⟩

private theorem merged_least : (merged root child rank root).least =
    if child.least.id < root.least.id then child.least else root.least := by
  rw [merged, if_pos rfl]

private theorem exists_least_merged (h : c.Partitioned) (hroot : Leads c root)
    (hchild : Leads c child) : ∃ x, c.cell? (merged root child rank root).least.id = some x ∧
      x.placeholder = (merged root child rank root).least ∧
      (x.leader = root.placeholder.id ∨ x.leader = child.placeholder.id) := by
  rw [merged_least]
  split
  · obtain ⟨x, hx, hplaceholder, hlead⟩ := exists_least h hchild
    exact ⟨x, hx, hplaceholder, Or.inr hlead⟩
  · obtain ⟨x, hx, hplaceholder, hlead⟩ := exists_least h hroot
    exact ⟨x, hx, hplaceholder, Or.inl hlead⟩

theorem leader_merged (hroot : Leads c root)
    (hne : root.placeholder.id ≠ child.placeholder.id) {id : UInt32} (hid : c.Registered id) :
    (Classes.mk (c.cells.map (merged root child rank))).leader id =
      if c.leader id = child.placeholder.id then root.placeholder.id else c.leader id := by
  obtain ⟨x, hx⟩ := Option.isSome_iff_exists.mp hid
  rw [leader, cell?_merged, hx, leader_of_cell? hx]
  exact merged_leader rank hroot hne hx

theorem class?_merged_of_mem (hroot : Leads c root)
    (hne : root.placeholder.id ≠ child.placeholder.id) {id : UInt32} (hid : c.Registered id)
    (hmem : c.leader id = root.placeholder.id ∨ c.leader id = child.placeholder.id) :
    (Classes.mk (c.cells.map (merged root child rank))).class? id =
      some (merged root child rank root) := by
  obtain ⟨x, hx⟩ := Option.isSome_iff_exists.mp hid
  have hx' := @cell?_merged c root child rank id
  rw [hx, Option.map_some] at hx'
  rw [leader_of_cell? hx] at hmem
  have hlead : (merged root child rank x).leader = root.placeholder.id := by
    rw [merged_leader rank hroot hne hx]
    split
    · rfl
    · rename_i hchild
      exact hmem.resolve_right hchild
  rw [class?_of_cell? hx', hlead, cell?_merged, hroot.1, Option.map_some]

theorem class?_merged_of_ne (h : c.Partitioned) (hroot : Leads c root)
    (hne : root.placeholder.id ≠ child.placeholder.id) {id : UInt32}
    (hnroot : c.leader id ≠ root.placeholder.id) (hnchild : c.leader id ≠ child.placeholder.id) :
    (Classes.mk (c.cells.map (merged root child rank))).class? id = c.class? id := by
  by_cases hid : c.Registered id
  · obtain ⟨r, hr⟩ := h.exists_class? hid
    obtain ⟨hlead, hpid, hcell⟩ := h.class?_eq_some hr
    obtain ⟨x, hx⟩ := Option.isSome_iff_exists.mp hid
    have hx' := @cell?_merged c root child rank id
    rw [hx, Option.map_some] at hx'
    rw [leader_of_cell? hx] at hnroot hnchild hlead hpid
    rw [class?_of_cell? hx', merged_leader rank hroot hne hx, if_neg hnchild, cell?_merged, ← hlead,
      hcell, hr, Option.map_some, merged, if_neg (hpid ▸ hnroot), if_neg (hlead ▸ hnchild)]
  · rw [class?_of_not_registered hid]
    apply class?_of_not_registered
    rwa [registered_map]
    exact fun x _ => merged_placeholder_id rank x

theorem partitioned_merged (h : c.Partitioned) (hroot : Leads c root)
    (hchild : Leads c child) (hne : root.placeholder.id ≠ child.placeholder.id) :
    (Classes.mk (c.cells.map (merged root child rank))).Partitioned := by
  refine ⟨?_, ?_, ?_⟩
  · have hids : (c.cells.map (merged root child rank)).map (·.placeholder.id) =
        c.cells.map (·.placeholder.id) := by
      rw [List.map_map]
      exact List.map_congr_left fun x _ => merged_placeholder_id rank x
    rw [hids]
    exact h.nodup
  · intro id y hy
    rw [cell?_merged] at hy
    obtain ⟨x, hx, rfl⟩ := Option.map_eq_some_iff.mp hy
    obtain ⟨r, hr, hlead⟩ := h.leads hx
    rw [merged_leader rank hroot hne hx]
    split
    · refine ⟨merged root child rank root, ?_, ?_⟩
      · rw [cell?_merged, hroot.1, Option.map_some]
      · rw [(merged_root rank).1, hroot.2]
    · rename_i hnchild
      refine ⟨merged root child rank r, ?_, ?_⟩
      · rw [cell?_merged, hr, Option.map_some]
      · rw [merged_leader rank hroot hne hr, hlead, if_neg hnchild]
  · intro id s hs
    by_cases hmem : c.leader id = root.placeholder.id ∨ c.leader id = child.placeholder.id
    · have hid : c.Registered id := by
        rw [← registered_map fun x _ => @merged_placeholder_id root child rank x]
        exact registered_of_class? hs
      rw [class?_merged_of_mem rank hroot hne hid hmem, Option.some.injEq] at hs
      subst hs
      obtain ⟨x, hx, hplaceholder, hlead⟩ := exists_least_merged rank h hroot hchild
      refine ⟨merged root child rank x, ?_, ?_, ?_⟩
      · rw [cell?_merged, hx, Option.map_some]
      · rw [merged_placeholder rank hroot hx, hplaceholder]
      · rw [merged_leader rank hroot hne hx, (merged_root rank).1, hroot.2]
        split
        · rfl
        · rename_i hnchild
          exact hlead.resolve_right hnchild
    · rw [not_or] at hmem
      rw [class?_merged_of_ne rank h hroot hne hmem.1 hmem.2] at hs
      obtain ⟨x, hx, hplaceholder, hlead⟩ := h.least hs
      refine ⟨merged root child rank x, ?_, ?_, ?_⟩
      · rw [cell?_merged, hx, Option.map_some]
      · rw [merged_placeholder rank hroot hx, hplaceholder]
      · rw [merged_leader rank hroot hne hx, hlead, if_neg]
        rw [(h.class?_eq_some hs).1]
        exact hmem.2

theorem users_merged_of_mem (hroot : Leads c root)
    (hne : root.placeholder.id ≠ child.placeholder.id) {id : UInt32} (hid : c.Registered id)
    (hmem : c.leader id = root.placeholder.id ∨ c.leader id = child.placeholder.id) :
    (Classes.mk (c.cells.map (merged root child rank))).users id =
      addUsers root.users child.users := by
  rw [users_of_class? (class?_merged_of_mem rank hroot hne hid hmem), merged, if_pos rfl]

private theorem users_merged (h : c.Partitioned) (hroot : Leads c root) (hchild : Leads c child)
    (hne : root.placeholder.id ≠ child.placeholder.id) (id : UInt32) :
    c.users id ⊆ (Classes.mk (c.cells.map (merged root child rank))).users id := by
  intro n hn
  have hid := registered_of_mem_users hn
  have hclass : ∀ {r}, Leads c r → c.leader id = r.placeholder.id → c.users id = r.users :=
    fun hr hlead => users_of_class? (hr.class?_of_leader hid hlead)
  by_cases hleadroot : c.leader id = root.placeholder.id
  · rw [users_merged_of_mem rank hroot hne hid (Or.inl hleadroot), mem_addUsers]
    exact Or.inl (hclass hroot hleadroot ▸ hn)
  · by_cases hleadchild : c.leader id = child.placeholder.id
    · rw [users_merged_of_mem rank hroot hne hid (Or.inr hleadchild), mem_addUsers]
      exact Or.inr (hclass hchild hleadchild ▸ hn)
    · rwa [users, class?_merged_of_ne rank h hroot hne hleadroot hleadchild]

/-- Two unbound classes were put together: whichever leads, the smaller of their least members is
that of the joined class. -/
private structure Fuses (c c' : Classes) (keep drop joined : Cell) : Prop where
  keeps : Leads c keep
  drops : Leads c drop
  unbound : keep.binding = none ∧ drop.binding = none ∧ joined.binding = none
  least : joined.least = keep.least
  lt : keep.least.id < drop.least.id
  registered : ∀ i, c'.Registered i ↔ c.Registered i
  inside : ∀ {i}, c.Registered i →
    c.leader i = keep.placeholder.id ∨ c.leader i = drop.placeholder.id → c'.class? i = some joined
  outside : ∀ {i}, c.leader i ≠ keep.placeholder.id → c.leader i ≠ drop.placeholder.id →
    c'.class? i = c.class? i

private theorem fuses_merged (h : c.Partitioned) (hroot : Leads c root) (hchild : Leads c child)
    (hne : root.placeholder.id ≠ child.placeholder.id) (hbroot : root.binding = none)
    (hbchild : child.binding = none) {keep drop : Cell}
    (hsides : keep = root ∧ drop = child ∨ keep = child ∧ drop = root)
    (hlt : keep.least.id < drop.least.id) :
    Fuses c (Classes.mk (c.cells.map (merged root child rank))) keep drop
      (merged root child rank root) := by
  have hregistered := registered_map (c := c) (f := merged root child rank) fun x _ =>
    merged_placeholder_id rank x
  have hbinding : (merged root child rank root).binding = none := by
    rw [merged, if_pos rfl]
    simp [hbroot, hbchild]
  have hleast := @merged_least root child rank
  have hin : ∀ {i}, c.Registered i →
      c.leader i = root.placeholder.id ∨ c.leader i = child.placeholder.id →
      (Classes.mk (c.cells.map (merged root child rank))).class? i =
        some (merged root child rank root) :=
    fun hi hmem => class?_merged_of_mem rank hroot hne hi hmem
  have hout : ∀ {i}, c.leader i ≠ root.placeholder.id → c.leader i ≠ child.placeholder.id →
      (Classes.mk (c.cells.map (merged root child rank))).class? i = c.class? i :=
    fun hnroot hnchild => class?_merged_of_ne rank h hroot hne hnroot hnchild
  obtain ⟨rfl, rfl⟩ | ⟨rfl, rfl⟩ := hsides
  · rw [if_neg (UInt32.not_lt.mpr (UInt32.le_of_lt hlt))] at hleast
    exact ⟨hroot, hchild, ⟨hbroot, hbchild, hbinding⟩, hleast, hlt, hregistered, hin, hout⟩
  · rw [if_pos hlt] at hleast
    exact ⟨hchild, hroot, ⟨hbchild, hbroot, hbinding⟩, hleast, hlt, hregistered,
      fun hi hmem => hin hi hmem.symm, fun hnkeep hndrop => hout hndrop hnkeep⟩

private theorem registered_least (h : c.Valid) {r : Cell} (hr : Leads c r) :
    c.Registered r.least.id ∧ c.leader r.least.id = r.placeholder.id := by
  obtain ⟨hregistered, hlead, -⟩ := h.class?_least hr.class?_eq
  exact ⟨hregistered, by rw [hlead, leader_of_cell? hr.1, hr.2]⟩

namespace Fuses

variable {c' : Classes} {keep drop joined : Cell}

private theorem ne (hfuses : Fuses c c' keep drop joined) : keep.least.id ≠ drop.least.id := by
  intro heq
  have hlt := hfuses.lt
  rw [heq] at hlt
  exact UInt32.lt_irrefl _ hlt

/-- The two classes were unbound, so all bindings are of others. -/
private theorem binding? (hfuses : Fuses c c' keep drop joined) {i : UInt32} {u : Ty}
    (hu : c.binding? i = some u) : c'.binding? i = some u := by
  obtain ⟨r, hr, hru⟩ := Option.bind_eq_some_iff.mp hu
  have hi := registered_of_class? hr
  have hother : ∀ {s}, Leads c s → s.binding = none → c.leader i ≠ s.placeholder.id := by
    intro s hs hb hlead
    rw [hs.class?_of_leader hi hlead, Option.some.injEq] at hr
    rw [← hr, hb] at hru
    cases hru
  obtain ⟨hbkeep, hbdrop, -⟩ := hfuses.unbound
  rw [Classes.binding?, hfuses.outside (hother hfuses.keeps hbkeep) (hother hfuses.drops hbdrop), hr,
    Option.bind_some, hru]

private theorem settled (hfuses : Fuses c c' keep drop joined) (h : c.Valid) {i : UInt32}
    (hi : c.Settled i) (hne : i ≠ drop.least.id) : c'.Settled i := by
  by_cases hmem : c.Registered i
  · by_cases hleadkeep : c.leader i = keep.placeholder.id
    · rw [settled_iff (hfuses.inside hmem (Or.inl hleadkeep)), hfuses.least]
      have hclass := hfuses.keeps.class?_of_leader hmem hleadkeep
      exact ⟨hfuses.unbound.2.2, ((settled_iff hclass).mp hi).2⟩
    · have hleaddrop : c.leader i ≠ drop.placeholder.id := by
        intro hlead
        exact hne ((settled_iff (hfuses.drops.class?_of_leader hmem hlead)).mp hi).2.symm
      obtain ⟨r, hr⟩ := h.exists_class? hmem
      rw [settled_iff ((hfuses.outside hleadkeep hleaddrop).trans hr)]
      exact (settled_iff hr).mp hi
  · apply settled_of_not_registered
    rwa [hfuses.registered]

/-- What stood for the larger least member now stands for the smaller. -/
private theorem image (hfuses : Fuses c c' keep drop joined) (h : c.Valid) {p : Placeholder}
    (hp : c.binding? p.id = none) :
    c'.image p = (c.image p).eliminate drop.least.id (hole keep.least) := by
  obtain ⟨hbkeep, hbdrop, hbjoined⟩ := hfuses.unbound
  by_cases hmem : c.Registered p.id
  · obtain ⟨r, hr⟩ := h.exists_class? hmem
    obtain ⟨q, himage, hq⟩ := exists_image_eq_hole hr ((binding?_eq_none hr).mp hp)
    by_cases hleadkeep : c.leader p.id = keep.placeholder.id
    · have hclass := hfuses.keeps.class?_of_leader hmem hleadkeep
      rw [hclass, Option.some.injEq] at hr
      rw [← hr] at hq
      rw [image_of_unbound (hfuses.inside hmem (Or.inl hleadkeep)) hbjoined, hfuses.least, himage,
        eliminate_hole_of_ne (hq ▸ hfuses.ne), ← himage, image_of_unbound hclass hbkeep]
    · by_cases hleaddrop : c.leader p.id = drop.placeholder.id
      · rw [hfuses.drops.class?_of_leader hmem hleaddrop, Option.some.injEq] at hr
        rw [← hr] at hq
        rw [image_of_unbound (hfuses.inside hmem (Or.inr hleaddrop)) hbjoined, hfuses.least, himage,
          ← hq, eliminate_hole_self, if_neg]
        intro heq
        rw [← heq] at hleadkeep
        exact hleadkeep (registered_least h hfuses.keeps).2
      · rw [himage, eliminate_hole_of_ne, ← himage]
        · simp only [Classes.image, image?, hfuses.outside hleadkeep hleaddrop]
        · intro heq
          have hlead := (h.class?_least hr).2.1
          rw [← hq, heq, (registered_least h hfuses.drops).2] at hlead
          exact hleaddrop hlead.symm
  · have hne : p.id ≠ drop.least.id := fun heq =>
      hmem (heq ▸ (registered_least h hfuses.drops).1)
    have hmem' := mt (hfuses.registered p.id).mp hmem
    rw [(settled_of_not_registered hmem).image rfl, (settled_of_not_registered hmem').image rfl,
      eliminate_hole_of_ne hne]

end Fuses

/-- Joining two classes solves for the larger of their least members. -/
theorem eliminates_absorb (h : c.Valid) (hroot : Leads c root) (hchild : Leads c child)
    (hne : root.placeholder.id ≠ child.placeholder.id) (hbroot : root.binding = none)
    (hbchild : child.binding = none) {keep drop : Cell}
    (hsides : keep = root ∧ drop = child ∨ keep = child ∧ drop = root)
    (hlt : keep.least.id < drop.least.id) :
    Eliminates c (c.absorb root child rank) drop.least.id (hole keep.least) := by
  have hfuses := fuses_merged rank h.toPartitioned hroot hchild hne hbroot hbchild hsides hlt
  refine eliminates_refresh h (partitioned_merged rank h.toPartitioned hroot hchild hne)
    hfuses.registered ?_ ?_ hfuses.binding? (fun i => hfuses.settled h)
    (fun p => hfuses.image h) (users_merged rank h.toPartitioned hroot hchild hne)
  · intro i hi
    simp only [ids, occurrences, List.map_cons, List.map_nil, List.mem_singleton] at hi
    subst hi
    exact ⟨h.settled_least hfuses.keeps.class?_eq hfuses.unbound.1,
      (registered_least h hfuses.keeps).1⟩
  · simpa [ids, occurrences] using hfuses.ne.symm

end absorb

end TensorTyping.Classes
