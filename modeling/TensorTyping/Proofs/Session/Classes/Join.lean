import TensorTyping.Proofs.Session.Classes.Absorb

namespace TensorTyping.Classes

open Ty

/-- Whatever the ranks, one of two classes is put under the leader of the other. -/
private theorem exists_absorb {c : Classes} (h : c.Partitioned) {i j : UInt32} {ri rj : Cell}
    (hri : c.class? i = some ri) (hrj : c.class? j = some rj) :
    ∃ root child rank, (root = ri ∧ child = rj ∨ root = rj ∧ child = ri) ∧
      c.join (c.leader i) (c.leader j) = c.absorb root child rank := by
  obtain ⟨hleadi, -, hcelli⟩ := h.class?_eq_some hri
  obtain ⟨hleadj, -, hcellj⟩ := h.class?_eq_some hrj
  rw [join, ← hleadi, ← hleadj, hcelli, hcellj]
  dsimp only
  split
  · exact ⟨rj, ri, _, Or.inr ⟨rfl, rfl⟩, rfl⟩
  · split <;> exact ⟨ri, rj, _, Or.inl ⟨rfl, rfl⟩, rfl⟩

theorem leads_of_class? {c : Classes} (h : c.Partitioned) {i : UInt32} {r : Cell}
    (hr : c.class? i = some r) : Leads c r ∧ r.placeholder.id = c.leader i := by
  obtain ⟨hlead, hid, hcell⟩ := h.class?_eq_some hr
  refine ⟨⟨?_, hlead.trans hid.symm⟩, hid⟩
  rw [hid, ← hlead, hcell]

/-- Joining the classes of two placeholders that nothing else stands for solves
for the one with the larger id. Users of either are users of both afterwards. -/
theorem eliminates_join {c : Classes} (h : c.Valid) {i j : UInt32} (hi : c.Registered i)
    (hj : c.Registered j) (hsi : c.Settled i) (hsj : c.Settled j)
    (hne : c.leader i ≠ c.leader j) :
    ∃ ri rj, c.class? i = some ri ∧ c.class? j = some rj ∧
      Eliminates c (c.join (c.leader i) (c.leader j)) (if j < i then i else j)
        (hole (if j < i then rj.least else ri.least)) ∧
      ∀ k, k = i ∨ k = j →
        c.users i ++ c.users j ⊆ (c.join (c.leader i) (c.leader j)).users k := by
  obtain ⟨ri, hri⟩ := h.exists_class? hi
  obtain ⟨rj, hrj⟩ := h.exists_class? hj
  obtain ⟨root, child, rank, hsides, hjoin⟩ := exists_absorb h.toPartitioned hri hrj
  refine ⟨ri, rj, hri, hrj, ?_⟩
  rw [hjoin]
  obtain ⟨hbi, hli⟩ := (settled_iff hri).mp hsi
  obtain ⟨hbj, hlj⟩ := (settled_iff hrj).mp hsj
  obtain ⟨hleadi, hidi⟩ := leads_of_class? h.toPartitioned hri
  obtain ⟨hleadj, hidj⟩ := leads_of_class? h.toPartitioned hrj
  have hne' : ri.placeholder.id ≠ rj.placeholder.id := by rwa [hidi, hidj]
  constructor
  · by_cases hlt : j < i
    · rw [if_pos hlt, if_pos hlt, ← hli]
      rw [← hli, ← hlj] at hlt
      obtain ⟨rfl, rfl⟩ | ⟨rfl, rfl⟩ := hsides
      · exact eliminates_absorb rank h hleadi hleadj hne' hbi hbj (Or.inr ⟨rfl, rfl⟩) hlt
      · exact eliminates_absorb rank h hleadj hleadi hne'.symm hbj hbi (Or.inl ⟨rfl, rfl⟩) hlt
    · rw [if_neg hlt, if_neg hlt, ← hlj]
      have hij : i ≠ j := fun heq => hne (by rw [heq])
      have hlt : i < j := by
        rw [UInt32.not_lt] at hlt
        exact UInt32.lt_of_le_of_ne hlt hij
      rw [← hli, ← hlj] at hlt
      obtain ⟨rfl, rfl⟩ | ⟨rfl, rfl⟩ := hsides
      · exact eliminates_absorb rank h hleadi hleadj hne' hbi hbj (Or.inl ⟨rfl, rfl⟩) hlt
      · exact eliminates_absorb rank h hleadj hleadi hne'.symm hbj hbi (Or.inr ⟨rfl, rfl⟩) hlt
  · intro k hk n hn
    rw [users_of_class? hri, users_of_class? hrj, List.mem_append] at hn
    have hjoined : (c.absorb root child rank).users k = addUsers root.users child.users := by
      have hrefresh : (c.absorb root child rank).users k =
          (Classes.mk (c.cells.map (merged root child rank))).users k := users_refresh k
      rw [hrefresh]
      obtain ⟨rfl, rfl⟩ | ⟨rfl, rfl⟩ := hsides <;> obtain rfl | rfl := hk
      · exact users_merged_of_mem rank hleadi hne' hi (Or.inl hidi.symm)
      · exact users_merged_of_mem rank hleadi hne' hj (Or.inr hidj.symm)
      · exact users_merged_of_mem rank hleadj hne'.symm hi (Or.inr hidi.symm)
      · exact users_merged_of_mem rank hleadj hne'.symm hj (Or.inl hidj.symm)
    rw [hjoined, mem_addUsers]
    obtain ⟨rfl, rfl⟩ | ⟨rfl, rfl⟩ := hsides
    · exact hn
    · exact hn.symm

end TensorTyping.Classes

namespace TensorTyping

/-- What is known of two classes put together, when it is settled which one leads. -/
def Cell.absorb (root child : Cell) (rank : Nat) : Cell :=
  { root with
    rank
    least := if child.least.id < root.least.id then child.least else root.least
    binding := root.binding.or child.binding
    users := addUsers root.users child.users }

/-- What is known of two classes put together. -/
def Cell.join (x y : Cell) : Cell :=
  if x.rank < y.rank then y.absorb x y.rank
  else if y.rank < x.rank then x.absorb y x.rank
  else x.absorb y (x.rank + 1)

/-- A joint class is bound to what one of the two was bound to. -/
theorem Cell.binding_join {x y : Cell} {t : Ty} (h : (x.join y).binding = some t) :
    x.binding = some t ∨ y.binding = some t := by
  have hor : ∀ {u v : Option Ty}, u.or v = some t → u = some t ∨ v = some t := by
    intro u v h
    cases u with
    | none => exact Or.inr h
    | some _ => exact Or.inl h
  unfold Cell.join at h
  split at h
  · exact (hor h).symm
  · split at h <;> exact hor h

namespace Classes

section join

variable {c : Classes} {i j : UInt32} {x y : Cell}

theorem Partitioned.class?_eq_of_leader_eq (h : c.Partitioned) (hx : c.class? i = some x)
    {k : UInt32} (hlead : c.leader k = c.leader i) : c.class? k = some x := by
  obtain ⟨hleads, hid⟩ := leads_of_class? h hx
  exact hleads.class?_of_leader (h.registered_of_leader_eq (registered_of_class? hx) hlead.symm)
    (hlead.trans hid.symm)

private theorem class?_merged (h : c.Partitioned) {root child : Cell} (rank : Nat)
    (hroot : Leads c root) (hchild : Leads c child)
    (hne : root.placeholder.id ≠ child.placeholder.id) (k : UInt32) :
    (Classes.mk (c.cells.map (merged root child rank))).class? k =
      if c.leader k = root.placeholder.id ∨ c.leader k = child.placeholder.id then
        some (root.absorb child rank) else c.class? k := by
  split
  · rename_i hmem
    have hk : c.Registered k := by
      by_contra hk
      rw [Partitioned.leader_of_not_registered hk] at hmem
      obtain rfl | rfl := hmem
      · exact hk (Option.isSome_iff_exists.mpr ⟨root, hroot.1⟩)
      · exact hk (Option.isSome_iff_exists.mpr ⟨child, hchild.1⟩)
    rw [class?_merged_of_mem rank hroot hne hk hmem, merged, if_pos rfl]
    rfl
  · rename_i hmem
    rw [not_or] at hmem
    exact class?_merged_of_ne rank h hroot hne hmem.1 hmem.2

/-- Joining two classes changes what is known of their members, and nothing else, before
bindings are brought up to date. -/
theorem Partitioned.exists_join (h : c.Partitioned) (hx : c.class? i = some x)
    (hy : c.class? j = some y) (hne : c.leader i ≠ c.leader j) :
    ∃ c' : Classes, c'.Partitioned ∧ c.join (c.leader i) (c.leader j) = c'.refresh ∧
      ∀ k, c'.class? k = if c.leader k = c.leader i ∨ c.leader k = c.leader j then
        some (x.join y) else c.class? k := by
  obtain ⟨hleadx, hidx, hcellx⟩ := h.class?_eq_some hx
  obtain ⟨hleady, hidy, hcelly⟩ := h.class?_eq_some hy
  have hxleads := (leads_of_class? h hx).1
  have hyleads := (leads_of_class? h hy).1
  have hne' : x.placeholder.id ≠ y.placeholder.id := by rwa [hidx, hidy]
  unfold join Cell.join
  rw [← hleadx, ← hleady, hcellx, hcelly]
  dsimp only
  rw [hleadx, hleady]
  split
  · refine ⟨_, partitioned_merged y.rank h hyleads hxleads hne'.symm, rfl, fun k => ?_⟩
    rw [class?_merged h y.rank hyleads hxleads hne'.symm, hidx, hidy]
    exact if_congr or_comm rfl rfl
  · split
    · refine ⟨_, partitioned_merged x.rank h hxleads hyleads hne', rfl, fun k => ?_⟩
      rw [class?_merged h x.rank hxleads hyleads hne', hidx, hidy]
    · refine ⟨_, partitioned_merged (x.rank + 1) h hxleads hyleads hne', rfl, fun k => ?_⟩
      rw [class?_merged h (x.rank + 1) hxleads hyleads hne', hidx, hidy]

private theorem leader_absorb {root child : Cell} (rank : Nat) (hroot : Leads c root)
    (hchild : Leads c child) (hne : root.placeholder.id ≠ child.placeholder.id) (k : UInt32) :
    (c.absorb root child rank).leader k =
      if c.leader k = child.placeholder.id then root.placeholder.id else c.leader k := by
  have hrefresh : (c.absorb root child rank).leader k =
      (Classes.mk (c.cells.map (merged root child rank))).leader k := leader_refresh k
  rw [hrefresh]
  by_cases hk : c.Registered k
  · exact leader_merged rank hroot hne hk
  · have hk' : ¬ (Classes.mk (c.cells.map (merged root child rank))).Registered k := by
      rwa [registered_map fun x _ => merged_placeholder_id rank x]
    rw [Partitioned.leader_of_not_registered hk, Partitioned.leader_of_not_registered hk', if_neg]
    rintro rfl
    exact hk (Option.isSome_iff_exists.mpr ⟨child, hchild.1⟩)

/-- Joining puts the members of the two classes into one, and no one else. -/
theorem Partitioned.leader_join_iff (h : c.Partitioned) (hi : c.Registered i)
    (hj : c.Registered j) (hne : c.leader i ≠ c.leader j) (k l : UInt32) :
    (c.join (c.leader i) (c.leader j)).leader k = (c.join (c.leader i) (c.leader j)).leader l ↔
      c.leader k = c.leader l ∨ ((c.leader k = c.leader i ∨ c.leader k = c.leader j) ∧
        (c.leader l = c.leader i ∨ c.leader l = c.leader j)) := by
  obtain ⟨ri, hri⟩ := h.exists_class? hi
  obtain ⟨rj, hrj⟩ := h.exists_class? hj
  obtain ⟨root, child, rank, hsides, hjoin⟩ := exists_absorb h hri hrj
  obtain ⟨hleadi, hidi⟩ := leads_of_class? h hri
  obtain ⟨hleadj, hidj⟩ := leads_of_class? h hrj
  rw [hjoin]
  obtain ⟨rfl, rfl⟩ | ⟨rfl, rfl⟩ := hsides
  · have hne' : root.placeholder.id ≠ child.placeholder.id := by rwa [hidi, hidj]
    rw [leader_absorb rank hleadi hleadj hne', leader_absorb rank hleadi hleadj hne', hidi, hidj]
    split <;> split <;> grind
  · have hne' : root.placeholder.id ≠ child.placeholder.id := by rw [hidi, hidj]; exact hne.symm
    rw [leader_absorb rank hleadj hleadi hne', leader_absorb rank hleadj hleadi hne', hidi, hidj]
    split <;> split <;> grind

/-- Joining two classes that are not bound binds no one. -/
theorem Partitioned.isSome_binding?_join (h : c.Partitioned) (hi : c.Registered i)
    (hj : c.Registered j) (hbi : c.binding? i = none) (hbj : c.binding? j = none)
    (hne : c.leader i ≠ c.leader j) (k : UInt32) :
    ((c.join (c.leader i) (c.leader j)).binding? k).isSome ↔ (c.binding? k).isSome := by
  obtain ⟨ri, hri⟩ := h.exists_class? hi
  obtain ⟨rj, hrj⟩ := h.exists_class? hj
  obtain ⟨c', -, hjoin, hclass⟩ := h.exists_join hri hrj hne
  have hjoined : (ri.join rj).binding = none := by
    rw [Option.eq_none_iff_forall_ne_some]
    intro t ht
    obtain hr | hr := Cell.binding_join ht
    · exact Option.ne_none_iff_exists'.mpr ⟨t, hr⟩ ((binding?_eq_none hri).mp hbi)
    · exact Option.ne_none_iff_exists'.mpr ⟨t, hr⟩ ((binding?_eq_none hrj).mp hbj)
  rw [hjoin, binding?_refresh, Option.isSome_map, binding?, hclass]
  split
  · rename_i hmem
    have hk : c.binding? k = none := hmem.elim
      (fun hlead => by rw [binding?, h.class?_eq_of_leader_eq hri hlead, ← hri, ← binding?, hbi])
      (fun hlead => by rw [binding?, h.class?_eq_of_leader_eq hrj hlead, ← hrj, ← binding?, hbj])
    rw [hk, Option.bind_some, hjoined]
  · rfl

end join

end Classes

end TensorTyping
