import TensorTyping.Proofs.Forest.Basic

namespace TensorTyping.Forest

variable {f f' : Forest} {i r : Nat} {x : Slot}

theorem root?_of_slot (hx : f.slots[i]? = some x) :
    f.root? i = if x.parent = i then some i else f.root? x.parent := by
  rw [root?, hx]
  rfl

theorem root?_of_none (hi : f.slots[i]? = none) : f.root? i = none := by
  rw [root?, hi]
  rfl

theorem Root.root? (h : f.Root r x) : f.root? r = some r := by
  rw [root?_of_slot h.1, if_pos h.2]

/-- A slot has the root of the slot above it. -/
theorem root?_parent (hx : f.slots[i]? = some x) : f.root? i = f.root? x.parent := by
  by_cases hroot : x.parent = i
  · rw [hroot]
  · rw [root?_of_slot hx, if_neg hroot]

theorem exists_slot (h : f.root? i = some r) : ∃ x, f.slots[i]? = some x := by
  cases hx : f.slots[i]? with
  | some x => exact ⟨x, rfl⟩
  | none =>
    rw [root?_of_none hx] at h
    cases h

theorem Root.unique {y : Slot} (hx : f.Root r x) (hy : f.Root r y) : x = y :=
  Option.some.inj (hx.1.symm.trans hy.1)

theorem lt_length_of_root? (h : f.root? i = some r) : i < f.slots.length :=
  (exists_slot h).elim fun _ hx => (List.getElem?_eq_some_iff.mp hx).1

/-- Ranks rise along the way up, and no slot points outside. -/
structure Rises (f : Forest) : Prop where
  above : ∀ {i : Nat} {x : Slot}, f.slots[i]? = some x → x.parent ≠ i →
    ∃ y, f.slots[x.parent]? = some y ∧ x.rank < y.rank

/-- What holds at roots and is handed down from a slot to those that point to it holds
everywhere. -/
theorem Rises.climb (h : f.Rises) {P : Nat → Prop} (root : ∀ r x, f.Root r x → P r)
    (step : ∀ i x, f.slots[i]? = some x → x.parent ≠ i → P x.parent → P i)
    (hx : f.slots[i]? = some x) : P i := by
  -- by induction on how far the rank is from the highest one
  generalize hn : 255 - x.rank.toNat = n
  induction n using Nat.strong_induction_on generalizing i x with
  | _ n ih =>
    by_cases hroot : x.parent = i
    · exact root i x ⟨hx, hroot⟩
    · obtain ⟨y, hy, hlt⟩ := h.above hx hroot
      have hlt := UInt8.lt_iff_toNat_lt.mp hlt
      have hle := y.rank.toNat_lt
      exact step i x hx hroot (ih _ (by omega) hy rfl)

/-- Every slot has a root, of higher rank unless it is the slot itself. -/
theorem Rises.exists_root (h : f.Rises) (hx : f.slots[i]? = some x) :
    ∃ r y, f.root? i = some r ∧ f.Root r y ∧ (r = i ∨ x.rank < y.rank) := by
  refine h.climb (P := fun i => ∀ x, f.slots[i]? = some x →
    ∃ r y, f.root? i = some r ∧ f.Root r y ∧ (r = i ∨ x.rank < y.rank)) ?_ ?_ hx x hx
  · rintro r y hr x hx
    exact ⟨r, y, hr.root?, hr, Or.inl rfl⟩
  · intro i x hx hroot ih x' hx'
    obtain rfl : x' = x := Option.some.inj (hx'.symm.trans hx)
    obtain ⟨y, hy, hlt⟩ := h.above hx hroot
    obtain ⟨r, z, hr, hz, hrank⟩ := ih y hy
    refine ⟨r, z, (root?_parent hx).trans hr, hz, Or.inr ?_⟩
    obtain rfl | hlt' := hrank
    · obtain rfl : z = y := Option.some.inj (hz.1.symm.trans hy)
      exact hlt
    · exact UInt8.lt_trans hlt hlt'

theorem Rises.root_of_root? (h : f.Rises) (hr : f.root? i = some r) : ∃ y, f.Root r y := by
  obtain ⟨x, hx⟩ := exists_slot hr
  obtain ⟨r', y, hr', hy, -⟩ := h.exists_root hx
  obtain rfl : r' = r := Option.some.inj (hr'.symm.trans hr)
  exact ⟨y, hy⟩

/-- The root of a root is itself. -/
theorem Rises.root?_root? (h : f.Rises) (hr : f.root? i = some r) : f.root? r = some r :=
  (h.root_of_root? hr).elim fun _ hy => hy.root?

/-- The same placeholders of the same ranks, where slots point to where they did or to their
root. -/
structure Reshapes (f f' : Forest) : Prop where
  length : f'.slots.length = f.slots.length
  slot : ∀ {i x}, f.slots[i]? = some x → ∃ x', f'.slots[i]? = some x' ∧
    x'.placeholder = x.placeholder ∧ x'.rank = x.rank ∧
    (x'.parent = x.parent ∨ f.root? i = some x'.parent)

namespace Reshapes

theorem exists_slot (h : Reshapes f f') {x' : Slot} (hx' : f'.slots[i]? = some x') :
    ∃ x, f.slots[i]? = some x := by
  obtain ⟨hi, -⟩ := List.getElem?_eq_some_iff.mp hx'
  exact ⟨_, List.getElem?_eq_getElem (h.length ▸ hi)⟩

theorem name? (h : Reshapes f f') (i : Nat) : f'.name? i = f.name? i := by
  unfold Forest.name?
  cases hx : f.slots[i]? with
  | some x =>
    obtain ⟨x', hx', hplaceholder, -⟩ := h.slot hx
    rw [hx', Option.map_some, Option.map_some, hplaceholder]
  | none =>
    rw [List.getElem?_eq_none_iff.mpr (h.length ▸ List.getElem?_eq_none_iff.mp hx)]

theorem rises (hf : f.Rises) (h : Reshapes f f') : f'.Rises := by
  refine ⟨fun {i x'} hx' hroot => ?_⟩
  obtain ⟨x, hx⟩ := h.exists_slot hx'
  obtain ⟨x'', hx'', -, hrank, hparent⟩ := h.slot hx
  obtain rfl : x'' = x' := Option.some.inj (hx''.symm.trans hx')
  have habove : ∃ y, f.slots[x''.parent]? = some y ∧ x.rank < y.rank := by
    obtain hparent | hparent := hparent
    · rw [hparent] at hroot ⊢
      exact hf.above hx hroot
    · obtain ⟨r, y, hr, hy, hlt⟩ := hf.exists_root hx
      obtain rfl : x''.parent = r := Option.some.inj (hparent.symm.trans hr)
      exact ⟨y, hy.1, hlt.resolve_left hroot⟩
  obtain ⟨y, hy, hlt⟩ := habove
  obtain ⟨y', hy', -, hranky, -⟩ := h.slot hy
  exact ⟨y', hy', by rwa [hrank, hranky]⟩

theorem root? (hf : f.Rises) (h : Reshapes f f') (i : Nat) : f'.root? i = f.root? i := by
  have hroot : ∀ {r}, f.root? r = some r → f'.root? r = some r := by
    intro r hr
    obtain ⟨y, hy⟩ := hf.root_of_root? hr
    obtain ⟨y', hy', -, -, hparent⟩ := h.slot hy.1
    refine Root.root? ⟨hy', ?_⟩
    obtain hparent | hparent := hparent
    · exact hparent.trans hy.2
    · exact Option.some.inj (hparent.symm.trans hr)
  cases hx : f.slots[i]? with
  | none =>
    have hx' : f'.slots[i]? = none :=
      List.getElem?_eq_none_iff.mpr (h.length ▸ List.getElem?_eq_none_iff.mp hx)
    rw [root?_of_none hx, root?_of_none hx']
  | some x =>
    refine hf.climb (P := fun i => f'.root? i = f.root? i) ?_ ?_ hx
    · intro r y hr
      rw [hr.root?, hroot hr.root?]
    · intro i x hx _ ih
      obtain ⟨x', hx', -, -, hparent⟩ := h.slot hx
      rw [root?_parent hx']
      obtain hparent | hparent := hparent
      · rw [hparent, ih, root?_parent hx]
      · rw [hparent, hroot (hf.root?_root? hparent)]

theorem members (hf : f.Rises) (h : Reshapes f f') (r : Nat) : f'.members r = f.members r := by
  rw [Forest.members, Forest.members, h.length]
  exact Finset.filter_congr fun i _ => by rw [h.root? hf]

end Reshapes

/-- Slots may point to their root instead of where they did; nothing else has changed. -/
structure Shortens (f f' : Forest) : Prop where
  length : f'.slots.length = f.slots.length
  slot : ∀ {i x}, f.slots[i]? = some x → ∃ parent, f'.slots[i]? = some { x with parent } ∧
    (parent = x.parent ∨ f.root? i = some parent)

namespace Shortens

theorem refl (f : Forest) : Shortens f f := ⟨rfl, fun {_ x} hx => ⟨x.parent, hx, Or.inl rfl⟩⟩

theorem reshapes (h : Shortens f f') : Reshapes f f' :=
  ⟨h.length, fun hx =>
    let ⟨_, hx', hparent⟩ := h.slot hx
    ⟨_, hx', rfl, rfl, hparent⟩⟩

theorem trans (hf : f.Rises) {f'' : Forest} (h : Shortens f f') (h' : Shortens f' f'') :
    Shortens f f'' := by
  refine ⟨h'.length.trans h.length, fun {i x} hx => ?_⟩
  obtain ⟨p, hp, hparent⟩ := h.slot hx
  obtain ⟨q, hq, hparent'⟩ := h'.slot hp
  refine ⟨q, hq, ?_⟩
  rw [h.reshapes.root? hf] at hparent'
  obtain rfl | hparent' := hparent'
  · exact hparent
  · exact Or.inr hparent'

/-- A root stays one and keeps everything. -/
theorem root (h : Shortens f f') (hr : f.Root r x) : f'.Root r x := by
  obtain ⟨parent, hx', hparent⟩ := h.slot hr.1
  have heq : parent = x.parent := by
    obtain hparent | hparent := hparent
    · exact hparent
    · rw [hr.root?, Option.some.injEq] at hparent
      exact hparent.symm.trans hr.2.symm
  subst heq
  exact ⟨hx', hr.2⟩

theorem root_iff (hf : f.Rises) (h : Shortens f f') : f'.Root r x ↔ f.Root r x := by
  refine ⟨fun hx => ?_, h.root⟩
  have hr : f.root? r = some r := by rw [← h.reshapes.root? hf, hx.root?]
  obtain ⟨y, hy⟩ := hf.root_of_root? hr
  obtain rfl := (h.root hy).unique hx
  exact hy

end Shortens

theorem getElem?_point (f : Forest) (i root k : Nat) :
    (f.point i root).slots[k]? = if i = k then (f.slots[k]?).map fun x => { x with parent := root }
      else f.slots[k]? := by
  rw [point, List.getElem?_modify]
  split
  · rfl
  · exact Option.map_id_apply

theorem shortens_point (h : f.root? i = some r) : Shortens f (f.point i r) := by
  refine ⟨List.length_modify _ _ _, fun {k x} hx => ?_⟩
  rw [getElem?_point, hx]
  split
  · rename_i hk
    subst hk
    exact ⟨r, rfl, Or.inr h⟩
  · exact ⟨x.parent, rfl, Or.inl rfl⟩

/-- Compressing the way to the root ends and only shortens ways. -/
theorem Rises.exists_compress (h : f.Rises) (hr : f.root? i = some r) :
    ∃ f', f.compress? r i = some f' ∧ Shortens f f' := by
  -- the forest changes while the way up is followed in the forest as it was
  have hall : ∀ g, Shortens f g → ∃ f', g.compress? r i = some f' ∧ Shortens f f' := by
    obtain ⟨x, hx⟩ := exists_slot hr
    refine h.climb (P := fun i => f.root? i = some r → ∀ g, Shortens f g →
      ∃ f', g.compress? r i = some f' ∧ Shortens f f') ?_ ?_ hx hr
    · intro i x hi hr g hg
      rw [hi.root?, Option.some.injEq] at hr
      have hx := hg.root hi
      refine ⟨g, ?_, hg⟩
      rw [compress?, hx.1]
      exact if_pos (hi.2.trans hr)
    · intro i x hx _ ih hr g hg
      obtain ⟨parent, hx', hparent⟩ := hg.slot hx
      rw [compress?, hx']
      by_cases hend : parent = r
      · exact ⟨g, if_pos hend, hg⟩
      · have hparent : parent = x.parent := by
          refine hparent.resolve_right fun hroot => hend ?_
          exact Option.some.inj (hroot.symm.trans hr)
        have hgr : g.root? i = some r := by rw [hg.reshapes.root? h, hr]
        obtain ⟨f', hf', hshort⟩ := ih ((root?_parent hx).symm.trans hr) (g.point i r)
          (hg.trans h (shortens_point hgr))
        refine ⟨f', ?_, hshort⟩
        rw [← hf', ← hparent]
        exact if_neg hend
  exact hall f (.refl f)

/-- Looking for the root of a slot ends, and only shortens ways. -/
theorem Rises.exists_find (h : f.Rises) (hi : i < f.slots.length) :
    ∃ r f', f.find? i = some (r, f') ∧ f.root? i = some r ∧ Shortens f f' := by
  obtain ⟨r, y, hr, -, -⟩ := h.exists_root (List.getElem?_eq_getElem hi)
  obtain ⟨f', hf', hshort⟩ := h.exists_compress hr
  refine ⟨r, f', ?_, hr, hshort⟩
  rw [find?, hr, Option.bind_eq_bind, Option.bind_some, hf']
  rfl

theorem find?_eq_some (h : f.Rises) (hfind : f.find? i = some (r, f')) :
    f.root? i = some r ∧ Shortens f f' := by
  obtain ⟨r', hr', hrest⟩ := Option.bind_eq_some_iff.mp hfind
  obtain ⟨f'', hf'', hpair⟩ := Option.bind_eq_some_iff.mp hrest
  obtain ⟨rfl, rfl⟩ := Prod.mk.inj (Option.some.inj hpair)
  obtain ⟨g, hg, hshort⟩ := h.exists_compress hr'
  obtain rfl : g = f'' := Option.some.inj (hg.symm.trans hf'')
  exact ⟨hr', hshort⟩

/-- A root is found at once. -/
theorem Root.find? (h : f.Root r x) : f.find? r = some (r, f) := by
  have hcompress : f.compress? r r = some f := by
    rw [compress?, h.1]
    exact if_pos h.2
  rw [Forest.find?, h.root?, Option.bind_eq_bind, Option.bind_some, hcompress]
  rfl

theorem Root.class? (h : f.Root r x) : f.class? r = some x := by
  rw [Forest.class?, h.root?]
  exact h.1

end TensorTyping.Forest
