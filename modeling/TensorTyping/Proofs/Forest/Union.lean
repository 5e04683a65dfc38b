import TensorTyping.Proofs.Forest.Find

namespace TensorTyping.Forest

variable {f f' : Forest} {i j r root child : Nat} {x y : Slot} {rank : UInt8}

/-- Two different roots, of which the second may be put under the first. -/
structure Ready (f : Forest) (root child : Nat) (x y : Slot) : Prop where
  above : f.Root root x
  below : f.Root child y
  ne : root ≠ child

theorem length_attach (f : Forest) (root child : Nat) (x y : Slot) (rank : UInt8) :
    (f.attach root child x y rank).slots.length = f.slots.length := by
  rw [attach, List.length_set, List.length_set]

namespace Ready

variable (h : Ready f root child x y)
include h

theorem getElem?_attach (rank : UInt8) (k : Nat) : (f.attach root child x y rank).slots[k]? =
    if k = root then some (x.absorb y rank)
    else if k = child then some (y.under root) else f.slots[k]? := by
  obtain ⟨hroot, -⟩ := List.getElem?_eq_some_iff.mp h.above.1
  obtain ⟨hchild, -⟩ := List.getElem?_eq_some_iff.mp h.below.1
  rw [attach, List.getElem?_set, List.length_set, List.getElem?_set]
  rw [if_pos hroot, if_pos hchild]
  exact if_congr eq_comm rfl (if_congr eq_comm rfl rfl)

theorem getElem?_attach_of_ne (rank : UInt8) {k : Nat} (hk : k ≠ root) (hk' : k ≠ child) :
    (f.attach root child x y rank).slots[k]? = f.slots[k]? := by
  rw [h.getElem?_attach, if_neg hk, if_neg hk']

theorem root_attach (rank : UInt8) :
    (f.attach root child x y rank).Root root (x.absorb y rank) :=
  ⟨by rw [h.getElem?_attach, if_pos rfl], h.above.2⟩

theorem name?_attach (rank : UInt8) (k : Nat) :
    (f.attach root child x y rank).name? k = f.name? k := by
  rw [name?, name?, h.getElem?_attach]
  split
  · rename_i hk
    rw [hk, h.above.1]
    rfl
  · split
    · rename_i hk
      rw [hk, h.below.1]
      rfl
    · rfl

/-- The roots afterwards are those of before without the one put under another. -/
theorem root_attach_iff {z : Slot} : (f.attach root child x y rank).Root r z ↔
    (r = root ∧ z = x.absorb y rank) ∨ (r ≠ root ∧ r ≠ child ∧ f.Root r z) := by
  by_cases hr : r = root
  · subst hr
    refine ⟨fun hz => Or.inl ⟨rfl, ?_⟩, ?_⟩
    · exact Option.some.inj (hz.1.symm.trans (h.root_attach rank).1)
    · rintro (⟨-, rfl⟩ | ⟨hne, -⟩)
      · exact h.root_attach rank
      · exact absurd rfl hne
  · by_cases hr' : r = child
    · subst hr'
      refine ⟨fun hz => ?_, ?_⟩
      · have hunder : some (y.under root) = some z := by
          rw [← hz.1, h.getElem?_attach, if_neg hr, if_pos rfl]
        have hparent : z.parent = root := by rw [← Option.some.inj hunder]; rfl
        exact absurd (hz.2.symm.trans hparent) hr
      · rintro (⟨hr', -⟩ | ⟨-, hne, -⟩)
        · exact absurd hr' hr
        · exact absurd rfl hne
    · rw [Root, h.getElem?_attach_of_ne rank hr hr']
      exact ⟨fun hz => Or.inr ⟨hr, hr', hz⟩, fun hz => hz.elim (fun hz => absurd hz.1 hr) (·.2.2)⟩

theorem rises (hf : f.Rises) (hx : x.rank ≤ rank) (hy : y.rank < rank) :
    (f.attach root child x y rank).Rises := by
  have habove : ∀ {k : Nat} {z : Slot}, f.slots[k]? = some z →
      ∃ z', (f.attach root child x y rank).slots[k]? = some z' ∧ z.rank ≤ z'.rank := by
    intro k z hz
    rw [h.getElem?_attach]
    split
    · rename_i hk
      rw [hk, h.above.1, Option.some.injEq] at hz
      exact ⟨_, rfl, hz ▸ hx⟩
    · split
      · rename_i hk
        rw [hk, h.below.1, Option.some.injEq] at hz
        exact ⟨_, rfl, hz ▸ UInt8.le_refl _⟩
      · exact ⟨z, hz, UInt8.le_refl _⟩
  refine ⟨fun {k z} hz hparent => ?_⟩
  rw [h.getElem?_attach] at hz
  split at hz
  · rename_i hk
    obtain rfl := Option.some.inj hz
    exact absurd (h.above.2.trans hk.symm) hparent
  · split at hz
    · obtain rfl := Option.some.inj hz
      exact ⟨_, (h.root_attach rank).1, hy⟩
    · obtain ⟨w, hw, hlt⟩ := hf.above hz hparent
      obtain ⟨w', hw', hle⟩ := habove hw
      exact ⟨w', hw', UInt8.lt_of_lt_of_le hlt hle⟩

/-- The slots below the one root are below the other from then on. -/
theorem root?_attach (hf : f.Rises) (rank : UInt8) (k : Nat) :
    (f.attach root child x y rank).root? k =
      if f.root? k = some child then some root else f.root? k := by
  cases hz : f.slots[k]? with
  | none =>
    have hk : (f.attach root child x y rank).slots[k]? = none := by
      rw [List.getElem?_eq_none_iff, length_attach]
      exact List.getElem?_eq_none_iff.mp hz
    rw [root?_of_none hz, root?_of_none hk]
    rfl
  | some z =>
    refine hf.climb (P := fun k => (f.attach root child x y rank).root? k =
      if f.root? k = some child then some root else f.root? k) ?_ ?_ hz
    · intro r z hr
      rw [hr.root?]
      by_cases hrc : r = child
      · subst hrc
        have hunder : (f.attach root r x y rank).slots[r]? = some (y.under root) := by
          rw [h.getElem?_attach, if_neg h.ne.symm, if_pos rfl]
        rw [if_pos rfl, root?_parent hunder]
        exact (h.root_attach rank).root?
      · rw [if_neg fun heq => hrc (Option.some.inj heq)]
        by_cases hrr : r = root
        · subst hrr
          exact (h.root_attach rank).root?
        · exact (h.root_attach_iff.mpr (Or.inr ⟨hrr, hrc, hr⟩)).root?
    · intro k z hz hparent ih
      have hkr : k ≠ root := by
        rintro rfl
        obtain rfl : x = z := Option.some.inj (h.above.1.symm.trans hz)
        exact hparent h.above.2
      have hkc : k ≠ child := by
        rintro rfl
        obtain rfl : y = z := Option.some.inj (h.below.1.symm.trans hz)
        exact hparent h.below.2
      have hz' := hz
      rw [← h.getElem?_attach_of_ne rank hkr hkc] at hz'
      rw [root?_parent hz', root?_parent hz, ih]

theorem members_attach (hf : f.Rises) (rank : UInt8) :
    (f.attach root child x y rank).members root = f.members root ∪ f.members child := by
  ext k
  simp only [members, length_attach, h.root?_attach hf, Finset.mem_union, Finset.mem_filter,
    ← and_or_left]
  refine and_congr_right fun _ => ?_
  split
  · rename_i hk
    simp [hk]
  · rename_i hk
    simp [hk]

theorem members_attach_of_ne (hf : f.Rises) (rank : UInt8) (hr : r ≠ root) (hr' : r ≠ child) :
    (f.attach root child x y rank).members r = f.members r := by
  ext k
  simp only [members, length_attach, h.root?_attach hf, Finset.mem_filter]
  refine and_congr_right fun _ => ?_
  split
  · rename_i hk
    simp [hk, hr.symm, hr'.symm]
  · rfl

end Ready

/-- The second root is put under the first, whose rank then rises if it was the same. -/
def Ranked (x y : Slot) (rank : UInt8) : Prop :=
  y.rank < x.rank ∧ rank = x.rank ∨ x.rank = y.rank ∧ rank = risen x.rank

theorem toNat_risen {rank : UInt8} (h : rank.toNat < 255) :
    (risen rank).toNat = rank.toNat + 1 := by
  have hne : rank ≠ 255 := fun heq => by simp [heq] at h
  rw [risen, if_neg hne, UInt8.toNat_add]
  exact Nat.mod_eq_of_lt (Nat.succ_lt_succ h)

/-- A rank that is not as high as can be ends up above both. -/
theorem Ranked.rises (h : Ranked x y rank) (hsmall : x.rank.toNat < 255) :
    x.rank ≤ rank ∧ y.rank < rank := by
  obtain ⟨hlt, rfl⟩ | ⟨heq, rfl⟩ := h
  · exact ⟨UInt8.le_refl _, hlt⟩
  · have hrisen : x.rank < risen x.rank := by
      rw [UInt8.lt_iff_toNat_lt, toNat_risen hsmall]
      exact Nat.lt_succ_self _
    exact ⟨UInt8.le_of_lt hrisen, heq ▸ hrisen⟩

/-- Joining two classes that are one already only shortens ways. Otherwise one of the two
roots is put under the other, the second under the first between equals. -/
theorem Rises.union_cases (h : f.Rises) {a b : Nat} (ha : f.root? i = some a)
    (hb : f.root? j = some b) :
    ∃ r f', f.union? i j = some (r, f') ∧ (a = b ∧ Shortens f f' ∨
      ∃ f₁ x y rank, Shortens f f₁ ∧ Ranked x y rank ∧
        (Ready f₁ a b x y ∧ f' = f₁.attach a b x y rank ∨
          Ready f₁ b a x y ∧ y.rank < x.rank ∧ f' = f₁.attach b a x y rank)) := by
  obtain ⟨a', g, hfinda, ha', hg⟩ := h.exists_find (lt_length_of_root? ha)
  obtain rfl : a' = a := Option.some.inj (ha'.symm.trans ha)
  have hrises := hg.reshapes.rises h
  obtain ⟨b', f₁, hfindb, hb', hf₁⟩ := hrises.exists_find (hg.length ▸ lt_length_of_root? hb)
  rw [hg.reshapes.root? h] at hb'
  obtain rfl : b' = b := Option.some.inj (hb'.symm.trans hb)
  have hshort := hg.trans h hf₁
  rw [union?, hfinda, Option.bind_eq_bind, Option.bind_some]
  dsimp only
  rw [hfindb, Option.bind_eq_bind, Option.bind_some]
  dsimp only
  by_cases hab : a' = b'
  · exact ⟨a', f₁, if_pos hab, Or.inl ⟨hab, hshort⟩⟩
  · obtain ⟨x, hx⟩ := h.root_of_root? ha
    obtain ⟨y, hy⟩ := h.root_of_root? hb
    have hx := hshort.root hx
    have hy := hshort.root hy
    rw [if_neg hab, hx.1, hy.1]
    dsimp only [Option.bind_eq_bind, Option.bind_some]
    by_cases hlt : x.rank < y.rank
    · exact ⟨_, _, if_pos hlt, Or.inr ⟨f₁, y, x, y.rank, hshort, Or.inl ⟨hlt, rfl⟩,
        Or.inr ⟨⟨hy, hx, Ne.symm hab⟩, hlt, rfl⟩⟩⟩
    · rw [if_neg hlt]
      by_cases hlt' : y.rank < x.rank
      · exact ⟨_, _, if_pos hlt', Or.inr ⟨f₁, x, y, x.rank, hshort, Or.inl ⟨hlt', rfl⟩,
          Or.inl ⟨⟨hx, hy, hab⟩, rfl⟩⟩⟩
      · have heq : x.rank = y.rank :=
          UInt8.le_antisymm (UInt8.not_lt.mp hlt') (UInt8.not_lt.mp hlt)
        exact ⟨_, _, if_neg hlt', Or.inr ⟨f₁, x, y, _, hshort, Or.inr ⟨heq, rfl⟩,
          Or.inl ⟨⟨hx, hy, hab⟩, rfl⟩⟩⟩

end TensorTyping.Forest
