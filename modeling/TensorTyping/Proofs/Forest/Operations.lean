import TensorTyping.Proofs.Forest.Partition

namespace TensorTyping.Forest

variable {ops : List Op} {op : Op} {f f' : Forest} {i j r : Nat} {x y : Slot}

theorem slot?_eq_none {id : UInt32} : f.slot? id = none ↔ ∀ x ∈ f.slots, x.placeholder.id ≠ id := by
  simp [slot?, List.findIdx?_eq_none_iff]

section ensure

variable (f : Forest) (p : Placeholder)

/-- A forest with one more placeholder. -/
def grown : Forest := ⟨f.slots ++ [.single p f.slots.length]⟩

variable {f p}

theorem getElem?_grown {k : Nat} {z : Slot} : (f.grown p).slots[k]? = some z ↔
    f.slots[k]? = some z ∨ (k = f.slots.length ∧ z = .single p k) := by
  rw [grown, List.getElem?_append]
  split
  · rename_i hk
    exact ⟨Or.inl, fun h => h.resolve_right fun h => by omega⟩
  · rename_i hk
    have hnone : f.slots[k]? = none := List.getElem?_eq_none_iff.mpr (by omega)
    rw [hnone, List.getElem?_singleton]
    split
    · rename_i hzero
      have hk : k = f.slots.length := by omega
      subst hk
      simp [eq_comm]
    · rename_i hzero
      have hk : k ≠ f.slots.length := by omega
      simp [hk]

theorem Rises.grown (h : f.Rises) : (f.grown p).Rises := by
  refine ⟨fun {k z} hz hparent => ?_⟩
  obtain hz | ⟨rfl, rfl⟩ := getElem?_grown.mp hz
  · obtain ⟨y, hy, hlt⟩ := h.above hz hparent
    exact ⟨y, getElem?_grown.mpr (Or.inl hy), hlt⟩
  · exact absurd rfl hparent

theorem Rises.root?_grown (h : f.Rises) (k : Nat) :
    (f.grown p).root? k = if k = f.slots.length then some k else f.root? k := by
  split
  · rename_i hk
    exact Root.root? ⟨getElem?_grown.mpr (Or.inr ⟨hk, rfl⟩), rfl⟩
  · rename_i hk
    cases hz : f.slots[k]? with
    | none =>
      have hz' : (f.grown p).slots[k]? = none := by
        rw [Option.eq_none_iff_forall_ne_some]
        intro z hz'
        obtain hz' | ⟨hk', -⟩ := getElem?_grown.mp hz'
        · rw [hz] at hz'
          cases hz'
        · exact hk hk'
      rw [root?_of_none hz, root?_of_none hz']
    | some z =>
      refine h.climb (P := fun k => (f.grown p).root? k = f.root? k) ?_ ?_ hz
      · intro r z hr
        have hr' : (f.grown p).Root r z := ⟨getElem?_grown.mpr (Or.inl hr.1), hr.2⟩
        rw [hr.root?, hr'.root?]
      · intro k z hz _ ih
        rw [root?_parent hz, root?_parent (getElem?_grown.mpr (Or.inl hz)), ih]

theorem Sound.grown (h : Sound ops f) (hp : ∀ x ∈ f.slots, x.placeholder.id ≠ p.id) :
    Sound ops (f.grown p) := by
  have hroot := h.rises.root?_grown (p := p)
  have hlength : (f.grown p).slots.length = f.slots.length + 1 := by
    rw [Forest.grown, List.length_append, List.length_singleton]
  have hlt : ∀ {k r}, f.root? k = some r → k < f.slots.length ∧ r < f.slots.length := fun hk =>
    ⟨lt_length_of_root? hk, lt_length_of_root? (h.rises.root?_root? hk)⟩
  have hmembers : ∀ {k r}, r ≠ f.slots.length →
      (k ∈ (f.grown p).members r ↔ k ∈ f.members r) := by
    intro k r hr
    rw [mem_members, mem_members, hroot]
    split
    · rename_i hk
      subst hk
      refine ⟨fun heq => absurd (Option.some.inj heq).symm hr, fun heq => ?_⟩
      exact absurd (hlt heq).1 (Nat.lt_irrefl _)
    · rfl
  refine ⟨?_, h.rises.grown, fun o ho => ?_, fun hz hparent => ?_, fun {r z} hz => ?_, fun ho => ?_,
    fun {i j r} hi hj => ?_⟩
  · rw [Forest.grown, List.map_append, List.nodup_append]
    refine ⟨h.nodup, List.nodup_singleton _, fun i hi k hk hik => ?_⟩
    obtain ⟨x, hx, rfl⟩ := List.mem_map.mp hi
    exact hp x hx (hik.trans (List.mem_singleton.mp hk))
  · exact (h.known o ho).mono (by omega)
  · obtain hz | ⟨rfl, rfl⟩ := getElem?_grown.mp hz
    · exact h.bare hz hparent
    · exact absurd rfl hparent
  · obtain hz' | ⟨rfl, rfl⟩ := getElem?_grown.mp hz.1
    · have hr := (List.getElem?_eq_some_iff.mp hz').1
      have hsame : (f.grown p).members r = f.members r :=
        Finset.ext fun k => hmembers (by omega)
      rw [hsame]
      refine (h.describes ⟨hz', hz.2⟩).congr fun k hk => ?_
      obtain ⟨w, hw⟩ := exists_slot (mem_members.mp hk)
      rw [name?, name?, getElem?_grown.mpr (Or.inl hw), hw]
    · have hself : (f.grown p).members f.slots.length = {f.slots.length} := by
        ext k
        rw [mem_members, hroot, Finset.mem_singleton]
        split
        · rename_i hk
          simp [hk]
        · rename_i hk
          refine ⟨fun hk' => ?_, fun hk' => absurd hk' hk⟩
          exact absurd (hlt hk').2 (Nat.lt_irrefl _)
      rw [hself]
      refine .single ?_ (fun user hmem => ?_) fun t hmem => ?_
      · rw [name?, getElem?_grown.mpr (Or.inr ⟨rfl, rfl⟩)]
        rfl
      · exact Nat.lt_irrefl _ (h.known _ hmem)
      · exact Nat.lt_irrefl _ (h.known _ hmem)
  · have hknown := h.known _ ho
    rw [hroot, hroot, if_neg hknown.1.ne, if_neg hknown.2.ne]
    exact h.joined ho
  · rw [hroot] at hi hj
    split at hi
    · rename_i hin
      split at hj
      · rename_i hjn
        rw [hin, hjn]
        exact .refl _
      · rw [← Option.some.inj hi, hin] at hj
        exact absurd (hlt hj).2 (Nat.lt_irrefl _)
    · split at hj
      · rename_i hjn
        rw [← Option.some.inj hj, hjn] at hi
        exact absurd (hlt hi).2 (Nat.lt_irrefl _)
      · exact h.connected hi hj

theorem Sound.ensure (h : Sound ops f) (p : Placeholder) :
    Sound (ops ++ [.ensure p]) (f.ensure p).2 := by
  have hsnoc : ∀ {g}, Sound ops g → Sound (ops ++ [.ensure p]) g := fun hg =>
    hg.snoc trivial (fun _ => ⟨fun _ => nofun, fun _ => nofun⟩) fun _ _ => nofun
  unfold Forest.ensure
  split
  · exact hsnoc h
  · rename_i hnone
    exact hsnoc (h.grown (slot?_eq_none.mp hnone))

end ensure

section set

theorem Root.reshapes_set (h : f.Root r x) {x' : Slot}
    (hplaceholder : x'.placeholder = x.placeholder) (hparent : x'.parent = x.parent)
    (hrank : x'.rank = x.rank) :
    Reshapes f ⟨f.slots.set r x'⟩ := by
  obtain ⟨hr, -⟩ := List.getElem?_eq_some_iff.mp h.1
  refine ⟨List.length_set, fun {k z} hz => ?_⟩
  rw [List.getElem?_set]
  split
  · rename_i hk
    subst hk
    obtain rfl : x = z := Option.some.inj (h.1.symm.trans hz)
    exact ⟨x', rfl, hplaceholder, hrank, Or.inl hparent⟩
  · exact ⟨z, hz, rfl, rfl, Or.inl rfl⟩

/-- Changing what a root keeps of its class changes no class. -/
theorem Sound.set (h : Sound ops f) (hr : f.Root r x) {x' : Slot}
    (hplaceholder : x'.placeholder = x.placeholder) (hparent : x'.parent = x.parent)
    (hrank : x'.rank = x.rank) (hknown : op.Within f.slots.length)
    (hspares : ∀ i, i ≠ r → op.Spares i) (hunion : ∀ i j, op ≠ .union i j)
    (hdescribes : Describes (ops ++ [op]) f.name? (f.members r) x') :
    Sound (ops ++ [op]) ⟨f.slots.set r x'⟩ := by
  have hreshapes := hr.reshapes_set hplaceholder hparent hrank
  have hroot := hreshapes.root? h.rises
  have hname := funext hreshapes.name?
  obtain ⟨hlt, -⟩ := List.getElem?_eq_some_iff.mp hr.1
  have hslot : ∀ {k z}, (f.slots.set r x')[k]? = some z →
      (k = r ∧ z = x') ∨ (k ≠ r ∧ f.slots[k]? = some z) := by
    intro k z hz
    rw [List.getElem?_set] at hz
    split at hz
    · rename_i hk
      exact Or.inl ⟨hk.symm, (Option.some.inj hz).symm⟩
    · rename_i hk
      exact Or.inr ⟨Ne.symm hk, hz⟩
  refine ⟨ids_eq_of_name? hname ▸ h.nodup, hreshapes.rises h.rises, fun o ho => ?_,
    fun hz hmoves => ?_, fun {k z} hz => ?_, fun ho => ?_, fun hi hj => ?_⟩
  · rw [List.length_set]
    obtain ho | ho := List.mem_append.mp ho
    · exact h.known o ho
    · exact List.mem_singleton.mp ho ▸ hknown
  · obtain ⟨rfl, rfl⟩ | ⟨-, hz⟩ := hslot hz
    · exact absurd (hparent.trans hr.2) hmoves
    · exact h.bare hz hmoves
  · rw [hname, hreshapes.members h.rises]
    obtain ⟨rfl, rfl⟩ | ⟨hk, hz'⟩ := hslot hz.1
    · exact hdescribes
    · refine (h.describes ⟨hz', hz.2⟩).snoc fun i hi => hspares i ?_
      rintro rfl
      rw [mem_members, hr.root?] at hi
      exact hk (Option.some.inj hi).symm
  · obtain ho | ho := List.mem_append.mp ho
    · rw [hroot, hroot]
      exact h.joined ho
    · exact absurd (List.mem_singleton.mp ho).symm (hunion _ _)
  · rw [hroot] at hi hj
    exact (h.connected hi hj).mono fun _ _ ho => List.mem_append_left _ ho

theorem Sound.use (h : Sound ops f) (hr : f.Root r x) (user : Nat) :
    Sound (ops ++ [.use r user])
      ⟨f.slots.set r { x with users := addUsers x.users [user] }⟩ := by
  refine h.set hr rfl rfl rfl (lt_length_of_root? hr.root?) (fun i hi => ⟨?_, ?_⟩)
    (fun _ _ => nofun) ((h.describes hr).use hr.mem_members user)
  · rintro n heq
    cases heq
    exact hi rfl
  · nofun

theorem Sound.bind (h : Sound ops f) (hr : f.Root r x) (hunbound : x.binding = none) (t : Ty) :
    Sound (ops ++ [.bind r t]) ⟨f.slots.set r { x with binding := some t }⟩ := by
  refine h.set hr rfl rfl rfl (lt_length_of_root? hr.root?) (fun i hi => ⟨?_, ?_⟩)
    (fun _ _ => nofun) ((h.describes hr).bind hr.mem_members hunbound t)
  · nofun
  · rintro n heq
    cases heq
    exact hi rfl

end set

section union

variable {root child : Nat} {rank : UInt8}

/-- Putting one root under another joins their classes and no others. -/
theorem Sound.attach (h : Sound ops f) (hready : Ready f root child x y)
    (hranked : Ranked x y rank) (hkind : x.least.kind = y.least.kind) (hbx : x.binding = none)
    (hby : y.binding = none)
    (hsides : f.root? i = some root ∧ f.root? j = some child ∨
      f.root? i = some child ∧ f.root? j = some root) :
    Sound (ops ++ [.union i j]) (f.attach root child x y rank) := by
  have hroot := hready.root?_attach h.rises rank
  have hname : (f.attach root child x y rank).name? = f.name? := funext (hready.name?_attach rank)
  have hsmall : x.rank.toNat < 255 := (h.rank_le hready.above).trans_lt (by decide)
  have hspares : ∀ k, (Op.union i j).Spares k := fun k => ⟨fun _ => nofun, fun _ => nofun⟩
  have hmono : ∀ {k l}, Connected ops k l → Connected (ops ++ [.union i j]) k l := fun hkl =>
    hkl.mono fun _ _ ho => List.mem_append_left _ ho
  have hbridge : ∀ {k l}, f.root? k = some root → f.root? l = some child →
      Connected (ops ++ [.union i j]) k l := by
    intro k l hk hl
    have hunion : Connected (ops ++ [.union i j]) i j :=
      .rel i j (List.mem_append_right _ (List.mem_singleton_self _))
    obtain ⟨hi, hj⟩ | ⟨hi, hj⟩ := hsides
    · exact (hmono (h.connected hk hi)).trans _ _ _ (hunion.trans _ _ _ (hmono (h.connected hj hl)))
    · exact (hmono (h.connected hk hj)).trans _ _ _
        ((hunion.symm _ _).trans _ _ _ (hmono (h.connected hi hl)))
  have hranks := hranked.rises hsmall
  refine ⟨ids_eq_of_name? hname ▸ h.nodup, hready.rises h.rises hranks.1 hranks.2, fun o ho => ?_,
    fun {k z} hz hparent => ?_, fun {r z} hz => ?_, fun {k l} ho => ?_, fun {k l r} hk hl => ?_⟩
  · rw [length_attach]
    obtain ho | ho := List.mem_append.mp ho
    · exact h.known o ho
    · rw [List.mem_singleton.mp ho]
      obtain ⟨hi, hj⟩ | ⟨hi, hj⟩ := hsides <;>
        exact ⟨lt_length_of_root? hi, lt_length_of_root? hj⟩
  · rw [hready.getElem?_attach] at hz
    split at hz
    · rename_i hk
      obtain rfl := Option.some.inj hz
      exact absurd (hready.above.2.trans hk.symm) hparent
    · split at hz
      · obtain rfl := Option.some.inj hz
        exact ⟨rfl, rfl⟩
      · exact h.bare hz hparent
  · rw [hname]
    obtain ⟨rfl, rfl⟩ | ⟨hr, hr', hz⟩ := hready.root_attach_iff.mp hz
    · rw [hready.members_attach h.rises]
      refine ((h.describes hready.above).absorb (h.describes hready.below) ?_ hkind hbx hby hranked
        hsmall).snoc fun k _ => hspares k
      rw [Finset.disjoint_left]
      intro k hk hk'
      rw [mem_members] at hk hk'
      exact hready.ne (Option.some.inj (hk.symm.trans hk'))
    · rw [hready.members_attach_of_ne h.rises rank hr hr']
      exact (h.describes hz).snoc fun k _ => hspares k
  · rw [hroot, hroot]
    obtain ho | ho := List.mem_append.mp ho
    · rw [h.joined ho]
    · obtain ⟨rfl, rfl⟩ := Op.union.inj (List.mem_singleton.mp ho)
      obtain ⟨hi, hj⟩ | ⟨hi, hj⟩ := hsides <;> rw [hi, hj] <;> simp [hready.ne]
  · rw [hroot] at hk hl
    split at hk
    · rename_i hkc
      split at hl
      · rename_i hlc
        exact hmono (h.connected hkc hlc)
      · rw [← hk] at hl
        exact (hbridge hl hkc).symm _ _
    · split at hl
      · rename_i hlc
        rw [← hl] at hk
        exact hbridge hk hlc
      · exact hmono (h.connected hk hl)

theorem class?_eq_some (h : f.Rises) (hx : f.class? i = some x) :
    ∃ a, f.root? i = some a ∧ f.Root a x := by
  obtain ⟨a, ha, hslot⟩ := Option.bind_eq_some_iff.mp hx
  obtain ⟨z, hz⟩ := h.root_of_root? ha
  obtain rfl : x = z := Option.some.inj (hslot.symm.trans hz.1)
  exact ⟨a, ha, hz⟩

end union

/-- Every allowed operation ends, and the forest stays right about the operations so far. -/
theorem Sound.perform (h : Sound ops f) (ha : f.Allows op) :
    ∃ f', f.perform? op = some f' ∧ Sound (ops ++ [op]) f' := by
  cases op with
  | ensure p => exact ⟨_, rfl, h.ensure p⟩
  | find i =>
    obtain ⟨r, f', hfind, -, hs⟩ := h.rises.exists_find ha
    refine ⟨f', by rw [perform?, hfind]; rfl, (h.shortens hs).snoc trivial ?_ fun _ _ => nofun⟩
    exact fun _ => ⟨fun _ => nofun, fun _ => nofun⟩
  | use i user =>
    obtain ⟨x, hx⟩ := ha
    exact ⟨_, by rw [perform?, use?, hx.1]; rfl, h.use hx user⟩
  | bind i t =>
    obtain ⟨x, hx, hunbound⟩ := ha
    exact ⟨_, by rw [perform?, bind?, hx.1]; rfl, h.bind hx hunbound t⟩
  | union i j =>
    obtain ⟨x, y, hx, hy, hbx, hby, hkind⟩ := ha
    obtain ⟨a, ha, hax⟩ := class?_eq_some h.rises hx
    obtain ⟨b, hb, hby'⟩ := class?_eq_some h.rises hy
    obtain ⟨r, f', hunion, hcases⟩ := h.rises.union_cases ha hb
    refine ⟨f', by rw [perform?, hunion]; rfl, ?_⟩
    obtain ⟨hab, hs⟩ | ⟨f₁, x', y', rank, hs, hranked, hattach⟩ := hcases
    · have hroot := hs.reshapes.root? h.rises
      refine (h.shortens hs).snoc ?_ (fun _ => ⟨fun _ => nofun, fun _ => nofun⟩) ?_
      · rw [hs.length]
        exact ⟨lt_length_of_root? ha, lt_length_of_root? hb⟩
      · intro k l heq
        obtain ⟨rfl, rfl⟩ := Op.union.inj heq
        rw [hroot, hroot, ha, hb, hab]
    · have h₁ := h.shortens hs
      have ha₁ : f₁.root? i = some a := by rw [hs.reshapes.root? h.rises, ha]
      have hb₁ : f₁.root? j = some b := by rw [hs.reshapes.root? h.rises, hb]
      obtain ⟨hready, rfl⟩ | ⟨hready, -, rfl⟩ := hattach
      · obtain rfl := hready.above.unique (hs.root hax)
        obtain rfl := hready.below.unique (hs.root hby')
        exact h₁.attach hready hranked hkind hbx hby (Or.inl ⟨ha₁, hb₁⟩)
      · obtain rfl := hready.above.unique (hs.root hby')
        obtain rfl := hready.below.unique (hs.root hax)
        exact h₁.attach hready hranked hkind.symm hby hbx (Or.inr ⟨ha₁, hb₁⟩)

end TensorTyping.Forest
