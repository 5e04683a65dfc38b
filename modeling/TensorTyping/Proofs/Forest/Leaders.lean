import TensorTyping.Proofs.Forest.Operations
import TensorTyping.Proofs.Session.Placeholders

namespace TensorTyping

/-- A leader keeps of its class what a root keeps of it. Whether it is bound is kept alike;
what it is bound to is brought up to date for a leader only. -/
structure Slot.Keeps (x : Slot) (z : Cell) : Prop where
  placeholder : z.placeholder = x.placeholder
  rank : z.rank = x.rank.toNat
  least : z.least = x.least
  users : z.users = x.users
  bound : z.binding.isSome = x.binding.isSome

namespace Slot.Keeps

variable {x y : Slot} {z w : Cell}

theorem refresh (h : x.Keeps z) (c : Classes) :
    x.Keeps { z with binding := z.binding.map c.resolve } :=
  ⟨h.placeholder, h.rank, h.least, h.users, by rw [Option.isSome_map, h.bound]⟩

theorem absorb (hx : x.Keeps z) (hy : y.Keeps w) {rank : UInt8} {n : Nat} (hrank : n = rank.toNat) :
    (x.absorb y rank).Keeps (z.absorb w n) := by
  refine ⟨hx.placeholder, hrank, ?_, ?_, ?_⟩
  · rw [Cell.absorb, Slot.absorb, hx.least, hy.least]
  · rw [Cell.absorb, Slot.absorb, hx.users, hy.users]
  · rw [Cell.absorb, Slot.absorb]
    dsimp only
    rw [Option.isSome_or, Option.isSome_or, hx.bound, hy.bound]

/-- The joint class of two leaders is kept by the one of the two roots that stays, and it does not
matter in which order it is the first between equals. -/
theorem join (hx : x.Keeps z) (hy : y.Keeps w) {rank : UInt8} (hranked : Forest.Ranked x y rank)
    (hsmall : x.rank.toNat < 255) : (x.absorb y rank).Keeps (z.join w) := by
  unfold Cell.join
  rw [hx.rank, hy.rank]
  obtain ⟨hlt, rfl⟩ | ⟨heq, rfl⟩ := hranked
  · have hlt := UInt8.lt_iff_toNat_lt.mp hlt
    rw [if_neg (Nat.not_lt.mpr hlt.le), if_pos hlt]
    exact hx.absorb hy rfl
  · rw [heq, if_neg (Nat.lt_irrefl _), if_neg (Nat.lt_irrefl _), ← heq]
    exact hx.absorb hy (Forest.toNat_risen hsmall).symm

theorem join_of_lt (hx : x.Keeps z) (hy : y.Keeps w) {rank : UInt8}
    (hranked : Forest.Ranked x y rank) (hlt : y.rank < x.rank) :
    (x.absorb y rank).Keeps (w.join z) := by
  obtain ⟨-, rfl⟩ | ⟨heq, -⟩ := hranked
  · unfold Cell.join
    rw [hx.rank, hy.rank, if_pos (UInt8.lt_iff_toNat_lt.mp hlt)]
    exact hx.absorb hy rfl
  · exact absurd (heq ▸ hlt) (UInt8.lt_irrefl _)

end Slot.Keeps

namespace Forest

variable {ops : List Op} {op : Op} {f f' : Forest} {c c' : Classes} {i j r s : Nat}
  {x y : Slot} {p q : Placeholder}

/-- Classes of the same placeholders, led by the roots. -/
structure Mirrors (f : Forest) (c : Classes) : Prop where
  partitioned : c.Partitioned
  placeholders : c.placeholders = f.slots.map (·.placeholder)
  leads : ∀ {i p r x}, f.name? i = some p → f.root? i = some r → f.Root r x →
    ∃ z, c.class? p.id = some z ∧ x.Keeps z

theorem mirrors_empty : Mirrors .empty .empty := by
  refine ⟨⟨List.nodup_nil, fun hx => ?_, fun hr => ?_⟩, rfl, fun hp => ?_⟩
  · cases hx
  · cases hr
  · cases hp

theorem name?_of_slot (hx : f.slots[i]? = some x) : f.name? i = some x.placeholder := by
  rw [name?, hx]
  rfl

theorem Root.name? (h : f.Root r x) : f.name? r = some x.placeholder := name?_of_slot h.1

theorem exists_name? (h : f.root? i = some r) : ∃ p, f.name? i = some p :=
  (exists_slot h).elim fun _ hx => ⟨_, name?_of_slot hx⟩

/-- Slots of one id are one slot. -/
theorem Sound.name?_inj (h : Sound ops f) (hp : f.name? i = some p) (hq : f.name? j = some q)
    (hid : p.id = q.id) : i = j := by
  obtain ⟨x, hx, rfl⟩ := Option.map_eq_some_iff.mp hp
  obtain ⟨y, hy, rfl⟩ := Option.map_eq_some_iff.mp hq
  have hxi : (f.slots.map (·.placeholder.id))[i]? = some x.placeholder.id := by simp [hx]
  have hyj : (f.slots.map (·.placeholder.id))[j]? = some x.placeholder.id := by simp [hy, hid]
  obtain ⟨hi, -⟩ := List.getElem?_eq_some_iff.mp hxi
  exact (List.getElem?_inj hi h.nodup).mp (hxi.trans hyj.symm)

namespace Mirrors

theorem registered_iff (h : f.Mirrors c) {id : UInt32} :
    c.Registered id ↔ ∃ x ∈ f.slots, x.placeholder.id = id := by
  rw [Classes.registered_iff_placeholders, h.placeholders]
  simp

theorem registered (h : f.Mirrors c) (hp : f.name? i = some p) : c.Registered p.id := by
  obtain ⟨x, hx, rfl⟩ := Option.map_eq_some_iff.mp hp
  exact h.registered_iff.mpr ⟨x, List.mem_of_getElem? hx, rfl⟩

theorem leader (h : f.Mirrors c) (hp : f.name? i = some p) (hr : f.root? i = some r)
    (hx : f.Root r x) : c.leader p.id = x.placeholder.id := by
  obtain ⟨z, hz, hkeeps⟩ := h.leads hp hr hx
  rw [← (h.partitioned.class?_eq_some hz).2.1, hkeeps.placeholder]

/-- Leaders are the same exactly if roots are. -/
theorem leader_eq_iff (hs : Sound ops f) (h : f.Mirrors c) (hp : f.name? i = some p)
    (hq : f.name? j = some q) (hr : f.root? i = some r) (hs' : f.root? j = some s) :
    c.leader p.id = c.leader q.id ↔ r = s := by
  obtain ⟨x, hx⟩ := hs.rises.root_of_root? hr
  obtain ⟨y, hy⟩ := hs.rises.root_of_root? hs'
  rw [h.leader hp hr hx, h.leader hq hs' hy]
  refine ⟨fun hid => hs.name?_inj hx.name? hy.name? hid, ?_⟩
  rintro rfl
  rw [hx.unique hy]

theorem shortens (hf : f.Rises) (h : f.Mirrors c) (hs : Shortens f f') : f'.Mirrors c := by
  have hname := funext hs.reshapes.name?
  refine ⟨h.partitioned, ?_, fun hp hr hx => ?_⟩
  · rw [h.placeholders, placeholders_eq_of_name? hname]
  · rw [hname] at hp
    rw [hs.reshapes.root? hf] at hr
    exact h.leads hp hr ((hs.root_iff hf).mp hx)

theorem ensure (hs : Sound ops f) (h : f.Mirrors c) (p : Placeholder) :
    (f.ensure p).2.Mirrors (c.ensure p) := by
  by_cases hp : c.Registered p.id
  · have hsame : (f.ensure p).2 = f := by
      obtain ⟨x, hx, hid⟩ := h.registered_iff.mp hp
      cases hslot : f.slot? p.id with
      | some i => simp [Forest.ensure, hslot]
      | none => exact absurd hid (slot?_eq_none.mp hslot x hx)
    have hsame' : c.ensure p = c := if_pos hp
    rw [hsame, hsame']
    exact h
  · have hnone : f.slot? p.id = none :=
      slot?_eq_none.mpr fun x hx hid => hp (h.registered_iff.mpr ⟨x, hx, hid⟩)
    have hgrown : (f.ensure p).2 = f.grown p := by simp [Forest.ensure, hnone, Forest.grown]
    have hcells : c.ensure p = ⟨c.cells ++ [.single p]⟩ := if_neg hp
    rw [hgrown]
    refine ⟨h.partitioned.ensure p, ?_, fun {i q r x} hq hr hx => ?_⟩
    · rw [hcells, Classes.placeholders, List.map_append, ← Classes.placeholders, h.placeholders,
        Forest.grown, List.map_append]
      rfl
    · obtain ⟨z, hz, rfl⟩ := Option.map_eq_some_iff.mp hq
      rw [hs.rises.root?_grown] at hr
      obtain hz | ⟨rfl, rfl⟩ := getElem?_grown.mp hz
      · rw [if_neg (List.getElem?_eq_some_iff.mp hz).1.ne] at hr
        obtain ⟨y, hy⟩ := hs.rises.root_of_root? hr
        have hy' : (f.grown p).Root r y := ⟨getElem?_grown.mpr (Or.inl hy.1), hy.2⟩
        obtain rfl := hx.unique hy'
        have hname := name?_of_slot hz
        obtain ⟨w, hw, hkeeps⟩ := h.leads hname hr hy
        exact ⟨w, by rw [h.partitioned.class?_ensure p (h.registered hname), hw], hkeeps⟩
      · rw [if_pos rfl, Option.some.injEq] at hr
        subst hr
        have hself : (f.grown p).Root f.slots.length (.single p f.slots.length) :=
          ⟨getElem?_grown.mpr (Or.inr ⟨rfl, rfl⟩), rfl⟩
        obtain rfl := hx.unique hself
        exact ⟨.single p, Classes.class?_ensure_self p hp, rfl, rfl, rfl, rfl, rfl⟩

/-- Changing what a root and its leader keep of their class, in the same way. -/
theorem set (hs : Sound ops f) (h : f.Mirrors c) (hr : f.Root r x) {x' : Slot}
    (hplaceholder : x'.placeholder = x.placeholder) (hparent : x'.parent = x.parent)
    (hrank : x'.rank = x.rank) (hpart : c'.Partitioned)
    (hplaceholders : c'.placeholders = c.placeholders) {g : Cell → Cell}
    (hclass : ∀ id, c'.class? id = (c.class? id).map g)
    (hsame : ∀ z, z.placeholder.id = x.placeholder.id → x.Keeps z → x'.Keeps (g z))
    (hother : ∀ z, z.placeholder.id ≠ x.placeholder.id → ∀ y : Slot, y.Keeps z → y.Keeps (g z)) :
    (Forest.mk (f.slots.set r x')).Mirrors c' := by
  have hreshapes := hr.reshapes_set hplaceholder hparent hrank
  have hname := funext hreshapes.name?
  refine ⟨hpart, ?_, fun {i p k y} hp hk hy => ?_⟩
  · rw [hplaceholders, h.placeholders, placeholders_eq_of_name? hname]
  · rw [hname] at hp
    rw [hreshapes.root? hs.rises] at hk
    obtain ⟨w, hw⟩ := hs.rises.root_of_root? hk
    obtain ⟨z, hz, hkeeps⟩ := h.leads hp hk hw
    refine ⟨g z, by rw [hclass, hz, Option.map_some], ?_⟩
    by_cases hkr : k = r
    · subst hkr
      obtain rfl := hw.unique hr
      have hx' : (Forest.mk (f.slots.set k x')).Root k x' :=
        ⟨List.getElem?_set_self (List.getElem?_eq_some_iff.mp hr.1).1, hparent.trans hr.2⟩
      obtain rfl := hy.unique hx'
      exact hsame z (by rw [hkeeps.placeholder]) hkeeps
    · have hw' : (Forest.mk (f.slots.set r x')).Root k w :=
        ⟨(List.getElem?_set_ne (Ne.symm hkr)).trans hw.1, hw.2⟩
      obtain rfl := hy.unique hw'
      refine hother z (fun hid => hkr ?_) y hkeeps
      exact hs.name?_inj hw.name? hr.name? (by rw [← hkeeps.placeholder, hid])

theorem use (hs : Sound ops f) (h : f.Mirrors c) (hr : f.Root r x) (user : Nat) :
    (Forest.mk (f.slots.set r { x with users := addUsers x.users [user] })).Mirrors
      (c.use x.placeholder.id [user]) := by
  have hpart : (c.use x.placeholder.id [user]).Partitioned :=
    h.partitioned.modify _ (fun _ => rfl) (fun _ => rfl) fun _ => rfl
  refine h.set hs hr rfl rfl rfl hpart (Classes.placeholders_use _ _)
    (Classes.class?_use x.placeholder.id [user]) (fun z hid hkeeps => ?_) fun z hid y hkeeps => ?_
  · rw [if_pos hid]
    exact ⟨hkeeps.placeholder, hkeeps.rank, hkeeps.least,
      congrArg (addUsers · [user]) hkeeps.users, hkeeps.bound⟩
  · rw [if_neg hid]
    exact hkeeps

theorem bind (hs : Sound ops f) (h : f.Mirrors c) (hr : f.Root r x) (t : Ty) :
    (Forest.mk (f.slots.set r { x with binding := some t })).Mirrors
      (c.bind x.placeholder.id t) := by
  let bound := c.modify x.placeholder.id fun z => { z with binding := some t }
  have hpart : bound.Partitioned :=
    h.partitioned.modify _ (fun _ => rfl) (fun _ => rfl) fun _ => rfl
  have hclass : ∀ id, bound.class? id = (c.class? id).map fun z =>
      if z.placeholder.id = x.placeholder.id then { z with binding := some t } else z :=
    Classes.class?_modify _ (fun _ => rfl) fun _ => rfl
  have hrefresh : ∀ id, (c.bind x.placeholder.id t).class? id =
      (c.class? id).map ((fun z => { z with binding := z.binding.map bound.resolve }) ∘ fun z =>
        if z.placeholder.id = x.placeholder.id then { z with binding := some t } else z) := by
    intro id
    rw [← Option.map_map, ← hclass]
    exact Classes.class?_refresh id
  refine h.set hs hr rfl rfl rfl hpart.refresh (Classes.placeholders_bind _ _) hrefresh
    (fun z hid hkeeps => ?_) fun z hid y hkeeps => ?_
  · rw [Function.comp, if_pos hid]
    exact ⟨hkeeps.placeholder, hkeeps.rank, hkeeps.least, hkeeps.users, rfl⟩
  · rw [Function.comp, if_neg hid]
    exact hkeeps.refresh bound

/-- Putting one root under another does to their members what joining their leaders does. -/
theorem attach (hs : Sound ops f) (h : f.Mirrors c) {root child a b : Nat} {rank : UInt8}
    {z w : Cell} (hready : Ready f root child x y) (hp : f.name? i = some p)
    (hq : f.name? j = some q) (ha : f.root? i = some a) (hb : f.root? j = some b)
    (hsides : a = root ∧ b = child ∨ a = child ∧ b = root) (hz : c.class? p.id = some z)
    (hw : c.class? q.id = some w) (hkeeps : (x.absorb y rank).Keeps (z.join w)) :
    (f.attach root child x y rank).Mirrors (c.join (c.leader p.id) (c.leader q.id)) := by
  have hab : a ≠ b := by
    obtain ⟨rfl, rfl⟩ | ⟨rfl, rfl⟩ := hsides
    · exact hready.ne
    · exact hready.ne.symm
  have hne : c.leader p.id ≠ c.leader q.id := mt (h.leader_eq_iff hs hp hq ha hb).mp hab
  obtain ⟨c₁, hpart, hjoin, hclass⟩ := h.partitioned.exists_join hz hw hne
  have hname := funext (hready.name?_attach rank)
  refine ⟨hjoin ▸ hpart.refresh, ?_, fun {k s r v} hk hr hv => ?_⟩
  · rw [h.partitioned.placeholders_join, h.placeholders, placeholders_eq_of_name? hname]
  · rw [hname] at hk
    rw [hready.root?_attach hs.rises] at hr
    rw [hjoin, Classes.class?_refresh, hclass]
    obtain ⟨rfl, rfl⟩ | ⟨hroot, hchild, hv⟩ := hready.root_attach_iff.mp hv
    · have hmember : c.leader s.id = c.leader p.id ∨ c.leader s.id = c.leader q.id := by
        have heither : f.root? k = some a ∨ f.root? k = some b := by
          split at hr
          · rename_i hkc
            obtain ⟨rfl, rfl⟩ | ⟨rfl, rfl⟩ := hsides
            · exact Or.inr hkc
            · exact Or.inl hkc
          · obtain ⟨rfl, rfl⟩ | ⟨rfl, rfl⟩ := hsides
            · exact Or.inl hr
            · exact Or.inr hr
        exact heither.imp (fun hka => (h.leader_eq_iff hs hk hp hka ha).mpr rfl)
          fun hkb => (h.leader_eq_iff hs hk hq hkb hb).mpr rfl
      rw [if_pos hmember]
      exact ⟨_, rfl, hkeeps.refresh c₁⟩
    · have hkr : f.root? k = some r := by
        split at hr
        · exact absurd (Option.some.inj hr).symm hroot
        · exact hr
      have hother : ¬ (c.leader s.id = c.leader p.id ∨ c.leader s.id = c.leader q.id) := by
        rw [h.leader_eq_iff hs hk hp hkr ha, h.leader_eq_iff hs hk hq hkr hb]
        obtain ⟨rfl, rfl⟩ | ⟨rfl, rfl⟩ := hsides
        · exact not_or.mpr ⟨hroot, hchild⟩
        · exact not_or.mpr ⟨hchild, hroot⟩
      obtain ⟨u, hu, hkept⟩ := h.leads hk hkr hv
      rw [if_neg hother, hu]
      exact ⟨_, rfl, hkept.refresh c₁⟩

theorem union (hs : Sound ops f) (h : f.Mirrors c) (ha : f.Allows (.union i j))
    (hf' : f.perform? (.union i j) = some f') : f'.Mirrors (Op.carry f c (.union i j)) := by
  obtain ⟨x, y, hx, hy, -⟩ := ha
  obtain ⟨a, ha, hax⟩ := class?_eq_some hs.rises hx
  obtain ⟨b, hb, hby⟩ := class?_eq_some hs.rises hy
  obtain ⟨p, hp⟩ := exists_name? ha
  obtain ⟨q, hq⟩ := exists_name? hb
  have hcarry : Op.carry f c (.union i j) = if c.leader p.id = c.leader q.id then c
      else c.join (c.leader p.id) (c.leader q.id) := by
    rw [Op.carry, hp, hq]
  obtain ⟨r, g, hunion, hcases⟩ := hs.rises.union_cases ha hb
  obtain rfl : g = f' := by
    rw [perform?, hunion] at hf'
    exact Option.some.inj hf'
  rw [hcarry]
  obtain ⟨hab, hshort⟩ | ⟨f₁, x', y', rank, hshort, hranked, hattach⟩ := hcases
  · rw [if_pos ((h.leader_eq_iff hs hp hq ha hb).mpr hab)]
    exact h.shortens hs.rises hshort
  · have hs₁ := hs.shortens hshort
    have h₁ := h.shortens hs.rises hshort
    have hname := hshort.reshapes.name?
    have hroot := hshort.reshapes.root? hs.rises
    have hax₁ := hshort.root hax
    have hby₁ := hshort.root hby
    rw [← hname] at hp hq
    rw [← hroot] at ha hb
    obtain ⟨z, hz, hkeepsx⟩ := h₁.leads hp ha hax₁
    obtain ⟨w, hw, hkeepsy⟩ := h₁.leads hq hb hby₁
    have hne : c.leader p.id ≠ c.leader q.id := by
      refine mt (h₁.leader_eq_iff hs₁ hp hq ha hb).mp ?_
      obtain ⟨hready, -⟩ | ⟨hready, -⟩ := hattach
      · exact hready.ne
      · exact hready.ne.symm
    rw [if_neg hne]
    obtain ⟨hready, rfl⟩ | ⟨hready, hlt, rfl⟩ := hattach
    · obtain rfl := hready.above.unique hax₁
      obtain rfl := hready.below.unique hby₁
      have hsmall := (hs₁.rank_le hready.above).trans_lt (by decide : 32 < 255)
      exact h₁.attach hs₁ hready hp hq ha hb (Or.inl ⟨rfl, rfl⟩) hz hw
        (hkeepsx.join hkeepsy hranked hsmall)
    · obtain rfl := hready.above.unique hby₁
      obtain rfl := hready.below.unique hax₁
      exact h₁.attach hs₁ hready hp hq ha hb (Or.inr ⟨rfl, rfl⟩) hz hw
        (hkeepsy.join_of_lt hkeepsx hranked hlt)

/-- Classes stay in step with a forest through every allowed operation. -/
theorem perform (hs : Sound ops f) (h : f.Mirrors c) (ha : f.Allows op)
    (hf' : f.perform? op = some f') : f'.Mirrors (op.carry f c) := by
  cases op with
  | ensure p =>
    obtain rfl := Option.some.inj hf'
    exact h.ensure hs p
  | find i =>
    obtain ⟨⟨r, g⟩, hfind, rfl⟩ := Option.map_eq_some_iff.mp hf'
    exact h.shortens hs.rises (find?_eq_some hs.rises hfind).2
  | use i user =>
    obtain ⟨x, hx⟩ := ha
    rw [perform?, use?, hx.1] at hf'
    obtain rfl := Option.some.inj hf'
    rw [Op.carry, hx.name?]
    exact h.use hs hx user
  | bind i t =>
    obtain ⟨x, hx, -⟩ := ha
    rw [perform?, bind?, hx.1] at hf'
    obtain rfl := Option.some.inj hf'
    rw [Op.carry, hx.name?]
    exact h.bind hs hx t
  | union i j => exact h.union hs ha hf'

end Mirrors

/-- A forest, with the operations that built it and the classes that they build otherwise. -/
structure Refines (ops : List Op) (f : Forest) (c : Classes) : Prop where
  /-- Every allowed operation ends. -/
  performs : ∀ op, f.Allows op → ∃ f', f.perform? op = some f'
  /-- Looking for a root ends at a slot that points to itself, and changes nothing but where slots
  point to, which leaves all roots. -/
  finds : ∀ i < f.slots.length, ∃ (r : Nat) (f' : Forest) (x : Slot),
    f.find? i = some (r, f') ∧ f'.Root r x ∧ f'.slots.length = f.slots.length ∧
    (∀ k, f'.root? k = f.root? k) ∧
    ∀ (k : Nat) (z : Slot), f.slots[k]? = some z →
      ∃ parent, f'.slots[k]? = some { z with parent }
  /-- Slots have one root exactly if the unions so far connect them. -/
  same_iff : ∀ i j r s f₁ f₂, f.find? i = some (r, f₁) → f.find? j = some (s, f₂) →
    (r = s ↔ Connected ops i j)
  /-- A root keeps the member of the smallest id, and all members have its kind. -/
  least : ∀ r x, f.Root r x → (∃ i, f.root? i = some r ∧ f.name? i = some x.least) ∧
    ∀ i p, f.root? i = some r → f.name? i = some p → x.least.id ≤ p.id ∧ p.kind = x.least.kind
  /-- A root keeps the users ever added to a member, each once. -/
  users : ∀ r x, f.Root r x → x.users.Nodup ∧
    ∀ n, n ∈ x.users ↔ ∃ i, f.root? i = some r ∧ Op.use i n ∈ ops
  /-- A root keeps what a member was bound to. -/
  binding : ∀ r x, f.Root r x →
    ∀ t, x.binding = some t ↔ ∃ i, f.root? i = some r ∧ Op.bind i t ∈ ops
  /-- No other slot keeps anything of its class. -/
  bare : ∀ (i : Nat) (x : Slot), f.slots[i]? = some x → x.parent ≠ i →
    x.binding = none ∧ x.users = []
  /-- Ranks rise along the way up. -/
  rises : ∀ (i : Nat) (x : Slot), f.slots[i]? = some x → x.parent ≠ i →
    ∃ y : Slot, f.slots[x.parent]? = some y ∧ x.rank < y.rank
  /-- Classes are large enough for the ranks of their members. -/
  size : ∀ (i : Nat) (x : Slot) (r : Nat), f.slots[i]? = some x → f.root? i = some r →
    2 ^ x.rank.toNat ≤ (f.members r).card
  /-- Ranks stay far from the highest one. -/
  rank_le : ∀ (i : Nat) (x : Slot), f.slots[i]? = some x → x.rank.toNat ≤ 32
  /-- Classes whose members point directly to their leaders are led by the roots. -/
  mirrors : f.Mirrors c

theorem Built.sound (h : Built ops f c) : Sound ops f ∧ f.Mirrors c := by
  induction h with
  | empty => exact ⟨sound_empty, mirrors_empty⟩
  | step _ ha hf' ih =>
    obtain ⟨f'', hf'', hsound⟩ := ih.1.perform ha
    obtain rfl := Option.some.inj (hf''.symm.trans hf')
    exact ⟨hsound, ih.2.perform ih.1 ha hf'⟩

/-- Whatever is connected has one root. -/
theorem Sound.root?_eq_of_connected (h : Sound ops f) (hij : Connected ops i j) :
    f.root? i = f.root? j := by
  induction hij with
  | rel i j hunion => exact h.joined hunion
  | refl i => rfl
  | symm i j _ ih => exact ih.symm
  | trans i k j _ _ ih ih' => exact ih.trans ih'

/-- Whatever allowed operations build a forest, it has the classes that the unions among them
make, keeps of each what was done to its members, and never runs out of ranks. -/
theorem Built.refines (h : Built ops f c) : Refines ops f c := by
  obtain ⟨hs, hmirrors⟩ := h.sound
  have hroot : ∀ {i : Nat} {x : Slot}, f.slots[i]? = some x →
      ∃ r y, f.root? i = some r ∧ f.Root r y ∧ x.rank.toNat ≤ y.rank.toNat := by
    intro i x hx
    obtain ⟨r, y, hr, hy, hrank⟩ := hs.rises.exists_root hx
    refine ⟨r, y, hr, hy, ?_⟩
    obtain rfl | hlt := hrank
    · obtain rfl := Option.some.inj (hx.symm.trans hy.1)
      exact Nat.le_refl _
    · exact (UInt8.lt_iff_toNat_lt.mp hlt).le
  refine ⟨fun op ha => (hs.perform ha).imp fun _ => And.left, fun i hi => ?_,
    fun i j r s f₁ f₂ hi hj => ?_, fun r x hr => ?_, fun r x hr => ?_, fun r x hr t => ?_,
    fun i x => hs.bare, fun i x => hs.rises.above, fun i x r hx hr => ?_, fun i x hx => ?_,
    hmirrors⟩
  · obtain ⟨r, f', hfind, hr, hshort⟩ := hs.rises.exists_find hi
    obtain ⟨x, hx⟩ := hs.rises.root_of_root? hr
    exact ⟨r, f', x, hfind, hshort.root hx, hshort.length, hshort.reshapes.root? hs.rises,
      fun k z hz => (hshort.slot hz).imp fun _ => And.left⟩
  · have hi := (find?_eq_some hs.rises hi).1
    have hj := (find?_eq_some hs.rises hj).1
    constructor
    · rintro rfl
      exact hs.connected hi hj
    · intro hconnected
      exact Option.some.inj (hi.symm.trans ((hs.root?_eq_of_connected hconnected).trans hj))
  · obtain ⟨i, hi, hleast⟩ := (hs.describes hr).least_mem
    exact ⟨⟨i, mem_members.mp hi, hleast⟩, fun k p hk hp =>
      (hs.describes hr).least_le k (mem_members.mpr hk) p hp⟩
  · refine ⟨(hs.describes hr).nodup, fun n => ?_⟩
    rw [(hs.describes hr).users]
    exact exists_congr fun i => and_congr_left fun _ => mem_members
  · rw [(hs.describes hr).binding]
    exact exists_congr fun i => and_congr_left fun _ => mem_members
  · obtain ⟨r', y, hr', hy, hle⟩ := hroot hx
    obtain rfl := Option.some.inj (hr'.symm.trans hr)
    exact (Nat.pow_le_pow_right (by decide) hle).trans (hs.describes hy).size
  · obtain ⟨r, y, -, hy, hle⟩ := hroot hx
    exact hle.trans (hs.rank_le hy)

/-- Two placeholders are registered, the second gets a user, and they are joined. -/
theorem refines_joined :
    let p : Placeholder := ⟨4, .type⟩
    let q : Placeholder := ⟨2, .type⟩
    let ops : List Op := [.ensure p, .ensure q, .use 1 7, .union 0 1]
    let f : Forest := ⟨[⟨p, 0, 1, q, none, [7]⟩, ⟨q, 0, 0, q, none, []⟩]⟩
    ∃ c, Built ops f c ∧ Refines ops f c := by
  intro p q ops f
  let x : Slot := .single p 0
  let y : Slot := { Slot.single q 1 with users := [7] }
  have hx : (Forest.mk [x, y]).Root 0 x := ⟨rfl, rfl⟩
  have hy : (Forest.mk [x, y]).Root 1 y := ⟨rfl, rfl⟩
  have hunion : (Forest.mk [x, y]).perform? (.union 0 1) = some f := by
    rw [perform?, union?, hx.find?, Option.bind_eq_bind, Option.bind_some]
    dsimp only
    rw [hy.find?]
    rfl
  have hfirst : Built [.ensure p] ⟨[x]⟩ _ := Built.empty.step trivial rfl
  have hsecond : Built [.ensure p, .ensure q] ⟨[x, .single q 1]⟩ _ := hfirst.step trivial rfl
  have hused : Built [.ensure p, .ensure q, .use 1 7] ⟨[x, y]⟩ _ :=
    hsecond.step ⟨.single q 1, rfl, rfl⟩ rfl
  have hbuilt : Built ops f _ :=
    hused.step ⟨x, y, hx.class?, hy.class?, rfl, rfl, rfl⟩ hunion
  exact ⟨_, hbuilt, hbuilt.refines⟩

end Forest

end TensorTyping
