import Mathlib.Data.Finset.Union
import TensorTyping.Proofs.Forest.Union
import TensorTyping.Proofs.Session.Classes

namespace TensorTyping

theorem nodup_addUsers {users new : List Nat} (h : users.Nodup) : (addUsers users new).Nodup := by
  induction new generalizing users with
  | nil => exact h
  | cons n new ih =>
    rw [addUsers, List.foldl_cons, ← addUsers]
    refine ih ?_
    split
    · exact h
    · rename_i hn
      exact List.nodup_append.mpr ⟨h, List.nodup_singleton n, fun m hm k hk hmk =>
        hn (List.mem_singleton.mp hk ▸ hmk ▸ hm)⟩

namespace Forest

variable {ops : List Op} {op : Op} {f f' : Forest} {i j r : Nat} {x y : Slot}

/-- An operation has to do with registered placeholders only. -/
def Op.Within (n : Nat) : Op → Prop
  | ensure _ | find _ => True
  | use i _ | bind i _ => i < n
  | union i j => i < n ∧ j < n

theorem Op.Within.mono {n m : Nat} (h : op.Within n) (hle : n ≤ m) : op.Within m := by
  cases op with
  | ensure | find => trivial
  | use | bind => exact Nat.lt_of_lt_of_le h hle
  | union => exact ⟨Nat.lt_of_lt_of_le h.1 hle, Nat.lt_of_lt_of_le h.2 hle⟩

/-- An operation neither adds a user to a slot nor binds it. -/
def Op.Spares (op : Op) (i : Nat) : Prop := (∀ user, op ≠ .use i user) ∧ ∀ t, op ≠ .bind i t

/-- What a root keeps of its class: the member of the smallest id, which has the kind of
all; the users added to members, each once; what a member was bound to; and a rank that the class
is large enough for. -/
structure Describes (ops : List Op) (name? : Nat → Option Placeholder) (M : Finset Nat)
    (x : Slot) : Prop where
  least_mem : ∃ i ∈ M, name? i = some x.least
  least_le : ∀ i ∈ M, ∀ p, name? i = some p → x.least.id ≤ p.id ∧ p.kind = x.least.kind
  nodup : x.users.Nodup
  users : ∀ n, n ∈ x.users ↔ ∃ i ∈ M, Op.use i n ∈ ops
  binding : ∀ t, x.binding = some t ↔ ∃ i ∈ M, Op.bind i t ∈ ops
  size : 2 ^ x.rank.toNat ≤ M.card

namespace Describes

variable {name? : Nat → Option Placeholder} {M N : Finset Nat}

theorem congr (h : Describes ops name? M x) {other? : Nat → Option Placeholder}
    (hname : ∀ i ∈ M, other? i = name? i) : Describes ops other? M x := by
  refine ⟨?_, fun i hi p hp => h.least_le i hi p (hname i hi ▸ hp), h.nodup, h.users, h.binding,
    h.size⟩
  obtain ⟨i, hi, hleast⟩ := h.least_mem
  exact ⟨i, hi, (hname i hi).trans hleast⟩

theorem snoc (h : Describes ops name? M x) (hop : ∀ i ∈ M, op.Spares i) :
    Describes (ops ++ [op]) name? M x := by
  refine ⟨h.least_mem, h.least_le, h.nodup, fun n => ?_, fun t => ?_, h.size⟩
  · rw [h.users]
    refine exists_congr fun i => and_congr_right fun hi => ?_
    rw [List.mem_append, List.mem_singleton]
    exact ⟨Or.inl, fun hmem => hmem.resolve_right fun heq => (hop i hi).1 n heq.symm⟩
  · rw [h.binding]
    refine exists_congr fun i => and_congr_right fun hi => ?_
    rw [List.mem_append, List.mem_singleton]
    exact ⟨Or.inl, fun hmem => hmem.resolve_right fun heq => (hop i hi).2 t heq.symm⟩

/-- A placeholder that nothing was done to yet. -/
theorem single {p : Placeholder} (hname : name? i = some p)
    (huse : ∀ user, Op.use i user ∉ ops) (hbind : ∀ t, Op.bind i t ∉ ops) :
    Describes ops name? {i} (.single p i) := by
  refine ⟨⟨i, Finset.mem_singleton_self i, hname⟩, fun k hk q hq => ?_, List.nodup_nil,
    fun n => ?_, fun t => ?_, Nat.le_refl 1⟩
  · obtain rfl := Finset.mem_singleton.mp hk
    obtain rfl : p = q := Option.some.inj (hname.symm.trans hq)
    exact ⟨UInt32.le_refl _, rfl⟩
  · refine ⟨fun hn => absurd hn List.not_mem_nil, ?_⟩
    rintro ⟨k, hk, hmem⟩
    exact absurd (Finset.mem_singleton.mp hk ▸ hmem) (huse n)
  · constructor
    · intro ht
      cases ht
    · rintro ⟨k, hk, hmem⟩
      exact absurd (Finset.mem_singleton.mp hk ▸ hmem) (hbind t)

theorem use (h : Describes ops name? M x) (hi : i ∈ M) (user : Nat) :
    Describes (ops ++ [.use i user]) name? M { x with users := addUsers x.users [user] } := by
  refine ⟨h.least_mem, h.least_le, nodup_addUsers h.nodup, fun n => ?_, fun t => ?_, h.size⟩
  · rw [mem_addUsers, h.users, List.mem_singleton]
    constructor
    · rintro (⟨k, hk, hmem⟩ | rfl)
      · exact ⟨k, hk, List.mem_append_left _ hmem⟩
      · exact ⟨i, hi, List.mem_append_right _ (List.mem_singleton_self _)⟩
    · rintro ⟨k, hk, hmem⟩
      obtain hmem | hmem := List.mem_append.mp hmem
      · exact Or.inl ⟨k, hk, hmem⟩
      · cases List.mem_singleton.mp hmem
        exact Or.inr rfl
  · rw [h.binding]
    refine exists_congr fun k => and_congr_right fun _ => ?_
    simp

theorem bind (h : Describes ops name? M x) (hi : i ∈ M) (hunbound : x.binding = none) (t : Ty) :
    Describes (ops ++ [.bind i t]) name? M { x with binding := some t } := by
  refine ⟨h.least_mem, h.least_le, h.nodup, fun n => ?_, fun u => ?_, h.size⟩
  · rw [h.users]
    refine exists_congr fun k => and_congr_right fun _ => ?_
    simp
  · constructor
    · intro hu
      obtain rfl := Option.some.inj hu
      exact ⟨i, hi, List.mem_append_right _ (List.mem_singleton_self _)⟩
    · rintro ⟨k, hk, hmem⟩
      obtain hmem | hmem := List.mem_append.mp hmem
      · have hbound := (h.binding u).mpr ⟨k, hk, hmem⟩
        rw [hunbound] at hbound
        cases hbound
      · cases List.mem_singleton.mp hmem
        rfl

/-- Of two classes that were never bound, the joint root keeps what is right for both. -/
theorem absorb {rank : UInt8} (hx : Describes ops name? M x) (hy : Describes ops name? N y)
    (hdisjoint : Disjoint M N) (hkind : x.least.kind = y.least.kind) (hbx : x.binding = none)
    (hby : y.binding = none) (hranked : Ranked x y rank) (hsmall : x.rank.toNat < 255) :
    Describes ops name? (M ∪ N) (x.absorb y rank) := by
  have hleast : (x.absorb y rank).least =
      if y.least.id < x.least.id then y.least else x.least := rfl
  refine ⟨?_, ?_, nodup_addUsers hx.nodup, fun n => ?_, fun t => ?_, ?_⟩
  · rw [hleast]
    split
    · exact hy.least_mem.imp fun i hi => ⟨Finset.mem_union_right _ hi.1, hi.2⟩
    · exact hx.least_mem.imp fun i hi => ⟨Finset.mem_union_left _ hi.1, hi.2⟩
  · intro i hi p hp
    rw [hleast]
    obtain hi | hi := Finset.mem_union.mp hi
    · obtain ⟨hle, hk⟩ := hx.least_le i hi p hp
      split
      · rename_i hlt
        exact ⟨UInt32.le_trans (UInt32.le_of_lt hlt) hle, hk.trans hkind⟩
      · exact ⟨hle, hk⟩
    · obtain ⟨hle, hk⟩ := hy.least_le i hi p hp
      split
      · exact ⟨hle, hk⟩
      · rename_i hlt
        exact ⟨UInt32.le_trans (UInt32.not_lt.mp hlt) hle, hk.trans hkind.symm⟩
  · have husers : (x.absorb y rank).users = addUsers x.users y.users := rfl
    simp only [husers, mem_addUsers, hx.users, hy.users, Finset.mem_union, or_and_right, exists_or]
  · have hbinding : (x.absorb y rank).binding = none := by simp [Slot.absorb, hbx, hby]
    have hnone : ∀ {z : Slot} {K}, Describes ops name? K z → z.binding = none →
        ¬ ∃ i ∈ K, Op.bind i t ∈ ops := fun hz hb hbind => by
      have hsome := (hz.binding t).mpr hbind
      rw [hb] at hsome
      cases hsome
    constructor
    · intro hsome
      rw [hbinding] at hsome
      cases hsome
    · rintro ⟨i, hi, hmem⟩
      obtain hi | hi := Finset.mem_union.mp hi
      · exact absurd ⟨i, hi, hmem⟩ (hnone hx hbx)
      · exact absurd ⟨i, hi, hmem⟩ (hnone hy hby)
  · have hcard : (M ∪ N).card = M.card + N.card := Finset.card_union_of_disjoint hdisjoint
    have hrank : (x.absorb y rank).rank = rank := rfl
    rw [hcard, hrank]
    obtain ⟨-, rfl⟩ | ⟨heq, rfl⟩ := hranked
    · exact Nat.le_add_right_of_le hx.size
    · have hsize := hy.size
      rw [← heq] at hsize
      rw [toNat_risen hsmall, pow_succ, Nat.mul_two]
      exact Nat.add_le_add hx.size hsize

end Describes

theorem placeholders_eq_of_name? (h : f'.name? = f.name?) :
    f'.slots.map (·.placeholder) = f.slots.map (·.placeholder) := by
  refine List.ext_getElem? fun i => ?_
  rw [List.getElem?_map, List.getElem?_map]
  exact congrFun h i

theorem ids_eq_of_name? (h : f'.name? = f.name?) :
    f'.slots.map (·.placeholder.id) = f.slots.map (·.placeholder.id) := by
  have hids := congrArg (List.map Placeholder.id) (placeholders_eq_of_name? h)
  rwa [List.map_map, List.map_map] at hids

theorem mem_members : i ∈ f.members r ↔ f.root? i = some r := by
  rw [members, Finset.mem_filter, Finset.mem_range]
  exact ⟨And.right, fun h => ⟨lt_length_of_root? h, h⟩⟩

theorem Root.mem_members (h : f.Root r x) : r ∈ f.members r := Forest.mem_members.mpr h.root?

theorem card_members_le (f : Forest) (r : Nat) : (f.members r).card ≤ f.slots.length :=
  (Finset.card_filter_le _ _).trans (Finset.card_range _).le

/-- The forest is right about the operations that built it. -/
structure Sound (ops : List Op) (f : Forest) : Prop where
  nodup : (f.slots.map (·.placeholder.id)).Nodup
  rises : f.Rises
  known : ∀ op ∈ ops, op.Within f.slots.length
  bare : ∀ {i : Nat} {x : Slot}, f.slots[i]? = some x → x.parent ≠ i →
    x.binding = none ∧ x.users = []
  describes : ∀ {r x}, f.Root r x → Describes ops f.name? (f.members r) x
  joined : ∀ {i j}, Op.union i j ∈ ops → f.root? i = f.root? j
  connected : ∀ {i j r}, f.root? i = some r → f.root? j = some r → Connected ops i j

theorem sound_empty : Sound [] .empty := by
  have hnone : ∀ i, Forest.empty.slots[i]? = none := fun _ => List.getElem?_nil
  refine ⟨List.nodup_nil, ⟨fun hx => ?_⟩, fun _ hop => absurd hop List.not_mem_nil, fun hx => ?_,
    fun hr => ?_, fun hop => absurd hop List.not_mem_nil, fun hi => ?_⟩
  · cases hx
  · cases hx
  · cases hr.1
  · rw [root?_of_none (hnone _)] at hi
    cases hi

/-- There are no more placeholders than ids. -/
theorem Sound.length_le (h : Sound ops f) : f.slots.length ≤ 2 ^ 32 := by
  have hnodup : ((f.slots.map (·.placeholder.id)).map UInt32.toNat).Nodup :=
    h.nodup.map fun _ _ hid => UInt32.toNat_inj.mp hid
  have hsub : ((f.slots.map (·.placeholder.id)).map UInt32.toNat).toFinset ⊆
      Finset.range (2 ^ 32) := by
    intro n hn
    obtain ⟨id, -, rfl⟩ := List.mem_map.mp (List.mem_toFinset.mp hn)
    exact Finset.mem_range.mpr id.toNat_lt
  have hcard := Finset.card_le_card hsub
  rwa [List.toFinset_card_of_nodup hnodup, List.length_map, List.length_map,
    Finset.card_range] at hcard

/-- The rank of a root is at most 32, so it is never as high as can be. -/
theorem Sound.rank_le (h : Sound ops f) (hr : f.Root r x) : x.rank.toNat ≤ 32 := by
  have hsize := (h.describes hr).size.trans ((card_members_le f r).trans h.length_le)
  exact (Nat.pow_le_pow_iff_right (by decide)).mp hsize

namespace Sound

/-- Nothing is added to the log but what spares all slots and joins what is joined. -/
theorem snoc (h : Sound ops f) (hknown : op.Within f.slots.length) (hspares : ∀ i, op.Spares i)
    (hjoined : ∀ i j, op = .union i j → f.root? i = f.root? j) : Sound (ops ++ [op]) f := by
  refine ⟨h.nodup, h.rises, fun o ho => ?_, h.bare, fun hr => ?_, fun ho => ?_, fun hi hj => ?_⟩
  · obtain ho | ho := List.mem_append.mp ho
    · exact h.known o ho
    · exact List.mem_singleton.mp ho ▸ hknown
  · exact (h.describes hr).snoc fun i _ => hspares i
  · obtain ho | ho := List.mem_append.mp ho
    · exact h.joined ho
    · exact hjoined _ _ (List.mem_singleton.mp ho).symm
  · exact (h.connected hi hj).mono fun _ _ ho => List.mem_append_left _ ho

theorem shortens (h : Sound ops f) (hs : Shortens f f') : Sound ops f' := by
  have hroot : ∀ i, f'.root? i = f.root? i := hs.reshapes.root? h.rises
  have hname : f'.name? = f.name? := funext hs.reshapes.name?
  refine ⟨ids_eq_of_name? hname ▸ h.nodup, hs.reshapes.rises h.rises, hs.length ▸ h.known,
    fun {i x'} hx' hparent => ?_, fun hr => ?_, fun ho => ?_, fun hi hj => ?_⟩
  · obtain ⟨x, hx⟩ := hs.reshapes.exists_slot hx'
    obtain ⟨parent, hx'', -⟩ := hs.slot hx
    obtain rfl := Option.some.inj (hx''.symm.trans hx')
    have hmoves : x.parent ≠ i := by
      intro hself
      obtain heq := Option.some.inj ((hs.root ⟨hx, hself⟩).1.symm.trans hx'')
      rw [← heq] at hparent
      exact hparent hself
    obtain ⟨hbinding, husers⟩ := h.bare hx hmoves
    exact ⟨hbinding, husers⟩
  · rw [hname, hs.reshapes.members h.rises]
    exact h.describes ((hs.root_iff h.rises).mp hr)
  · rw [hroot, hroot]
    exact h.joined ho
  · rw [hroot] at hi hj
    exact h.connected hi hj

end Sound

end Forest

end TensorTyping
