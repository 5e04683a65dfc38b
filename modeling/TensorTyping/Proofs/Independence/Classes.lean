import TensorTyping.Proofs.Session.Step

namespace TensorTyping

open Ty

/-- Some of the placeholders and relations of a session, which have a session of their own. -/
structure Group where
  /-- The ids of the placeholders. -/
  mine : UInt32 → Prop
  /-- The number that a relation of the group has in the whole session. -/
  number : Nat → Nat
  injective : Function.Injective number

/-- What is known of a class, with other numbers for its users. -/
def Cell.renumber (f : Nat → Nat) (x : Cell) : Cell := { x with users := x.users.map f }

theorem addUsers_map {f : Nat → Nat} (hf : Function.Injective f) (users new : List Nat) :
    addUsers (users.map f) (new.map f) = (addUsers users new).map f := by
  induction new generalizing users with
  | nil => rfl
  | cons n new ih =>
    have hstep : (if f n ∈ users.map f then users.map f else users.map f ++ [f n]) =
        (if n ∈ users then users else users ++ [n]).map f := by
      simp only [List.mem_map_of_injective hf]
      split
      · rfl
      · rw [List.map_append]
        rfl
    rw [addUsers, List.map_cons, List.foldl_cons, hstep]
    exact ih _

theorem Cell.renumber_join {f : Nat → Nat} (hf : Function.Injective f) (x y : Cell) :
    (x.renumber f).join (y.renumber f) = (x.join y).renumber f := by
  simp only [Cell.join, Cell.absorb, Cell.renumber, addUsers_map hf]
  split
  · rfl
  · split <;> rfl

namespace Classes

variable {G : Group} {c a : Classes}

/-- The classes of a session have the classes of a group's own session among them, with
the same leaders, ranks and bindings. -/
structure Part (G : Group) (c a : Classes) : Prop where
  whole : c.Partitioned
  part : a.Partitioned
  class? : ∀ {id}, G.mine id → c.class? id = (a.class? id).map (Cell.renumber G.number)
  mine : ∀ {id}, a.Registered id → G.mine id
  bound : ∀ {id t}, a.binding? id = some t → ∀ i ∈ t.ids, G.mine i

namespace Part

section lookup

variable (h : Part G c a) {id : UInt32} (hid : G.mine id)

include h hid

theorem registered : c.Registered id ↔ a.Registered id := by
  constructor
  · intro hc
    obtain ⟨r, hr⟩ := h.whole.exists_class? hc
    rw [h.class? hid] at hr
    obtain ⟨x, hx, -⟩ := Option.map_eq_some_iff.mp hr
    exact registered_of_class? hx
  · intro ha
    obtain ⟨x, hx⟩ := h.part.exists_class? ha
    exact registered_of_class? (h.class? hid ▸ Option.map_eq_some_iff.mpr ⟨x, hx, rfl⟩)

theorem leader : c.leader id = a.leader id := by
  by_cases ha : a.Registered id
  · obtain ⟨x, hx⟩ := h.part.exists_class? ha
    have hr := h.class? hid
    rw [hx, Option.map_some] at hr
    exact (h.whole.class?_eq_some hr).1.symm.trans (h.part.class?_eq_some hx).1
  · rw [Partitioned.leader_of_not_registered ha,
      Partitioned.leader_of_not_registered (mt (h.registered hid).mp ha)]

theorem mine_leader : G.mine (c.leader id) := by
  rw [h.leader hid]
  by_cases ha : a.Registered id
  · obtain ⟨x, hx⟩ := h.part.exists_class? ha
    obtain ⟨hleader, -, hcell⟩ := h.part.class?_eq_some hx
    exact h.mine (hleader ▸ Option.isSome_iff_exists.mpr ⟨x, hcell⟩)
  · rwa [Partitioned.leader_of_not_registered ha]

theorem users : c.users id = (a.users id).map G.number := by
  rw [Classes.users, h.class? hid, Classes.users]
  cases a.class? id <;> rfl

theorem binding? : c.binding? id = a.binding? id := by
  rw [Classes.binding?, h.class? hid, Classes.binding?]
  cases a.class? id <;> rfl

end lookup

theorem mine_binding (h : Part G c a) {id : UInt32} {x : Cell} {t : Ty}
    (hx : a.class? id = some x) (ht : x.binding = some t) : ∀ i ∈ t.ids, G.mine i :=
  h.bound (show a.binding? id = some t by rw [Classes.binding?, hx]; exact ht)

theorem least (h : Part G c a) {p : Placeholder} (hp : G.mine p.id) : c.least p = a.least p := by
  rw [Classes.least, h.class? hp, Classes.least]
  cases a.class? p.id <;> rfl

theorem image? (h : Part G c a) {p : Placeholder} (hp : G.mine p.id) :
    c.image? p = a.image? p := by
  rw [Classes.image?, h.class? hp, Classes.image?]
  cases a.class? p.id <;> rfl

theorem mine_image (h : Part G c a) {p : Placeholder} (hp : G.mine p.id) :
    ∀ i ∈ (a.image p).ids, G.mine i := by
  cases hr : a.class? p.id with
  | none =>
    have hnone : ¬ a.Registered p.id := fun hp => by
      obtain ⟨r, hr'⟩ := h.part.exists_class? hp
      rw [hr] at hr'
      cases hr'
    rw [(settled_of_not_registered hnone).image rfl, ids_hole]
    exact fun i hi => List.mem_singleton.mp hi ▸ hp
  | some r =>
    cases hb : r.binding with
    | none =>
      obtain ⟨q, hq, hleast⟩ := exists_image_eq_hole hr hb
      rw [hq, ids_hole, hleast]
      exact fun i hi => List.mem_singleton.mp hi ▸ h.mine (h.part.class?_least hr).1
    | some t =>
      rw [image_of_binding? (show a.binding? p.id = some t by simp [Classes.binding?, hr, hb])]
      exact h.mine_binding hr hb

section resolve

variable (h : Part G c a) {t : Ty} (ht : ∀ i ∈ t.ids, G.mine i)

include h ht

theorem resolve : c.resolve t = a.resolve t := by
  rw [c.resolve_eq_fill, a.resolve_eq_fill]
  exact fill_congr fun p hp => by
    rw [Classes.image, h.image? (ht p.id (mem_ids.mpr ⟨p, hp, rfl⟩)), Classes.image]

theorem mine_resolve : ∀ i ∈ (a.resolve t).ids, G.mine i := by
  intro i hi
  rw [a.resolve_eq_fill] at hi
  obtain ⟨q, hq, rfl⟩ := mem_ids.mp hi
  obtain ⟨p, hp, hpq⟩ := mem_occurrences_fill.mp hq
  exact h.mine_image (ht p.id (mem_ids.mpr ⟨p, hp, rfl⟩)) q.id (mem_ids.mpr ⟨q, hpq, rfl⟩)

end resolve

section ensure

variable {p : Placeholder}

theorem ensure (h : Part G c a) (hp : G.mine p.id) : Part G (c.ensure p) (a.ensure p) := by
  refine ⟨h.whole.ensure p, h.part.ensure p, fun {id} hid => ?_, fun {id} hid => ?_,
    fun {id t} ht => h.bound (h.part.binding?_ensure p id ▸ ht)⟩
  · by_cases ha : a.Registered id
    · rw [h.whole.class?_ensure p ((h.registered hid).mpr ha), h.part.class?_ensure p ha,
        h.class? hid]
    · have hc := mt (h.registered hid).mp ha
      by_cases heq : id = p.id
      · subst heq
        rw [class?_ensure_self p hc, class?_ensure_self p ha]
        rfl
      · rw [class?_of_not_registered, class?_of_not_registered]
        · rfl
        · exact fun h => ((registered_ensure a p).mp h).elim ha heq
        · exact fun h => ((registered_ensure c p).mp h).elim hc heq
  · exact ((registered_ensure a p).mp hid).elim h.mine fun heq => heq ▸ hp

theorem ensure_other (h : Part G c a) (hp : ¬ G.mine p.id) : Part G (c.ensure p) a := by
  refine ⟨h.whole.ensure p, h.part, fun {id} hid => ?_, h.mine, h.bound⟩
  rw [← h.class? hid]
  by_cases hc : c.Registered id
  · exact h.whole.class?_ensure p hc
  · rw [class?_of_not_registered hc, class?_of_not_registered]
    exact fun h => ((registered_ensure c p).mp h).elim hc fun heq => hp (heq ▸ hid)

end ensure

section modify

variable {leader : UInt32} {f g : Cell → Cell}
  (hf : ∀ x, (f x).placeholder = x.placeholder ∧ (f x).leader = x.leader ∧ (f x).least = x.least)
include hf

theorem modify (h : Part G c a)
    (hg : ∀ x, (g x).placeholder = x.placeholder ∧ (g x).leader = x.leader ∧ (g x).least = x.least)
    (hfg : ∀ x, f (x.renumber G.number) = (g x).renumber G.number)
    (hbound : ∀ x t, (g x).binding = some t → x.binding = some t ∨ ∀ i ∈ t.ids, G.mine i) :
    Part G (c.modify leader f) (a.modify leader g) := by
  have hplaceholder := fun x => (hf x).1
  have hplaceholder' := fun x => (hg x).1
  have hleader := fun x => (hf x).2.1
  have hleader' := fun x => (hg x).2.1
  refine ⟨h.whole.modify leader hplaceholder hleader fun x => (hf x).2.2,
    h.part.modify leader hplaceholder' hleader' fun x => (hg x).2.2, fun {id} hid => ?_,
    fun {id} hid => h.mine ((registered_modify leader hplaceholder' id).mp hid), fun {id t} ht => ?_⟩
  · rw [class?_modify leader hplaceholder hleader, class?_modify leader hplaceholder' hleader',
      h.class? hid]
    cases a.class? id with
    | none => rfl
    | some x =>
      simp only [Option.map_some, hfg]
      exact congrArg some (apply_ite (Cell.renumber G.number) _ _ _).symm
  · rw [Classes.binding?, class?_modify leader hplaceholder' hleader'] at ht
    cases hr : a.class? id with
    | none =>
      rw [hr] at ht
      cases ht
    | some x =>
      rw [hr, Option.map_some, Option.bind_some] at ht
      split at ht
      · exact (hbound x t ht).elim (h.mine_binding hr) fun ht => ht
      · exact h.mine_binding hr ht

theorem modify_other (h : Part G c a) (hleader : ¬ G.mine leader) :
    Part G (c.modify leader f) a := by
  have hplaceholder := fun x => (hf x).1
  refine ⟨h.whole.modify leader hplaceholder (fun x => (hf x).2.1) fun x => (hf x).2.2, h.part,
    fun {id} hid => ?_, h.mine, h.bound⟩
  rw [h.whole.class?_modify_of_ne leader hplaceholder (fun x => (hf x).2.1), h.class? hid]
  exact fun heq => hleader (heq ▸ h.mine_leader hid)

end modify

section refresh

theorem refresh (h : Part G c a) : Part G c.refresh a.refresh := by
  refine ⟨h.whole.refresh, h.part.refresh, fun {id} hid => ?_,
    fun {id} hid => h.mine ((registered_refresh id).mp hid), fun {id t} ht => ?_⟩
  · rw [class?_refresh, class?_refresh, h.class? hid]
    cases hr : a.class? id with
    | none => rfl
    | some x =>
      have hbinding : x.binding.map c.resolve = x.binding.map a.resolve := by
        cases hb : x.binding with
        | none => rfl
        | some t =>
          exact congrArg some (h.resolve (h.mine_binding hr hb))
      simp [Cell.renumber, hbinding]
  · rw [binding?_refresh] at ht
    obtain ⟨u, hu, rfl⟩ := Option.map_eq_some_iff.mp ht
    exact h.mine_resolve (h.bound hu)

theorem refresh_other (h : Part G c a) (ha : a.Valid) : Part G c.refresh a := by
  refine ⟨h.whole.refresh, h.part, fun {id} hid => ?_, h.mine, h.bound⟩
  rw [class?_refresh, h.class? hid]
  cases hr : a.class? id with
  | none => rfl
  | some x =>
    have hbinding : x.binding.map c.resolve = x.binding := by
      cases hb : x.binding with
      | none => rfl
      | some t =>
        have ht : a.binding? id = some t := by simp [Classes.binding?, hr, hb]
        exact congrArg some ((h.resolve (h.bound ht)).trans (ha.bound ht).1.resolve_eq)
    simp [Cell.renumber, hbinding]

end refresh

section join

variable {i j : UInt32} {x y : Cell}

private theorem registered_of_joined {c' : Classes} (hc : c.Partitioned) (hc' : c'.Partitioned)
    (hx : c.class? i = some x) (hy : c.class? j = some y)
    (hclass : ∀ k, c'.class? k = if c.leader k = c.leader i ∨ c.leader k = c.leader j then
      some (x.join y) else c.class? k) {k : UInt32} (hk : c'.Registered k) : c.Registered k := by
  obtain ⟨r, hr⟩ := hc'.exists_class? hk
  rw [hclass] at hr
  split at hr
  · rename_i hleader
    exact hleader.elim
      (fun heq => hc.registered_of_leader_eq (registered_of_class? hx) heq.symm)
      fun heq => hc.registered_of_leader_eq (registered_of_class? hy) heq.symm
  · exact registered_of_class? hr

/-- Two classes of a group are joined alike in the whole session, up to bringing bindings
up to date. -/
theorem exists_join (h : Part G c a) (hi : G.mine i) (hj : G.mine j) (hx : a.class? i = some x)
    (hy : a.class? j = some y) (hne : a.leader i ≠ a.leader j) :
    ∃ c' a' : Classes, c.join (c.leader i) (c.leader j) = c'.refresh ∧
      a.join (a.leader i) (a.leader j) = a'.refresh ∧ Part G c' a' ∧ c'.Partitioned ∧
      (∀ k, c.leader k ≠ c.leader i → c.leader k ≠ c.leader j → c'.class? k = c.class? k) ∧
      ∀ k, c'.Registered k → c.Registered k := by
  have hx' := h.class? hi
  have hy' := h.class? hj
  rw [hx, Option.map_some] at hx'
  rw [hy, Option.map_some] at hy'
  have hne' : c.leader i ≠ c.leader j := by rwa [h.leader hi, h.leader hj]
  obtain ⟨c', hc', hjoin, hclass⟩ := h.whole.exists_join hx' hy' hne'
  obtain ⟨a', ha', hjoin', hclass'⟩ := h.part.exists_join hx hy hne
  refine ⟨c', a', hjoin, hjoin', ⟨hc', ha', fun {id} hid => ?_, fun {id} hid => ?_,
    fun {id t} ht => ?_⟩, hc', fun k hki hkj => by rw [hclass, if_neg (not_or.mpr ⟨hki, hkj⟩)],
    fun k hk => registered_of_joined h.whole hc' hx' hy' hclass hk⟩
  · rw [hclass, hclass', h.leader hid, h.leader hi, h.leader hj, h.class? hid,
      Cell.renumber_join G.injective]
    split <;> rfl
  · exact h.mine (registered_of_joined h.part ha' hx hy hclass' hid)
  · rw [Classes.binding?, hclass'] at ht
    split at ht
    · exact (Cell.binding_join ht).elim (h.mine_binding hx) (h.mine_binding hy)
    · exact h.bound ht

end join

end Part

/-- The classes of a session are those of two groups' own sessions side by side. -/
structure Splits (G H : Group) (c a b : Classes) : Prop where
  left : Part G c a
  right : Part H c b
  apart : ∀ {id}, G.mine id → ¬ H.mine id
  owned : ∀ {id}, c.Registered id → G.mine id ∨ H.mine id

namespace Splits

variable {H : Group} {b : Classes}

theorem symm (h : Splits G H c a b) : Splits H G c b a :=
  ⟨h.right, h.left, fun hH hG => h.apart hG hH, fun hid => (h.owned hid).symm⟩

theorem ensure (h : Splits G H c a b) {p : Placeholder} (hp : G.mine p.id) :
    Splits G H (c.ensure p) (a.ensure p) b :=
  ⟨h.left.ensure hp, h.right.ensure_other (h.apart hp), h.apart, fun hid =>
    ((registered_ensure c p).mp hid).elim h.owned fun heq => Or.inl (heq ▸ hp)⟩

theorem ensureAll (h : Splits G H c a b) {ps : List Placeholder} (hps : ∀ p ∈ ps, G.mine p.id) :
    Splits G H (c.ensureAll ps) (a.ensureAll ps) b := by
  induction ps generalizing c a with
  | nil => exact h
  | cons p ps ih =>
    rw [List.forall_mem_cons] at hps
    exact ih (h.ensure hps.1) hps.2

theorem use (h : Splits G H c a b) {id : UInt32} (hid : G.mine id) (new : List Nat) :
    Splits G H (c.use (c.leader id) (new.map G.number)) (a.use (a.leader id) new) b := by
  refine ⟨?_, h.right.modify_other (fun _ => ⟨rfl, rfl, rfl⟩) (h.apart (h.left.mine_leader hid)),
    h.apart, fun hid => h.owned ((registered_use _ _ _).mp hid)⟩
  rw [h.left.leader hid]
  exact h.left.modify (fun _ => ⟨rfl, rfl, rfl⟩) (fun _ => ⟨rfl, rfl, rfl⟩)
    (fun x => by simp [Cell.renumber, addUsers_map G.injective]) fun _ _ ht => Or.inl ht

theorem useAll (h : Splits G H c a b) {qs : List Placeholder} (hqs : ∀ q ∈ qs, G.mine q.id)
    (new : List Nat) :
    Splits G H (qs.foldl (fun c q => c.use (c.leader q.id) (new.map G.number)) c)
      (qs.foldl (fun a q => a.use (a.leader q.id) new) a) b := by
  induction qs generalizing c a with
  | nil => exact h
  | cons q qs ih =>
    rw [List.forall_mem_cons] at hqs
    exact ih (h.use hqs.1 new) hqs.2

theorem bind (h : Splits G H c a b) (hb : b.Valid) {id : UInt32} (hid : G.mine id) {t : Ty}
    (ht : ∀ i ∈ t.ids, G.mine i) :
    Splits G H (c.bind (c.leader id) t) (a.bind (a.leader id) t) b := by
  have hright : Part H (c.modify (c.leader id) fun x => { x with binding := some t }) b :=
    h.right.modify_other (fun _ => ⟨rfl, rfl, rfl⟩) (h.apart (h.left.mine_leader hid))
  have hleft : Part G (c.modify (a.leader id) fun x => { x with binding := some t })
      (a.modify (a.leader id) fun x => { x with binding := some t }) :=
    h.left.modify (fun _ => ⟨rfl, rfl, rfl⟩) (fun _ => ⟨rfl, rfl, rfl⟩) (fun _ => rfl)
      fun _ _ hu => Or.inr (Option.some.inj hu ▸ ht)
  have hregistered : ∀ i, (c.bind (c.leader id) t).Registered i ↔ c.Registered i := fun i =>
    (registered_refresh i).trans (registered_modify (c.leader id) (by intro _; rfl) i)
  refine ⟨?_, hright.refresh_other hb, h.apart, fun hid => h.owned ((hregistered _).mp hid)⟩
  rw [h.left.leader hid]
  exact hleft.refresh

theorem join (h : Splits G H c a b) (hb : b.Valid) {i j : UInt32} (hi : G.mine i) (hj : G.mine j)
    (hri : a.Registered i) (hrj : a.Registered j) (hne : a.leader i ≠ a.leader j) :
    Splits G H (c.join (c.leader i) (c.leader j)) (a.join (a.leader i) (a.leader j)) b := by
  obtain ⟨x, hx⟩ := h.left.part.exists_class? hri
  obtain ⟨y, hy⟩ := h.left.part.exists_class? hrj
  obtain ⟨c', a', hjoin, hjoin', hpart, hc', hclass, hregistered⟩ :=
    h.left.exists_join hi hj hx hy hne
  rw [hjoin, hjoin']
  refine ⟨hpart.refresh, Part.refresh_other ⟨hc', h.right.part, fun {id} hid => ?_, h.right.mine,
    h.right.bound⟩ hb, h.apart, fun hid => h.owned (hregistered _ ((registered_refresh _).mp hid))⟩
  have hother : ∀ k, G.mine k → c.leader id ≠ c.leader k := fun k hk heq =>
    h.apart (h.left.mine_leader hk) (heq ▸ h.right.mine_leader hid)
  rw [hclass id (hother i hi) (hother j hj), h.right.class? hid]

end Splits

end Classes

end TensorTyping
