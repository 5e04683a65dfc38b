import TensorTyping.Proofs.Session.Moments

namespace TensorTyping

open Ty

namespace Classes

variable {c : Classes} {bound : List (UInt32 × Ty)}

/-- A placeholder has the smallest id in a class that is not bound. -/
structure Smallest (c : Classes) (i : UInt32) : Prop where
  registered : c.Registered i
  unbound : c.binding? i = none
  le : ∀ j, c.leader j = c.leader i → i ≤ j

/-- Exactly the placeholders with the smallest ids of unbound classes stand for
themselves. -/
theorem Tracks.settled_iff_smallest (h : c.Tracks bound) {i : UInt32} (hi : c.Registered i) :
    c.Settled i ↔ c.Smallest i := by
  obtain ⟨r, hr⟩ := h.valid.exists_class? hi
  have hle : r.binding = none → ∀ j, c.leader j = c.leader i → r.least.id ≤ j := by
    intro hb j hlead
    have hj := h.valid.registered_of_leader_eq hi hlead.symm
    obtain ⟨q, himage, hq⟩ :=
      exists_image_eq_hole (p := ⟨j, .type⟩) ((class?_congr hj hi hlead).trans hr) hb
    rw [← hq]
    exact h.least himage
  rw [settled_iff hr]
  constructor
  · rintro ⟨hb, rfl⟩
    exact ⟨hi, (binding?_eq_none hr).mpr hb, hle hb⟩
  · intro hsmallest
    have hb := (binding?_eq_none hr).mp hsmallest.unbound
    exact ⟨hb, UInt32.le_antisymm (hle hb i rfl)
      (hsmallest.le r.least.id (h.valid.class?_least hr).2.1)⟩

/-- Only placeholders that are not registered, and the smallest ones of unbound
classes, are left in a type. -/
theorem Tracks.left (h : c.Tracks bound) (t : Ty) {i : UInt32} (hi : i ∈ (c.resolve t).ids) :
    ¬ c.Registered i ∨ c.Smallest i := by
  by_cases hregistered : c.Registered i
  · exact Or.inr ((h.settled_iff_smallest hregistered).mp (h.valid.resolved_resolve t i hi))
  · exact Or.inl hregistered

end Classes

namespace Moment

variable {m m' : Moment}

/-- What the class of a placeholder was bound to, as it was then. -/
def bound? (m : Moment) (i : UInt32) : Option Ty :=
  (m.bound.find? fun e => m.classes.leader i = m.classes.leader e.1).map (·.2)

/-- What the class of one placeholder was bound to mentions the class of another. -/
def Mentions (m : Moment) (i j : UInt32) : Prop :=
  ∃ t ∈ m.bound? i, ∃ k ∈ t.ids, m.classes.leader k = m.classes.leader j

/-- Resolving a type by following bindings as they were made. A placeholder of a bound
class gives way to what the class was bound to, resolved in turn, and any other to the
least member of its class, unless it is that itself. -/
inductive Follows (m : Moment) : Ty → Ty → Prop where
  | fill {t : Ty} (image : Placeholder → Ty)
    (bound : ∀ p ∈ t.occurrences, ∀ u ∈ m.bound? p.id, Follows m u (image p))
    (unbound : ∀ p ∈ t.occurrences, m.bound? p.id = none → image p =
      if (m.classes.least p).id = p.id then hole p else hole (m.classes.least p)) :
    Follows m t (t.fill image)

/-- The number of bindings since a class was bound, its own included; none if it is not
bound. -/
def age (m : Moment) (i : UInt32) : Nat :=
  (m.bound.dropWhile fun e => m.classes.leader i ≠ m.classes.leader e.1).length

theorem bound?_eq_some {i : UInt32} {t : Ty} (h : m.bound? i = some t) :
    ∃ e ∈ m.bound, m.classes.leader i = m.classes.leader e.1 ∧ e.2 = t := by
  obtain ⟨e, he, rfl⟩ := Option.map_eq_some_iff.mp h
  exact ⟨e, List.mem_of_find?_eq_some he, by simpa using List.find?_some he, rfl⟩

theorem bound?_eq_none (h : m.classes.Tracks m.bound) {i : UInt32} :
    m.bound? i = none ↔ m.classes.binding? i = none := by
  rw [← Option.not_isSome_iff_eq_none (o := m.classes.binding? i), h.isSome, bound?]
  simp

theorem binding?_of_bound? (h : m.classes.Tracks m.bound) {i : UInt32} {t : Ty}
    (ht : m.bound? i = some t) : m.classes.binding? i = some (m.session.resolve t) := by
  obtain ⟨e, he, hlead, rfl⟩ := bound?_eq_some ht
  rw [h.valid.binding?_congr hlead]
  exact h.value e he

/-- What a class was bound to mentions only classes that were bound after it, or not at
all. -/
theorem Mentions.age_lt (h : m.classes.Tracks m.bound) {i j : UInt32} (hij : m.Mentions i j) :
    m.age j < m.age i := by
  obtain ⟨t, ht, k, hk, hlead⟩ := hij
  obtain ⟨e, he, rfl⟩ := Option.map_eq_some_iff.mp ht
  obtain ⟨hhead, before, after, hbound, hbefore⟩ := List.find?_eq_some_iff_append.mp he
  -- the class of `j` is not bound before `e`, nor by `e`, so that its age counts from behind `e`
  have hlater := h.later
  rw [hbound, List.pairwise_append] at hlater
  have hyounger : ∀ e' ∈ before ++ [e],
      decide (m.classes.leader j ≠ m.classes.leader e'.1) = true := by
    rw [List.forall_mem_append, List.forall_mem_singleton]
    refine ⟨fun e' he' => ?_, ?_⟩
    · rw [decide_eq_true_eq, ← hlead]
      exact hlater.2.2 e' he' e List.mem_cons_self k hk
    · rw [decide_eq_true_eq, ← hlead]
      exact h.apart e (List.mem_of_find?_eq_some he) k hk
  have hi : m.age i = (e :: after).length := by
    rw [age, hbound, List.dropWhile_append_of_pos (by simpa using hbefore),
      List.dropWhile_cons_of_neg]
    simpa using hhead
  have hj : m.age j =
      (after.dropWhile fun e' => m.classes.leader j ≠ m.classes.leader e'.1).length := by
    rw [age, hbound, ← List.singleton_append, ← List.append_assoc,
      List.dropWhile_append_of_pos hyounger]
  rw [hi, hj, List.length_cons]
  exact Nat.lt_succ_of_le (List.length_dropWhile_le ..)

theorem not_transGen_mentions (h : m.classes.Tracks m.bound) (i : UInt32) :
    ¬ Relation.TransGen m.Mentions i i := by
  intro hcycle
  have hlt : Relation.TransGen (fun a b : Nat => b < a) (m.age i) (m.age i) :=
    hcycle.lift m.age fun _ _ hij => hij.age_lt h
  rw [Relation.transGen_eq_self] at hlt
  exact Nat.lt_irrefl _ hlt

theorem image_of_bound? (h : m.classes.Tracks m.bound) {p : Placeholder} {u : Ty}
    (hu : m.bound? p.id = some u) : m.classes.image p = m.session.resolve u :=
  Classes.image_of_binding? (binding?_of_bound? h hu)

theorem image_of_not_bound? (h : m.classes.Tracks m.bound) {p : Placeholder}
    (hp : m.bound? p.id = none) : m.classes.image p =
      if (m.classes.least p).id = p.id then hole p else hole (m.classes.least p) := by
  by_cases hregistered : m.classes.Registered p.id
  · obtain ⟨r, hr⟩ := h.valid.exists_class? hregistered
    have hb := (Classes.binding?_eq_none hr).mp ((bound?_eq_none h).mp hp)
    rw [Classes.image_of_unbound hr hb, Classes.least, hr]
    rfl
  · rw [(Classes.settled_of_not_registered hregistered).image rfl, Classes.least,
      Classes.class?_of_not_registered hregistered]
    exact (if_pos rfl).symm

/-- Following bindings can only come to what the session resolves a type to. -/
theorem Follows.eq_resolve (h : m.classes.Tracks m.bound) {t u : Ty} (hu : m.Follows t u) :
    u = m.session.resolve t := by
  induction hu with
  | @fill t image bound unbound ih =>
    rw [Session.resolve, Classes.resolve_eq_fill]
    refine fill_congr fun p hp => ?_
    cases hbound : m.bound? p.id with
    | some u => rw [ih p hp u hbound, image_of_bound? h hbound]
    | none => rw [unbound p hp hbound, image_of_not_bound? h hbound]

/-- Following bindings comes to an end. The induction is on the age of the binding that is
followed: all that it mentions is younger. -/
theorem follows_resolve (h : m.classes.Tracks m.bound) (t : Ty) :
    m.Follows t (m.session.resolve t) := by
  have hfill : ∀ t, (∀ p ∈ t.occurrences, ∀ u ∈ m.bound? p.id, m.Follows u (m.session.resolve u)) →
      m.Follows t (m.session.resolve t) := by
    intro t ht
    rw [Session.resolve, Classes.resolve_eq_fill]
    refine .fill _ (fun p hp u hu => ?_) fun p _ hnone => image_of_not_bound? h hnone
    rw [image_of_bound? h hu]
    exact ht p hp u hu
  have hbinding : ∀ i, ∀ u ∈ m.bound? i, m.Follows u (m.session.resolve u) := by
    intro i
    induction hage : m.age i using Nat.strongRecOn generalizing i with
    | ind age ih =>
      intro u hu
      refine hfill u fun p hp v hv => ?_
      have hlt : m.age p.id < m.age i :=
        Mentions.age_lt h ⟨u, hu, p.id, mem_ids.mpr ⟨p, hp, rfl⟩, rfl⟩
      exact ih _ (hage ▸ hlt) p.id rfl v hv
  exact hfill t fun p _ => hbinding p.id

/-- Bindings are kept and come behind those made before, and only classes that are both
not bound are joined. -/
theorem Later.keeps (h : m.Later m') (hm : m.classes.Tracks m.bound) :
    m.bound <+: m'.bound ∧ (∀ i, m'.bound? i = none → m.bound? i = none) ∧
      ∀ i j, m'.classes.leader i = m'.classes.leader j →
        m.classes.leader i = m.classes.leader j ∨ (m.bound? i = none ∧ m.bound? j = none) := by
  induction h with
  | refl => exact ⟨List.prefix_rfl, fun i => id, fun i j => Or.inl⟩
  | @tail m₁ m₂ hlater hmove ih =>
    obtain ⟨hkept, hnone, hjoined⟩ := ih
    have htracks := Later.tracks hlater hm
    have htracks' := hmove.tracks htracks
    obtain ⟨new, hev, hbound⟩ := hmove.evolves htracks.valid
    refine ⟨hkept.trans (hbound ▸ List.prefix_append _ _), fun i hi => hnone i ?_,
      fun i j hlead => ?_⟩
    · rw [bound?_eq_none htracks'] at hi
      exact (bound?_eq_none htracks).mpr (hev.unbound hi)
    · obtain hlead | ⟨hi, hj⟩ := hev.joined hlead
      · exact hjoined i j hlead
      · exact Or.inr ⟨hnone i ((bound?_eq_none htracks).mpr hi),
          hnone j ((bound?_eq_none htracks).mpr hj)⟩

/-- At every moment of a session, what classes were bound to leads around no cycle, no
class was bound twice, and classes were joined only while neither was bound. Hence
resolving by following bindings comes to an end on every type, with what the session
resolves it to; what is left there are placeholders that are not registered or have the
smallest id in a class that is not bound, and resolving again changes nothing. -/
theorem substitution_acyclic {m m' : Moment} (hm : m.Reached) (hlater : m.Later m') :
    (∀ i, ¬ Relation.TransGen m.Mentions i i) ∧
    (m.bound.Pairwise (fun e e' => m.classes.leader e.1 ≠ m.classes.leader e'.1) ∧
      m.bound <+: m'.bound) ∧
    (∀ i j, m'.classes.leader i = m'.classes.leader j →
      m.classes.leader i = m.classes.leader j ∨ (m.bound? i = none ∧ m.bound? j = none)) ∧
    (∀ t u, m.Follows t u ↔ u = m.session.resolve t) ∧
    (∀ t, ∀ i ∈ (m.session.resolve t).ids, ¬ m.classes.Registered i ∨ m.classes.Smallest i) ∧
    ∀ t, m.session.resolve (m.session.resolve t) = m.session.resolve t := by
  have htracks := hm.tracks
  obtain ⟨hkept, -, hjoined⟩ := hlater.keeps htracks
  refine ⟨not_transGen_mentions htracks, ⟨htracks.once, hkept⟩, hjoined, fun t u => ?_,
    fun t i hi => htracks.left t hi, htracks.valid.resolve_resolve⟩
  constructor
  · exact Follows.eq_resolve htracks
  · rintro rfl
    exact follows_resolve htracks t

/-- A placeholder is bound to a pair of two others, which are joined then. -/
theorem substitution_acyclic_pair :
    let p : Placeholder := ⟨0, .type⟩
    let q : Placeholder := ⟨1, .type⟩
    let r : Placeholder := ⟨2, .type⟩
    let pair : Ty := .tuple [.hole q, .hole r]
    ∃ m m' : Moment, m.Reached ∧ m.Later m' ∧ m.bound? p.id = some pair ∧
      m.classes.leader q.id ≠ m.classes.leader r.id ∧
      m'.classes.leader q.id = m'.classes.leader r.id ∧
      (¬ Relation.TransGen m.Mentions p.id p.id) ∧ m.bound <+: m'.bound ∧ m.Follows (.hole p) pair := by
  intro p q r pair
  let s := Session.prepared .empty .default [.fresh .type, .fresh .type, .fresh .type]
  let c : Classes := ⟨[⟨p, 0, 0, p, some pair, []⟩, ⟨q, 1, 0, q, none, []⟩, ⟨r, 2, 0, r, none, []⟩]⟩
  let joined : Ty := .tuple [.hole q, .hole q]
  let c' : Classes :=
    ⟨[⟨p, 0, 0, p, some joined, []⟩, ⟨q, 1, 1, q, none, []⟩, ⟨r, 1, 0, r, none, []⟩]⟩
  have hbind : s.site.step ⟨s.classes, s.deferred, []⟩ (.hole p) pair =
      .ok (.eliminated ⟨c, [], []⟩ p.id pair) := by
    cbv
  have hjoin : s.site.step ⟨c, [], []⟩ (.hole q) (.hole r) =
      .ok (.eliminated ⟨c', [], []⟩ r.id (.hole q)) := by
    cbv
  have hsettled := (Session.untouched_prepared .empty .default
    [.fresh .type, .fresh .type, .fresh .type]).settled
  have hq : c.Settled q.id :=
    (Classes.settled_iff (show c.class? q.id = some _ from rfl)).mpr ⟨rfl, rfl⟩
  have hr : c.Settled r.id :=
    (Classes.settled_iff (show c.class? r.id = some _ from rfl)).mpr ⟨rfl, rfl⟩
  have hlater : Later ⟨s, []⟩ ⟨{ s with classes := c }, [(p.id, pair)]⟩ :=
    .single (.equation (fun i _ => hsettled i) (fun i _ => hsettled i) hbind)
  have hlater' : Later ⟨{ s with classes := c }, [(p.id, pair)]⟩
      ⟨{ s with classes := c' }, [(p.id, pair)]⟩ := by
    refine .single (.equation (s := { s with classes := c }) (fun i hi => ?_) (fun i hi => ?_) hjoin)
    · rwa [List.mem_singleton.mp hi]
    · rwa [List.mem_singleton.mp hi]
  have hreached : Reached ⟨{ s with classes := c }, [(p.id, pair)]⟩ := ⟨_, _, _, hlater⟩
  obtain ⟨hacyclic, ⟨-, hkept⟩, -, hfollows, -⟩ := substitution_acyclic hreached hlater'
  refine ⟨_, _, hreached, hlater', rfl, by decide, rfl, hacyclic p.id, hkept, ?_⟩
  exact (hfollows (.hole p) pair).mpr (by cbv)

end Moment

end TensorTyping
