import TensorTyping.Proofs.Session.Evolution
import TensorTyping.Proofs.Session.Setup

namespace TensorTyping

open Ty

/-- A session at some moment, with the bindings that were made in it so far: each the
id of a placeholder and the type that its class was bound to, as it was then. -/
structure Moment where
  session : Session
  bound : List (UInt32 × Ty)

namespace Moment

/-- The classes of placeholders. -/
abbrev classes (m : Moment) : Classes := m.session.classes

/-- What can happen next in a session. Only an equation between types makes bindings,
whatever equations a rule leads to and in whatever order they are solved. -/
inductive Moves : Moment → Moment → Prop where
  | next {s s' : Session} {bound : List (UInt32 × Ty)} {number : Nat} {r : Relation} :
    s.next? = some (number, r, s') → Moves ⟨s, bound⟩ ⟨s', bound⟩
  | register {s : Session} {bound : List (UInt32 × Ty)} (p : Placeholder) :
    Moves ⟨s, bound⟩ ⟨s.register p, bound⟩
  | equation {s : Session} {bound : List (UInt32 × Ty)} {woken : List Nat} {t u : Ty}
    {result : Site.Step} : s.classes.Resolved t → s.classes.Resolved u →
    s.site.step ⟨s.classes, s.deferred, woken⟩ t u = .ok result →
    Moves ⟨s, bound⟩ ⟨{ s with
      classes := result.progress.classes
      deferred := result.progress.deferred }, bound ++ result.binding?.toList⟩
  | wake {s : Session} {bound : List (UInt32 × Ty)} (number : Nat) :
    Moves ⟨s, bound⟩ ⟨s.wake number, bound⟩
  | fail {s : Session} {bound : List (UInt32 × Ty)} (e : TypeError) :
    Moves ⟨s, bound⟩ ⟨s.fail e, bound⟩
  | assert {s : Session} {bound : List (UInt32 × Ty)} (cond : Cond) :
    Moves ⟨s, bound⟩ ⟨(s.assert cond).2, bound⟩
  | locate {s : Session} {bound : List (UInt32 × Ty)} (span : Span) :
    Moves ⟨s, bound⟩ ⟨{ s with location := span }, bound⟩
  | record {s : Session} {bound : List (UInt32 × Ty)} (v : Invocation) :
    Moves ⟨s, bound⟩ ⟨{ s with trace := s.trace ++ [v] }, bound⟩
  | retire {s : Session} {bound : List (UInt32 × Ty)} (number : Nat) :
    Moves ⟨s, bound⟩ ⟨s.retire number, bound⟩

/-- Any number of moves. -/
abbrev Later : Moment → Moment → Prop := Relation.ReflTransGen Moves

/-- A moment of some session. -/
def Reached (m : Moment) : Prop :=
  ∃ globals config setup, Later ⟨Session.prepared globals config setup, []⟩ m

end Moment

/-- Classes and the bindings that led to them. Every class that is bound was bound
once, to a type of classes that were bound later or not at all, and its binding is
that type with everything known put in. -/
structure Classes.Tracks (c : Classes) (bound : List (UInt32 × Ty)) : Prop where
  valid : c.Valid
  least : ∀ {p q}, c.image p = hole q → q.id ≤ p.id
  isSome : ∀ i, (c.binding? i).isSome ↔ ∃ e ∈ bound, c.leader i = c.leader e.1
  value : ∀ e ∈ bound, c.binding? e.1 = some (c.resolve e.2)
  once : bound.Pairwise fun e e' => c.leader e.1 ≠ c.leader e'.1
  apart : ∀ e ∈ bound, ∀ i ∈ e.2.ids, c.leader i ≠ c.leader e.1
  later : bound.Pairwise fun e e' => ∀ i ∈ e'.2.ids, c.leader i ≠ c.leader e.1

namespace Classes

variable {c c' : Classes} {bound : List (UInt32 × Ty)} {new : Option (UInt32 × Ty)}

/-- What is bound stays bound, and out of the classes of others. -/
theorem Evolves.leader_ne (h : c.Evolves c' new) {i j : UInt32} (hi : (c.binding? i).isSome)
    (hne : c.leader j ≠ c.leader i) : c'.leader j ≠ c'.leader i := by
  intro heq
  obtain heq | ⟨-, hnone⟩ := h.joined heq
  · exact hne heq
  · rw [hnone] at hi
    cases hi

theorem Tracks.evolves (h : c.Tracks bound) (hev : c.Evolves c' new) :
    c'.Tracks (bound ++ new.toList) := by
  have hbound : ∀ e ∈ bound, (c.binding? e.1).isSome := fun e he =>
    (h.isSome e.1).mpr ⟨e, he, rfl⟩
  -- only classes that are not bound are joined, so a new binding is of none of the old classes
  have hfresh : ∀ {i e}, c.binding? i = none → e ∈ bound → c'.leader i ≠ c'.leader e.1 := by
    intro i e hi he
    refine hev.leader_ne (hbound e he) fun heq => ?_
    have hsome := (h.isSome i).mpr ⟨e, he, heq⟩
    rw [hi] at hsome
    cases hsome
  have hmem : ∀ {e}, e ∈ bound ++ new.toList → e ∈ bound ∨ e ∈ new := by
    intro e he
    rwa [List.mem_append, Option.mem_toList] at he
  have hsingle : ∀ {R : UInt32 × Ty → UInt32 × Ty → Prop}, new.toList.Pairwise R := by
    cases new <;> simp
  refine ⟨hev.valid, fun hq => ?_, fun i => ?_, fun e he => ?_, ?_, fun e he i hi => ?_, ?_⟩
  · obtain ⟨r, hr, hle⟩ := hev.least hq
    exact UInt32.le_trans hle (h.least hr)
  · rw [hev.bound]
    constructor
    · rintro (hi | ⟨e, he, hlead⟩)
      · obtain ⟨e, he, hlead⟩ := (h.isSome i).mp hi
        exact ⟨e, List.mem_append_left _ he, hev.together hlead⟩
      · exact ⟨e, List.mem_append_right _ (Option.mem_toList.mpr he), hlead⟩
    · rintro ⟨e, he, hlead⟩
      obtain he | he := hmem he
      · refine Or.inl ((h.isSome i).mpr ⟨e, he, ?_⟩)
        by_contra hne
        exact hev.leader_ne (hbound e he) hne hlead
      · exact Or.inr ⟨e, he, hlead⟩
  · obtain he | he := hmem he
    · obtain ⟨u, hu⟩ := Option.isSome_iff_exists.mp ((hev.bound e.1).mpr (Or.inl (hbound e he)))
      have himage : u = c'.resolve (c.resolve e.2) := by
        rw [← image_of_binding? (p := ⟨e.1, .type⟩) hu, ← resolve_hole, ← hev.resolve, resolve_hole,
          image_of_binding? (p := ⟨e.1, .type⟩) (h.value e he)]
      rw [hu, himage, hev.resolve]
    · exact (hev.fresh e he).2.1
  · rw [List.pairwise_append]
    refine ⟨h.once.imp_of_mem fun he _ hne => ?_, hsingle, fun e he e' he' => ?_⟩
    · exact (hev.leader_ne (hbound _ he) hne.symm).symm
    · exact (hfresh (hev.fresh e' (Option.mem_toList.mp he')).1 he).symm
  · obtain he | he := hmem he
    · exact hev.leader_ne (hbound e he) (h.apart e he i hi)
    · exact ((hev.fresh e he).2.2 i hi).2
  · rw [List.pairwise_append]
    refine ⟨h.later.imp_of_mem fun he _ hne i hi => ?_, hsingle, fun e he e' he' i hi => ?_⟩
    · exact hev.leader_ne (hbound _ he) (hne i hi)
    · exact hfresh ((hev.fresh e' (Option.mem_toList.mp he')).2.2 i hi).1 he

theorem tracks_of_untouched {s : Session} (h : s.Untouched) : s.classes.Tracks [] := by
  refine ⟨h.valid, fun {p q} hq => ?_, fun i => ?_, ?_, .nil, ?_, .nil⟩
  · rw [(h.settled p.id).image rfl, hole.injEq] at hq
    rw [hq]
    exact UInt32.le_refl _
  · simp [(h.settled i).binding?_eq]
  · exact fun e he => absurd he List.not_mem_nil
  · exact fun e he => absurd he List.not_mem_nil

end Classes

namespace Moment

variable {m m' : Moment}

theorem Moves.evolves (hc : m.classes.Valid) (h : m.Moves m') :
    ∃ new, m.classes.Evolves m'.classes new ∧ m'.bound = m.bound ++ new.toList := by
  have hsame : ∀ {s s' : Session} {bound : List (UInt32 × Ty)}, s.classes.Valid →
      s'.classes = s.classes → ∃ new, s.classes.Evolves s'.classes new ∧
        bound = bound ++ Option.toList new := by
    intro s s' bound hc heq
    refine ⟨none, ?_, (List.append_nil bound).symm⟩
    rw [heq]
    exact .refl hc
  cases h with
  | next hnext =>
    obtain ⟨queue, rfl, -⟩ := Session.next?_eq_some hnext
    exact hsame hc rfl
  | register p => exact ⟨none, Classes.evolves_ensure hc p, (List.append_nil _).symm⟩
  | equation ht hu hstep => exact ⟨_, Site.evolves_of_step hc ht hu hstep, rfl⟩
  | wake number => exact hsame hc (Session.wake_fields _ number).1
  | @assert s _ cond =>
    obtain ⟨deferred, failure, heq⟩ := Session.exists_assert_eq s cond
    have hclasses : (s.assert cond).2.classes = s.classes := by
      rw [heq]
    exact hsame hc hclasses
  | fail | locate | record | retire => exact hsame hc rfl

theorem Moves.tracks (h : m.Moves m') (hm : m.classes.Tracks m.bound) :
    m'.classes.Tracks m'.bound := by
  obtain ⟨new, hev, hbound⟩ := h.evolves hm.valid
  rw [hbound]
  exact hm.evolves hev

theorem Later.tracks (h : m.Later m') (hm : m.classes.Tracks m.bound) :
    m'.classes.Tracks m'.bound := by
  induction h with
  | refl => exact hm
  | tail _ hmove ih => exact hmove.tracks ih

theorem Reached.tracks (h : m.Reached) : m.classes.Tracks m.bound := by
  obtain ⟨globals, config, setup, hlater⟩ := h
  exact hlater.tracks (Classes.tracks_of_untouched (Session.untouched_prepared globals config setup))

end Moment

namespace Session

open Moment

variable {s s' : Session}

theorem later_solve {p p' : Progress} {eqs : Equations} (hc : p.classes.Valid)
    (heqs : ∀ i ∈ eqs.ids, p.classes.Settled i) (h : s.site.solve p eqs = .ok p')
    (bound : List (UInt32 × Ty)) : ∃ bound',
      Later ⟨{ s with classes := p.classes, deferred := p.deferred }, bound⟩
        ⟨{ s with classes := p'.classes, deferred := p'.deferred }, bound'⟩ := by
  fun_induction s.site.solve p eqs generalizing bound with
  | case1 p =>
    cases h
    exact ⟨bound, .refl⟩
  | case2 p t u rest e hstep => cases h
  | case3 p t u rest p₁ hstep ih =>
    obtain ⟨ht, hu, hrest⟩ := Site.resolved_of_cons heqs
    obtain ⟨hregisters, -⟩ := Site.solved_of_step hc ht hu hstep
    obtain ⟨bound', hlater⟩ := ih hregisters.valid
      (fun i hi => (hregisters.settled i).mpr (hrest i hi)) h (bound ++ [])
    exact ⟨bound', .head (.equation ht hu hstep) hlater⟩
  | case4 p t u rest p₁ eqs' hstep ih =>
    obtain ⟨ht, hu, hrest⟩ := Site.resolved_of_cons heqs
    obtain ⟨rfl, -⟩ := Site.parts_of_step hstep
    have hids : ∀ i ∈ Equations.ids (eqs' ++ rest), p₁.classes.Settled i := by
      intro i hi
      obtain hi | hi := Site.mem_ids_append.mp hi
      · exact ((Site.step_parts hstep).1 i hi).elim (ht i) (hu i)
      · exact hrest i hi
    obtain ⟨bound', hlater⟩ := ih hc hids h (bound ++ [])
    exact ⟨bound', .head (.equation ht hu hstep) hlater⟩
  | case5 p t u rest p₁ id image hstep ih =>
    obtain ⟨ht, hu, -⟩ := Site.resolved_of_cons heqs
    obtain ⟨⟨-, ⟨c, -, heliminates⟩, -⟩, -⟩ := Site.eliminates_of_step hc ht hu hstep
    obtain ⟨bound', hlater⟩ := ih heliminates.valid (Site.settled_of_step_eliminated hc heqs hstep) h
      (bound ++ (Site.Step.eliminated p₁ id image).binding?.toList)
    exact ⟨bound', .head (.equation ht hu hstep) hlater⟩

theorem later_foldl_wake (numbers : List Nat) (bound : List (UInt32 × Ty)) :
    Later ⟨s, bound⟩ ⟨numbers.foldl wake s, bound⟩ := by
  induction numbers generalizing s with
  | nil => exact .refl
  | cons n numbers ih => exact .head (.wake n) ih

theorem later_assign (hc : s.classes.Valid) (dst src : Ty) (bound : List (UInt32 × Ty)) :
    ∃ bound', Later ⟨s, bound⟩ ⟨s.assign dst src, bound'⟩ := by
  obtain ⟨-, heq⟩ | ⟨e, -, -, heq⟩ | ⟨p, -, hunify, heq⟩ := assign_cases s dst src <;> rw [heq]
  · exact ⟨bound, .refl⟩
  · exact ⟨bound, .single (.fail e)⟩
  · obtain ⟨bound', hlater⟩ := later_solve hc (Site.settled_sides hc dst src) hunify bound
    exact ⟨bound', hlater.trans (later_foldl_wake p.woken bound')⟩

theorem later_run (r : Resolution) (hc : s.classes.Valid) (bound : List (UInt32 × Ty)) :
    ∃ bound', Later ⟨s, bound⟩ ⟨(r.run reporter s).state, bound'⟩ := by
  induction r generalizing s bound with
  | done resolved => exact ⟨bound, .refl⟩
  | assign dst src next ih =>
    obtain ⟨bound₁, hassign⟩ := later_assign hc dst src bound
    obtain ⟨bound₂, hrest⟩ := ih (assign_grows hc dst src).valid bound₁
    exact ⟨bound₂, hassign.trans hrest⟩
  | assert cond next ih =>
    obtain ⟨bound', hrest⟩ := ih (s.assert cond).1 (assert_grows hc cond).valid bound
    exact ⟨bound', .head (.assert cond) hrest⟩
  | locate span next ih =>
    obtain ⟨bound', hrest⟩ := ih (s := { s with location := span }) hc bound
    exact ⟨bound', .head (.locate span) hrest⟩

theorem later_invoke (hc : s.classes.Valid) (number : Nat) (r : Relation)
    (bound : List (UInt32 × Ty)) : ∃ bound', Later ⟨s, bound⟩ ⟨s.invoke number r, bound'⟩ := by
  obtain ⟨bound', hrun⟩ := later_run (s := { s with location := r.span })
    (r.rule.resolve (s.query r)) hc bound
  refine ⟨bound', .head (.locate r.span) (hrun.trans ?_)⟩
  rw [invoke_eq]
  split
  · exact .head (.record _) (.single (.retire number))
  · exact .single (.record _)

/-- Whatever its rules do, a session only goes through moments that moves lead to. -/
theorem Turns.later (hc : s.classes.Valid) (h : Turns s s') (bound : List (UInt32 × Ty)) :
    ∃ bound', Later ⟨s, bound⟩ ⟨s', bound'⟩ := by
  induction h with
  | refl => exact ⟨bound, .refl⟩
  | tail hturns hturn ih =>
    obtain ⟨bound₁, hlater⟩ := ih
    obtain ⟨number, r, rest, hnext, rfl, -⟩ := hturn
    have hvalid : rest.classes.Valid := by
      obtain ⟨queue, rfl, -⟩ := next?_eq_some hnext
      exact (Turns.grows hc hturns).valid
    obtain ⟨bound₂, hinvoke⟩ := later_invoke hvalid number r bound₁
    exact ⟨bound₂, hlater.trans (.head (.next hnext) hinvoke)⟩

end Session

end TensorTyping
