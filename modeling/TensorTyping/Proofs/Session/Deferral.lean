import Mathlib.Data.List.Nodup
import TensorTyping.Proofs.Session.Moments

namespace TensorTyping

/-- Conditions that are not decided, each once. -/
structure Ranges.Undecided (known : Ranges) (conds : List Cond) : Prop where
  nodup : conds.Nodup
  unknown : ∀ c ∈ conds, known.prove c = .unknown

theorem Ranges.undecided_nil (known : Ranges) : known.Undecided [] :=
  ⟨List.nodup_nil, fun _ hc => absurd hc List.not_mem_nil⟩

theorem Ranges.Undecided.snoc {known : Ranges} {conds : List Cond} {c : Cond}
    (h : known.Undecided conds) (hc : known.prove c = .unknown) (hnew : c ∉ conds) :
    known.Undecided (conds ++ [c]) := by
  refine ⟨?_, ?_⟩
  · rw [← List.concat_eq_append]
    exact List.Nodup.concat hnew h.nodup
  · rw [List.forall_mem_append, List.forall_mem_singleton]
    exact ⟨h.unknown, hc⟩

namespace Site

variable {site : Site} {s s' : Progress}

theorem undecided_defer (h : site.known.Undecided s.deferred) {c : Cond}
    (hc : site.known.prove c = .unknown) : site.known.Undecided (s.defer c).deferred := by
  unfold Progress.defer
  split
  · exact h
  · rename_i hnew
    exact h.snoc hc hnew

theorem undecided_compareAxis (h : site.known.Undecided s.deferred) {axis : Nat} {d e : Dim}
    (hok : site.compareAxis s axis d e = .ok s') : site.known.Undecided s'.deferred := by
  unfold compareAxis at hok
  split at hok
  · cases hok
    exact h
  · split at hok
    · cases hok
      exact h
    · rename_i hunknown
      split at hok <;> cases hok
      exact undecided_defer h hunknown
    · cases hok

theorem undecided_compareAxes (h : site.known.Undecided s.deferred) {axis : Nat}
    {axes : List (Dim × Dim)} (hok : site.compareAxes s axis axes = .ok s') :
    site.known.Undecided s'.deferred := by
  induction axes generalizing s axis with
  | nil =>
    cases hok
    exact h
  | cons a axes ih =>
    obtain ⟨d, e⟩ := a
    rw [compareAxes] at hok
    cases hhead : site.compareAxis s axis d e with
    | error err =>
      rw [hhead] at hok
      cases hok
    | ok s₁ =>
      rw [hhead] at hok
      exact ih (undecided_compareAxis h hhead) hok

theorem undecided_compareTensors (h : site.known.Undecided s.deferred) {a b : TensorType}
    (hok : site.compareTensors s a b = .ok s') : site.known.Undecided s'.deferred := by
  unfold compareTensors at hok
  split at hok
  · cases hok
  · split at hok
    · cases hok
    · exact undecided_compareAxes h hok

theorem deferred_joinHoles {p q : Placeholder} {result : Step}
    (h : site.joinHoles s p q = .ok result) : result.progress.deferred = s.deferred := by
  unfold joinHoles at h
  dsimp only at h
  split at h
  · cases h
    rfl
  · split at h
    · cases h
    · split at h <;> cases h <;> rfl

theorem deferred_bindHole {p : Placeholder} {t : Ty} {result : Step}
    (h : site.bindHole s p t = .ok result) : result.progress.deferred = s.deferred := by
  unfold bindHole at h
  dsimp only at h
  split at h <;> cases h
  rfl

/-- An equation puts off comparisons that are not decided, and nothing else. -/
theorem undecided_step (h : site.known.Undecided s.deferred) {t u : Ty} {result : Step}
    (hok : site.step s t u = .ok result) : site.known.Undecided result.progress.deferred := by
  unfold step at hok
  split at hok
  · rwa [deferred_joinHoles hok]
  · rwa [deferred_bindHole hok]
  · rwa [deferred_bindHole hok]
  · rename_i a b
    cases hcompare : site.compareTensors s a b with
    | error e =>
      rw [hcompare] at hok
      cases hok
    | ok s₁ =>
      rw [hcompare] at hok
      cases hok
      exact undecided_compareTensors h hcompare
  all_goals
    (repeat' split at hok) <;> cases hok <;> exact h

end Site

namespace Session

variable {s s' : Session}

/-- What a session has put off is not decided by what it knows of sizes. -/
abbrev Undecided (s : Session) : Prop := s.known.Undecided s.deferred

theorem Undecided.assert (h : s.Undecided) (cond : Cond) : (s.assert cond).2.Undecided := by
  unfold Session.assert
  split
  · exact h
  · split
    · exact h
    · rename_i hunknown
      split
      · exact h
      · rename_i hnew
        exact h.snoc hunknown hnew
    · exact h

end Session

namespace Moment

open Session

variable {m m' : Moment}

theorem Moves.undecided (h : m.Moves m') (hm : m.session.Undecided) : m'.session.Undecided := by
  cases h with
  | next hnext =>
    obtain ⟨queue, rfl, -⟩ := next?_eq_some hnext
    exact hm
  | equation _ _ hstep => exact Site.undecided_step hm hstep
  | @wake s _ number =>
    obtain ⟨-, hknown, hdeferred, -⟩ := wake_fields s number
    unfold Session.Undecided
    rwa [hknown, hdeferred]
  | assert cond => exact hm.assert cond
  | register | fail | locate | record | retire => exact hm

theorem Later.undecided (h : m.Later m') (hm : m.session.Undecided) : m'.session.Undecided := by
  induction h with
  | refl => exact hm
  | tail _ hmove ih => exact hmove.undecided ih

end Moment

theorem Session.undecided_of_turns {s₀ s : Session} (hs₀ : s₀.Untouched) (h : Turns s₀ s) :
    s.Undecided := by
  obtain ⟨bound, hlater⟩ := Turns.later hs₀.valid h []
  refine hlater.undecided (?_ : s₀.known.Undecided s₀.deferred)
  rw [hs₀.deferred]
  exact s₀.known.undecided_nil

end TensorTyping
