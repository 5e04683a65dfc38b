import TensorTyping.Proofs.Session.Unify
import TensorTyping.Session.Sharing

namespace TensorTyping

open Ty Site

namespace Session

/-- A session has learned more: what it knew and the conditions it had put off
are still there. -/
structure Grows (s s' : Session) : Prop where
  valid : s'.classes.Valid
  known : s'.known = s.known
  deferred : s.deferred ⊆ s'.deferred
  resolve : ∀ t, s'.resolve (s.resolve t) = s'.resolve t
  failure : s'.failure = none → s.failure = none

variable {s s' s'' : Session}

theorem Grows.refl (h : s.classes.Valid) : Grows s s :=
  ⟨h, rfl, fun _ hd => hd, h.resolve_resolve, id⟩

theorem Grows.trans (h : Grows s s') (h' : Grows s' s'') : Grows s s'' := by
  refine ⟨h'.valid, h'.known.trans h.known, fun _ hd => h'.deferred (h.deferred hd), fun t => ?_,
    fun hnone => h.failure (h'.failure hnone)⟩
  calc s''.resolve (s.resolve t) = s''.resolve (s'.resolve (s.resolve t)) := (h'.resolve _).symm
    _ = s''.resolve (s'.resolve t) := by rw [h.resolve]
    _ = s''.resolve t := h'.resolve t

/-- Only what relations are looked at, and where, has changed. -/
theorem Grows.of_eq (h : s.classes.Valid) (hclasses : s'.classes = s.classes)
    (hknown : s'.known = s.known) (hdeferred : s'.deferred = s.deferred)
    (hfailure : s'.failure = none → s.failure = none) : Grows s s' := by
  refine ⟨hclasses ▸ h, hknown, fun _ hd => hdeferred ▸ hd, fun t => ?_, hfailure⟩
  simp only [Session.resolve, hclasses]
  exact h.resolve_resolve t

theorem wake_fields (s : Session) (number : Nat) :
    (s.wake number).classes = s.classes ∧ (s.wake number).known = s.known ∧
      (s.wake number).deferred = s.deferred ∧ (s.wake number).failure = s.failure := by
  unfold wake
  split <;> exact ⟨rfl, rfl, rfl, rfl⟩

theorem foldl_wake_fields (s : Session) (numbers : List Nat) :
    (numbers.foldl wake s).classes = s.classes ∧ (numbers.foldl wake s).known = s.known ∧
      (numbers.foldl wake s).deferred = s.deferred ∧
      (numbers.foldl wake s).failure = s.failure := by
  induction numbers generalizing s with
  | nil => exact ⟨rfl, rfl, rfl, rfl⟩
  | cons n numbers ih =>
    obtain ⟨hclasses, hknown, hdeferred, hfailure⟩ := wake_fields s n
    obtain ⟨hclasses', hknown', hdeferred', hfailure'⟩ := ih (s.wake n)
    exact ⟨hclasses'.trans hclasses, hknown'.trans hknown, hdeferred'.trans hdeferred,
      hfailure'.trans hfailure⟩

theorem location_foldl_wake (s : Session) (numbers : List Nat) :
    (numbers.foldl wake s).location = s.location := by
  induction numbers generalizing s with
  | nil => rfl
  | cons n numbers ih =>
    rw [List.foldl_cons, ih]
    unfold wake
    split <;> rfl

theorem failure_fail (h : s.failure = none) (e : TypeError) : (s.fail e).failure = some e := by
  rw [fail, h]
  rfl

theorem assign_of_ok {dst src : Ty} {p : Progress} (hnone : s.failure = none)
    (h : s.site.unify ⟨s.classes, s.deferred, []⟩ dst src = .ok p) :
    s.assign dst src =
      p.woken.foldl wake { s with classes := p.classes, deferred := p.deferred } := by
  unfold site at h
  simp only [assign, hnone, Option.isSome_none, Bool.false_eq_true, if_false, h]

theorem assign_of_error {dst src : Ty} {e : TypeError} (hnone : s.failure = none)
    (h : s.site.unify ⟨s.classes, s.deferred, []⟩ dst src = .error e) :
    s.assign dst src = s.fail e := by
  unfold site at h
  simp only [assign, hnone, Option.isSome_none, Bool.false_eq_true, if_false, h]

theorem assign_of_failed {dst src : Ty} (h : s.failure ≠ none) : s.assign dst src = s := by
  rw [assign, if_pos (Option.isSome_iff_ne_none.mpr h)]

/-- Declaring types equal changes nothing after a failure, fails, or brings in what
unification comes to. -/
theorem assign_cases (s : Session) (dst src : Ty) :
    (s.failure ≠ none ∧ s.assign dst src = s) ∨
      (∃ e, s.failure = none ∧ s.site.unify ⟨s.classes, s.deferred, []⟩ dst src = .error e ∧
        s.assign dst src = s.fail e) ∨
      ∃ p, s.failure = none ∧ s.site.unify ⟨s.classes, s.deferred, []⟩ dst src = .ok p ∧
        s.assign dst src =
          p.woken.foldl wake { s with classes := p.classes, deferred := p.deferred } := by
  by_cases hnone : s.failure = none
  · cases hunify : s.site.unify ⟨s.classes, s.deferred, []⟩ dst src with
    | error e => exact Or.inr (Or.inl ⟨e, hnone, rfl, assign_of_error hnone hunify⟩)
    | ok p => exact Or.inr (Or.inr ⟨p, hnone, rfl, assign_of_ok hnone hunify⟩)
  · exact Or.inl ⟨hnone, assign_of_failed hnone⟩

/-- A question changes only what is put off, and whether there is a failure. -/
theorem exists_assert_eq (s : Session) (cond : Cond) :
    ∃ deferred failure, (s.assert cond).2 = { s with deferred, failure } := by
  unfold assert
  split
  · exact ⟨_, _, rfl⟩
  · split
    · exact ⟨_, _, rfl⟩
    · split <;> exact ⟨_, _, rfl⟩
    · exact ⟨_, _, rfl⟩

theorem assert_of_failed {cond : Cond} (h : s.failure ≠ none) :
    s.assert cond = (false, s) := by
  rw [assert, if_pos (Option.isSome_iff_ne_none.mpr h)]

theorem assert_of_refuted {cond : Cond} (hnone : s.failure = none)
    (h : s.known.prove cond = .refuted) :
    s.assert cond = (false, s.fail (.assertionFailed cond s.location)) := by
  rw [assert, hnone, h]
  rfl

theorem failure_assert (hnone : s.failure = none) (cond : Cond) :
    (s.assert cond).2.failure = none ∨ s.known.prove cond = .refuted := by
  have hpending : ¬ s.failure.isSome = true := by
    rw [hnone]
    exact Bool.false_ne_true
  rw [assert, if_neg hpending]
  cases s.known.prove cond with
  | proven => exact Or.inl hnone
  | refuted => exact Or.inr rfl
  | unknown =>
    refine Or.inl ?_
    dsimp only
    split <;> exact hnone

theorem assign_grows (hc : s.classes.Valid) (dst src : Ty) : Grows s (s.assign dst src) := by
  obtain ⟨-, heq⟩ | ⟨e, hnone, -, heq⟩ | ⟨p, hnone, hunify, heq⟩ := assign_cases s dst src <;>
    rw [heq]
  · exact .refl hc
  · exact .of_eq hc rfl rfl rfl fun _ => hnone
  · have hsound := unify_sound hc hunify
    obtain ⟨hclasses, hknown, hdeferred, hfailure⟩ := foldl_wake_fields
      { s with classes := p.classes, deferred := p.deferred } p.woken
    refine ⟨hclasses ▸ hsound.valid, hknown, fun _ hd => ?_, fun t => ?_, fun _ => hnone⟩
    · rw [hdeferred]
      exact hsound.deferred hd
    · simp only [resolve, hclasses]
      exact hsound.resolve t

theorem assert_grows (hc : s.classes.Valid) (cond : Cond) : Grows s (s.assert cond).2 := by
  by_cases hnone : s.failure = none
  · unfold assert
    rw [if_neg (by simp [hnone])]
    split
    · exact .refl hc
    · split
      · exact .refl hc
      · exact ⟨hc, rfl, List.subset_append_left _ _, hc.resolve_resolve, fun _ => hnone⟩
    · exact .of_eq hc rfl rfl rfl fun _ => hnone
  · rw [assert_of_failed hnone]
    exact .refl hc

theorem locate_grows (hc : s.classes.Valid) (span : Span) : Grows s { s with location := span } :=
  .of_eq hc rfl rfl rfl id

end Session

/-- What a request achieved, in terms of what a session knows later: types
declared equal are alike, and conditions that may hold are proven or put off. -/
def Report.Kept (s : Session) : Report → Prop
  | .assigned dst src => (s.resolve dst).Alike (Compatible s.known s.deferred) (s.resolve src)
  | .asserted cond _ => s.known.prove cond = .proven ∨ cond ∈ s.deferred
  | .located _ => True

namespace Session

variable {s s' : Session}

theorem Grows.kept (h : Grows s s') {r : Report} (hr : r.Kept s) : r.Kept s' := by
  cases r with
  | assigned dst src =>
    have halike := alike_resolve (c := s'.classes) (E := Compatible s'.known s'.deferred) hr
      (fun _ _ hde => h.known ▸ hde.mono h.deferred) (compatible_refl _ _)
    have hdst : s'.classes.resolve (s.resolve dst) = s'.resolve dst := h.resolve dst
    have hsrc : s'.classes.resolve (s.resolve src) = s'.resolve src := h.resolve src
    rwa [hdst, hsrc] at halike
  | asserted cond answer => exact hr.imp (fun hp => h.known ▸ hp) fun hd => h.deferred hd
  | located span => trivial

theorem assigned_kept (hc : s.classes.Valid) {dst src : Ty}
    (h : (s.assign dst src).failure = none) : (Report.assigned dst src).Kept (s.assign dst src) := by
  have hnone := (assign_grows hc dst src).failure h
  cases hunify : s.site.unify ⟨s.classes, s.deferred, []⟩ dst src with
  | error e =>
    rw [assign_of_error hnone hunify] at h
    simp [fail, hnone] at h
  | ok p =>
    have hsound := unify_sound hc hunify
    rw [assign_of_ok hnone hunify]
    obtain ⟨hclasses, hknown, hdeferred, -⟩ := foldl_wake_fields
      { s with classes := p.classes, deferred := p.deferred } p.woken
    rw [Report.Kept, resolve, resolve, hclasses, hknown, hdeferred]
    exact hsound.alike _ List.mem_cons_self

theorem asserted_kept {cond : Cond} (h : (s.assert cond).2.failure = none) :
    (s.assert cond).1 = true ∧ (Report.asserted cond true).Kept (s.assert cond).2 := by
  by_cases hnone : s.failure = none
  · unfold assert at h ⊢
    rw [if_neg (by simp [hnone])] at h ⊢
    split at h
    · rename_i hproven
      exact ⟨rfl, Or.inl hproven⟩
    · refine ⟨rfl, Or.inr ?_⟩
      dsimp only
      split
      · assumption
      · simp
    · simp [fail, hnone] at h
  · rw [assert_of_failed hnone] at h
    exact absurd h hnone

theorem run_assert (cond : Cond) (next : Bool → Resolution) (s : Session) :
    (Resolution.assert cond next).run reporter s =
      { (next (s.assert cond).1).run reporter (s.assert cond).2 with
        reports := .asserted cond (s.assert cond).1 ::
          ((next (s.assert cond).1).run reporter (s.assert cond).2).reports } := rfl

/-- Whatever a rule does, the session grows; and if nothing fails, all that was
requested is kept, and every question was answered with yes. -/
theorem run_kept (r : Resolution) (hc : s.classes.Valid) :
    Grows s (r.run reporter s).state ∧ ((r.run reporter s).state.failure = none →
      ∀ report ∈ (r.run reporter s).reports, report.Kept (r.run reporter s).state) := by
  induction r generalizing s with
  | done resolved => exact ⟨.refl hc, fun _ _ h => absurd h List.not_mem_nil⟩
  | assign dst src next ih =>
    have hgrows := assign_grows hc dst src
    obtain ⟨hrest, hkept⟩ := ih hgrows.valid
    refine ⟨hgrows.trans hrest, fun hnone => ?_⟩
    rw [Resolution.run, List.forall_mem_cons]
    exact ⟨hrest.kept (assigned_kept hc (hrest.failure hnone)), hkept hnone⟩
  | assert cond next ih =>
    have hgrows := assert_grows hc cond
    obtain ⟨hrest, hkept⟩ := ih (s.assert cond).1 hgrows.valid
    refine ⟨hgrows.trans hrest, fun hnone => ?_⟩
    rw [Resolution.run, List.forall_mem_cons]
    exact ⟨hrest.kept (asserted_kept (hrest.failure hnone)).2, hkept hnone⟩
  | locate span next ih =>
    have hgrows := locate_grows hc span
    obtain ⟨hrest, hkept⟩ := ih hgrows.valid
    refine ⟨hgrows.trans hrest, fun hnone => ?_⟩
    rw [Resolution.run, List.forall_mem_cons]
    exact ⟨trivial, hkept hnone⟩

end Session

end TensorTyping
