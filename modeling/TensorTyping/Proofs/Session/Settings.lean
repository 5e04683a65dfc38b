import TensorTyping.Proofs.Session.Setup

namespace TensorTyping.Session

/-- The same session under other settings. -/
def withConfig (s : Session) (config : Config) : Session := { s with config }

variable {config : Config}

theorem withConfig_wake (s : Session) (number : Nat) :
    (s.wake number).withConfig config = (s.withConfig config).wake number := by
  have hpending : (s.withConfig config).isPending number = s.isPending number := rfl
  have hqueue : (s.withConfig config).queue = s.queue := rfl
  unfold wake
  rw [hpending, hqueue]
  split <;> rfl

theorem withConfig_foldl_wake (s : Session) (numbers : List Nat) :
    (numbers.foldl wake s).withConfig config = numbers.foldl wake (s.withConfig config) := by
  induction numbers generalizing s with
  | nil => rfl
  | cons number numbers ih => rw [List.foldl_cons, ih, withConfig_wake, List.foldl_cons]

theorem withConfig_assert (s : Session) (cond : Cond) :
    (s.withConfig config).assert cond =
      ((s.assert cond).1, (s.assert cond).2.withConfig config) := by
  have hfailure : (s.withConfig config).failure = s.failure := rfl
  have hknown : (s.withConfig config).known = s.known := rfl
  have hdeferred : (s.withConfig config).deferred = s.deferred := rfl
  unfold assert
  rw [hfailure, hknown, hdeferred]
  split
  · rfl
  · cases s.known.prove cond with
    | proven | refuted => rfl
    | unknown =>
      dsimp only
      split <;> rfl

theorem withConfig_assign {s : Session} (hstrict : config.strictShapes = s.config.strictShapes)
    (dst src : Ty) :
    (s.assign dst src).withConfig config = (s.withConfig config).assign dst src := by
  have hsite : (s.withConfig config).site = s.site := by
    unfold site
    exact congrArg (Site.mk s.known · s.location) hstrict
  obtain ⟨hfailed, heq⟩ | ⟨e, hnone, hunify, heq⟩ | ⟨p, hnone, hunify, heq⟩ :=
    assign_cases s dst src
  · rw [heq, assign_of_failed (s := s.withConfig config) hfailed]
  · rw [← hsite] at hunify
    rw [heq, assign_of_error (s := s.withConfig config) hnone hunify]
    rfl
  · rw [← hsite] at hunify
    rw [heq, assign_of_ok (s := s.withConfig config) hnone hunify, withConfig_foldl_wake]
    rfl

/-- A rule is run alike under settings of the same strictness. -/
theorem withConfig_run {s : Session} (hstrict : config.strictShapes = s.config.strictShapes)
    (r : Resolution) : r.run reporter (s.withConfig config) =
      { r.run reporter s with state := (r.run reporter s).state.withConfig config } := by
  induction r generalizing s with
  | done resolved => rfl
  | assign dst src next ih =>
    have hrest := ih (hstrict.trans (congrArg (·.strictShapes) (frames_assign s dst src).config.symm))
    rw [withConfig_assign hstrict] at hrest
    rw [Resolution.run, Resolution.run]
    exact congrArg (fun o => { o with reports := Report.assigned dst src :: o.reports }) hrest
  | assert cond next ih =>
    have hrest := ih (s.assert cond).1
      (hstrict.trans (congrArg (·.strictShapes) (frames_assert s cond).config.symm))
    rw [run_assert, run_assert, withConfig_assert, hrest]
  | locate span next ih =>
    have hrest := ih (s := { s with location := span }) hstrict
    rw [Resolution.run, Resolution.run]
    exact congrArg (fun o => { o with reports := Report.located span :: o.reports }) hrest

theorem withConfig_invoke {s : Session} (hstrict : config.strictShapes = s.config.strictShapes)
    (number : Nat) (r : Relation) :
    (s.invoke number r).withConfig config = (s.withConfig config).invoke number r := by
  have houtcome : (s.withConfig config).outcome r =
      { s.outcome r with state := (s.outcome r).state.withConfig config } :=
    withConfig_run (s := { s with location := r.span }) hstrict (r.rule.resolve (s.query r))
  rw [invoke_eq, invoke_eq, houtcome]
  dsimp only
  split <;> rfl

theorem withConfig_next? (s : Session) : (s.withConfig config).next? =
    s.next?.map fun n => (n.1, n.2.1, n.2.2.withConfig config) := by
  have hpending : (s.withConfig config).isPending = s.isPending := rfl
  have hqueue : (s.withConfig config).queue = s.queue := rfl
  have hentries : (s.withConfig config).entries = s.entries := rfl
  unfold next?
  rw [hpending, hqueue, hentries]
  split
  · rfl
  · rw [Option.map_map]
    rfl

theorem withConfig_apply (s : Session) (a : Setup) :
    (a.apply s).withConfig config = a.apply (s.withConfig config) := by
  cases a with
  | range x r => rfl
  | fresh kind => rfl
  | relation r =>
    have hfold : ∀ (number : Nat) (ps : List Placeholder) (s : Session),
        (ps.foldl (registerUse number) s).withConfig config =
          ps.foldl (registerUse number) (s.withConfig config) := by
      intro number ps
      induction ps with
      | nil => exact fun _ => rfl
      | cons p ps ih => exact fun s => ih (registerUse number s p)
    rw [Setup.apply, Setup.apply, add, add]
    rw [show (s.withConfig config).entries = s.entries from rfl, ← hfold]
    rfl

/-- Settings are given to a new session and are not read before it is solved. -/
theorem withConfig_prepared (globals : Globals) (config config' : Config) (setup : List Setup) :
    (prepared globals config setup).withConfig config'.raised = prepared globals config' setup := by
  have hfold : ∀ s : Session, (setup.foldl Setup.apply s).withConfig config'.raised =
      setup.foldl Setup.apply (s.withConfig config'.raised) := by
    induction setup with
    | nil => exact fun _ => rfl
    | cons a setup ih => exact fun s => (ih (a.apply s)).trans (by rw [withConfig_apply]; rfl)
  exact hfold (start globals config)

end TensorTyping.Session
