import TensorTyping.Proofs.Session.Settings

namespace TensorTyping

/-- Two dimensions differ in a way that is not decided. -/
def TypeError.Undecided (known : Ranges) (e : TypeError) : Prop :=
  ∃ axis a b span, e = .dimensionMismatch axis a b span ∧ known.compare .eq a b = .unknown

/-- A strict computation comes to what a lenient one does, or fails at dimensions that are not
decided. -/
def OrUndecided {α : Type} (known : Ranges) (strict lenient : Except TypeError α) : Prop :=
  strict = lenient ∨ ∃ e, strict = .error e ∧ e.Undecided known

theorem OrUndecided.map {α β : Type} {known : Ranges} {strict lenient : Except TypeError α}
    (h : OrUndecided known strict lenient) (f : α → β) :
    OrUndecided known (strict.map f) (lenient.map f) := by
  obtain rfl | ⟨e, rfl, he⟩ := h
  · exact Or.inl rfl
  · exact Or.inr ⟨e, rfl, he⟩

namespace Site

/-- The same place in a session that puts off what is not decided. -/
def lenient (site : Site) : Site := { site with strict := false }

variable (site : Site) (s : Progress)

theorem compareAxis_lenient (axis : Nat) (a b : Dim) :
    OrUndecided site.known (site.compareAxis s axis a b) (site.lenient.compareAxis s axis a b) := by
  unfold compareAxis
  split
  · exact Or.inl rfl
  · cases hverdict : site.known.compare .eq a b with
    | proven | refuted => exact Or.inl (by simp [lenient, hverdict])
    | unknown =>
      cases hstrict : site.strict with
      | false => exact Or.inl (by simp [lenient, hverdict])
      | true => exact Or.inr ⟨_, rfl, axis, a, b, site.span, rfl, hverdict⟩

theorem compareAxes_lenient (axis : Nat) (axes : List (Dim × Dim)) :
    OrUndecided site.known (site.compareAxes s axis axes)
      (site.lenient.compareAxes s axis axes) := by
  induction axes generalizing s axis with
  | nil => exact Or.inl rfl
  | cons pair axes ih =>
    rw [compareAxes, compareAxes]
    obtain heq | ⟨e, he, hundecided⟩ := site.compareAxis_lenient s axis pair.1 pair.2
    · rw [heq]
      cases site.lenient.compareAxis s axis pair.1 pair.2 with
      | error e => exact Or.inl rfl
      | ok s' => exact ih s' (axis + 1)
    · rw [he]
      exact Or.inr ⟨e, rfl, hundecided⟩

theorem compareTensors_lenient (a b : TensorType) :
    OrUndecided site.known (site.compareTensors s a b) (site.lenient.compareTensors s a b) := by
  unfold compareTensors
  split
  · exact Or.inl rfl
  · split
    · exact Or.inl rfl
    · exact site.compareAxes_lenient s 0 _

/-- Strictness matters only where two tensors meet. -/
theorem step_lenient (t u : Ty) :
    OrUndecided site.known (site.step s t u) (site.lenient.step s t u) := by
  cases t <;> cases u
  case tensor.tensor a b => exact (site.compareTensors_lenient s a b).map _
  all_goals exact Or.inl rfl

theorem solve_lenient (eqs : Equations) :
    OrUndecided site.known (site.solve s eqs) (site.lenient.solve s eqs) := by
  fun_induction site.solve s eqs with
  | case1 s =>
    rw [solve]
    exact Or.inl rfl
  | case2 s t u rest e hstep =>
    obtain heq | ⟨e', he', hundecided⟩ := site.step_lenient s t u
    · rw [solve_cons, ← heq, hstep]
      exact Or.inl rfl
    · obtain rfl : e = e' := by simpa [hstep] using he'
      exact Or.inr ⟨e, rfl, hundecided⟩
  | case3 s t u rest s' hstep ih | case4 s t u rest s' eqs hstep ih
  | case5 s t u rest s' id image hstep ih =>
    obtain heq | ⟨e, he, -⟩ := site.step_lenient s t u
    · rw [solve_cons site.lenient, ← heq, hstep]
      exact ih
    · rw [hstep] at he
      cases he

end Site

namespace Session

/-- The same session, putting off what is not decided. -/
def lenient (s : Session) : Session := { s with config := { s.config with strictShapes := false } }

variable {s : Session}

theorem lenient_foldl_wake (s : Session) (numbers : List Nat) :
    (numbers.foldl wake s).lenient = numbers.foldl wake s.lenient := by
  rw [lenient, (frames_foldl_wake s numbers).config]
  exact withConfig_foldl_wake s numbers

/-- The session has failed at dimensions that are not decided. -/
def FailedUndecided (s : Session) : Prop := ∃ e, s.failure = some e ∧ e.Undecided s.known

theorem lenient_assign (s : Session) (dst src : Ty) :
    (s.assign dst src).lenient = s.lenient.assign dst src ∨ (s.assign dst src).FailedUndecided := by
  by_cases hfailed : s.failure = none
  · have hfailed' : s.lenient.failure = none := hfailed
    have hsite : s.lenient.site = s.site.lenient := rfl
    have hunify := s.site.solve_lenient ⟨s.classes, s.deferred, []⟩
      [(s.classes.resolve dst, s.classes.resolve src)]
    change OrUndecided s.known (s.site.unify ⟨s.classes, s.deferred, []⟩ dst src)
      (s.site.lenient.unify ⟨s.lenient.classes, s.lenient.deferred, []⟩ dst src) at hunify
    rw [← hsite] at hunify
    obtain heq | ⟨e, he, hundecided⟩ := hunify
    · cases hresult : s.site.unify ⟨s.classes, s.deferred, []⟩ dst src with
      | error e =>
        rw [hresult] at heq
        rw [assign_of_error hfailed hresult, assign_of_error hfailed' heq.symm]
        exact Or.inl rfl
      | ok p =>
        rw [hresult] at heq
        rw [assign_of_ok hfailed hresult, assign_of_ok hfailed' heq.symm]
        exact Or.inl (lenient_foldl_wake _ _)
    · rw [assign_of_error hfailed he]
      exact Or.inr ⟨e, by rw [fail, hfailed]; rfl, hundecided⟩
  · rw [assign_of_failed hfailed, assign_of_failed (show s.lenient.failure ≠ none from hfailed)]
    exact Or.inl rfl

/-- Questions are answered in the same way whether or not a session is strict. -/
theorem lenient_assert (s : Session) (cond : Cond) :
    (s.lenient.assert cond).1 = (s.assert cond).1 ∧
      (s.lenient.assert cond).2 = (s.assert cond).2.lenient := by
  have hassert : s.lenient.assert cond = _ := withConfig_assert s cond
  rw [hassert, lenient, (frames_assert s cond).config]
  exact ⟨rfl, rfl⟩

theorem FailedUndecided.run (h : s.FailedUndecided) (r : Resolution) :
    (r.run reporter s).state.FailedUndecided := by
  obtain ⟨e, he, hundecided⟩ := h
  obtain ⟨⟨span, hstate⟩, -⟩ := run_of_failure he r
  rw [hstate]
  exact ⟨e, he, hundecided⟩

/-- A rule is run alike by a strict session and a lenient one, as long as the strict one does not
fail at dimensions that are not decided. -/
theorem lenient_run (r : Resolution) (s : Session) :
    ((r.run reporter s).state.lenient = (r.run reporter s.lenient).state ∧
      (r.run reporter s).reports = (r.run reporter s.lenient).reports ∧
      (r.run reporter s).resolved = (r.run reporter s.lenient).resolved) ∨
    (r.run reporter s).state.FailedUndecided := by
  induction r generalizing s with
  | done resolved => exact Or.inl ⟨rfl, rfl, rfl⟩
  | assign dst src next ih =>
    obtain heq | hfailed := s.lenient_assign dst src
    · refine (ih (s.assign dst src)).imp_left fun ⟨hstate, hreports, hresolved⟩ => ?_
      rw [heq] at hstate hreports hresolved
      exact ⟨hstate, congrArg (List.cons (Report.assigned dst src)) hreports, hresolved⟩
    · exact Or.inr (hfailed.run next)
  | assert cond next ih =>
    obtain ⟨hanswer, hlenient⟩ := s.lenient_assert cond
    refine (ih (s.assert cond).1 (s.assert cond).2).imp_left fun ⟨hstate, hreports, hresolved⟩ => ?_
    rw [run_assert, run_assert, hanswer, hlenient]
    exact ⟨hstate, congrArg (List.cons _) hreports, hresolved⟩
  | locate span next ih =>
    refine (ih { s with location := span }).imp_left fun ⟨hstate, hreports, hresolved⟩ => ?_
    exact ⟨hstate, congrArg (List.cons (Report.located span)) hreports, hresolved⟩

theorem lenient_outcome (s : Session) (r : Relation) :
    ((s.outcome r).state.lenient = (s.lenient.outcome r).state ∧
      (s.outcome r).reports = (s.lenient.outcome r).reports ∧
      (s.outcome r).resolved = (s.lenient.outcome r).resolved) ∨
    (s.outcome r).state.FailedUndecided :=
  lenient_run _ _

theorem lenient_invoke (s : Session) (number : Nat) (r : Relation) :
    (s.invoke number r).lenient = s.lenient.invoke number r ∨
      (s.invoke number r).FailedUndecided := by
  obtain ⟨hstate, hreports, hresolved⟩ | ⟨e, he, hundecided⟩ := s.lenient_outcome r
  · left
    rw [invoke_eq s.lenient, ← hstate, ← hreports, ← hresolved, invoke_eq]
    split <;> rfl
  · obtain ⟨-, hknown, -, hfailure, -⟩ := invoke_fields s number r
    have hframes : (s.outcome r).state.known = s.known := (frames_run _ _).known
    refine Or.inr ⟨e, hfailure.trans he, ?_⟩
    rwa [hknown, ← hframes]

theorem lenient_next? (s : Session) :
    s.lenient.next? = s.next?.map fun n => (n.1, n.2.1, n.2.2.lenient) := by
  have hnext : s.lenient.next? = _ := withConfig_next? s
  rw [hnext]
  cases h : s.next? with
  | none => rfl
  | some next =>
    obtain ⟨number, r, rest⟩ := next
    obtain ⟨queue, rfl, -⟩ := next?_eq_some h
    rfl

/-- Running a strict session and a lenient one comes to the same, unless the strict one fails at
dimensions that are not decided. -/
theorem lenient_run_budget (budget : Nat) (s : Session) :
    s.lenient.run budget = ((s.run budget).1.lenient, (s.run budget).2) ∨
      ∃ e, (s.run budget).2 = .error [e] ∧ e.Undecided s.known := by
  induction budget generalizing s with
  | zero =>
    rw [run, run, lenient_next?]
    cases s.next? <;> exact Or.inl rfl
  | succ budget ih =>
    rw [run, run, lenient_next?]
    cases hnext : s.next? with
    | none => exact Or.inl rfl
    | some next =>
      obtain ⟨number, r, rest⟩ := next
      obtain ⟨queue, rfl, -⟩ := next?_eq_some hnext
      dsimp only [Option.map_some]
      obtain heq | ⟨e, he, hundecided⟩ := lenient_invoke { s with queue } number r
      · have hfailure := congrArg failure heq
        rw [← heq]
        cases hnone : (invoke { s with queue } number r).failure with
        | some e => exact Or.inl (by rw [lenient, hnone])
        | none =>
          have hrest := ih (invoke { s with queue } number r)
          rw [(invoke_fields _ number r).2.1] at hrest
          rw [show (invoke { s with queue } number r).lenient.failure = none from hnone]
          exact hrest
      · rw [he]
        refine Or.inr ⟨e, rfl, ?_⟩
        rwa [(invoke_fields _ number r).2.1] at hundecided

theorem lenient_prepared (globals : Globals) (config : Config) (setup : List Setup) :
    (prepared globals config setup).lenient =
      prepared globals { config with strictShapes := false } setup := by
  have hraised : ({ config.raised with strictShapes := false } : Config) =
      ({ config with strictShapes := false } : Config).raised := by
    unfold Config.raised
    dsimp only
    split <;> rfl
  rw [lenient, (provides_prepared globals config setup).config, hraised]
  exact withConfig_prepared globals config _ setup

/-- A strict session makes the same invocations and comes to the same as one that puts off what is
not decided, or it ends with a single error, about two dimensions that are not decided. -/
theorem strict_solve (globals : Globals) (config : Config) (setup : List Setup) :
    let strict := prepared globals { config with strictShapes := true } setup
    let lenient := prepared globals { config with strictShapes := false } setup
    (strict.solve.2 = lenient.solve.2 ∧ strict.solve.1.trace = lenient.solve.1.trace) ∨
      ∃ axis a b span, strict.solve.2 = .error [.dimensionMismatch axis a b span] ∧
        strict.known.compare .eq a b = .unknown := by
  intro strict lenient
  have hlenient : strict.lenient = lenient := lenient_prepared globals _ setup
  have hrun := lenient_run_budget (strict.config.budget strict.entries.length) strict
  obtain heq | ⟨e, he, axis, a, b, span, rfl, hundecided⟩ := hrun
  · have hsolve : lenient.solve = (strict.solve.1.lenient, strict.solve.2) := by
      rw [← hlenient]
      exact heq
    rw [hsolve]
    exact Or.inl ⟨rfl, rfl⟩
  · exact Or.inr ⟨axis, a, b, span, he, hundecided⟩

end Session

end TensorTyping
