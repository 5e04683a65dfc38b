import TensorTyping.Proofs.Session.Passage

namespace TensorTyping

namespace Session

variable {s : Session} {e : TypeError}

/-- How a session goes on between two invocations. -/
def proceed (s : Session) : Session × Result :=
  match s.failure with
  | some e => (s, .error [e])
  | none => s.run (s.config.budget s.entries.length - s.trace.length)

/-- How a session goes on when a rule has some requests left. -/
def carry (s : Session) (call : Call) (rest : Resolution) : Session × Result :=
  let o := rest.run reporter s
  (o.state.close (call.after o.reports) o.resolved).proceed

theorem proceed_of_failure (h : s.failure = some e) : s.proceed = (s, .error [e]) := by
  rw [proceed, h]

theorem proceed_of_none (h : s.failure = none) :
    s.proceed = s.run (s.config.budget s.entries.length - s.trace.length) := by
  rw [proceed, h]

theorem carry_of_failure (h : s.failure = some e) (call : Call) (rest : Resolution) :
    (s.carry call rest).2 = .error [e] ∧ (s.carry call rest).1.failure = some e ∧
      (s.carry call rest).1.trace = s.trace ++
        [(call.after (rest.rehearse fun _ => false).reports).record
          (rest.rehearse fun _ => false).resolved] := by
  obtain ⟨⟨span, hstate⟩, hreports, hresolved⟩ := run_of_failure h rest
  obtain ⟨-, -, hfailure, htrace⟩ := close_fields { s with location := span }
    (call.after (rest.rehearse fun _ => false).reports) (rest.rehearse fun _ => false).resolved
  rw [carry, hstate, hreports, hresolved, proceed_of_failure (hfailure.trans h)]
  exact ⟨rfl, hfailure.trans h, htrace⟩

theorem carry_done (call : Call) (resolved : Bool) :
    s.carry call (.done resolved) = (s.close call resolved).proceed := by
  have hafter : call.after [] = call := by
    rw [Call.after, List.append_nil]
  exact congrArg (fun c => (s.close c resolved).proceed) hafter

theorem carry_assign (call : Call) (dst src : Ty) (next : Resolution) :
    s.carry call (.assign dst src next) =
      (s.assign dst src).carry (call.after [.assigned dst src]) next := by
  rw [carry, carry, Call.after_after]
  rfl

theorem carry_assert (call : Call) (cond : Cond) (next : Bool → Resolution) :
    s.carry call (.assert cond next) = (s.assert cond).2.carry
      (call.after [.asserted cond (s.assert cond).1]) (next (s.assert cond).1) := by
  rw [carry, carry, Call.after_after]
  rfl

theorem carry_locate (call : Call) (span : Span) (next : Resolution) :
    s.carry call (.locate span next) =
      carry { s with location := span } (call.after [.located span]) next := by
  rw [carry, carry, Call.after_after]
  rfl

/-- Taking a relation off the worklist and running it is one step of the loop. -/
theorem proceed_take {rest : Session} {number : Nat} {r : Relation} (hnone : s.failure = none)
    (hbudget : s.trace.length < s.config.budget s.entries.length)
    (hnext : s.next? = some (number, r, rest)) :
    s.proceed = carry { rest with location := r.span } ⟨number, r, r.args.map rest.resolve, []⟩
      (r.rule.resolve (rest.query r)) := by
  have hcarry : carry { rest with location := r.span } ⟨number, r, r.args.map rest.resolve, []⟩
      (r.rule.resolve (rest.query r)) = (rest.invoke number r).proceed := rfl
  obtain ⟨n, hn⟩ : ∃ n, s.config.budget s.entries.length - s.trace.length = n + 1 :=
    ⟨_, (Nat.succ_pred_eq_of_pos (Nat.sub_pos_of_lt hbudget)).symm⟩
  have hleft : (rest.invoke number r).config.budget (rest.invoke number r).entries.length -
      (rest.invoke number r).trace.length = n := by
    obtain ⟨queue, rfl, -⟩ := next?_eq_some hnext
    obtain ⟨-, -, -, -, htrace⟩ := invoke_fields { s with queue } number r
    rw [config_invoke, length_invoke, htrace, List.length_append, List.length_singleton]
    change s.config.budget s.entries.length - (s.trace.length + 1) = n
    omega
  rw [hcarry, proceed_of_none hnone, hn, run, hnext]
  dsimp only
  cases hfailure : (rest.invoke number r).failure with
  | some e => exact (proceed_of_failure hfailure).symm
  | none => exact ((proceed_of_none hfailure).trans (by rw [hleft])).symm

end Session

namespace Point

variable {p p' : Point}

/-- What a session comes to from a point on. -/
def outcome : Point → Session × Result
  | ⟨s, .idle⟩ => s.proceed
  | ⟨s, .running call rest⟩ => s.carry call rest
  | ⟨s, .solving call woken eqs rest⟩ =>
    match s.site.solve ⟨s.classes, s.deferred, woken⟩ eqs with
    | .error e => (s.fail e).carry call rest
    | .ok p => (p.woken.foldl Session.wake
      { s with classes := p.classes, deferred := p.deferred }).carry call rest

/-- What can be seen of that: all invocations, what failed, and the result. -/
def observed (p : Point) : List Invocation × Option TypeError × Result :=
  (p.outcome.1.trace, p.outcome.1.failure, p.outcome.2)

/-- No step changes what a run comes to. -/
theorem Pass.observed (h : Pass p p') (hp : p.Valid) : p.observed = p'.observed := by
  cases h with
  | take hnone hbudget hnext =>
    rw [Point.observed, Point.observed, outcome, outcome, Session.proceed_take hnone hbudget hnext]
  | @assign s call dst src next hnone =>
    rw [Point.observed, Point.observed, outcome, outcome, s.carry_assign]
    have hunify : s.site.unify ⟨s.classes, s.deferred, []⟩ dst src =
        s.site.solve ⟨s.classes, s.deferred, []⟩ [(s.resolve dst, s.resolve src)] := rfl
    cases hsolve : s.site.solve ⟨s.classes, s.deferred, []⟩ [(s.resolve dst, s.resolve src)] with
    | error e => rw [Session.assign_of_error hnone (hunify.trans hsolve)]
    | ok p => rw [Session.assign_of_ok hnone (hunify.trans hsolve)]
  | ignore hfailure =>
    rw [Point.observed, Point.observed, outcome, outcome, Session.carry_assign,
      Session.assign_of_failed hfailure]
  | assert => rw [Point.observed, Point.observed, outcome, outcome, Session.carry_assert]
  | locate => rw [Point.observed, Point.observed, outcome, outcome, Session.carry_locate]
  | close => rw [Point.observed, Point.observed, outcome, outcome, Session.carry_done]
  | @equation s call woken t u eqs next result hstep =>
    have hnone : s.failure = none := hp.failure (List.cons_ne_nil _ _)
    have hsite : Session.site { s with
      classes := result.progress.classes, deferred := result.progress.deferred } = s.site := rfl
    rw [Point.observed, Point.observed, outcome, outcome, Site.solve_cons_remaining hstep, hsite]
    cases hsolve : s.site.solve result.progress (result.remaining eqs) with
    | ok p => rfl
    | error e =>
      -- the classes differ here, but nothing is looked up in them any more
      obtain ⟨hresult, hfailure, htrace⟩ :=
        Session.carry_of_failure (Session.failure_fail hnone e) call next
      obtain ⟨hresult', hfailure', htrace'⟩ := Session.carry_of_failure (s := Session.fail { s with
        classes := result.progress.classes, deferred := result.progress.deferred } e)
        (Session.failure_fail hnone e) call next
      exact Prod.ext (htrace.trans htrace'.symm)
        (Prod.ext (hfailure.trans hfailure'.symm) (hresult.trans hresult'.symm))
  | @unsolvable s call woken t u eqs next e hstep =>
    rw [Point.observed, Point.observed, outcome, outcome, Site.solve_cons, hstep]
  | wake => rw [Point.observed, Point.observed, outcome, outcome, Site.solve]

theorem Passes.observed (h : Passes p p') (hp : p.Valid) : p.observed = p'.observed := by
  induction h with
  | refl => rfl
  | tail hpasses hpass ih => exact ih.trans (hpass.observed (Passes.valid hpasses hp))

/-- From its start on, a run comes to what solving the session comes to. -/
theorem observed_start (globals : Globals) (config : Config) (setup : List Setup) :
    (start globals config setup).observed =
      ((Session.prepared globals config setup).solve.1.trace,
        (Session.prepared globals config setup).solve.1.failure,
        (Session.prepared globals config setup).solve.2) := by
  have hs₀ := Session.untouched_prepared globals config setup
  have hproceed : (Session.prepared globals config setup).proceed =
      (Session.prepared globals config setup).solve := by
    rw [Session.proceed, hs₀.failure, hs₀.trace]
    rfl
  rw [Point.observed, start, outcome, hproceed]

end Point

namespace Site

open Point

variable {s : Session} {call : Call} {next : Resolution}

/-- Solving equations is done in steps. -/
theorem passes_of_solve {p p' : Progress} {eqs : Equations} (h : s.site.solve p eqs = .ok p') :
    Passes ⟨{ s with classes := p.classes, deferred := p.deferred }, .solving call p.woken eqs next⟩
      ⟨p'.woken.foldl Session.wake { s with classes := p'.classes, deferred := p'.deferred },
        .running call next⟩ := by
  fun_induction s.site.solve p eqs with
  | case1 p =>
    cases h
    exact .single .wake
  | case2 p t u rest e hstep => cases h
  | case3 p t u rest p₁ hstep ih | case4 p t u rest p₁ eqs' hstep ih
  | case5 p t u rest p₁ id image hstep ih => exact .head (.equation hstep) (ih h)

/-- If an equation turns out to have no solution, what the equations before it have brought about
stays. -/
theorem passes_of_solve_error {p : Progress} {eqs : Equations} {e : TypeError}
    (h : s.site.solve p eqs = .error e) : ∃ classes deferred,
      Passes ⟨{ s with classes := p.classes, deferred := p.deferred },
        .solving call p.woken eqs next⟩
        ⟨Session.fail { s with classes, deferred } e, .running call next⟩ := by
  fun_induction s.site.solve p eqs with
  | case1 p => cases h
  | case2 p t u rest e hstep =>
    cases h
    exact ⟨p.classes, p.deferred, .single (.unsolvable hstep)⟩
  | case3 p t u rest p₁ hstep ih | case4 p t u rest p₁ eqs' hstep ih
  | case5 p t u rest p₁ id image hstep ih =>
    obtain ⟨classes, deferred, hpasses⟩ := ih h
    exact ⟨classes, deferred, .head (.equation hstep) hpasses⟩

end Site

namespace Point

variable {p p' : Point}

/-- The run is over: something has failed, or nothing is left to do, or the budget is used up. -/
structure Over (p : Point) : Prop where
  task : p.task = .idle
  ended : p.session.failure ≠ none ∨ p.session.next? = none ∨
    p.session.config.budget p.session.entries.length ≤ p.session.trace.length

/-- The number of invocations that have begun. -/
def begun (p : Point) : Nat := p.session.trace.length + p.task.call?.toList.length

theorem Pass.begun_le (h : Pass p p') : p.begun ≤ p'.begun := by
  cases h with
  | @take s rest number r _ _ hnext =>
    obtain ⟨queue, rfl, -⟩ := Session.next?_eq_some hnext
    exact Nat.le_succ _
  | @assert s call cond next =>
    rw [begun, begun, (Session.frames_assert s cond).trace]
    exact Nat.le_refl _
  | @close s call resolved =>
    obtain ⟨-, -, -, htrace⟩ := s.close_fields call resolved
    rw [begun, begun, htrace, List.length_append]
    exact Nat.le_refl _
  | @wake s call woken next =>
    rw [begun, begun, (Session.frames_foldl_wake s woken).trace]
    exact Nat.le_refl _
  | assign | ignore | locate | equation | unsolvable => exact Nat.le_refl _

theorem Pass.budget (h : Pass p p') : p'.session.config = p.session.config ∧
    p'.session.entries.length = p.session.entries.length := by
  cases h with
  | take _ _ hnext =>
    obtain ⟨queue, rfl, -⟩ := Session.next?_eq_some hnext
    exact ⟨rfl, rfl⟩
  | @assert s call cond next =>
    have hframes := Session.frames_assert s cond
    exact ⟨hframes.config, congrArg List.length hframes.entries⟩
  | @close s call resolved =>
    unfold Session.close
    dsimp only
    split
    · exact ⟨rfl, List.length_modify ..⟩
    · exact ⟨rfl, rfl⟩
  | @wake s call woken next =>
    have hframes := Session.frames_foldl_wake s woken
    exact ⟨hframes.config, congrArg List.length hframes.entries⟩
  | assign | ignore | locate | equation | unsolvable => exact ⟨rfl, rfl⟩

theorem Passes.begun_le (h : Passes p p') : p.begun ≤ p'.begun := by
  induction h with
  | refl => exact Nat.le_refl _
  | tail _ hpass ih => exact ih.trans hpass.begun_le

theorem Passes.budget (h : Passes p p') : p'.session.config = p.session.config ∧
    p'.session.entries.length = p.session.entries.length := by
  induction h with
  | refl => exact ⟨rfl, rfl⟩
  | tail _ hpass ih => exact ⟨hpass.budget.1.trans ih.1, hpass.budget.2.trans ih.2⟩

/-- Equations come to their end. -/
theorem exists_passes_running (s : Session) (call : Call) (woken : List Nat) (eqs : Equations)
    (rest : Resolution) : ∃ s', Passes ⟨s, .solving call woken eqs rest⟩ ⟨s', .running call rest⟩ := by
  cases hsolve : s.site.solve ⟨s.classes, s.deferred, woken⟩ eqs with
  | ok p => exact ⟨_, Site.passes_of_solve hsolve⟩
  | error e =>
    obtain ⟨classes, deferred, hfails⟩ := Site.passes_of_solve_error hsolve
    exact ⟨_, hfails⟩

/-- A rule comes to its end. -/
theorem exists_passes_idle (s : Session) (call : Call) (rest : Resolution) :
    ∃ s', Passes ⟨s, .running call rest⟩ ⟨s', .idle⟩ := by
  induction rest generalizing s call with
  | done resolved => exact ⟨_, .single .close⟩
  | assign dst src next ih =>
    by_cases hfailure : s.failure = none
    · obtain ⟨s₁, hsolved⟩ := exists_passes_running s (call.after [.assigned dst src]) []
        [(s.resolve dst, s.resolve src)] next
      obtain ⟨s', hpasses⟩ := ih s₁ (call.after [.assigned dst src])
      exact ⟨s', .head (.assign hfailure) (hsolved.trans hpasses)⟩
    · obtain ⟨s', hpasses⟩ := ih s (call.after [.assigned dst src])
      exact ⟨s', .head (.ignore hfailure) hpasses⟩
  | assert cond next ih =>
    obtain ⟨s', hpasses⟩ := ih (s.assert cond).1 (s.assert cond).2
      (call.after [.asserted cond (s.assert cond).1])
    exact ⟨s', .head .assert hpasses⟩
  | locate span next ih =>
    obtain ⟨s', hpasses⟩ := ih { s with location := span } (call.after [.located span])
    exact ⟨s', .head .locate hpasses⟩

theorem exists_passes_over_idle (s : Session) : ∃ q, Passes ⟨s, .idle⟩ q ∧ q.Over := by
  -- every invocation uses up some of the budget
  induction hleft : s.config.budget s.entries.length - s.trace.length using Nat.strong_induction_on
    generalizing s with
  | h n ih =>
    by_cases hover : (⟨s, .idle⟩ : Point).Over
    · exact ⟨_, .refl, hover⟩
    · have hgoes : s.failure = none ∧ s.next? ≠ none ∧
          s.trace.length < s.config.budget s.entries.length := by
        simpa using mt (Over.mk rfl) hover
      obtain ⟨hnone, hnext, hbudget⟩ := hgoes
      obtain ⟨⟨number, r, rest⟩, hnext⟩ := Option.ne_none_iff_exists'.mp hnext
      obtain ⟨s', hpasses⟩ := exists_passes_idle { rest with location := r.span }
        ⟨number, r, r.args.map rest.resolve, []⟩ (r.rule.resolve (rest.query r))
      have htake := Pass.take hnone hbudget hnext
      have hbegun : s.trace.length + 1 ≤ s'.trace.length := by
        obtain ⟨queue, rfl, -⟩ := Session.next?_eq_some hnext
        exact Passes.begun_le hpasses
      obtain ⟨hconfig, hlength⟩ := Passes.budget (.head htake hpasses)
      have hless : s'.config.budget s'.entries.length - s'.trace.length < n := by
        dsimp only at hconfig hlength
        rw [hconfig, hlength]
        omega
      obtain ⟨q, hq, hover⟩ := ih _ hless s' rfl
      exact ⟨q, .head htake (hpasses.trans hq), hover⟩

/-- Every run comes to its end. -/
theorem exists_passes_over (p : Point) : ∃ q, Passes p q ∧ q.Over := by
  obtain ⟨s, _ | ⟨call, rest⟩ | ⟨call, woken, eqs, rest⟩⟩ := p
  · exact exists_passes_over_idle s
  · obtain ⟨s', hpasses⟩ := exists_passes_idle s call rest
    obtain ⟨q, hq, hover⟩ := exists_passes_over_idle s'
    exact ⟨q, hpasses.trans hq, hover⟩
  · obtain ⟨s', hsolved⟩ := exists_passes_running s call woken eqs rest
    obtain ⟨s'', hpasses⟩ := exists_passes_idle s' call rest
    obtain ⟨q, hq, hover⟩ := exists_passes_over_idle s''
    exact ⟨q, hsolved.trans (hpasses.trans hq), hover⟩

theorem Over.failure_outcome (h : p.Over) : p.outcome.1.failure = p.session.failure := by
  obtain ⟨s, task⟩ := p
  obtain ⟨rfl, hended⟩ := h
  rw [outcome, Session.proceed]
  cases hfailure : s.failure with
  | some e => exact hfailure
  | none =>
    dsimp only
    obtain hfailed | hnext | hbudget := hended
    · exact absurd hfailure hfailed
    · rw [Session.run, hnext]
      exact hfailure
    · rw [Nat.sub_eq_zero_of_le hbudget, Session.run]
      cases hnext : s.next? with
      | none => exact hfailure
      | some next =>
        obtain ⟨number, r, rest⟩ := next
        obtain ⟨queue, rfl, -⟩ := Session.next?_eq_some hnext
        exact hfailure

/-- The run of a new session ends, having made all its invocations, with what failed in it. -/
theorem exists_passes_end (globals : Globals) (config : Config) (setup : List Setup) :
    ∃ q, Passes (start globals config setup) q ∧ q.Over ∧
      q.session.failure = (Session.prepared globals config setup).solve.1.failure := by
  obtain ⟨q, hpasses, hover⟩ := exists_passes_over (start globals config setup)
  have hobserved := (Passes.observed hpasses (valid_start globals config setup)).symm.trans
    (observed_start globals config setup)
  refine ⟨q, hpasses, hover, ?_⟩
  rw [← hover.failure_outcome]
  exact congrArg (·.2.1) hobserved

end Point

end TensorTyping
