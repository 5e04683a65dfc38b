import TensorTyping.Proofs.Session.Observation

namespace TensorTyping

/-- The errors that requests of rules lead to, where they are made. -/
inductive TypeError.Clash (span : Span) : TypeError → Prop where
  | mismatch (t u : Ty) (difference : Option Difference) : Clash span (.mismatch t u difference span)
  | occurs (p : Placeholder) (t : Ty) : Clash span (.occurs p t span)
  | kindMismatch (expected found : Kind) : Clash span (.kindMismatch expected found span)
  | assertionFailed (cond : Cond) : Clash span (.assertionFailed cond span)
  | dimensionMismatch (axis : Nat) (a b : Dim) : Clash span (.dimensionMismatch axis a b span)

theorem TypeError.Clash.span {span : Span} {e : TypeError} (h : e.Clash span) :
    e.span? = some span := by
  cases h <;> rfl

namespace Site

variable {site : Site} {s : Progress} {t u : Ty} {e : TypeError}

theorem clash_of_compareAxes_error {axis : Nat} {axes : List (Dim × Dim)}
    (h : site.compareAxes s axis axes = .error e) : e.Clash site.span := by
  induction axes generalizing s axis with
  | nil => cases h
  | cons ab axes ih =>
    obtain ⟨a, b⟩ := ab
    rw [compareAxes] at h
    cases haxis : site.compareAxis s axis a b with
    | ok s' =>
      rw [haxis] at h
      exact ih h
    | error e' =>
      rw [haxis] at h
      cases h
      unfold compareAxis at haxis
      (repeat' split at haxis) <;> cases haxis <;> exact .dimensionMismatch axis a b

/-- An equation that has no solution is reported where the types are unified. -/
theorem clash_of_step_error (h : site.step s t u = .error e) : e.Clash site.span := by
  have hmismatch : ∀ {α : Type} {t u : Ty} {difference : Option Difference},
      site.mismatch (α := α) t u difference = .error e → e.Clash site.span := by
    intro α t u difference h
    cases h
    exact .mismatch t u difference
  have hbind : ∀ {p : Placeholder} {t : Ty}, site.bindHole s p t = .error e →
      e.Clash site.span := by
    intro p t h
    unfold bindHole at h
    dsimp only at h
    split at h <;> cases h
    exact .occurs p t
  unfold step at h
  split at h
  · unfold joinHoles at h
    dsimp only at h
    (repeat' split at h) <;> cases h
    exact .kindMismatch _ _
  · exact hbind h
  · exact hbind h
  · rename_i a b
    cases hcompare : site.compareTensors s a b with
    | ok s' =>
      rw [hcompare] at h
      cases h
    | error e' =>
      rw [hcompare] at h
      cases h
      unfold compareTensors at hcompare
      (repeat' split at hcompare) <;> first
        | exact hmismatch hcompare
        | exact clash_of_compareAxes_error hcompare
  all_goals
    (repeat' split at h) <;> first
      | exact hmismatch h
      | cases h

theorem clash_of_solve_error {eqs : Equations} (h : site.solve s eqs = .error e) :
    e.Clash site.span := by
  fun_induction site.solve s eqs with
  | case1 s => cases h
  | case2 s t u rest e hstep =>
    cases h
    exact clash_of_step_error hstep
  | case3 s t u rest s₁ hstep ih | case4 s t u rest s₁ eqs hstep ih
  | case5 s t u rest s₁ id image hstep ih => exact ih h

end Site

namespace Session

variable {s : Session}

/-- A rule's next request fails: the types cannot be made equal, or the condition cannot hold. -/
inductive Rejects (s : Session) : Resolution → Report → Resolution → TypeError → Prop where
  | assign {dst src : Ty} {next : Resolution} {e : TypeError} :
    s.site.unify ⟨s.classes, s.deferred, []⟩ dst src = .error e →
    Rejects s (.assign dst src next) (.assigned dst src) next e
  | assert {cond : Cond} {next : Bool → Resolution} : s.known.prove cond = .refuted →
    Rejects s (.assert cond next) (.asserted cond false) (next false)
      (.assertionFailed cond s.location)

theorem Rejects.clash {rest next : Resolution} {request : Report} {e : TypeError}
    (h : s.Rejects rest request next e) : e.Clash s.location := by
  cases h with
  | assign hunify => exact Site.clash_of_solve_error hunify
  | assert => exact .assertionFailed _

end Session

namespace Point

variable {p₀ p p' q : Point} {call : Call} {request : Report} {next : Resolution} {e : TypeError}

/-- The first request of a run that fails: the point where it is made, the invocation with the
requests before it, the request, what the rule goes on with, and the error. -/
structure FirstFailure (p₀ q : Point) (call : Call) (request : Report) (next : Resolution)
    (e : TypeError) : Prop where
  reached : Passes p₀ q
  fresh : q.session.failure = none
  rejects : ∃ rest, q.task = .running call rest ∧ q.session.Rejects rest request next e

/-- Nothing but the location and the record of the current invocation has changed. -/
structure Unmoved (p p' : Point) : Prop where
  classes : p'.session.classes = p.session.classes
  deferred : p'.session.deferred = p.session.deferred
  failure : p'.session.failure = p.session.failure
  begun : p'.begun = p.begun

/-- Once something has failed, requests have no effect, and no relation is taken off the
worklist. -/
theorem Pass.unmoved (h : Pass p p') (hp : p.Valid) (hfailed : p.session.failure ≠ none) :
    Unmoved p p' := by
  have heqs : p.task.eqs = [] := by
    by_contra hne
    exact hfailed (hp.failure hne)
  cases h with
  | take hnone => exact absurd hnone hfailed
  | assign hnone => exact absurd hnone hfailed
  | @assert s call cond next =>
    rw [Session.assert_of_failed hfailed]
    exact ⟨rfl, rfl, rfl, rfl⟩
  | @close s call resolved =>
    obtain ⟨hclasses, hdeferred, hfailure, htrace⟩ := s.close_fields call resolved
    refine ⟨hclasses, hdeferred, hfailure, ?_⟩
    rw [begun, begun, htrace, List.length_append]
    rfl
  | equation | unsolvable => cases heqs
  | @wake s call woken next =>
    obtain ⟨hclasses, -, hdeferred, hfailure⟩ := s.foldl_wake_fields woken
    refine ⟨hclasses, hdeferred, hfailure, ?_⟩
    rw [begun, begun, (Session.frames_foldl_wake s woken).trace]
    rfl
  | ignore | locate => exact ⟨rfl, rfl, rfl, rfl⟩

theorem Passes.unmoved (h : Passes p p') (hp : p.Valid) (hfailed : p.session.failure ≠ none) :
    Unmoved p p' := by
  induction h with
  | refl => exact ⟨rfl, rfl, rfl, rfl⟩
  | tail hpasses hpass ih =>
    obtain ⟨hclasses, hdeferred, hfailure, hbegun⟩ := hpass.unmoved (Passes.valid hpasses hp)
      (fun hnone => hfailed (ih.failure.symm.trans hnone))
    exact ⟨hclasses.trans ih.classes, hdeferred.trans ih.deferred, hfailure.trans ih.failure,
      hbegun.trans ih.begun⟩

/-- Where equations are solved, a request has led to them. -/
theorem exists_assign (hstart : p₀.task = .idle) (h : Passes p₀ p) {woken : List Nat}
    {eqs : Equations} (hp : p.task = .solving call woken eqs next) :
    ∃ q call' dst src, Passes p₀ q ∧ q.session.failure = none ∧
      q.task = .running call' (.assign dst src next) ∧
      q.session.site.unify ⟨q.session.classes, q.session.deferred, []⟩ dst src =
        p.session.site.solve ⟨p.session.classes, p.session.deferred, woken⟩ eqs := by
  induction h generalizing woken eqs with
  | refl =>
    rw [hstart] at hp
    cases hp
  | @tail p p' hpasses hpass ih =>
    cases hpass with
    | @assign s call dst src next hnone =>
      cases hp
      exact ⟨_, _, dst, src, hpasses, hnone, rfl, rfl⟩
    | @equation s call woken t u eqs next result hstep =>
      cases hp
      obtain ⟨q, call', dst, src, hq, hnone, htask, hunify⟩ := ih rfl
      exact ⟨q, call', dst, src, hq, hnone, htask,
        hunify.trans (Site.solve_cons_remaining hstep eqs)⟩
    | take | ignore | assert | locate | close | unsolvable | wake => cases hp

/-- What has failed in a run is the first request that failed. -/
theorem exists_firstFailure (hstart : p₀.Valid) (htask : p₀.task = .idle)
    (hfresh : p₀.session.failure = none) (h : Passes p₀ p) (hp : p.session.failure = some e) :
    ∃ q call request next, FirstFailure p₀ q call request next e := by
  induction h with
  | refl =>
    rw [hfresh] at hp
    cases hp
  | @tail p p' hpasses hpass ih =>
    by_cases hnone : p.session.failure = none
    · cases hpass with
      | @assert s call cond next =>
        obtain hkept | hprove := Session.failure_assert hnone cond
        · cases hkept.symm.trans hp
        · rw [Session.assert_of_refuted hnone hprove] at hp
          cases (Session.failure_fail hnone _).symm.trans hp
          exact ⟨_, call, _, _, hpasses, hnone, _, rfl, .assert hprove⟩
      | @unsolvable s call woken t u eqs next e' hstep =>
        cases (Session.failure_fail hnone e').symm.trans hp
        obtain ⟨q, call', dst, src, hq, hfresh, htask, hunify⟩ := exists_assign htask hpasses rfl
        rw [Site.solve_cons, hstep] at hunify
        exact ⟨q, call', _, next, hq, hfresh, _, htask, .assign hunify⟩
      | take _ _ hnext =>
        obtain ⟨queue, rfl, -⟩ := Session.next?_eq_some hnext
        cases hnone.symm.trans hp
      | @close s call resolved =>
        cases hnone.symm.trans ((s.close_fields call resolved).2.2.1.symm.trans hp)
      | @wake s call woken next =>
        cases hnone.symm.trans ((s.foldl_wake_fields woken).2.2.2.symm.trans hp)
      | assign | ignore | locate | equation => cases hnone.symm.trans hp
    · have hunmoved := hpass.unmoved (Passes.valid hpasses hstart) hnone
      exact ih (hunmoved.failure.symm.trans hp)

/-- The failing request is carried out. -/
theorem FirstFailure.exists_passes (h : FirstFailure p₀ q call request next e) :
    ∃ p, Passes q p ∧ p.task = .running (call.after [request]) next ∧ p.session.failure = some e ∧
      p.session.trace = q.session.trace := by
  obtain ⟨s, task⟩ := q
  obtain ⟨-, hnone, rest, rfl, hrejects⟩ := h
  cases hrejects with
  | @assign dst src next e hunify =>
    obtain ⟨classes, deferred, hpasses⟩ := Site.passes_of_solve_error hunify
    exact ⟨_, .head (.assign hnone) hpasses, rfl, Session.failure_fail hnone e, rfl⟩
  | @assert cond next hprove =>
    have hpass : Pass ⟨s, .running call (.assert cond next)⟩ _ := .assert
    rw [Session.assert_of_refuted hnone hprove] at hpass
    exact ⟨_, .single hpass, rfl, Session.failure_fail hnone _, rfl⟩

theorem answer_of_rehearse {r : Resolution} {cond : Cond} {answer : Bool}
    (h : .asserted cond answer ∈ (r.rehearse fun _ => false).reports) : answer = false := by
  induction r with
  | done resolved => cases h
  | assign dst src next ih =>
    obtain h | h := List.mem_cons.mp h
    · cases h
    · exact ih h
  | assert cond' next ih =>
    obtain h | h := List.mem_cons.mp h
    · cases h
      rfl
    · exact ih false h
  | locate span next ih =>
    obtain h | h := List.mem_cons.mp h
    · cases h
    · exact ih h

/-- The first request that fails decides what a session comes to. -/
theorem FirstFailure.observed (hstart : p₀.Valid)
    (h : FirstFailure p₀ q call request next e) :
    p₀.observed.2 = (some e, .error [e]) ∧ ∃ later resolved,
      p₀.observed.1 =
        q.session.trace ++ [(call.after (request :: later)).record resolved] ∧
      ∀ cond answer, .asserted cond answer ∈ later → answer = false := by
  obtain ⟨p, hpasses, htask, hfailure, htrace⟩ := h.exists_passes
  obtain ⟨s, task⟩ := p
  cases htask
  obtain ⟨hresult, hfailure', htrace'⟩ :=
    Session.carry_of_failure hfailure (call.after [request]) next
  rw [Passes.observed (h.reached.trans hpasses) hstart]
  refine ⟨Prod.ext hfailure' hresult, (next.rehearse fun _ => false).reports,
    (next.rehearse fun _ => false).resolved, ?_, fun cond answer => answer_of_rehearse⟩
  rw [Call.after_after] at htrace'
  exact htrace'.trans (congrArg (· ++ _) htrace)

theorem clash_of_failure (globals : Globals) (config : Config) (setup : List Setup)
    (h : (Session.prepared globals config setup).solve.1.failure = some e) :
    ∃ span, e.Clash span := by
  obtain ⟨p, hpasses, -, hfailure⟩ := exists_passes_end globals config setup
  obtain ⟨q, call, request, next, hfirst⟩ := exists_firstFailure
    (valid_start globals config setup) rfl
    (Session.untouched_prepared globals config setup).failure hpasses (hfailure.trans h)
  obtain ⟨rest, -, hrejects⟩ := hfirst.rejects
  exact ⟨q.session.location, hrejects.clash⟩

/-- The first failure wins. What fails in a session is the first request of a rule that fails,
whatever the rule requests afterwards; it is the only error of the session, and its location is the
one that was set last in the same invocation, or else the relation's own. From then on no class
changes, no condition is put off, all questions are answered with no, and the invocation is the
last. -/
theorem first_failure_wins (globals : Globals) (config : Config) (setup : List Setup) :
    let p₀ : Point := start globals config setup
    let solved := (Session.prepared globals config setup).solve
    (∀ e, solved.1.failure = some e →
      ∃ q call request next, FirstFailure p₀ q call request next e) ∧
    ∀ q call request next e, FirstFailure p₀ q call request next e →
      solved.2 = .error [e] ∧ e.span? = some call.location ∧
      (∃ later resolved,
        solved.1.trace = q.session.trace ++ [(call.after (request :: later)).record resolved] ∧
        ∀ cond answer, .asserted cond answer ∈ later → answer = false) ∧
      ∃ p, Passes q p ∧ p.task = .running (call.after [request]) next ∧
        p.session.failure = some e ∧ ∀ p', Passes p p' →
          Unmoved p p' ∧ ∀ cond, (p'.session.assert cond).1 = false := by
  intro p₀ solved
  have hs₀ := Session.untouched_prepared globals config setup
  have hstart : p₀.Valid := valid_start globals config setup
  have hobserved := observed_start globals config setup
  refine ⟨fun e he => ?_, fun q call request next e h => ?_⟩
  · obtain ⟨q, hpasses, -, hfailure⟩ := exists_passes_end globals config setup
    exact exists_firstFailure hstart rfl hs₀.failure hpasses (hfailure.trans he)
  · have hq : q.Valid := Passes.valid h.reached hstart
    obtain ⟨hend, later, resolved, htrace, hlater⟩ := h.observed hstart
    rw [hobserved] at hend htrace
    obtain ⟨p, hpasses, htask, hfailure, -⟩ := h.exists_passes
    refine ⟨congrArg Prod.snd hend, ?_, ⟨later, resolved, htrace, hlater⟩, p, hpasses, htask, hfailure,
      fun p' hp' => ?_⟩
    · obtain ⟨rest, hrunning, hrejects⟩ := h.rejects
      rw [hrejects.clash.span, hq.location call (by rw [hrunning]; rfl)]
    · have hfailed : p.session.failure ≠ none := by simp [hfailure]
      have hunmoved := Passes.unmoved hp' (Passes.valid hpasses hq) hfailed
      refine ⟨hunmoved, fun cond => ?_⟩
      rw [Session.assert_of_failed (by rw [hunmoved.failure]; exact hfailed)]

/-- A rule sets a location and makes two pairs equal that cannot be: the first of their parts bind
a placeholder, and then the second ones differ. It asks for a condition after that, and returns
true. -/
theorem first_failure_wins_pair :
    let a : Placeholder := ⟨0, .type⟩
    let b : Placeholder := ⟨1, .type⟩
    let inner : Span := ⟨7, 9⟩
    let dst : Ty := .tuple [.hole a, .tuple []]
    let src : Ty := .tuple [.ref (.hole b), .hole a]
    let cond : Cond := .eq (.const 1) (.const 1)
    let next : Resolution := .assert cond fun _ => .done true
    let pair : Relation :=
      ⟨⟨"pair", fun _ => .locate inner (.assign dst src next)⟩, [.hole a, .hole b], 0, .empty, .dummy,
        Nat.zero_le 2⟩
    let setup : List Setup := [.fresh .type, .fresh .type, .relation pair]
    let e : TypeError := .mismatch (.tuple []) (.ref (.hole b)) none inner
    let solved := (Session.prepared .empty .default setup).solve
    (∃ q call, FirstFailure (start .empty .default setup) q call (.assigned dst src) next e) ∧
      solved.2 = .error [e] ∧ e.span? = some inner ∧
      solved.1.trace = [⟨"pair", [.hole a, .hole b],
        [.located inner, .assigned dst src, .asserted cond false], true⟩] := by
  intro a b inner dst src cond next pair setup e solved
  let s : Session := .prepared .empty .default setup
  let s₁ : Session := { s with queue := [], location := inner }
  let call : Call := ⟨0, pair, pair.args.map s.resolve, [.located inner]⟩
  have hfirst : FirstFailure (start .empty .default setup) ⟨s₁, .running call (.assign dst src next)⟩
      call (.assigned dst src) next e := by
    have hnext : s.next? = some (0, pair, { s with queue := [] }) := by cbv
    have hunify : s₁.site.unify ⟨s₁.classes, s₁.deferred, []⟩ dst src = .error e := by cbv
    exact ⟨.head (.take (by cbv) (by cbv) hnext) (.single .locate), by cbv, _, rfl, .assign hunify⟩
  obtain ⟨hresult, hspan, -⟩ := (first_failure_wins .empty .default setup).2 _ _ _ _ _ hfirst
  have htrace : (Session.prepared .empty .default setup).solve.1.trace = [⟨"pair", [.hole a, .hole b],
      [.located inner, .assigned dst src, .asserted cond false], true⟩] := by cbv
  exact ⟨⟨_, _, hfirst⟩, hresult, hspan, htrace⟩

end Point

end TensorTyping
