import TensorTyping.Proofs.Session.Evolution
import TensorTyping.Proofs.Session.Setup

namespace TensorTyping

/-- The location that a request sets. -/
def Report.location? : Report → Option Span
  | located span => some span
  | assigned _ _ | asserted _ _ => none

/-- An invocation that is under way: the relation with its number, the arguments that its
rule was given, and the requests of the rule so far. -/
structure Call where
  number : Nat
  relation : Relation
  args : List Ty
  reports : List Report

namespace Call

/-- The invocation after some more requests. -/
def after (c : Call) (reports : List Report) : Call := { c with reports := c.reports ++ reports }

/-- The location that was set last in this invocation, or else the relation's own. -/
def location (c : Call) : Span :=
  (c.reports.filterMap Report.location?).getLastD c.relation.span

/-- The record of an invocation that has ended. -/
def record (c : Call) (resolved : Bool) : Invocation :=
  ⟨c.relation.rule.name, c.args, c.reports, resolved⟩

theorem after_after (c : Call) (reports more : List Report) :
    (c.after reports).after more = c.after (reports ++ more) := by
  rw [after, after, after, List.append_assoc]

theorem location_after (c : Call) (report : Report) :
    (c.after [report]).location = report.location?.getD c.location := by
  rw [location, location, after, List.filterMap_append]
  cases report <;> simp [Report.location?]

end Call

/-- What a session is doing: it is between two invocations, or carries out the requests
that a rule has left, or solves equations for one of them. Whom to wake is known while
equations are solved, and done when they are. -/
inductive Task where
  | idle
  | running (call : Call) (rest : Resolution)
  | solving (call : Call) (woken : List Nat) (eqs : Equations) (rest : Resolution)

namespace Task

/-- The invocation that is under way. -/
def call? : Task → Option Call
  | idle => none
  | running call _ => some call
  | solving call _ _ _ => some call

/-- The equations that are left. -/
def eqs : Task → Equations
  | idle | running _ _ => []
  | solving _ _ eqs _ => eqs

end Task

/-- The end of an invocation. -/
def Session.close (s : Session) (call : Call) (resolved : Bool) : Session :=
  let s := { s with trace := s.trace ++ [call.record resolved] }
  if resolved then s.retire call.number else s

/-- A point of a run: the session as it is there, and what it is doing. -/
structure Point where
  session : Session
  task : Task

namespace Point

/-- A run step by step. What equations have brought about stays when one of them turns out to
have no solution. -/
inductive Pass : Point → Point → Prop where
  | take {s rest : Session} {number : Nat} {r : Relation} : s.failure = none →
    s.trace.length < s.config.budget s.entries.length → s.next? = some (number, r, rest) →
    Pass ⟨s, .idle⟩ ⟨{ rest with location := r.span },
      .running ⟨number, r, r.args.map rest.resolve, []⟩ (r.rule.resolve (rest.query r))⟩
  | assign {s : Session} {call : Call} {dst src : Ty} {next : Resolution} : s.failure = none →
    Pass ⟨s, .running call (.assign dst src next)⟩
      ⟨s, .solving (call.after [.assigned dst src]) [] [(s.resolve dst, s.resolve src)] next⟩
  | ignore {s : Session} {call : Call} {dst src : Ty} {next : Resolution} : s.failure ≠ none →
    Pass ⟨s, .running call (.assign dst src next)⟩
      ⟨s, .running (call.after [.assigned dst src]) next⟩
  | assert {s : Session} {call : Call} {cond : Cond} {next : Bool → Resolution} :
    Pass ⟨s, .running call (.assert cond next)⟩ ⟨(s.assert cond).2,
      .running (call.after [.asserted cond (s.assert cond).1]) (next (s.assert cond).1)⟩
  | locate {s : Session} {call : Call} {span : Span} {next : Resolution} :
    Pass ⟨s, .running call (.locate span next)⟩
      ⟨{ s with location := span }, .running (call.after [.located span]) next⟩
  | close {s : Session} {call : Call} {resolved : Bool} :
    Pass ⟨s, .running call (.done resolved)⟩ ⟨s.close call resolved, .idle⟩
  | equation {s : Session} {call : Call} {woken : List Nat} {t u : Ty} {eqs : Equations}
    {next : Resolution} {result : Site.Step} :
    s.site.step ⟨s.classes, s.deferred, woken⟩ t u = .ok result →
    Pass ⟨s, .solving call woken ((t, u) :: eqs) next⟩
      ⟨{ s with classes := result.progress.classes, deferred := result.progress.deferred },
        .solving call result.progress.woken (result.remaining eqs) next⟩
  | unsolvable {s : Session} {call : Call} {woken : List Nat} {t u : Ty} {eqs : Equations}
    {next : Resolution} {e : TypeError} :
    s.site.step ⟨s.classes, s.deferred, woken⟩ t u = .error e →
    Pass ⟨s, .solving call woken ((t, u) :: eqs) next⟩ ⟨s.fail e, .running call next⟩
  | wake {s : Session} {call : Call} {woken : List Nat} {next : Resolution} :
    Pass ⟨s, .solving call woken [] next⟩ ⟨woken.foldl Session.wake s, .running call next⟩

/-- Any number of steps. -/
abbrev Passes : Point → Point → Prop := Relation.ReflTransGen Pass

/-- What holds wherever a run comes by: equations are solved only as long as nothing has
failed, and are kept resolved; and the location is the one that was set last. -/
structure Valid (p : Point) : Prop where
  classes : p.session.classes.Valid
  settled : ∀ i ∈ p.task.eqs.ids, p.session.classes.Settled i
  failure : p.task.eqs ≠ [] → p.session.failure = none
  location : ∀ call ∈ p.task.call?, p.session.location = call.location

end Point

theorem Site.solve_cons_remaining {site : Site} {s : Progress} {t u : Ty} {result : Step}
    (h : site.step s t u = .ok result) (rest : Equations) :
    site.solve s ((t, u) :: rest) = site.solve result.progress (result.remaining rest) := by
  rw [solve_cons, h]
  cases result <;> rfl

/-- Equations are kept resolved. -/
theorem Site.settled_remaining {site : Site} {s : Progress} {t u : Ty} {rest : Equations}
    {result : Step} (h : site.step s t u = .ok result) (hc : s.classes.Valid)
    (heqs : ∀ i ∈ Equations.ids ((t, u) :: rest), s.classes.Settled i) :
    ∀ i ∈ (result.remaining rest).ids, result.progress.classes.Settled i := by
  obtain ⟨ht, hu, hrest⟩ := resolved_of_cons heqs
  cases result with
  | solved s' =>
    obtain ⟨hregisters, -⟩ := solved_of_step hc ht hu h
    exact fun i hi => (hregisters.settled i).mpr (hrest i hi)
  | parts s' eqs =>
    obtain ⟨rfl, -⟩ := parts_of_step h
    intro i hi
    obtain hi | hi := mem_ids_append.mp hi
    · exact ((step_parts h).1 i hi).elim (ht i) (hu i)
    · exact hrest i hi
  | eliminated s' id image => exact settled_of_step_eliminated hc heqs h

namespace Session

variable {s : Session}

theorem close_fields (s : Session) (call : Call) (resolved : Bool) :
    (s.close call resolved).classes = s.classes ∧ (s.close call resolved).deferred = s.deferred ∧
      (s.close call resolved).failure = s.failure ∧
      (s.close call resolved).trace = s.trace ++ [call.record resolved] := by
  unfold close
  dsimp only
  split <;> exact ⟨rfl, rfl, rfl, rfl⟩

end Session

namespace Point

variable {p p' : Point}

/-- A step changes the classes by at most one binding. -/
theorem Pass.evolves (h : Pass p p') (hp : p.Valid) :
    ∃ new, p.session.classes.Evolves p'.session.classes new := by
  have hsame : ∀ {c : Classes}, c = p.session.classes →
      ∃ new, p.session.classes.Evolves c new := by
    rintro c rfl
    exact ⟨none, .refl hp.classes⟩
  cases h with
  | take _ _ hnext =>
    obtain ⟨queue, rfl, -⟩ := Session.next?_eq_some hnext
    exact hsame rfl
  | @assert s call cond next =>
    obtain ⟨deferred, failure, heq⟩ := Session.exists_assert_eq s cond
    exact hsame (by rw [heq])
  | @close s call resolved => exact hsame (s.close_fields call resolved).1
  | equation hstep =>
    obtain ⟨ht, hu, -⟩ := Site.resolved_of_cons hp.settled
    exact ⟨_, Site.evolves_of_step hp.classes ht hu hstep⟩
  | @wake s call woken next => exact hsame (s.foldl_wake_fields woken).1
  | assign | ignore | locate | unsolvable => exact hsame rfl

theorem Pass.valid (h : Pass p p') (hp : p.Valid) : p'.Valid := by
  obtain ⟨new, hevolves⟩ := h.evolves hp
  have hidle : ∀ i ∈ Equations.ids [], p'.session.classes.Settled i := fun i hi =>
    absurd hi List.not_mem_nil
  refine ⟨hevolves.valid, ?_, ?_, ?_⟩
  · cases h with
    | @assign s call dst src next _ => exact Site.settled_sides hp.classes dst src
    | equation hstep => exact Site.settled_remaining hstep hp.classes hp.settled
    | take | ignore | assert | locate | close | unsolvable | wake => exact hidle
  · cases h with
    | assign hnone => exact fun _ => hnone
    | equation hstep => exact fun _ => hp.failure (List.cons_ne_nil _ _)
    | take | ignore | assert | locate | close | unsolvable | wake => exact fun hne => absurd rfl hne
  · have hlocation : ∀ {call : Call} {report : Report}, report.location? = none →
        p.session.location = call.location → p.session.location = (call.after [report]).location := by
      intro call report hreport heq
      rw [Call.location_after, hreport, heq]
      rfl
    cases h with
    | take => rintro call ⟨⟩; rfl
    | assign | ignore => rintro _ ⟨⟩; exact hlocation rfl (hp.location _ rfl)
    | @assert s call cond next =>
      obtain ⟨deferred, failure, heq⟩ := Session.exists_assert_eq s cond
      rintro _ ⟨⟩
      rw [heq]
      exact hlocation rfl (hp.location _ rfl)
    | locate =>
      rintro _ ⟨⟩
      rw [Call.location_after]
      rfl
    | close => exact fun _ hcall => nomatch hcall
    | equation | unsolvable => exact hp.location
    | @wake s call woken next =>
      rintro _ ⟨⟩
      rw [s.location_foldl_wake woken]
      exact hp.location _ rfl

theorem Passes.valid (h : Passes p p') (hp : p.Valid) : p'.Valid := by
  induction h with
  | refl => exact hp
  | tail _ hpass ih => exact hpass.valid ih

/-- Putting in what is known late brings what was put in early up to date. -/
theorem Passes.resolve (h : Passes p p') (hp : p.Valid) (t : Ty) :
    p'.session.resolve (p.session.resolve t) = p'.session.resolve t := by
  induction h with
  | refl => exact hp.classes.resolve_resolve t
  | @tail q p' hpasses hpass ih =>
    obtain ⟨new, hevolves⟩ := hpass.evolves (Passes.valid hpasses hp)
    calc p'.session.resolve (p.session.resolve t)
        = p'.session.resolve (q.session.resolve (p.session.resolve t)) :=
          (hevolves.resolve _).symm
      _ = p'.session.resolve (q.session.resolve t) := by rw [ih]
      _ = p'.session.resolve t := hevolves.resolve t

/-- Where the run of a new session starts. -/
def start (globals : Globals) (config : Config) (setup : List Setup) : Point :=
  ⟨.prepared globals config setup, .idle⟩

theorem valid_start (globals : Globals) (config : Config) (setup : List Setup) :
    (start globals config setup).Valid :=
  ⟨(Session.untouched_prepared globals config setup).valid, fun _ hi => absurd hi List.not_mem_nil,
    fun hne => absurd rfl hne, fun _ hcall => nomatch hcall⟩

/-- A type without placeholders is final. -/
theorem Passes.resolve_of_isComplete (h : Passes p p') (hp : p.Valid) {t : Ty}
    (ht : (p.session.resolve t).isComplete = true) : p'.session.resolve t = p.session.resolve t := by
  have hresolved : p'.session.classes.Resolved (p.session.resolve t) := by
    refine Ty.forall_mem_ids.mpr fun q hq => ?_
    rw [(Ty.isComplete_iff _).mp ht] at hq
    cases hq
  rw [← h.resolve hp]
  exact hresolved.resolve_eq

/-- Whatever rules do, a run only adds to what it knows: a type resolves to what its earlier
resolution now resolves to, and does not change once it has no placeholders. This holds between
any two points of a run, those inside of a unification that fails included. -/
theorem resolve_later (globals : Globals) (config : Config) (setup : List Setup) {p p' : Point}
    (h : Passes (start globals config setup) p) (h' : Passes p p') (t : Ty) :
    p'.session.resolve (p.session.resolve t) = p'.session.resolve t ∧
      ((p.session.resolve t).isComplete = true → p'.session.resolve t = p.session.resolve t) := by
  have hp : p.Valid := Passes.valid h (valid_start globals config setup)
  exact ⟨Passes.resolve h' hp t, Passes.resolve_of_isComplete h' hp⟩

/-- A rule makes two pairs equal. Their first parts are a placeholder and a type for it, and
their second parts cannot be made equal. -/
theorem resolve_later_pair :
    let a : Placeholder := ⟨0, .type⟩
    let b : Placeholder := ⟨1, .type⟩
    let pair : Relation :=
      ⟨⟨"pair", fun _ => .assign (.tuple [.hole a, .tuple []]) (.tuple [.ref (.hole b), .hole a])
        (.done true)⟩, [.hole a, .hole b], 0, .empty, .dummy, Nat.zero_le 2⟩
    let start : Point := start .empty .default [.fresh .type, .fresh .type, .relation pair]
    ∃ p p', Passes start p ∧ Passes p p' ∧ p'.session.failure.isSome = true ∧
      p.session.resolve (.tuple [.hole a, .hole b]) = .tuple [.hole a, .hole b] ∧
      p'.session.resolve (.tuple [.hole a, .hole b]) = .tuple [.ref (.hole b), .hole b] ∧
      ∀ t, p'.session.resolve (p.session.resolve t) = p'.session.resolve t := by
  intro a b pair start
  let s : Session := .prepared .empty .default [.fresh .type, .fresh .type, .relation pair]
  let s₁ : Session := { s with queue := [], location := .dummy }
  let call : Call := ⟨0, pair, pair.args.map s.resolve, []⟩
  let call' : Call := call.after
    [.assigned (.tuple [.hole a, .tuple []]) (.tuple [.ref (.hole b), .hole a])]
  let found : Progress :=
    ⟨⟨[⟨a, 0, 0, a, some (.ref (.hole b)), [0]⟩, ⟨b, 1, 0, b, none, [0]⟩]⟩, [], [0]⟩
  let s₂ : Session := { s₁ with classes := found.classes, deferred := found.deferred }
  let p : Point := ⟨s₁, .running call (pair.rule.resolve (s₁.query pair))⟩
  let p' : Point := ⟨s₂.fail (.mismatch (.tuple []) (.ref (.hole b)) none .dummy),
    .running call' (.done true)⟩
  have hp : Passes start p := by
    have hnext : s.next? = some (0, pair, { s with queue := [] }) := by cbv
    exact .single (.take (by cbv) (by cbv) hnext)
  have hp' : Passes p p' := by
    have hdst : s₁.resolve (.tuple [.hole a, .tuple []]) = .tuple [.hole a, .tuple []] := by cbv
    have hsrc : s₁.resolve (.tuple [.ref (.hole b), .hole a]) = .tuple [.ref (.hole b), .hole a] := by
      cbv
    have hparts : s₁.site.step ⟨s₁.classes, s₁.deferred, []⟩ (s₁.resolve (.tuple [.hole a, .tuple []]))
        (s₁.resolve (.tuple [.ref (.hole b), .hole a])) = .ok (.parts ⟨s₁.classes, s₁.deferred, []⟩
          [(.hole a, .ref (.hole b)), (.tuple [], .hole a)]) := by
      rw [hdst, hsrc]
      cbv
    have hbinds : s₁.site.step ⟨s₁.classes, s₁.deferred, []⟩ (.hole a) (.ref (.hole b)) =
        .ok (.eliminated found 0 (.ref (.hole b))) := by cbv
    have hrest : Equations.eliminate 0 (.ref (.hole b)) [(.tuple [], .hole a)] =
        [(.tuple [], .ref (.hole b))] := by cbv
    have hfails : s₂.site.step ⟨s₂.classes, s₂.deferred, [0]⟩ (.tuple []) (.ref (.hole b)) =
        .error (.mismatch (.tuple []) (.ref (.hole b)) none .dummy) := by cbv
    have hbinding : Pass ⟨s₁, .solving call' [] [(.hole a, .ref (.hole b)), (.tuple [], .hole a)]
        (.done true)⟩ _ := .equation hbinds
    rw [Site.Step.remaining, hrest] at hbinding
    exact .head (.assign (by cbv)) (.head (.equation hparts) (.head hbinding
      (.single (.unsolvable hfails))))
  exact ⟨p, p', hp, hp', by cbv, by cbv, by cbv,
    fun t => (resolve_later .empty .default _ hp hp' t).1⟩

end Point

end TensorTyping
