import TensorTyping.Proofs.Rule.Requests
import TensorTyping.Proofs.Session.Agreement
import TensorTyping.Proofs.Session.Calls
import TensorTyping.Proofs.Session.Shortcut

namespace TensorTyping

open Ty

theorem Site.Unifies.follows {site : Site} {s p : Progress} {dst src : Ty}
    {r : Except TypeError Progress} (hc : p.classes.Valid) (hanchored : p.classes.Anchors (dst, src))
    (hlike : s.Like p) (h : site.Unifies s dst src r) :
    site.Follows s r (site.lenient.unify p dst src) := by
  have hresolve : ∀ {t : Ty}, (∀ i ∈ t.ids, p.classes.Registered i) →
      ∀ i ∈ (p.classes.resolve t).ids, p.classes.Registered i := fun {t} ht i hi =>
    ((hc.registered_or_mem_resolve t i).mp (Or.inr hi)).elim id (ht i)
  rw [Unifies, ← hlike.classes] at h
  refine h.follows hc (settled_sides hc dst src) (List.forall_mem_singleton.mpr ?_) hlike
  exact hanchored.imp hresolve hresolve

/-- Two dimensions are said to differ whose equality is a condition of a kind. -/
def TypeError.Denies (E : Cond → Prop) (e : TypeError) : Prop :=
  ∃ axis a b span, e = .dimensionMismatch axis a b span ∧ E (.eq a b)

namespace Session

/-- What is left of a session if its strictness and what it put off are left out. -/
def bare (s : Session) : Session := { s.lenient with deferred := [] }

theorem bare_wake (s : Session) (number : Nat) : (s.wake number).bare = s.bare.wake number := by
  have hpending : s.bare.isPending number = s.isPending number := rfl
  have hqueue : s.bare.queue = s.queue := rfl
  unfold wake
  rw [hpending, hqueue]
  split <;> rfl

theorem bare_foldl_wake (s : Session) (numbers : List Nat) :
    (numbers.foldl wake s).bare = numbers.foldl wake s.bare := by
  induction numbers generalizing s with
  | nil => rfl
  | cons number numbers ih => rw [List.foldl_cons, ih, bare_wake, List.foldl_cons]

theorem bare_settle (s : Session) (p : Progress) :
    (s.settle (.ok p)).bare = p.woken.foldl wake { s.bare with classes := p.classes } :=
  bare_foldl_wake _ _

theorem assign_eq_settle {s : Session} (h : s.failure = none) (dst src : Ty) :
    s.assign dst src = s.settle (s.site.unify ⟨s.classes, s.deferred, []⟩ dst src) := by
  obtain ⟨hfailed, -⟩ | ⟨e, -, hunify, heq⟩ | ⟨p, -, hunify, heq⟩ := assign_cases s dst src
  · exact absurd h hfailed
  · rw [hunify, heq, settle]
  · rw [hunify, heq, settle]

theorem failure_settle_error {s : Session} (h : s.failure = none) (e : TypeError) :
    (s.settle (.error e)).failure = some e := by
  rw [settle, fail, h]
  rfl

theorem assert_of_proven {s : Session} {cond : Cond} (hnone : s.failure = none)
    (h : s.known.prove cond = .proven) : s.assert cond = (true, s) := by
  rw [assert, hnone, h]
  rfl

theorem assert_of_unknown {s : Session} {cond : Cond} (hnone : s.failure = none)
    (h : s.known.prove cond = .unknown) :
    s.assert cond = (true, { s with deferred := addConds s.deferred [cond] }) := by
  have hput : (if cond ∈ s.deferred then s else { s with deferred := s.deferred ++ [cond] }) =
      { s with deferred := addConds s.deferred [cond] } := by
    by_cases hmem : cond ∈ s.deferred <;> simp [addConds, hmem]
  rw [← hput, assert, h, if_neg (by simp [hnone])]

/-- A session beside another, in which no node is shared and nothing undecided is an error. The two
are equal but for that, and for what unifications put off, which is of a kind. -/
structure Shadows (strict : Bool) (E : Cond → Prop) (q s : Session) : Prop where
  bare : q.bare = s.bare
  lenient : q.config.strictShapes = false
  strict : s.config.strictShapes = strict
  deferred : ∀ c, ¬ E c → (c ∈ s.deferred ↔ c ∈ q.deferred)
  nodup : s.deferred.Nodup

/-- A session failed and one beside it did not, only if it is strict and denies an equality of a
kind. -/
def Strays (strict : Bool) (E : Cond → Prop) (q s : Session) : Prop :=
  ∃ e, s.failure = some e ∧ (q.failure = none → strict = true ∧ e.Denies E)

variable {strict : Bool} {E : Cond → Prop} {q s s' : Session} {dst src : Ty} {r : Resolution}

namespace Shadows

theorem classes (h : q.Shadows strict E s) : q.classes = s.classes :=
  show q.bare.classes = s.bare.classes from congrArg Session.classes h.bare

theorem failure (h : q.Shadows strict E s) : q.failure = s.failure :=
  show q.bare.failure = s.bare.failure from congrArg Session.failure h.bare

theorem known (h : q.Shadows strict E s) : q.known = s.known :=
  show q.bare.known = s.bare.known from congrArg Session.known h.bare

theorem globals (h : q.Shadows strict E s) : q.globals = s.globals :=
  show q.bare.globals = s.bare.globals from congrArg Session.globals h.bare

theorem entries (h : q.Shadows strict E s) : q.entries = s.entries :=
  show q.bare.entries = s.bare.entries from congrArg Session.entries h.bare

theorem queue (h : q.Shadows strict E s) : q.queue = s.queue :=
  show q.bare.queue = s.bare.queue from congrArg Session.queue h.bare

theorem trace (h : q.Shadows strict E s) : q.trace = s.trace :=
  show q.bare.trace = s.bare.trace from congrArg Session.trace h.bare

theorem location (h : q.Shadows strict E s) : q.location = s.location :=
  show q.bare.location = s.bare.location from congrArg Session.location h.bare

theorem site (h : q.Shadows strict E s) : q.site = s.site.lenient := by
  rw [Session.site, Session.site, h.known, h.lenient, h.location]
  rfl

/-- Both sessions take in what their unifications came to. -/
theorem settle {p p' pq : Progress} (h : q.Shadows strict E s)
    (hs : Site.Reaches ⟨s.classes, s.deferred, []⟩ p' p)
    (hq : Site.Reaches ⟨q.classes, q.deferred, []⟩ pq p) (hE : ∀ c ∈ p.deferred, E c) :
    (q.settle (.ok pq)).Shadows strict E (s.settle (.ok p')) := by
  have hsfields := foldl_wake_fields { s with classes := p'.classes, deferred := p'.deferred } p'.woken
  have hqfields := foldl_wake_fields { q with classes := pq.classes, deferred := pq.deferred } pq.woken
  have hsdeferred : (s.settle (.ok p')).deferred = p'.deferred := hsfields.2.2.1
  have hqdeferred : (q.settle (.ok pq)).deferred = pq.deferred := hqfields.2.2.1
  refine ⟨?_, ?_, ?_, fun c hc => ?_, ?_⟩
  · rw [bare_settle, bare_settle, h.bare, ← hs.like.classes, ← hs.like.woken, hq.like.classes,
      hq.like.woken]
  · exact (congrArg Config.strictShapes (frames_foldl_wake _ pq.woken).config).trans h.lenient
  · exact (congrArg Config.strictShapes (frames_foldl_wake _ p'.woken).config).trans h.strict
  · have hnew : c ∉ p.deferred := fun hmem => hc (hE c hmem)
    have hsiff : c ∈ p'.deferred ↔ c ∈ s.deferred :=
      ⟨fun hmem => (hs.new c hmem).resolve_right hnew, fun hmem => hs.kept hmem⟩
    have hqiff : c ∈ pq.deferred ↔ c ∈ q.deferred :=
      ⟨fun hmem => (hq.new c hmem).resolve_right hnew, fun hmem => hq.kept hmem⟩
    rw [hsdeferred, hqdeferred, hsiff, hqiff]
    exact h.deferred c hc
  · rw [hsdeferred]
    exact hs.nodup h.nodup

theorem assigns (h : q.Shadows strict E s) (hc : q.classes.Valid)
    (hanchored : q.classes.Anchors (dst, src))
    (hputs : ∀ p, q.site.unify ⟨q.classes, [], []⟩ dst src = .ok p → ∀ c ∈ p.deferred, E c)
    (hassigns : s.Assigns dst src s') :
    (q.assign dst src).Shadows strict E s' ∨ (q.assign dst src).Strays strict E s' := by
  cases hassigns with
  | ignored hfailed =>
    rw [assign_of_failed (h.failure ▸ hfailed)]
    exact Or.inl h
  | @unified r hnone hunifies =>
    have hlike : Progress.Like ⟨s.classes, s.deferred, []⟩ ⟨q.classes, [], []⟩ := ⟨h.classes, rfl⟩
    have hlike' : Progress.Like ⟨q.classes, q.deferred, []⟩ ⟨q.classes, [], []⟩ := ⟨rfl, rfl⟩
    have hs := hunifies.follows hc hanchored hlike
    have hq := (Site.unifies_unify q.site _ dst src).follows hc hanchored hlike'
    have hlenient : q.site.lenient = s.site.lenient := by
      rw [h.site]
      rfl
    rw [hlenient, ← h.site] at hq
    rw [← h.site] at hs
    rw [assign_eq_settle (h.failure.trans hnone)]
    have hnone' : q.failure = none := h.failure.trans hnone
    cases hplain : q.site.unify ⟨q.classes, [], []⟩ dst src with
    | error e =>
      rw [hplain] at hs hq
      cases hunify : q.site.unify ⟨q.classes, q.deferred, []⟩ dst src with
      | ok pq =>
        rw [hunify] at hq
        exact hq.elim
      | error e =>
        cases r with
        | ok p' => exact hs.elim
        | error e' =>
          refine Or.inr ⟨e', failure_settle_error hnone e', fun hok => ?_⟩
          rw [failure_settle_error hnone'] at hok
          cases hok
    | ok p =>
      have hE := hputs p hplain
      rw [hplain] at hs hq
      cases hunify : q.site.unify ⟨q.classes, q.deferred, []⟩ dst src with
      | error e =>
        rw [hunify] at hq
        exact absurd (hq.1.symm.trans h.lenient) nofun
      | ok pq =>
        rw [hunify] at hq
        cases r with
        | ok p' => exact Or.inl (h.settle hs hq hE)
        | error e =>
          obtain ⟨hstrict, axis, a, b, rfl, hmem⟩ := hs
          refine Or.inr ⟨_, failure_settle_error hnone _, fun _ => ?_⟩
          exact ⟨h.strict.symm.trans hstrict, axis, a, b, _, rfl, hE _ hmem⟩

/-- Questions are answered alike, and what is put off because of one is put off in both. -/
theorem assert (h : q.Shadows strict E s) (cond : Cond) :
    (q.assert cond).1 = (s.assert cond).1 ∧
      (q.assert cond).2.Shadows strict E (s.assert cond).2 := by
  by_cases hnone : s.failure = none
  · have hnone' : q.failure = none := h.failure.trans hnone
    cases hprove : s.known.prove cond with
    | proven =>
      rw [assert_of_proven hnone hprove, assert_of_proven hnone' (h.known ▸ hprove)]
      exact ⟨rfl, h⟩
    | unknown =>
      rw [assert_of_unknown hnone hprove, assert_of_unknown hnone' (h.known ▸ hprove)]
      refine ⟨rfl, h.bare, h.lenient, h.strict, fun c hc => ?_, nodup_addConds h.nodup [cond]⟩
      rw [mem_addConds, mem_addConds, h.deferred c hc]
    | refuted =>
      rw [assert_of_refuted hnone hprove, assert_of_refuted hnone' (h.known ▸ hprove), h.location]
      have hbare := congrArg (fail · (.assertionFailed cond s.location)) h.bare
      exact ⟨rfl, hbare, h.lenient, h.strict, h.deferred, h.nodup⟩
  · rw [assert_of_failed hnone, assert_of_failed (h.failure ▸ hnone)]
    exact ⟨rfl, h⟩

theorem locate (h : q.Shadows strict E s) (span : Span) :
    Shadows strict E { q with location := span } { s with location := span } :=
  ⟨congrArg (fun s : Session => { s with location := span }) h.bare, h.lenient, h.strict, h.deferred,
    h.nodup⟩

end Shadows

/-- After a failure a rule changes nothing about it. -/
theorem Performs.failure_eq {o : Outcome Session} {e : TypeError} (h : Performs r s o)
    (he : s.failure = some e) : o.state.failure = some e := by
  induction h with
  | done => exact he
  | assign hassigns _ ih =>
    cases hassigns with
    | ignored => exact ih he
    | unified hnone => exact absurd (hnone.symm.trans he) nofun
  | assert _ ih =>
    refine ih ?_
    rw [assert_of_failed (by simp [he])]
    exact he
  | locate _ ih => exact ih he

theorem registered_assign (hc : s.classes.Valid) (dst src : Ty) {i : UInt32}
    (hi : s.classes.Registered i) : (s.assign dst src).classes.Registered i := by
  obtain ⟨-, heq⟩ | ⟨e, -, -, heq⟩ | ⟨p, -, hunify, heq⟩ := assign_cases s dst src <;> rw [heq]
  · exact hi
  · exact hi
  · rw [(foldl_wake_fields _ p.woken).1]
    exact ((Site.unify_sound hc hunify).registered i).mpr (Or.inl hi)

/-- All that unifications put off while a rule is run is of a kind. -/
def PutsOff (E : Cond → Prop) : Resolution → Session → Prop
  | .done _, _ => True
  | .assign dst src next, s =>
    (∀ p, s.site.unify ⟨s.classes, [], []⟩ dst src = .ok p → ∀ c ∈ p.deferred, E c) ∧
      PutsOff E next (s.assign dst src)
  | .assert cond next, s => PutsOff E (next (s.assert cond).1) (s.assert cond).2
  | .locate span next, s => PutsOff E next { s with location := span }

/-- Whatever nodes its types share, a session that runs a rule does what one beside it does, or
strays. -/
theorem Shadows.performs {o : Outcome Session} (h : q.Shadows strict E s) (hc : q.classes.Valid)
    (hanchored : r.Anchored fun p => q.classes.Registered p.id) (hputs : PutsOff E r q)
    (hperforms : Performs r s o) :
    ((r.run reporter q).state.Shadows strict E o.state ∧ (r.run reporter q).reports = o.reports ∧
      (r.run reporter q).resolved = o.resolved) ∨
    (r.run reporter q).state.Strays strict E o.state := by
  induction hperforms generalizing q with
  | done resolved s => exact Or.inl ⟨h, rfl, rfl⟩
  | @assign dst src next s s' o hassigns hnext ih =>
    obtain ⟨hside, hrest⟩ := hanchored
    have hanchors : q.classes.Anchors (dst, src) :=
      hside.imp (fun hall => forall_mem_ids.mpr hall) fun hall => forall_mem_ids.mpr hall
    have hvalid := (assign_grows hc dst src).valid
    obtain hs' | ⟨e, he, hstrays⟩ := h.assigns hc hanchors hputs.1 hassigns
    · refine (ih hs' hvalid (hrest.mono fun p hp => registered_assign hc dst src hp) hputs.2).imp_left ?_
      exact fun ⟨hstate, hreports, hresolved⟩ => ⟨hstate, congrArg (List.cons _) hreports, hresolved⟩
    · refine Or.inr ⟨e, hnext.failure_eq he, fun hnone => hstrays ?_⟩
      exact (run_kept next hvalid).1.failure hnone
  | @assert cond next s o hnext ih =>
    obtain ⟨hanswer, hs'⟩ := h.assert cond
    obtain ⟨deferred, failure, heq⟩ := exists_assert_eq q cond
    have hclasses : (q.assert cond).2.classes = q.classes := by rw [heq]
    rw [PutsOff, hanswer] at hputs
    rw [run_assert, hanswer]
    refine (ih hs' (hclasses ▸ hc) (hclasses ▸ hanchored _) hputs).imp_left ?_
    exact fun ⟨hstate, hreports, hresolved⟩ => ⟨hstate, congrArg (List.cons _) hreports, hresolved⟩
  | @locate span next s o hnext ih =>
    refine (ih (h.locate span) hc hanchored hputs).imp_left ?_
    exact fun ⟨hstate, hreports, hresolved⟩ => ⟨hstate, congrArg (List.cons _) hreports, hresolved⟩

theorem bare_log (number : Nat) (r : Relation) (args : List Ty) (o : Outcome Session) :
    (log number r args o).bare = log number r args { o with state := o.state.bare } := by
  unfold log
  dsimp only
  split <;> rfl

theorem log_fields (number : Nat) (r : Relation) (args : List Ty) (o : Outcome Session) :
    (log number r args o).failure = o.state.failure ∧ (log number r args o).config = o.state.config ∧
      (log number r args o).deferred = o.state.deferred := by
  unfold log
  dsimp only
  split <;> exact ⟨rfl, rfl, rfl⟩

theorem Shadows.logged {o o' : Outcome Session} (h : o'.state.Shadows strict E o.state)
    (hreports : o'.reports = o.reports) (hresolved : o'.resolved = o.resolved) (number : Nat)
    (r : Relation) (args : List Ty) :
    (Session.log number r args o').Shadows strict E (Session.log number r args o) := by
  obtain ⟨-, hconfig, hdeferred⟩ := log_fields number r args o
  obtain ⟨-, hconfig', hdeferred'⟩ := log_fields number r args o'
  refine ⟨?_, ?_, ?_, fun c hc => ?_, ?_⟩
  · rw [bare_log, bare_log, h.bare, hreports, hresolved]
  · rw [hconfig', h.lenient]
  · rw [hconfig, h.strict]
  · rw [hdeferred, hdeferred', h.deferred c hc]
  · rw [hdeferred]
    exact h.nodup

variable {number : Nat} {rel : Relation}

theorem Shadows.invokes (h : q.Shadows strict E s) (hc : q.classes.Valid)
    (hrule : rel.rule ∈ Rule.builtins)
    (hargs : ∀ t ∈ rel.args, ∀ i ∈ (q.resolve t).ids, q.classes.Registered i)
    (hputs : PutsOff E (rel.rule.resolve (q.query rel)) { q with location := rel.span })
    (hinvokes : s.Invokes number rel s') :
    (q.invoke number rel).Shadows strict E s' ∨ (q.invoke number rel).Strays strict E s' := by
  obtain ⟨o, hperforms, rfl⟩ := hinvokes
  have hresolve : s.resolve = q.resolve := by
    funext t
    rw [resolve, resolve, h.classes]
  have hquery : s.query rel = q.query rel := by
    rw [query, query, hresolve, h.globals]
  rw [hquery] at hperforms
  have hanchored : (rel.rule.resolve (q.query rel)).Anchored fun p => q.classes.Registered p.id := by
    refine (Rule.anchored_of_mem_builtins hrule (q.query rel)).mono ?_
    rintro p ⟨t, ht, hp⟩
    obtain ⟨u, hu, rfl⟩ := List.mem_map.mp ht
    exact hargs u hu p.id (mem_ids.mpr ⟨p, hp, rfl⟩)
  have hlogged : q.invoke number rel = log number rel (rel.args.map q.resolve) (q.outcome rel) := rfl
  rw [hlogged, hresolve]
  obtain ⟨hstate, hreports, hresolved⟩ | ⟨e, he, hstrays⟩ :=
    (h.locate rel.span).performs hc hanchored hputs hperforms
  · exact Or.inl (.logged hstate hreports hresolved number rel _)
  · refine Or.inr ⟨e, (log_fields number rel _ o).1.trans he, fun hnone => hstrays ?_⟩
    exact (log_fields number rel _ (q.outcome rel)).1.symm.trans hnone

theorem Shadows.next? (h : q.Shadows strict E s) :
    q.next? = s.next?.map fun n => (n.1, n.2.1, { q with queue := n.2.2.queue }) := by
  have hqueue : q.queue = s.queue := h.queue
  have hentries : q.entries = s.entries := h.entries
  unfold Session.next? isPending
  rw [hqueue, hentries]
  split
  · rfl
  · rw [Option.map_map]
    rfl

theorem Shadows.withQueue (h : q.Shadows strict E s) (queue : List Nat) :
    Shadows strict E { q with queue } { s with queue } :=
  ⟨congrArg (fun s : Session => { s with queue }) h.bare, h.lenient, h.strict, h.deferred, h.nodup⟩

/-- The turn that a session beside takes. -/
theorem Shadows.turn {q₀ rest : Session} (hq₀ : q₀.Untouched)
    (hrules : ∀ r ∈ q₀.entries.map (·.relation), r.rule ∈ Rule.builtins) (hturns : Turns q₀ q)
    (h : q.Shadows strict E s) (hnext : s.next? = some (number, rel, rest))
    (hputs : ∀ rest, q.next? = some (number, rel, rest) →
      PutsOff E (rel.rule.resolve (rest.query rel)) { rest with location := rel.span })
    (hinvokes : rest.Invokes number rel s') :
    ∃ rest', q.next? = some (number, rel, rest') ∧
      ((rest'.invoke number rel).Shadows strict E s' ∨ (rest'.invoke number rel).Strays strict E s') := by
  obtain ⟨queue, rfl, -⟩ := next?_eq_some hnext
  have hnext' : q.next? = some (number, rel, { q with queue }) := by
    rw [h.next?, hnext]
    rfl
  obtain ⟨-, -, hentry, -⟩ := next?_eq_some hnext'
  obtain ⟨log, hcalls⟩ := exists_calls hturns
  have hledger := hcalls.ledger hq₀
  have hrelation : rel ∈ q₀.entries.map (·.relation) := by
    rw [← (ran_of_turns hq₀ hturns).2.1]
    exact List.mem_map_of_mem (List.mem_of_getElem? hentry)
  refine ⟨_, hnext', (h.withQueue queue).invokes hledger.valid (hrules rel hrelation) ?_
    (hputs _ hnext') hinvokes⟩
  exact fun t ht i hi => Classes.registered_of_mem_users (hledger.watched number _ hentry t ht i hi)

/-- Whatever nodes its types share, a session ends like one beside it, unless the budget is used up
or it strays. -/
theorem Shadows.runs {budget : Nat} {q₀ : Session} {result : Session × Result} (hq₀ : q₀.Untouched)
    (hrules : ∀ r ∈ q₀.entries.map (·.relation), r.rule ∈ Rule.builtins)
    (hputs : ∀ q number r rest, Turns q₀ q → q.next? = some (number, r, rest) →
      PutsOff E (r.rule.resolve (rest.query r)) { rest with location := r.span })
    (hturns : Turns q₀ q) (h : q.Shadows strict E s) (hruns : Runs budget s result) :
    (∃ q', Turns q₀ q' ∧ q'.Shadows strict E result.1 ∧ result.1.next? = none ∧
      result.2 = result.1.finish) ∨
    result.2.Capped ∨
    ∃ q' number r rest e, Turns q₀ q' ∧ q'.next? = some (number, r, rest) ∧ result.2 = .error [e] ∧
      ((rest.invoke number r).failure = none → strict = true ∧ e.Denies E) := by
  induction hruns generalizing q with
  | finished hnext => exact Or.inl ⟨q, hturns, h, hnext, rfl⟩
  | capped hnext =>
    obtain ⟨queue, rfl, hentry, -⟩ := next?_eq_some hnext
    exact Or.inr (Or.inl (capped_stuckErrors (List.mem_of_getElem? hentry)))
  | failed hnext hinvokes hfailure =>
    obtain ⟨rest, hnext', hs'⟩ :=
      h.turn hq₀ hrules hturns hnext (fun rest => hputs q _ _ rest hturns) hinvokes
    refine Or.inr (Or.inr ⟨q, _, _, rest, _, hturns, hnext', rfl, fun hnone => ?_⟩)
    obtain hs' | ⟨e, he, hstrays⟩ := hs'
    · rw [hs'.failure, hfailure] at hnone
      cases hnone
    · rw [hfailure] at he
      cases he
      exact hstrays hnone
  | continued hnext hinvokes hnone hrest ih =>
    obtain ⟨rest, hnext', hs' | ⟨e, he, -⟩⟩ :=
      h.turn hq₀ hrules hturns hnext (fun rest => hputs q _ _ rest hturns) hinvokes
    · exact ih (hturns.tail ⟨_, _, rest, hnext', rfl, hs'.failure.trans hnone⟩) hs'
    · rw [hnone] at he
      cases he

theorem Untouched.lenient (h : s.Untouched) : s.lenient.Untouched :=
  ⟨h.valid, h.settled, h.queue, h.pending, h.failure, h.trace, h.deferred, h.watched⟩

variable {result : Session × Result} {sol : Solution}

variable {k : Kind} {S : Dim → Prop} {θ : Grounding}

end Session

end TensorTyping
