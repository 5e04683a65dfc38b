import TensorTyping.Proofs.Session.Calls

namespace TensorTyping

open Session

/-- A session in which every relation also carries a mark that tells whether it is on the
worklist, so that the worklist is never searched. -/
structure Marked where
  session : Session
  queued : Nat → Bool

namespace Marked

/-- A session without relations has no marks. -/
def start (globals : Globals) (config : Config) : Marked := ⟨.start globals config, fun _ => false⟩

/-- Carries out an action. A relation is marked when it is added. -/
def apply (m : Marked) : Setup → Marked
  | .relation r => ⟨m.session.add r, Function.update m.queued m.session.entries.length true⟩
  | a => ⟨a.apply m.session, m.queued⟩

/-- A new session after some actions. -/
def prepared (globals : Globals) (config : Config) (setup : List Setup) : Marked :=
  setup.foldl apply (start globals config)

/-- Queues and marks a relation, unless it is resolved or marked already. -/
def wake (m : Marked) (number : Nat) : Marked :=
  if m.session.isPending number && !m.queued number then
    ⟨{ m.session with queue := m.session.queue ++ [number] }, Function.update m.queued number true⟩
  else m

/-- Makes two types equal. After a failure nothing happens any more. -/
def assign (dst src : Ty) (m : Marked) : Marked :=
  if m.session.failure.isSome then m
  else
    match m.session.site.unify ⟨m.session.classes, m.session.deferred, []⟩ dst src with
    | .error e => { m with session := m.session.fail e }
    | .ok p => p.woken.foldl wake
      { m with session := { m.session with classes := p.classes, deferred := p.deferred } }

/-- Carries out the requests of rules. -/
def reporter : Reporter Marked where
  assign := assign
  assert cond m := ((m.session.assert cond).1, { m with session := (m.session.assert cond).2 })
  locate span m := { m with session := { m.session with location := span } }

/-- What comes of running a relation's rule. -/
def outcome (m : Marked) (r : Relation) : Outcome Marked :=
  (r.rule.resolve (m.session.query r)).run reporter (reporter.locate r.span m)

/-- Runs a relation on its arguments. -/
def invoke (m : Marked) (number : Nat) (r : Relation) : Marked :=
  let o := m.outcome r
  let call := ⟨r.rule.name, r.args.map m.session.resolve, o.reports, o.resolved⟩
  let s := { o.state.session with trace := o.state.session.trace ++ [call] }
  { o.state with session := if o.resolved then s.retire number else s }

/-- Takes relations off a worklist, each with its mark, up to the first that is not
resolved. -/
def pop (s : Session) : List Nat → (Nat → Bool) → Option (Nat × Relation × Marked)
  | [], _ => none
  | number :: queue, queued =>
    let queued := Function.update queued number false
    if s.isPending number then
      (s.entries[number]?).map fun e => (number, e.relation, ⟨{ s with queue }, queued⟩)
    else pop s queue queued

/-- The first relation of the worklist that is not resolved, taken off it with all before it. -/
def next? (m : Marked) : Option (Nat × Relation × Marked) :=
  pop m.session m.session.queue m.queued

/-- The states of a session between two invocations, with the log of those before. -/
inductive Calls (m₀ : Marked) : CallLog → Marked → Prop where
  | start : Calls m₀ [] m₀
  | call {log : CallLog} {m rest : Marked} {number : Nat} {r : Relation} : Calls m₀ log m →
    m.next? = some (number, r, rest) → (rest.invoke number r).session.failure = none →
    Calls m₀ (log ++ [(number, rest.session.invocation r)]) (rest.invoke number r)

end Marked

/-- Two reporters that stay in step do so for a whole resolution, and carry out the same
requests. -/
theorem Resolution.run_related {σ τ : Type} (r : Reporter σ) (r' : Reporter τ) {R : σ → τ → Prop}
    (hassign : ∀ {s t} dst src, R s t → R (r.assign dst src s) (r'.assign dst src t))
    (hassert : ∀ {s t} cond, R s t →
      (r.assert cond s).1 = (r'.assert cond t).1 ∧ R (r.assert cond s).2 (r'.assert cond t).2)
    (hlocate : ∀ {s t} span, R s t → R (r.locate span s) (r'.locate span t))
    (resolution : Resolution) {s : σ} {t : τ} (h : R s t) :
    R (resolution.run r s).state (resolution.run r' t).state ∧
      (resolution.run r s).reports = (resolution.run r' t).reports ∧
      (resolution.run r s).resolved = (resolution.run r' t).resolved := by
  induction resolution generalizing s t with
  | done resolved => exact ⟨h, rfl, rfl⟩
  | assign dst src next ih =>
    obtain ⟨hstate, hreports, hresolved⟩ := ih (hassign dst src h)
    exact ⟨hstate, congrArg (List.cons (Report.assigned dst src)) hreports, hresolved⟩
  | assert cond next ih =>
    obtain ⟨hanswer, hstate⟩ := hassert cond h
    obtain ⟨hstate, hreports, hresolved⟩ := ih (r.assert cond s).1 hstate
    rw [Resolution.run, Resolution.run]
    dsimp only
    rw [← hanswer]
    exact ⟨hstate, congrArg (List.cons (Report.asserted cond (r.assert cond s).1)) hreports,
      hresolved⟩
  | locate span next ih =>
    obtain ⟨hstate, hreports, hresolved⟩ := ih (hlocate span h)
    exact ⟨hstate, congrArg (List.cons (Report.located span)) hreports, hresolved⟩

/-- A marked session is a session whose marks tell what is on the worklist. -/
structure Marked.Marks (m : Marked) (s : Session) : Prop where
  session : m.session = s
  queued : ∀ n, n ∈ s.queue ↔ m.queued n = true

namespace Marked

variable {m : Marked} {s : Session}

private theorem mem_queue_update {queue : List Nat} {queued : Nat → Bool}
    (h : ∀ n, n ∈ queue ↔ queued n = true) (number n : Nat) :
    n ∈ queue ++ [number] ↔ Function.update queued number true n = true := by
  rw [List.mem_append, List.mem_singleton, h, Function.update_apply]
  by_cases hn : n = number <;> simp [hn]

theorem Marks.apply (h : m.Marks s) (hs : s.Untouched) (a : Setup) :
    (m.apply a).Marks (a.apply s) := by
  obtain ⟨rfl, hqueued⟩ := h
  cases a with
  | range x r => exact ⟨rfl, hqueued⟩
  | fresh kind => exact ⟨rfl, hqueued⟩
  | relation r =>
    obtain ⟨classes, nextId, heq, -⟩ := add_fields hs.valid r
    refine ⟨rfl, fun n => ?_⟩
    rw [Setup.apply, heq]
    exact mem_queue_update hqueued _ n

theorem marks_prepared (globals : Globals) (config : Config) (setup : List Setup) :
    (prepared globals config setup).Marks (Session.prepared globals config setup) := by
  have hfold : ∀ (m : Marked) (s : Session), m.Marks s → s.Untouched →
      (setup.foldl apply m).Marks (setup.foldl Setup.apply s) := by
    induction setup with
    | nil => exact fun _ _ h _ => h
    | cons a setup ih => exact fun m s h hs => ih _ _ (h.apply hs a) (hs.apply a)
  exact hfold _ _ ⟨rfl, fun n => by simp [start, Session.start]⟩ (untouched_start globals config)

theorem Marks.wake (h : m.Marks s) (number : Nat) : (m.wake number).Marks (s.wake number) := by
  obtain ⟨rfl, hqueued⟩ := h
  have hmark : (!m.queued number) = decide (number ∉ m.session.queue) := by
    simp [hqueued number]
  unfold Marked.wake Session.wake
  rw [hmark]
  split
  · exact ⟨rfl, mem_queue_update hqueued number⟩
  · exact ⟨rfl, hqueued⟩

theorem Marks.foldl_wake (h : m.Marks s) (numbers : List Nat) :
    (numbers.foldl Marked.wake m).Marks (numbers.foldl Session.wake s) := by
  induction numbers generalizing m s with
  | nil => exact h
  | cons n numbers ih => exact ih (h.wake n)

theorem Marks.assign (h : m.Marks s) (dst src : Ty) :
    (m.assign dst src).Marks (s.assign dst src) := by
  obtain ⟨rfl, hqueued⟩ := h
  unfold Marked.assign
  obtain ⟨hsome, heq⟩ | ⟨e, hnone, hunify, heq⟩ | ⟨p, hnone, hunify, heq⟩ :=
    assign_cases m.session dst src
  · rw [heq, if_pos (Option.isSome_iff_ne_none.mpr hsome)]
    exact ⟨rfl, hqueued⟩
  · rw [heq, if_neg (by simp [hnone]), hunify]
    exact ⟨rfl, hqueued⟩
  · rw [heq, if_neg (by simp [hnone]), hunify]
    have hp : Marks
        { m with session := { m.session with classes := p.classes, deferred := p.deferred } }
        { m.session with classes := p.classes, deferred := p.deferred } := ⟨rfl, hqueued⟩
    exact hp.foldl_wake p.woken

theorem Marks.assert (h : m.Marks s) (cond : Cond) :
    (reporter.assert cond m).1 = (s.assert cond).1 ∧
      (reporter.assert cond m).2.Marks (s.assert cond).2 := by
  obtain ⟨rfl, hqueued⟩ := h
  refine ⟨rfl, rfl, ?_⟩
  obtain ⟨deferred, failure, heq⟩ := exists_assert_eq m.session cond
  rw [heq]
  exact hqueued

theorem Marks.locate (h : m.Marks s) (span : Span) :
    (reporter.locate span m).Marks { s with location := span } := by
  obtain ⟨rfl, hqueued⟩ := h
  exact ⟨rfl, hqueued⟩

theorem Marks.outcome (h : m.Marks s) (r : Relation) :
    (m.outcome r).state.Marks (s.outcome r).state ∧
      (m.outcome r).reports = (s.outcome r).reports ∧
      (m.outcome r).resolved = (s.outcome r).resolved := by
  rw [Marked.outcome, h.session]
  exact Resolution.run_related reporter Session.reporter (fun dst src h => h.assign dst src)
    (fun cond h => h.assert cond) (fun span h => h.locate span) _ (h.locate r.span)

theorem Marks.invoke (h : m.Marks s) (number : Nat) (r : Relation) :
    (m.invoke number r).Marks (s.invoke number r) := by
  obtain ⟨⟨hstate, hqueued⟩, hreports, hresolved⟩ := h.outcome r
  refine ⟨?_, fun n => ?_⟩
  · rw [Marked.invoke, hstate, hreports, hresolved, h.session, invoke_eq]
  · rw [(invoke_worklist s number r).1]
    exact hqueued n

/-- Marks are removed together with what they mark, as long as the worklist holds each
relation once. -/
theorem pop_eq {queue : List Nat} {queued : Nat → Bool} (hnodup : queue.Nodup)
    (hqueued : ∀ n, n ∈ queue ↔ queued n = true) :
    match queue.dropWhile (!s.isPending ·) with
    | [] => pop s queue queued = none
    | number :: rest => ∃ queued', pop s queue queued = (s.entries[number]?).map (fun e =>
        (number, e.relation, ⟨{ s with queue := rest }, queued'⟩)) ∧
          ∀ n, n ∈ rest ↔ queued' n = true := by
  induction queue generalizing queued with
  | nil => rfl
  | cons number queue ih =>
    rw [List.nodup_cons] at hnodup
    have hqueued' : ∀ n, n ∈ queue ↔ Function.update queued number false n = true := by
      intro n
      rw [Function.update_apply]
      by_cases hn : n = number
      · simp [hn, hnodup.1]
      · rw [if_neg hn, ← hqueued, List.mem_cons, or_iff_right hn]
    cases hpending : s.isPending number with
    | true =>
      rw [List.dropWhile_cons_of_neg (by simp [hpending])]
      refine ⟨_, ?_, hqueued'⟩
      rw [pop, if_pos hpending]
    | false =>
      rw [List.dropWhile_cons_of_pos (by simp [hpending]), pop, if_neg (by simp [hpending])]
      exact ih hnodup.2 hqueued'

theorem Marks.next? (h : m.Marks s) (hnodup : s.queue.Nodup) {number : Nat} {r : Relation}
    {rest : Session} (hnext : s.next? = some (number, r, rest)) :
    ∃ rest', m.next? = some (number, r, rest') ∧ rest'.Marks rest := by
  obtain ⟨rfl, hqueued⟩ := h
  have hpop := pop_eq (s := m.session) hnodup hqueued
  unfold Session.next? at hnext
  split at hnext
  · cases hnext
  · rename_i n queue hqueue
    rw [hqueue] at hpop
    obtain ⟨queued', hpop, hrest⟩ := hpop
    obtain ⟨e, he, heq⟩ := Option.map_eq_some_iff.mp hnext
    cases heq
    exact ⟨⟨{ m.session with queue }, queued'⟩, by rw [Marked.next?, hpop, he]; rfl, rfl, hrest⟩

/-- Whatever a session does, it does the same with marks, and they tell what is on its
worklist. -/
theorem exists_calls {s₀ : Session} {m₀ : Marked} {log : CallLog} (hs₀ : s₀.Untouched)
    (hmarks : m₀.Marks s₀) (h : Session.Calls s₀ log s) : ∃ m, Calls m₀ log m ∧ m.Marks s := by
  induction h with
  | start => exact ⟨m₀, .start, hmarks⟩
  | @call log s rest number r hcalls hnext hnone ih =>
    obtain ⟨m, hm, hmarks⟩ := ih
    obtain ⟨rest', hnext', hrest⟩ := hmarks.next? (hcalls.ledger hs₀).listed.nodup hnext
    have hinvoke := hrest.invoke number r
    refine ⟨_, ?_, hinvoke⟩
    rw [← hrest.session]
    exact hm.call hnext' (by rw [hinvoke.session]; exact hnone)

end Marked

namespace Session

/-- Between any two invocations, a relation is on the worklist exactly if it is marked,
and at most once; a relation that is neither resolved nor on the worklist was invoked,
the last time on its arguments as they resolve now; and a relation that returned true is
not invoked again. When nothing is left to do, invoking any of the relations that are not
resolved would show it nothing new. -/
theorem no_lost_wakeups (globals : Globals) (config : Config) (setup : List Setup) {log : CallLog}
    {s : Session} (h : Calls (prepared globals config setup) log s) :
    (∃ m : Marked, Marked.Calls (Marked.prepared globals config setup) log m ∧ m.session = s ∧
      (∀ n, n ∈ s.queue ↔ m.queued n = true) ∧ s.queue.Nodup) ∧
    (∀ n r, s.entries[n]? = some ⟨r, false⟩ → n ∉ s.queue →
      ∃ v, log.last? n = some v ∧ v.args = r.args.map s.resolve) ∧
    (log.Pairwise fun c c' => c.1 = c'.1 → c.2.resolved = false) ∧
    (s.next? = none → ∀ n r, s.entries[n]? = some ⟨r, false⟩ →
      ∃ v, log.last? n = some v ∧ v.args = r.args.map s.resolve) := by
  have hs₀ := untouched_prepared globals config setup
  have hledger := h.ledger hs₀
  obtain ⟨m, hm, hmarks⟩ := Marked.exists_calls hs₀ (Marked.marks_prepared globals config setup) h
  refine ⟨⟨m, hm, hmarks.session, hmarks.queued, hledger.listed.nodup⟩, hledger.waiting,
    hledger.final, fun hnext n r hn => hledger.waiting n r hn fun hmem => ?_⟩
  have hresolved := next?_eq_none hnext n hmem
  simp [isPending, hn] at hresolved

/-- A relation that is never resolved is woken when another binds its argument, and has
seen what it is bound to when nothing is left to do. -/
theorem no_lost_wakeups_woken :
    let p : Placeholder := ⟨0, .type⟩
    let q : Placeholder := ⟨1, .type⟩
    let wait : Relation :=
      ⟨⟨"wait", fun _ => .done false⟩, [.hole p], 0, .empty, .dummy, Nat.zero_le 1⟩
    let set : Relation :=
      ⟨⟨"set", fun _ => .assign (.hole p) (.ref (.hole q)) (.done true)⟩, [], 0, .empty, .dummy,
        Nat.le_refl 0⟩
    let setup : List Setup := [.fresh .type, .fresh .type, .relation wait, .relation set]
    ∃ log s, Calls (prepared .empty .default setup) log s ∧ log.map (·.1) = [0, 1, 0] ∧
      s.next? = none ∧ s.entries[0]? = some ⟨wait, false⟩ ∧
      ∃ v, log.last? 0 = some v ∧ v.args = [.ref (.hole q)] := by
  intro p q wait set setup
  let s₀ := prepared .empty .default setup
  let s₁ := invoke { s₀ with queue := [1] } 0 wait
  let s₂ := invoke { s₁ with queue := [] } 1 set
  let s₃ := invoke { s₂ with queue := [] } 0 wait
  have hnext₀ : s₀.next? = some (0, wait, { s₀ with queue := [1] }) := rfl
  have hnext₁ : s₁.next? = some (1, set, { s₁ with queue := [] }) := rfl
  have hnext₂ : s₂.next? = some (0, wait, { s₂ with queue := [] }) := by cbv
  have hcalls := ((Calls.start.call hnext₀ rfl).call hnext₁ (by cbv)).call hnext₂ (by cbv)
  have hnext₃ : s₃.next? = none := by cbv
  have hentry : s₃.entries[0]? = some ⟨wait, false⟩ := by cbv
  obtain ⟨-, -, -, hlast⟩ := no_lost_wakeups .empty .default setup hcalls
  obtain ⟨v, hv, hargs⟩ := hlast hnext₃ 0 wait hentry
  have hresolve : s₃.resolve (.hole p) = .ref (.hole q) := by cbv
  refine ⟨_, s₃, hcalls, rfl, hnext₃, hentry, v, hv, ?_⟩
  rw [hargs, ← hresolve]
  rfl
end Session

end TensorTyping
