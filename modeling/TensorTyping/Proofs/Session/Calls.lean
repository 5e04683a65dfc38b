import Mathlib.Data.List.Nodup
import TensorTyping.Proofs.Session.Firing
import TensorTyping.Proofs.Session.Setup

namespace TensorTyping

open Ty

/-- The invocations of relations so far, each with the number of the relation. -/
abbrev CallLog := List (Nat × Invocation)

namespace CallLog

/-- The last invocation of a relation. -/
def last? (log : CallLog) (number : Nat) : Option Invocation :=
  ((log.filter (·.1 = number)).getLast?).map (·.2)

/-- Whether a relation declared itself resolved. -/
def returned (log : CallLog) (number : Nat) : Bool :=
  log.any fun c => c.1 = number && c.2.resolved

theorem last?_snoc (log : CallLog) (number n : Nat) (v : Invocation) :
    last? (log ++ [(number, v)]) n = if number = n then some v else log.last? n := by
  unfold last?
  rw [List.filter_append]
  by_cases hn : number = n
  · simp [hn]
  · simp [hn]

theorem returned_snoc (log : CallLog) (number n : Nat) (v : Invocation) :
    returned (log ++ [(number, v)]) n = (log.returned n || (number = n && v.resolved)) := by
  simp [returned]

end CallLog

namespace Session

variable {s₀ s : Session} {log : CallLog} {number : Nat} {r : Relation} {rest : Session}

/-- The record of running a relation. -/
def invocation (s : Session) (r : Relation) : Invocation :=
  ⟨r.rule.name, r.args.map s.resolve, (s.outcome r).reports, (s.outcome r).resolved⟩

/-- The states of a session between two invocations, with the log of those before. -/
inductive Calls (s₀ : Session) : CallLog → Session → Prop where
  | start : Calls s₀ [] s₀
  | call {log : CallLog} {s rest : Session} {number : Nat} {r : Relation} : Calls s₀ log s →
    s.next? = some (number, r, rest) → (rest.invoke number r).failure = none →
    Calls s₀ (log ++ [(number, rest.invocation r)]) (rest.invoke number r)

theorem exists_calls (h : Turns s₀ s) : ∃ log, Calls s₀ log s := by
  induction h with
  | refl => exact ⟨[], .start⟩
  | tail _ hturn ih =>
    obtain ⟨log, hcalls⟩ := ih
    obtain ⟨number, r, rest, hnext, rfl, hnone⟩ := hturn
    exact ⟨_, hcalls.call hnext hnone⟩

/-- The log is the trace, with the numbers of the relations. -/
theorem Calls.trace (h : Calls s₀ log s) : s.trace = s₀.trace ++ log.map (·.2) := by
  induction h with
  | start => simp
  | @call log s rest number r _ hnext _ ih =>
    obtain ⟨queue, rfl, -⟩ := next?_eq_some hnext
    obtain ⟨-, -, -, -, htrace⟩ := invoke_fields { s with queue } number r
    rw [htrace, List.map_append, ← List.append_assoc, ← ih]
    rfl

/-- The worklist holds numbers of relations, each once. -/
structure Listed (s : Session) : Prop where
  nodup : s.queue.Nodup
  lt : ∀ n ∈ s.queue, n < s.entries.length

theorem Listed.wake (h : s.Listed) (number : Nat) : (s.wake number).Listed := by
  unfold Session.wake
  split
  · rename_i hwake
    rw [Bool.and_eq_true, decide_eq_true_eq] at hwake
    refine ⟨?_, fun n hn => ?_⟩
    · rw [← List.concat_eq_append]
      exact List.Nodup.concat hwake.2 h.nodup
    · obtain hn | hn := List.mem_append.mp hn
      · exact h.lt n hn
      · rw [List.mem_singleton.mp hn]
        by_contra hlt
        have hnone : s.entries[number]? = none := List.getElem?_eq_none (Nat.le_of_not_lt hlt)
        simp [isPending, hnone] at hwake
  · exact h

theorem Listed.foldl_wake (h : s.Listed) (numbers : List Nat) :
    (numbers.foldl Session.wake s).Listed :=
  List.foldlRecOn numbers Session.wake (motive := Listed) h fun _ hs n _ => hs.wake n

theorem Listed.assign (h : s.Listed) (dst src : Ty) : (s.assign dst src).Listed := by
  obtain ⟨-, heq⟩ | ⟨e, -, -, heq⟩ | ⟨p, -, -, heq⟩ := assign_cases s dst src <;> rw [heq]
  · exact h
  · exact ⟨h.nodup, h.lt⟩
  · have hp : Listed { s with classes := p.classes, deferred := p.deferred } := ⟨h.nodup, h.lt⟩
    exact hp.foldl_wake _

theorem Listed.assert (h : s.Listed) (cond : Cond) : (s.assert cond).2.Listed := by
  obtain ⟨deferred, failure, heq⟩ := exists_assert_eq s cond
  rw [heq]
  exact ⟨h.nodup, h.lt⟩

theorem Listed.run (h : s.Listed) (r : Resolution) : (r.run reporter s).state.Listed := by
  induction r generalizing s with
  | done resolved => exact h
  | assign dst src next ih => exact ih (h.assign dst src)
  | assert cond next ih => exact ih _ (h.assert cond)
  | locate span next ih => exact ih (s := { s with location := span }) ⟨h.nodup, h.lt⟩

/-- What the log says of a state: a relation is resolved exactly if it returned so, and
was not invoked after that; and a relation that is neither resolved nor on the worklist
was last invoked on its arguments as they are now. -/
structure Ledger (s₀ s : Session) (log : CallLog) : Prop where
  valid : s.classes.Valid
  listed : s.Listed
  entries : ∀ n, s.entries[n]? = s₀.entries[n]?.map fun e => Entry.mk e.relation (log.returned n)
  final : log.Pairwise fun c c' => c.1 = c'.1 → c.2.resolved = false
  watched : ∀ n e, s.entries[n]? = some e → ∀ t ∈ e.relation.args, s.classes.Watched n t
  waiting : ∀ n r, s.entries[n]? = some ⟨r, false⟩ → n ∉ s.queue →
    ∃ v, log.last? n = some v ∧ v.args = r.args.map s.resolve

theorem Untouched.ledger (h : s.Untouched) : Ledger s s [] := by
  refine ⟨h.valid, ⟨?_, fun n hn => ?_⟩, fun n => ?_, .nil, fun n e he t ht i hi => ?_,
    fun n r hn hnot => ?_⟩
  · rw [h.queue]
    exact List.nodup_range
  · rwa [h.queue, List.mem_range] at hn
  · cases hn : s.entries[n]? with
    | none => rfl
    | some e => simp [CallLog.returned, ← h.pending e (List.mem_of_getElem? hn)]
  · have hresolve : s.classes.resolve t = t := Classes.Resolved.resolve_eq fun j _ => h.settled j
    rw [hresolve] at hi
    exact h.watched n e he i (List.mem_flatMap.mpr ⟨t, ht, hi⟩)
  · rw [h.queue, List.mem_range] at hnot
    exact absurd (List.getElem?_eq_some_iff.mp hn).1 hnot

/-- Running a relation resolves no other. -/
theorem entries_invoke (s : Session) (number : Nat) (r : Relation) (n : Nat) :
    (s.invoke number r).entries[n]? = s.entries[n]?.map fun e =>
      Entry.mk e.relation (e.resolved || (number = n && (s.outcome r).resolved)) := by
  rw [(invoke_worklist s number r).2.2]
  split
  · rename_i hresolved
    rw [List.getElem?_modify, hresolved]
    cases s.entries[n]? with
    | none => rfl
    | some e => by_cases hn : number = n <;> simp [hn]
  · rename_i hresolved
    rw [Bool.not_eq_true] at hresolved
    cases s.entries[n]? with
    | none => rfl
    | some e => simp [hresolved]

theorem Listed.next (h : s.Listed) (hnext : s.next? = some (number, r, rest)) : rest.Listed := by
  obtain ⟨queue, rfl, -, skipped, hqueue, -⟩ := next?_eq_some hnext
  have hsublist : List.Sublist queue s.queue := by
    rw [hqueue]
    exact (List.sublist_cons_self number queue).trans (List.sublist_append_right _ _)
  exact ⟨h.nodup.sublist hsublist, fun n hn => h.lt n (hsublist.subset hn)⟩

theorem Listed.invoke (h : s.Listed) (number : Nat) (r : Relation) :
    (s.invoke number r).Listed := by
  have hlocate : Listed { s with location := r.span } := ⟨h.nodup, h.lt⟩
  have hrun : (s.outcome r).state.Listed := hlocate.run (r.rule.resolve (s.query r))
  have hframes := frames_run (r.rule.resolve (s.query r)) { s with location := r.span }
  refine ⟨(invoke_worklist s number r).1 ▸ hrun.nodup, fun n hn => ?_⟩
  rw [(invoke_worklist s number r).1] at hn
  have hlt : n < s.entries.length := by
    have hlt := hrun.lt n hn
    rwa [outcome, hframes.entries] at hlt
  have hentry := entries_invoke s number r n
  rw [List.getElem?_eq_getElem hlt] at hentry
  exact (List.getElem?_eq_some_iff.mp hentry).1

/-- Relations that watch what a rule has made known are on the worklist afterwards. -/
theorem invoke_wakes (hc : s.classes.Valid) (number : Nat) (r : Relation) :
    Wakes s (s.invoke number r) := by
  have hlocate : Wakes s { s with location := r.span } := .of_eq rfl rfl
  have hrun : Wakes s (s.outcome r).state :=
    hlocate.trans (run_wakes (r.rule.resolve (s.query r)) (locate_grows hc r.span).valid) rfl
  have hframes := frames_run (r.rule.resolve (s.query r)) { s with location := r.span }
  exact hrun.trans (.of_eq (invoke_fields s number r).1 (invoke_worklist s number r).1)
    hframes.entries

/-- Only what never returned true is taken off the worklist. -/
theorem Ledger.final_call (h : Ledger s₀ s log) (hnext : s.next? = some (number, r, rest))
    (v : Invocation) :
    (log ++ [(number, v)]).Pairwise fun c c' => c.1 = c'.1 → c.2.resolved = false := by
  obtain ⟨queue, rfl, hentry, -⟩ := next?_eq_some hnext
  obtain ⟨e, -, hreturned⟩ := Option.map_eq_some_iff.mp ((h.entries number).symm.trans hentry)
  rw [List.pairwise_append]
  refine ⟨h.final, by simp, fun c hc c' hc' heq => ?_⟩
  rw [List.mem_singleton.mp hc'] at heq
  have hnever := List.any_eq_false.mp (Entry.mk.inj hreturned).2 c hc
  simpa [heq] using hnever

/-- What is not on the worklist after a call is what was run, or was not on the worklist
before either. Nothing has become known of its arguments, or it would have been woken. -/
theorem Ledger.waiting_call (h : Ledger s₀ s log) (hnext : s.next? = some (number, r, rest))
    {n : Nat} {r' : Relation} (hn : (rest.invoke number r).entries[n]? = some ⟨r', false⟩)
    (hnot : n ∉ (rest.invoke number r).queue) :
    ∃ v, CallLog.last? (log ++ [(number, rest.invocation r)]) n = some v ∧
      v.args = r'.args.map (rest.invoke number r).resolve := by
  obtain ⟨queue, rfl, hentry, skipped, hqueue, hskipped⟩ := next?_eq_some hnext
  have hwakes := invoke_wakes (s := { s with queue }) h.valid number r
  rw [entries_invoke] at hn
  obtain ⟨⟨r'', resolved⟩, he, heq⟩ := Option.map_eq_some_iff.mp hn
  rw [Entry.mk.injEq, Bool.or_eq_false_iff] at heq
  obtain ⟨rfl, rfl, -⟩ := heq
  have hpending : s.isPending n = true := by simp [isPending, show s.entries[n]? = _ from he]
  have hargs : r''.args.map (invoke { s with queue } number r).resolve =
      r''.args.map s.resolve := by
    refine List.map_congr_left fun t ht => ?_
    obtain heq | hmem := hwakes.wakes n t hpending (h.watched n _ he t ht)
    · exact heq
    · exact absurd hmem hnot
  rw [CallLog.last?_snoc, hargs]
  by_cases hne : number = n
  · subst hne
    rw [hentry, Option.some.injEq, Entry.mk.injEq] at he
    rw [if_pos rfl, ← he.1]
    exact ⟨_, rfl, rfl⟩
  · rw [if_neg hne]
    refine h.waiting n r'' he fun hmem => ?_
    obtain rfl | hmem := mem_rest_of_next? hqueue hskipped hpending hmem
    · exact hne rfl
    · exact hnot (hwakes.queue hmem)

theorem Ledger.call (h : Ledger s₀ s log) (hnext : s.next? = some (number, r, rest)) :
    Ledger s₀ (rest.invoke number r) (log ++ [(number, rest.invocation r)]) := by
  have hlisted := (h.listed.next hnext).invoke number r
  obtain ⟨queue, rfl, -⟩ := next?_eq_some hnext
  have hgrows := invoke_grows (s := { s with queue }) h.valid number r
  have hwakes := invoke_wakes (s := { s with queue }) h.valid number r
  refine ⟨hgrows.valid, hlisted, fun n => ?_, h.final_call hnext _, fun n e he t ht => ?_,
    fun n r' hn hnot => h.waiting_call hnext hn hnot⟩
  · rw [entries_invoke, h.entries, Option.map_map, CallLog.returned_snoc]
    rfl
  · rw [entries_invoke] at he
    obtain ⟨e', he', rfl⟩ := Option.map_eq_some_iff.mp he
    exact hwakes.watched n t (h.watched n e' he' t ht)

theorem Calls.ledger (h : Calls s₀ log s) (hs₀ : s₀.Untouched) : Ledger s₀ s log := by
  induction h with
  | start => exact hs₀.ledger
  | call _ hnext _ ih => exact ih.call hnext

end Session

end TensorTyping
