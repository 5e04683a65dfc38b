import Mathlib.Data.List.TakeWhile
import Mathlib.Logic.Relation
import TensorTyping.Proofs.Session.Growth

namespace TensorTyping

open Ty

/-- A session ended because its budget of invocations was used up. -/
def Result.Capped (result : Result) : Prop := ∃ errors, result = .error errors ∧
  ∃ rule args span, TypeError.stuck rule args true span ∈ errors

namespace Session

variable {s s' : Session}

/-- Requests of rules leave the relations, the settings and the trace alone. -/
structure Frames (s s' : Session) : Prop where
  globals : s'.globals = s.globals
  config : s'.config = s.config
  known : s'.known = s.known
  entries : s'.entries = s.entries
  trace : s'.trace = s.trace

theorem Frames.refl (s : Session) : Frames s s := ⟨rfl, rfl, rfl, rfl, rfl⟩

theorem Frames.trans {s'' : Session} (h : Frames s s') (h' : Frames s' s'') : Frames s s'' :=
  ⟨h'.globals.trans h.globals, h'.config.trans h.config, h'.known.trans h.known,
    h'.entries.trans h.entries, h'.trace.trans h.trace⟩

theorem frames_wake (s : Session) (number : Nat) : Frames s (s.wake number) := by
  unfold wake
  split <;> exact ⟨rfl, rfl, rfl, rfl, rfl⟩

theorem frames_foldl_wake (s : Session) (numbers : List Nat) : Frames s (numbers.foldl wake s) := by
  induction numbers generalizing s with
  | nil => exact .refl s
  | cons n numbers ih => exact (frames_wake s n).trans (ih (s.wake n))

theorem frames_assign (s : Session) (dst src : Ty) : Frames s (s.assign dst src) := by
  obtain ⟨-, heq⟩ | ⟨e, -, -, heq⟩ | ⟨p, -, -, heq⟩ := assign_cases s dst src <;> rw [heq]
  · exact .refl s
  · exact ⟨rfl, rfl, rfl, rfl, rfl⟩
  · have hwake := frames_foldl_wake { s with classes := p.classes, deferred := p.deferred } p.woken
    exact ⟨hwake.globals, hwake.config, hwake.known, hwake.entries, hwake.trace⟩

theorem frames_assert (s : Session) (cond : Cond) : Frames s (s.assert cond).2 := by
  obtain ⟨deferred, failure, heq⟩ := exists_assert_eq s cond
  rw [heq]
  exact ⟨rfl, rfl, rfl, rfl, rfl⟩

theorem frames_run (r : Resolution) (s : Session) : Frames s (r.run reporter s).state := by
  induction r generalizing s with
  | done resolved => exact .refl s
  | assign dst src next ih => exact (frames_assign s dst src).trans (ih _)
  | assert cond next ih => exact (frames_assert s cond).trans (ih _ _)
  | locate span next ih =>
    have hlocate : Frames s { s with location := span } := ⟨rfl, rfl, rfl, rfl, rfl⟩
    exact hlocate.trans (ih _)

/-- Once something has failed, a rule has no effect, and all its questions are answered with no. -/
theorem run_of_failure {e : TypeError} (h : s.failure = some e) (r : Resolution) :
    (∃ span, (r.run reporter s).state = { s with location := span }) ∧
      (r.run reporter s).reports = (r.rehearse fun _ => false).reports ∧
      (r.run reporter s).resolved = (r.rehearse fun _ => false).resolved := by
  induction r generalizing s with
  | done resolved => exact ⟨⟨s.location, rfl⟩, rfl, rfl⟩
  | assign dst src next ih =>
    obtain ⟨hstate, hreports, hresolved⟩ := ih h
    have hassign : reporter.assign dst src s = s := assign_of_failed (by simp [h])
    rw [Resolution.run, hassign]
    exact ⟨hstate, congrArg (List.cons _) hreports, hresolved⟩
  | assert cond next ih =>
    obtain ⟨hstate, hreports, hresolved⟩ := ih false h
    rw [run_assert, assert_of_failed (by simp [h])]
    exact ⟨hstate, congrArg (List.cons _) hreports, hresolved⟩
  | locate span next ih =>
    obtain ⟨⟨span', hstate⟩, hreports, hresolved⟩ := ih (s := { s with location := span }) h
    exact ⟨⟨span', hstate⟩, congrArg (List.cons _) hreports, hresolved⟩

/-- What comes of running a relation's rule. -/
def outcome (s : Session) (r : Relation) : Outcome Session :=
  (r.rule.resolve (s.query r)).run reporter { s with location := r.span }

theorem invoke_eq (s : Session) (number : Nat) (r : Relation) :
    s.invoke number r =
      if (s.outcome r).resolved then
        retire { (s.outcome r).state with trace := (s.outcome r).state.trace ++
          [⟨r.rule.name, r.args.map s.resolve, (s.outcome r).reports, (s.outcome r).resolved⟩] } number
      else { (s.outcome r).state with trace := (s.outcome r).state.trace ++
          [⟨r.rule.name, r.args.map s.resolve, (s.outcome r).reports, (s.outcome r).resolved⟩] } :=
  rfl

theorem invoke_fields (s : Session) (number : Nat) (r : Relation) :
    (s.invoke number r).classes = (s.outcome r).state.classes ∧
      (s.invoke number r).known = s.known ∧
      (s.invoke number r).deferred = (s.outcome r).state.deferred ∧
      (s.invoke number r).failure = (s.outcome r).state.failure ∧
      (s.invoke number r).trace = s.trace ++
        [⟨r.rule.name, r.args.map s.resolve, (s.outcome r).reports, (s.outcome r).resolved⟩] := by
  have hframes := frames_run (r.rule.resolve (s.query r)) { s with location := r.span }
  have hknown : (s.outcome r).state.known = s.known := hframes.known
  have htrace : (s.outcome r).state.trace = s.trace := hframes.trace
  rw [invoke_eq]
  rw [← htrace]
  split <;> exact ⟨rfl, hknown, rfl, rfl, rfl⟩

theorem invoke_worklist (s : Session) (number : Nat) (r : Relation) :
    (s.invoke number r).queue = (s.outcome r).state.queue ∧
      (s.invoke number r).globals = s.globals ∧
      (s.invoke number r).entries = if (s.outcome r).resolved then
        s.entries.modify number fun e => { e with resolved := true } else s.entries := by
  have hframes := frames_run (r.rule.resolve (s.query r)) { s with location := r.span }
  have hglobals : (s.outcome r).state.globals = s.globals := hframes.globals
  have hentries : (s.outcome r).state.entries = s.entries := hframes.entries
  rw [invoke_eq, ← hentries]
  split
  · exact ⟨rfl, hglobals, rfl⟩
  · exact ⟨rfl, hglobals, rfl⟩

theorem config_invoke (s : Session) (number : Nat) (r : Relation) :
    (s.invoke number r).config = s.config := by
  have hframes := frames_run (r.rule.resolve (s.query r)) { s with location := r.span }
  rw [invoke_eq]
  split <;> exact hframes.config

theorem length_invoke (s : Session) (number : Nat) (r : Relation) :
    (s.invoke number r).entries.length = s.entries.length := by
  rw [(invoke_worklist s number r).2.2]
  split
  · exact List.length_modify ..
  · rfl

/-- A relation is taken off the worklist. -/
theorem next?_eq_some {number : Nat} {r : Relation} (h : s.next? = some (number, r, s')) :
    ∃ queue, s' = { s with queue } ∧ s.entries[number]? = some ⟨r, false⟩ ∧
      ∃ skipped, s.queue = skipped ++ number :: queue ∧ ∀ n ∈ skipped, s.isPending n = false := by
  unfold next? at h
  split at h
  · cases h
  · rename_i n queue hqueue
    obtain ⟨e, he, heq⟩ := Option.map_eq_some_iff.mp h
    cases heq
    refine ⟨queue, rfl, ?_, s.queue.takeWhile (!s.isPending ·), ?_, ?_⟩
    · have hpending : s.isPending number = true := by
        have hhead := List.head?_dropWhile_not (!s.isPending ·) s.queue
        rw [hqueue] at hhead
        simpa using hhead
      rw [isPending, he] at hpending
      obtain ⟨relation, resolved⟩ := e
      have hresolved : resolved = false := by simpa using hpending
      rw [he, hresolved]
    · rw [← hqueue, List.takeWhile_append_dropWhile]
    · intro n hn
      have hnot := List.mem_takeWhile_imp hn
      simpa using hnot

/-- What is on the worklist and not resolved is taken off it, or stays on it. -/
theorem mem_rest_of_next? {skipped queue : List Nat} {number n : Nat}
    (hqueue : s.queue = skipped ++ number :: queue) (hskipped : ∀ n ∈ skipped, s.isPending n = false)
    (hpending : s.isPending n = true) (hn : n ∈ s.queue) : n = number ∨ n ∈ queue := by
  rw [hqueue, List.mem_append, List.mem_cons] at hn
  obtain hn | hn := hn
  · rw [hskipped n hn] at hpending
    cases hpending
  · exact hn

theorem next?_eq_none (h : s.next? = none) : ∀ n ∈ s.queue, s.isPending n = false := by
  unfold next? at h
  split at h
  · rename_i hqueue
    intro n hn
    simpa using List.dropWhile_eq_nil_iff.mp hqueue n hn
  · rename_i n queue hqueue
    have hhead := List.head?_dropWhile_not (!s.isPending ·) s.queue
    rw [hqueue] at hhead
    rw [Option.map_eq_none_iff] at h
    simp [isPending, h] at hhead

/-- One turn of a session: a relation is taken off the worklist and run without
failure. -/
def Turn (s s' : Session) : Prop :=
  ∃ number r rest, s.next? = some (number, r, rest) ∧ s' = rest.invoke number r ∧ s'.failure = none

/-- Any number of turns. -/
abbrev Turns : Session → Session → Prop := Relation.ReflTransGen Turn

theorem stuckErrors_eq_nil_iff (s : Session) (diverged : Bool) :
    s.stuckErrors diverged = [] ↔ ∀ e ∈ s.entries, e.resolved = true := by
  simp [stuckErrors]

theorem capped_stuckErrors {s : Session} {r : Relation} (h : ⟨r, false⟩ ∈ s.entries) :
    Result.Capped (.error (s.stuckErrors true)) :=
  ⟨_, rfl, _, _, _, List.mem_map.mpr ⟨_, List.mem_filter.mpr ⟨h, rfl⟩, rfl⟩⟩

theorem not_capped_ok (sol : Solution) : ¬ Result.Capped (.ok sol) := by
  rintro ⟨errors, herrors, -⟩
  cases herrors

/-- How a session ends: nothing is left to do, or the budget is used up, or
something fails. -/
theorem run_cases (budget : Nat) (s : Session) : ∃ s', Turns s s' ∧
    ((s'.next? = none ∧ s.run budget = (s', s'.finish)) ∨
      (∃ number r rest, s'.next? = some (number, r, rest) ∧
        s.run budget = (rest, .error (rest.stuckErrors true))) ∨
      ∃ number r rest e, s'.next? = some (number, r, rest) ∧
        (rest.invoke number r).failure = some e ∧
        s.run budget = (rest.invoke number r, .error [e])) := by
  induction budget generalizing s with
  | zero =>
    refine ⟨s, .refl, ?_⟩
    rw [run]
    cases hnext : s.next? with
    | none => exact Or.inl ⟨rfl, rfl⟩
    | some next =>
      obtain ⟨number, r, rest⟩ := next
      exact Or.inr (Or.inl ⟨number, r, rest, rfl, rfl⟩)
  | succ budget ih =>
    rw [run]
    cases hnext : s.next? with
    | none => exact ⟨s, .refl, Or.inl ⟨hnext, rfl⟩⟩
    | some next =>
      obtain ⟨number, r, rest⟩ := next
      dsimp only
      cases hfailure : (rest.invoke number r).failure with
      | some e =>
        exact ⟨s, .refl, Or.inr (Or.inr ⟨number, r, rest, e, hnext, hfailure, rfl⟩)⟩
      | none =>
        obtain ⟨s', hturns, hend⟩ := ih (rest.invoke number r)
        exact ⟨s', .head ⟨number, r, rest, hnext, rfl, hfailure⟩ hturns, hend⟩

theorem outcome_grows (hc : s.classes.Valid) (r : Relation) :
    Grows s (s.outcome r).state ∧ ((s.outcome r).state.failure = none →
      ∀ report ∈ (s.outcome r).reports, report.Kept (s.outcome r).state) := by
  have hlocate := locate_grows hc r.span
  obtain ⟨hgrows, hkept⟩ := run_kept (r.rule.resolve (s.query r)) hlocate.valid
  exact ⟨hlocate.trans hgrows, hkept⟩

theorem invoke_grows (hc : s.classes.Valid) (number : Nat) (r : Relation) :
    Grows s (s.invoke number r) := by
  obtain ⟨hgrows, -⟩ := outcome_grows hc r
  obtain ⟨hclasses, hknown, hdeferred, hfailure, -⟩ := invoke_fields s number r
  have hframes := frames_run (r.rule.resolve (s.query r)) { s with location := r.span }
  refine hgrows.trans (.of_eq hgrows.valid hclasses ?_ hdeferred fun hnone => hfailure ▸ hnone)
  exact hknown.trans hframes.known.symm

theorem Turn.grows (hc : s.classes.Valid) (h : Turn s s') : Grows s s' := by
  obtain ⟨number, r, rest, hnext, rfl, -⟩ := h
  obtain ⟨queue, rfl, -, -⟩ := next?_eq_some hnext
  have hqueue : Grows s { s with queue } := .of_eq hc rfl rfl rfl id
  exact hqueue.trans (invoke_grows hqueue.valid number r)

theorem Turns.grows (hc : s.classes.Valid) (h : Turns s s') : Grows s s' := by
  induction h with
  | refl => exact .refl hc
  | tail _ hturn ih => exact ih.trans (hturn.grows ih.valid)

theorem Turns.failure (h : Turns s s') (hs : s.failure = none) : s'.failure = none := by
  cases h with
  | refl => exact hs
  | tail _ hturn =>
    obtain ⟨-, -, -, -, -, hnone⟩ := hturn
    exact hnone

/-- Everything that rules requested so far is kept. -/
def AllKept (s : Session) : Prop := ∀ v ∈ s.trace, ∀ report ∈ v.reports, report.Kept s

theorem Turn.allKept (hc : s.classes.Valid) (h : Turn s s') (hkept : s.AllKept) : s'.AllKept := by
  have hgrows := h.grows hc
  obtain ⟨number, r, rest, hnext, rfl, hnone⟩ := h
  obtain ⟨queue, rfl, -, -⟩ := next?_eq_some hnext
  have hqueue : Grows s { s with queue } := .of_eq hc rfl rfl rfl id
  obtain ⟨hgrows', hreports⟩ := outcome_grows hqueue.valid r
  obtain ⟨hclasses, hknown, hdeferred, hfailure, htrace⟩ :=
    invoke_fields { s with queue } number r
  intro v hv
  rw [htrace, List.mem_append, List.mem_singleton] at hv
  obtain hv | rfl := hv
  · exact fun report hreport => hgrows.kept (hkept v hv report hreport)
  · have hlast : Grows (outcome { s with queue } r).state (invoke { s with queue } number r) :=
      .of_eq hgrows'.valid hclasses (hknown.trans hgrows'.known.symm) hdeferred
        fun hnone => hfailure ▸ hnone
    intro report hreport
    exact hlast.kept (hreports (hlast.failure hnone) report hreport)

theorem Turns.allKept (hc : s.classes.Valid) (h : Turns s s') (hkept : s.AllKept) :
    s'.AllKept := by
  induction h with
  | refl => exact hkept
  | tail hturns hturn ih => exact hturn.allKept (Turns.grows hc hturns).valid ih

end Session

end TensorTyping
