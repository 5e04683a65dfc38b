import TensorTyping.Proofs.Session.Confined
import TensorTyping.Proofs.Session.Ending
import TensorTyping.Proofs.Session.FirstFailure
import TensorTyping.Rule.Script

namespace TensorTyping

open Ty

/-- The ids of the placeholders of all signatures. -/
def Globals.ids (g : Globals) : List UInt32 :=
  g.functions.entries.flatMap fun e => e.2.params.flatMap Ty.ids ++ e.2.result.ids

namespace Table

theorem mem_of_find? {α : Type} {t : Table α} {name : String} {value : α}
    (h : t.find? name = some value) : (name, value) ∈ t.entries := by
  obtain ⟨entries⟩ := t
  induction entries with
  | nil => cases h
  | cons e entries ih =>
    rw [find?, get?] at h
    split at h
    · rename_i hname
      cases h
      exact hname ▸ List.mem_cons_self
    · exact List.mem_cons_of_mem _ (ih h)

end Table

theorem Globals.id_mem_ids {g : Globals} {p : Placeholder} (h : g.Mentions p) : p.id ∈ g.ids := by
  obtain ⟨name, s, hs, hp⟩ := h
  refine List.mem_flatMap.mpr ⟨_, Table.mem_of_find? hs, List.mem_append.mpr (hp.imp ?_ fun hp => ?_)⟩
  · rintro ⟨t, ht, hp⟩
    exact List.mem_flatMap.mpr ⟨t, ht, mem_ids.mpr ⟨p, hp, rfl⟩⟩
  · exact mem_ids.mpr ⟨p, hp, rfl⟩

/-- A budget with a factor beyond some number lets every relation run once more than that, as
long as it does not have to be the largest. -/
theorem Config.le_budget {config : Config} {n m : Nat} (hcapacity : n * (m + 1) < maxBudget)
    (hfactor : m < config.factor.toNat) : n * (m + 1) ≤ config.raised.budget n := by
  have hraised : config.raised = config := by
    refine if_neg fun hzero => ?_
    rw [hzero] at hfactor
    exact absurd hfactor (Nat.not_lt_zero m)
  have hn : n + 1 ≤ maxBudget :=
    Nat.lt_of_le_of_lt (Nat.le_mul_of_pos_right n (Nat.succ_pos m)) hcapacity
  rw [hraised, budget, min_eq_left hn]
  refine le_min ?_ hcapacity.le
  calc n * (m + 1) ≤ (n + 1) * config.factor.toNat := Nat.mul_le_mul (Nat.le_succ n) hfactor
    _ = config.factor.toNat * (n + 1) := Nat.mul_comm _ _

namespace Session

variable {s₀ s rest : Session} {log : CallLog} {number : Nat} {r : Relation}

theorem Listed.length_queue_le (h : s.Listed) : s.queue.length ≤ s.entries.length := by
  rw [← List.toFinset_card_of_nodup h.nodup, ← Finset.card_range s.entries.length]
  exact Finset.card_le_card fun n hn =>
    Finset.mem_range.mpr (h.lt n (List.mem_toFinset.mp hn))

theorem length_queue_lt_of_next? (h : s.next? = some (number, r, rest)) :
    rest.queue.length < s.queue.length := by
  obtain ⟨queue, rfl, -, skipped, hqueue, -⟩ := next?_eq_some h
  rw [hqueue, List.length_append, List.length_cons]
  exact Nat.lt_add_left _ (Nat.lt_succ_self _)

/-- Every invocation so far is one of the first round over all relations, or it is owed to a
placeholder that was decided; and each of those can put all relations on the worklist. -/
theorem Calls.length_add_length_le (hs₀ : s₀.Untouched) (h : Calls s₀ log s) :
    log.length + s.queue.length ≤ s₀.entries.length * (s.classes.decided.card + 1) := by
  induction h with
  | start =>
    rw [hs₀.queue, List.length_range, List.length_nil, Nat.zero_add]
    exact Nat.le_mul_of_pos_right _ (Nat.succ_pos _)
  | @call log s rest number r hcalls hnext hnone ih =>
    have hledger := (hcalls.call hnext hnone).ledger hs₀
    have hlisted := hledger.listed.length_queue_le
    have hlength : (rest.invoke number r).entries.length = s₀.entries.length := by
      rw [hledger.entries_eq]
      simp
    have hlt := length_queue_lt_of_next? hnext
    have hclasses : rest.classes = s.classes := by
      obtain ⟨queue, rfl, -⟩ := next?_eq_some hnext
      rfl
    have hpays := invoke_pays (hclasses ▸ (hcalls.ledger hs₀).valid) number r
    rw [← hclasses] at ih
    rw [List.length_append, List.length_singleton]
    obtain hqueue | hdecided := hpays.numbers
    · have hmul := Nat.mul_le_mul_left s₀.entries.length
        (Nat.add_le_add_right (Finset.card_le_card hpays.decided) 1)
      rw [hqueue]
      omega
    · have hcard : rest.classes.decided.card + 1 ≤ (rest.invoke number r).classes.decided.card :=
        Finset.card_lt_card hdecided
      have hmul := Nat.mul_le_mul_left s₀.entries.length (Nat.add_le_add_right hcard 1)
      rw [Nat.mul_add_one] at hmul
      omega

/-- Going on from a state is going on from the start with the invocations before it. -/
theorem Calls.run_eq (h : Calls s₀ log s) (budget : Nat) :
    s₀.run (log.length + budget) = s.run budget := by
  induction h generalizing budget with
  | start => rw [List.length_nil, Nat.zero_add]
  | @call log s rest number r _ hnext hnone ih =>
    rw [List.length_append, List.length_singleton, Nat.add_assoc, Nat.add_comm 1, ih, run, hnext]
    dsimp only
    rw [hnone]

/-- How a session ends, with the invocations before that. -/
theorem exists_calls_of_run (h : Calls s₀ log s) (budget : Nat) : ∃ log' s', Calls s₀ log' s' ∧
    ((log'.length ≤ log.length + budget ∧ s'.next? = none ∧ s.run budget = (s', s'.finish)) ∨
      (log'.length = log.length + budget ∧ ∃ number r rest, s'.next? = some (number, r, rest) ∧
        s.run budget = (rest, .error (rest.stuckErrors true))) ∨
      (log'.length < log.length + budget ∧ ∃ number r rest e, s'.next? = some (number, r, rest) ∧
        (rest.invoke number r).failure = some e ∧
        s.run budget = (rest.invoke number r, .error [e]))) := by
  induction budget generalizing s log with
  | zero =>
    refine ⟨log, s, h, ?_⟩
    rw [run]
    cases hnext : s.next? with
    | none => exact Or.inl ⟨Nat.le_refl _, rfl, rfl⟩
    | some next =>
      obtain ⟨number, r, rest⟩ := next
      exact Or.inr (Or.inl ⟨rfl, number, r, rest, rfl, rfl⟩)
  | succ budget ih =>
    rw [run]
    cases hnext : s.next? with
    | none => exact ⟨log, s, h, Or.inl ⟨Nat.le_add_right _ _, hnext, rfl⟩⟩
    | some next =>
      obtain ⟨number, r, rest⟩ := next
      dsimp only
      cases hfailure : (rest.invoke number r).failure with
      | some e =>
        exact ⟨log, s, h, Or.inr (Or.inr ⟨by omega, number, r, rest, e, hnext, hfailure, rfl⟩)⟩
      | none =>
        obtain ⟨log', s', hcalls, hend⟩ := ih (h.call hnext hfailure)
        rw [List.length_append, List.length_singleton, Nat.add_assoc, Nat.add_comm 1] at hend
        exact ⟨log', s', hcalls, hend⟩

theorem not_capped_finish (s : Session) : ¬ Result.Capped s.finish := by
  rintro ⟨errors, herrors, rule, args, span, hmem⟩
  unfold finish at herrors
  split at herrors
  · obtain ⟨ps, rfl, -⟩ := conclude_error herrors
    cases List.mem_singleton.mp hmem
  · obtain rfl := Except.error.inj herrors
    obtain ⟨e, -, he⟩ := List.mem_map.mp hmem
    cases he

/-- A relation is only reported as diverged when the budget is used up. -/
theorem exhausted_of_capped (globals : Globals) (config : Config) (setup : List Setup)
    (h : (prepared globals config setup).solve.2.Capped) :
    let s₀ := prepared globals config setup
    ∃ log s number r rest, Calls s₀ log s ∧ log.length = s₀.config.budget s₀.entries.length ∧
      s.next? = some (number, r, rest) ∧ s₀.solve.1 = rest := by
  intro s₀
  have hstart : Calls s₀ [] s₀ := .start
  obtain ⟨log, s, hcalls, ⟨-, -, hrun⟩ | ⟨hlength, number, r, rest, hnext, hrun⟩ |
    ⟨-, number, r, rest, e, -, hfailure, hrun⟩⟩ :=
      exists_calls_of_run hstart (s₀.config.budget s₀.entries.length)
  · have hresult : s₀.solve.2 = s.finish := congrArg Prod.snd hrun
    rw [hresult] at h
    exact absurd h (not_capped_finish s)
  · rw [List.length_nil, Nat.zero_add] at hlength
    exact ⟨log, s, number, r, rest, hcalls, hlength, hnext, congrArg Prod.fst hrun⟩
  · have hfailed : s₀.solve.1.failure = some e := (congrArg (·.1.failure) hrun).trans hfailure
    obtain ⟨span, hclash⟩ := Point.clash_of_failure globals config setup hfailed
    have hresult : s₀.solve.2 = .error [e] := congrArg Prod.snd hrun
    obtain ⟨errors, herrors, rule, args, span', hmem⟩ := h
    rw [hresult] at herrors
    rw [← Except.error.inj herrors, List.mem_singleton] at hmem
    rw [← hmem] at hclash
    cases hclash

theorem length_trace_le (globals : Globals) (config : Config) (setup : List Setup) :
    let s₀ := prepared globals config setup
    s₀.solve.1.trace.length ≤ s₀.config.budget s₀.entries.length ∧
      s₀.solve.1.trace.length ≤ s₀.entries.length * (s₀.solve.1.classes.decided.card + 1) := by
  intro s₀
  have hs₀ : s₀.Untouched := untouched_prepared globals config setup
  have hstart : Calls s₀ [] s₀ := .start
  obtain ⟨log, s, hcalls, hend⟩ :=
    exists_calls_of_run hstart (s₀.config.budget s₀.entries.length)
  rw [List.length_nil, Nat.zero_add] at hend
  have hbound := hcalls.length_add_length_le hs₀
  have htrace : s.trace.length = log.length := by
    rw [hcalls.trace, hs₀.trace, List.nil_append, List.length_map]
  obtain ⟨hle, -, hrun⟩ | ⟨hle, number, r, rest, hnext, hrun⟩ |
    ⟨hlt, number, r, rest, e, hnext, -, hrun⟩ := hend
  · rw [solve, hrun, htrace]
    exact ⟨hle, Nat.le_trans (Nat.le_add_right _ _) hbound⟩
  · rw [solve, hrun]
    obtain ⟨queue, rfl, -⟩ := next?_eq_some hnext
    rw [htrace]
    exact ⟨hle.le, Nat.le_trans (Nat.le_add_right _ _) hbound⟩
  · -- the invocation that fails was on the worklist
    have hqueue := length_queue_lt_of_next? hnext
    obtain ⟨queue, rfl, -⟩ := next?_eq_some hnext
    have hlength : (invoke { s with queue } number r).trace.length = log.length + 1 := by
      rw [(invoke_fields { s with queue } number r).2.2.2.2, List.length_append, htrace]
      rfl
    have hpays := invoke_pays (s := { s with queue }) (hcalls.ledger hs₀).valid number r
    have hmul := Nat.mul_le_mul_left s₀.entries.length
      (Nat.add_le_add_right (Finset.card_le_card hpays.decided) 1)
    rw [solve, hrun, hlength]
    exact ⟨hlt, Nat.le_trans (by omega) (Nat.le_trans hbound hmul)⟩

theorem length_entries_prepared (globals : Globals) (config : Config) (setup : List Setup) :
    (prepared globals config setup).entries.length = (setup.filterMap Setup.relation?).length := by
  rw [← relations_prepared globals config setup, List.length_map]

theorem draws_prepared (globals : Globals) (config : Config) {setup : List Setup}
    (hrule : ∀ r ∈ setup.filterMap Setup.relation?, r.rule ∈ Rule.builtins) :
    (prepared globals config setup).Draws
      ((setup.filterMap Setup.relation?).flatMap (·.args.flatMap ids) ++ globals.ids).toFinset := by
  have hmem : ∀ e ∈ (prepared globals config setup).entries,
      e.relation ∈ setup.filterMap Setup.relation? := fun e he => by
    rw [← relations_prepared globals config setup]
    exact List.mem_map_of_mem he
  refine ⟨fun e he => hrule _ (hmem e he), fun e he t ht i hi => ?_, fun p hp => ?_⟩
  · rw [List.mem_toFinset]
    exact List.mem_append_left _
      (List.mem_flatMap.mpr ⟨_, hmem e he, List.mem_flatMap.mpr ⟨t, ht, hi⟩⟩)
  · rw [(provides_prepared globals config setup).globals] at hp
    rw [List.mem_toFinset]
    exact List.mem_append_right _ (Globals.id_mem_ids hp)

theorem not_capped_of_builtins (globals : Globals) (config : Config) (setup : List Setup)
    (hrule : ∀ r ∈ setup.filterMap Setup.relation?, r.rule ∈ Rule.builtins)
    (hcapacity : (setup.filterMap Setup.relation?).length * (distinctCount
      ((prepared globals config setup).solve.1.classes.placeholders.map (·.id)) + 1) <
        Config.maxBudget)
    (hfactor : distinctCount ((setup.filterMap Setup.relation?).flatMap (·.args.flatMap ids) ++
      globals.ids) < config.factor.toNat) :
    ¬ (prepared globals config setup).solve.2.Capped := by
  intro hcapped
  have hs₀ := untouched_prepared globals config setup
  obtain ⟨log, s, number, r, rest, hcalls, hlength, hnext, hrest⟩ :=
    exhausted_of_capped globals config setup hcapped
  have hbound := hcalls.length_add_length_le hs₀
  have hqueue := length_queue_lt_of_next? hnext
  obtain ⟨-, hconfined⟩ := hcalls.confined hs₀ (draws_prepared globals config hrule)
  have hmentioned := (Finset.card_le_card hconfined.decided_subset).trans
    (distinctCount_eq_card _).symm.le
  have hknown : s.classes.decided.card ≤ distinctCount
      ((prepared globals config setup).solve.1.classes.placeholders.map (·.id)) := by
    obtain ⟨queue, rfl, -⟩ := next?_eq_some hnext
    rw [hrest]
    exact s.classes.card_decided_le
  rw [length_entries_prepared] at hbound hlength
  rw [(provides_prepared globals config setup).config] at hlength
  have hcapacity' := (Nat.mul_le_mul_left (setup.filterMap Setup.relation?).length
    (Nat.add_le_add_right hknown 1)).trans_lt hcapacity
  have hbudget := Config.le_budget hcapacity' (hmentioned.trans_lt hfactor)
  omega

/-- The invocations of a session. There are at most as many as the budget allows, and at most as
many as there are relations for each placeholder that is known at the end, and once more. Built-in
rules with a factor beyond the number of placeholders that the relations and the signatures mention
never use up the budget, unless that would have to be the largest. When the budget is used up and
a relation is still to be run, there is an error for every relation that never returned true, in
the order in which they were added. -/
theorem invocations_bounded (globals : Globals) (config : Config) (setup : List Setup) :
    let s₀ := prepared globals config setup
    let relations := setup.filterMap Setup.relation?
    let budget := s₀.config.budget relations.length
    let owed := relations.length *
      (distinctCount (s₀.solve.1.classes.placeholders.map (·.id)) + 1)
    s₀.solve.1.trace.length ≤ min budget owed ∧
      ((∀ r ∈ relations, r.rule ∈ Rule.builtins) → owed < Config.maxBudget →
        distinctCount (relations.flatMap (·.args.flatMap ids) ++ globals.ids) <
          config.factor.toNat → ¬ s₀.solve.2.Capped) ∧
      ∀ log s next, Calls s₀ log s → log.length = budget → s.next? = some next →
        let e : Ending := ⟨relations, log, s, s₀.solve.2⟩
        e.result = .error (e.left.map fun r =>
          .stuck r.rule.name (r.args.map s.resolve) true r.span) := by
  intro s₀ relations budget owed
  have hs₀ : s₀.Untouched := untouched_prepared globals config setup
  have hentries : s₀.entries.length = relations.length := length_entries_prepared globals config setup
  refine ⟨?_, fun hrule hcapacity hfactor =>
    not_capped_of_builtins globals config setup hrule hcapacity hfactor, ?_⟩
  · obtain ⟨hbudget, howed⟩ := length_trace_le globals config setup
    have hknown := Nat.mul_le_mul_left relations.length
      (Nat.add_le_add_right s₀.solve.1.classes.card_decided_le 1)
    change s₀.solve.1.trace.length ≤ s₀.config.budget s₀.entries.length at hbudget
    change s₀.solve.1.trace.length ≤ s₀.entries.length * _ at howed
    rw [hentries] at hbudget howed
    exact le_min hbudget (howed.trans hknown)
  · rintro log s ⟨number, r, rest⟩ hcalls hlength hnext
    have hrun : s₀.solve = s.run 0 := by
      rw [solve, hentries, ← hcalls.run_eq, hlength, Nat.add_zero]
    have hresult : s₀.solve.2 = .error (s.stuckErrors true) := by
      rw [hrun, run, hnext]
      obtain ⟨queue, rfl, -⟩ := next?_eq_some hnext
      rfl
    intro e
    have hstuck := (hcalls.ledger hs₀).stuckErrors_eq s₀.solve.2 true
    rw [relations_prepared] at hstuck
    exact hresult.trans (congrArg Except.error hstuck)

/-- Two equations over two placeholders, with a factor of three; and a rule that makes up a
placeholder whenever it is run, and so always wakes itself. -/
theorem invocations_bounded_chain :
    let x : Ty := .hole ⟨0, .type⟩
    let y : Ty := .hole ⟨1, .type⟩
    let relations : List Relation := [equation x y, equation y (.tuple [])]
    let s₀ := prepared .empty ⟨3, false, 0⟩ (relations.map Setup.relation)
    let grow : Relation := ⟨.ofScript "grow" [.grow 0, .finish false], [x], 0, .empty, .dummy,
      Nat.zero_le 1⟩
    let s₁ := prepared .empty ⟨1, false, 0⟩ [.relation grow]
    s₀.solve.1.trace.length ≤ 6 ∧ ¬ s₀.solve.2.Capped ∧
      s₁.solve.2 = .error [.stuck "grow" [.tuple [.tuple [.hole ⟨2, .type⟩]]] true .dummy] ∧
      ∃ log s, Calls s₁ log s ∧ log.length = 2 ∧ s₁.solve.2 = .error
        ((Ending.mk [grow] log s s₁.solve.2).left.map fun r =>
          .stuck r.rule.name (r.args.map s.resolve) true r.span) := by
  intro x y relations s₀ grow s₁
  obtain ⟨hlength, hcapped, -⟩ :=
    invocations_bounded .empty ⟨3, false, 0⟩ (relations.map Setup.relation)
  have hknown : s₀.solve.1.classes.placeholders.map (·.id) = [0, 1] := by cbv
  have hrelations : (relations.map Setup.relation).filterMap Setup.relation? = relations := rfl
  have howed : relations.length *
      (distinctCount (s₀.solve.1.classes.placeholders.map (·.id)) + 1) = 6 := by
    rw [hknown]
    rfl
  have hcapacity : 6 < Config.maxBudget := by decide
  have hmentioned : distinctCount (relations.flatMap (·.args.flatMap ids) ++ Globals.empty.ids) <
      (3 : UInt64).toNat := by cbv
  rw [hrelations, howed] at hlength hcapped
  refine ⟨(le_min_iff.mp hlength).2, hcapped ?_ hcapacity hmentioned, ?_⟩
  · intro r hr
    obtain rfl | hr := List.mem_cons.mp hr
    · exact List.mem_cons_self
    · rw [List.mem_singleton.mp hr]
      exact List.mem_cons_self
  · have hresult : s₁.solve.2 =
        .error [.stuck "grow" [.tuple [.tuple [.hole ⟨2, .type⟩]]] true .dummy] := by cbv
    have hdiverged : s₁.solve.2.Capped := ⟨_, hresult, _, _, _, List.mem_singleton_self _⟩
    obtain ⟨log, s, number, r, rest, hcalls, hlength, hnext, -⟩ :=
      exhausted_of_capped .empty ⟨1, false, 0⟩ [.relation grow] hdiverged
    obtain ⟨-, -, hexhausted⟩ := invocations_bounded .empty ⟨1, false, 0⟩ [.relation grow]
    exact ⟨hresult, log, s, hcalls, hlength, hexhausted log s _ hcalls hlength hnext⟩

end Session

end TensorTyping
