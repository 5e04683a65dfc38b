import TensorTyping.Proofs.Session.Acyclic
import TensorTyping.Proofs.Session.Calls
import TensorTyping.Proofs.Session.Conclusion
import TensorTyping.Proofs.Session.Deferral

namespace TensorTyping

open Ty

/-- The relation that an action adds. -/
def Setup.relation? : Setup → Option Relation
  | relation r => some r
  | range _ _ | fresh _ => none

/-- How a session ended: the relations that were added to it, in that order, the
invocations, the last state, and what it came to. -/
structure Ending where
  relations : List Relation
  log : CallLog
  state : Session
  result : Result

namespace Ending

/-- The relations that never returned true, in the order in which they were added. -/
def left (e : Ending) : List Relation :=
  (e.relations.zipIdx.filter fun r => !e.log.returned r.2).map (·.1)

/-- Some relation never returned true, and there is an error for every such relation. -/
structure Stuck (e : Ending) : Prop where
  waiting : ∃ n < e.relations.length, e.log.returned n = false
  result : e.result = .error (e.left.map fun r =>
    .stuck r.rule.name (r.args.map e.state.resolve) false r.span)

/-- All relations returned true, some class is not bound, and there is one error with
the smallest ids of the classes that are not. -/
structure Undetermined (e : Ending) : Prop where
  returned : ∀ n < e.relations.length, e.log.returned n = true
  unbound : ∃ i, e.state.classes.Registered i ∧ e.state.classes.binding? i = none
  result : ∃ ps : List Placeholder, e.result = .error [.unresolved ps] ∧
    (ps.map (·.id)).Pairwise (· < ·) ∧ ∀ i, i ∈ ps.map (·.id) ↔ e.state.classes.Smallest i

end Ending

/-- A solution has what a session found out: the types that all classes are bound to,
without placeholders, and the conditions that could not be decided. -/
structure Solution.Reports (sol : Solution) (s : Session) : Prop where
  increasing : (sol.bindings.map (·.1)).Pairwise (· < ·)
  registered : ∀ i, i ∈ sol.bindings.map (·.1) ↔ s.classes.Registered i
  bound : ∀ b ∈ sol.bindings, s.classes.binding? b.1 = some b.2
  complete : ∀ b ∈ sol.bindings, b.2.isComplete = true
  apply_apply : ∀ t, sol.apply (sol.apply t) = sol.apply t
  sorted : sol.deferred.Pairwise fun c d => compare c d = .lt
  unknown : ∀ c ∈ sol.deferred, s.known.prove c = .unknown

/-- All relations returned true, all classes are bound, and there is a solution. -/
structure Ending.Solved (e : Ending) : Prop where
  returned : ∀ n < e.relations.length, e.log.returned n = true
  bound : ∀ i, e.state.classes.Registered i → (e.state.classes.binding? i).isSome
  result : ∃ sol, e.result = .ok sol ∧ sol.Reports e.state

namespace Session

variable {s₀ s : Session} {log : CallLog} {bound : List (UInt32 × Ty)} {errors : List TypeError}
  {sol : Solution}

theorem relations_prepared (globals : Globals) (config : Config) (setup : List Setup) :
    (prepared globals config setup).entries.map (·.relation) =
      setup.filterMap Setup.relation? := by
  have hfold : ∀ s : Session, s.Untouched → (setup.foldl Setup.apply s).entries.map (·.relation) =
      s.entries.map (·.relation) ++ setup.filterMap Setup.relation? := by
    induction setup with
    | nil => exact fun s _ => (List.append_nil _).symm
    | cons a setup ih =>
      intro s hs
      rw [List.foldl_cons, ih _ (hs.apply a)]
      cases a with
      | range x r => rfl
      | fresh kind => rfl
      | relation r =>
        obtain ⟨classes, nextId, heq, -⟩ := add_fields hs.valid r
        rw [Setup.apply, heq, List.map_append, List.append_assoc]
        rfl
  exact hfold _ (untouched_start globals config)

theorem Ledger.entries_eq (h : Ledger s₀ s log) :
    s.entries = (s₀.entries.map (·.relation)).zipIdx.map fun r => ⟨r.1, log.returned r.2⟩ := by
  refine List.ext_getElem? fun n => ?_
  rw [h.entries, List.getElem?_map, List.getElem?_zipIdx, List.getElem?_map, Option.map_map,
    Option.map_map]
  simp [Function.comp_def]

/-- There is an error for every relation that never returned true. -/
theorem Ledger.stuckErrors_eq (h : Ledger s₀ s log) (result : Result) (diverged : Bool) :
    s.stuckErrors diverged =
      (Ending.mk (s₀.entries.map (·.relation)) log s result).left.map fun r =>
        .stuck r.rule.name (r.args.map s.resolve) diverged r.span := by
  rw [stuckErrors, h.entries_eq, Ending.left, List.filter_map, List.map_map, List.map_map]
  rfl

theorem Ledger.resolved_iff (h : Ledger s₀ s log) : (∀ e ∈ s.entries, e.resolved = true) ↔
    ∀ n < (s₀.entries.map (·.relation)).length, log.returned n = true := by
  rw [List.length_map]
  constructor
  · intro hresolved n hn
    have hentry := h.entries n
    rw [List.getElem?_eq_getElem hn] at hentry
    exact hresolved _ (List.mem_of_getElem? hentry)
  · intro hreturned e he
    obtain ⟨n, hn⟩ := List.mem_iff_getElem?.mp he
    rw [h.entries] at hn
    obtain ⟨e₀, he₀, rfl⟩ := Option.map_eq_some_iff.mp hn
    exact hreturned n (List.getElem?_eq_some_iff.mp he₀).1

theorem mem_ids_addLeftovers {found new : List Placeholder} {i : UInt32} :
    i ∈ (addLeftovers found new).map (·.id) ↔ i ∈ found.map (·.id) ∨ i ∈ new.map (·.id) := by
  induction new generalizing found with
  | nil => simp [addLeftovers]
  | cons p new ih =>
    rw [addLeftovers, List.foldl_cons, ← addLeftovers, ih, List.map_cons, List.mem_cons, ← or_assoc]
    refine or_congr_left ?_
    split
    · rename_i hany
      rw [List.any_eq_true] at hany
      obtain ⟨q, hq, hid⟩ := hany
      rw [decide_eq_true_eq] at hid
      refine ⟨Or.inl, fun hi => hi.elim id ?_⟩
      rintro rfl
      exact List.mem_map.mpr ⟨q, hq, hid⟩
    · simp

theorem nodup_addLeftovers {found new : List Placeholder} (h : (found.map (·.id)).Nodup) :
    ((addLeftovers found new).map (·.id)).Nodup := by
  induction new generalizing found with
  | nil => exact h
  | cons p new ih =>
    refine ih ?_
    dsimp only
    split
    · exact h
    · rename_i hany
      rw [List.map_append, List.map_singleton, ← List.concat_eq_append]
      refine List.Nodup.concat (fun hmem => hany ?_) h
      obtain ⟨q, hq, hid⟩ := List.mem_map.mp hmem
      exact List.any_eq_true.mpr ⟨q, hq, decide_eq_true hid⟩

theorem pairwise_lt_mergeSort_ids {ps : List Placeholder} (h : (ps.map (·.id)).Nodup) :
    ((ps.mergeSort fun p q => decide (p.id ≤ q.id)).map (·.id)).Pairwise (· < ·) := by
  have hperm := (List.mergeSort_perm ps fun p q => decide (p.id ≤ q.id)).map (·.id)
  refine ((pairwise_mergeSort_ids ps).and (hperm.nodup_iff.mpr h)).imp fun hab => ?_
  exact UInt32.lt_of_le_of_ne hab.1 hab.2

/-- A session that is not solved lists, in increasing order, what placeholders are left
in the types of its own. -/
theorem conclude_error (h : s.conclude = .error errors) :
    ∃ ps : List Placeholder, errors = [.unresolved ps] ∧ (ps.map (·.id)).Pairwise (· < ·) ∧
      ∀ i, i ∈ ps.map (·.id) ↔ ∃ p ∈ s.classes.placeholders, i ∈ (s.resolve (hole p)).ids := by
  unfold conclude at h
  dsimp only at h
  rw [foldl_addLeftovers, ← sortedPlaceholders] at h
  split at h <;> cases h
  refine ⟨_, rfl, pairwise_lt_mergeSort_ids (nodup_addLeftovers List.nodup_nil), fun i => ?_⟩
  rw [List.Perm.mem_iff ((List.mergeSort_perm _ _).map _), mem_ids_addLeftovers]
  rw [List.flatMap_map, List.map_flatMap, List.mem_flatMap]
  simp only [List.map_nil, List.not_mem_nil, false_or, id_mem_holes]
  exact exists_congr fun p => and_congr_left fun _ => List.mem_mergeSort

/-- The placeholders that are left are the smallest ones of the classes that are not
bound. -/
theorem mem_ids_resolve_iff (h : s.classes.Tracks bound) {i : UInt32} :
    (∃ p ∈ s.classes.placeholders, i ∈ (s.resolve (hole p)).ids) ↔ s.classes.Smallest i := by
  constructor
  · rintro ⟨p, hp, hi⟩
    obtain ⟨x, hx, rfl⟩ := List.mem_map.mp hp
    have hregistered := Classes.registered_iff_mem.mpr ⟨x, hx, rfl⟩
    rw [resolve, Classes.resolve_hole] at hi
    exact (h.settled_iff_smallest (h.valid.registered_image hregistered hi)).mp
      (h.valid.resolved_image _ i hi)
  · intro hsmallest
    have hsettled := (h.settled_iff_smallest hsmallest.registered).mpr hsmallest
    obtain ⟨x, hx, rfl⟩ := Classes.registered_iff_mem.mp hsmallest.registered
    refine ⟨x.placeholder, List.mem_map_of_mem hx, ?_⟩
    rw [resolve, Classes.resolve_hole, hsettled.image rfl, ids_hole]
    exact List.mem_singleton_self _

/-- All types are complete exactly if all classes are bound. -/
theorem complete_iff_bound (h : s.classes.Tracks bound) :
    s.Complete ↔ ∀ i, s.classes.Registered i → (s.classes.binding? i).isSome := by
  constructor
  · intro hcomplete i hi
    obtain ⟨r, hr⟩ := h.valid.exists_class? hi
    by_contra hnone
    rw [Option.not_isSome_iff_eq_none, Classes.binding?_eq_none hr] at hnone
    obtain ⟨q, himage, -⟩ := Classes.exists_image_eq_hole (p := ⟨i, .type⟩) hr hnone
    have hhole := hcomplete ⟨i, .type⟩ hi
    rw [resolve, Classes.resolve_hole, himage] at hhole
    cases hhole
  · intro hbound p hp
    rw [isComplete_iff, List.eq_nil_iff_forall_not_mem]
    intro q hq
    obtain ⟨t, ht⟩ := Option.isSome_iff_exists.mp (hbound p.id hp)
    obtain ⟨x, hx, hid⟩ := Classes.registered_iff_mem.mp hp
    have hresolve : s.resolve (hole p) = s.resolve (hole x.placeholder) := by
      rw [resolve, resolve, Classes.resolve_hole, Classes.resolve_hole,
        Classes.image_of_binding? ht, Classes.image_of_binding? (hid ▸ ht)]
    rw [hresolve] at hq
    have hsmallest := (mem_ids_resolve_iff h).mp
      ⟨_, List.mem_map_of_mem hx, mem_ids.mpr ⟨q, hq, rfl⟩⟩
    have hsome := hbound q.id hsmallest.registered
    rw [hsmallest.unbound] at hsome
    cases hsome

theorem reports_of_conclude (h : s.classes.Tracks bound) (hundecided : s.Undecided)
    (hconclude : s.conclude = .ok sol) : sol.Reports s := by
  obtain ⟨hcomplete, hbindings, hdeferred⟩ := conclude_ok hconclude
  have hkeys : sol.bindings.map (·.1) = s.sortedPlaceholders.map (·.id) := by
    rw [hbindings, List.map_map]
    rfl
  have hnodup : (s.classes.placeholders.map (·.id)).Nodup := by
    rw [Classes.placeholders, List.map_map]
    exact h.valid.nodup
  refine ⟨?_, fun i => ?_, fun b hb => ?_, fun b hb => ?_, fun t => ?_, ?_, fun c hc => ?_⟩
  · rw [hkeys]
    exact pairwise_lt_mergeSort_ids hnodup
  · rw [hkeys]
    exact mem_ids_sortedPlaceholders
  · rw [hbindings] at hb
    obtain ⟨p, hp, rfl⟩ := List.mem_map.mp hb
    have hregistered := mem_ids_sortedPlaceholders.mp (List.mem_map_of_mem hp)
    obtain ⟨t, ht⟩ := Option.isSome_iff_exists.mp
      ((complete_iff_bound h).mp (complete_of_conclude hconclude) p.id hregistered)
    rw [ht, resolve, Classes.resolve_hole, Classes.image_of_binding? ht]
  · rw [hbindings] at hb
    obtain ⟨p, hp, rfl⟩ := List.mem_map.mp hb
    exact hcomplete p (List.mem_mergeSort.mp hp)
  · rw [apply_eq_resolve hconclude, apply_eq_resolve hconclude]
    exact h.valid.resolve_resolve t
  · rw [hdeferred]
    exact pairwise_lt_mergeSort_compare hundecided.nodup
  · rw [hdeferred] at hc
    exact hundecided.unknown c (List.mem_mergeSort.mp hc)

/-- What a session comes to when nothing is left to do. -/
theorem finish_cases (hledger : Ledger s₀ s log) (htracks : s.classes.Tracks bound)
    (hundecided : s.Undecided) :
    let e : Ending := ⟨s₀.entries.map (·.relation), log, s, s.finish⟩
    e.Stuck ∨ e.Undetermined ∨ e.Solved := by
  intro e
  by_cases hresolved : ∀ e ∈ s.entries, e.resolved = true
  · have hfinish : s.finish = s.conclude := by
      rw [finish, (stuckErrors_eq_nil_iff s false).mpr hresolved]
    have hreturned := hledger.resolved_iff.mp hresolved
    refine Or.inr ?_
    cases hconclude : s.conclude with
    | ok sol =>
      have hbound := (complete_iff_bound htracks).mp (complete_of_conclude hconclude)
      exact Or.inr ⟨hreturned, hbound, sol, hfinish.trans hconclude,
        reports_of_conclude htracks hundecided hconclude⟩
    | error errors =>
      obtain ⟨ps, rfl, hincreasing, hmem⟩ := conclude_error hconclude
      have hunbound : ¬ ∀ i, s.classes.Registered i → (s.classes.binding? i).isSome := by
        intro hbound
        obtain ⟨sol, hok⟩ := conclude_of_complete ((complete_iff_bound htracks).mpr hbound)
        rw [hconclude] at hok
        cases hok
      refine Or.inl ⟨hreturned, by simpa using hunbound, ps, hfinish.trans hconclude, hincreasing,
        fun i => (hmem i).trans (mem_ids_resolve_iff htracks)⟩
  · refine Or.inl ⟨?_, ?_⟩
    · rw [hledger.resolved_iff] at hresolved
      simpa [e] using hresolved
    · have hne := mt (stuckErrors_eq_nil_iff s false).mp hresolved
      rw [← hledger.stuckErrors_eq s.finish false]
      change s.finish = _
      unfold finish
      split
      · contradiction
      · rfl

/-- A session that neither fails nor uses up its budget ends when nothing is left to
do. -/
theorem turns_of_solve {result : Result} (hsolve : s₀.solve = (s, result)) (hnone : s.failure = none)
    (hcapped : ¬ result.Capped) : Turns s₀ s ∧ s.next? = none ∧ result = s.finish := by
  obtain ⟨s', hturns, ⟨hnext, hrun⟩ | ⟨number, r, rest, hnext, hrun⟩ |
    ⟨number, r, rest, e, hnext, hfailure, hrun⟩⟩ := run_cases (s₀.config.budget s₀.entries.length) s₀
  · rw [solve, hrun, Prod.mk.injEq] at hsolve
    obtain ⟨rfl, rfl⟩ := hsolve
    exact ⟨hturns, hnext, rfl⟩
  · rw [solve, hrun, Prod.mk.injEq] at hsolve
    obtain ⟨-, rfl⟩ := hsolve
    obtain ⟨queue, rfl, hentry, -⟩ := next?_eq_some hnext
    exact absurd (capped_stuckErrors (List.mem_of_getElem? hentry)) hcapped
  · rw [solve, hrun, Prod.mk.injEq] at hsolve
    obtain ⟨rfl, -⟩ := hsolve
    rw [hfailure] at hnone
    cases hnone

/-- A session that neither fails nor uses up its budget ends in exactly one of three
ways: with an error for every relation that never returned true; or else, if not all
classes are bound, with an error that lists the placeholders of those that are not; or
else with a solution. -/
theorem solve_exactly_one (globals : Globals) (config : Config) (setup : List Setup) {s : Session}
    {result : Result} (hsolve : (prepared globals config setup).solve = (s, result))
    (hnone : s.failure = none) (hcapped : ¬ result.Capped) :
    ∃ log, Calls (prepared globals config setup) log s ∧ s.trace = log.map (·.2) ∧
      s.next? = none ∧
      let e : Ending := ⟨setup.filterMap Setup.relation?, log, s, result⟩
      (e.Stuck ∧ ¬ e.Undetermined ∧ ¬ e.Solved) ∨ (¬ e.Stuck ∧ e.Undetermined ∧ ¬ e.Solved) ∨
        (¬ e.Stuck ∧ ¬ e.Undetermined ∧ e.Solved) := by
  have hs₀ := untouched_prepared globals config setup
  obtain ⟨hturns, hnext, rfl⟩ := turns_of_solve hsolve hnone hcapped
  obtain ⟨log, hcalls⟩ := exists_calls hturns
  obtain ⟨bound, hlater⟩ := hturns.later hs₀.valid []
  have htracks := hlater.tracks (Classes.tracks_of_untouched hs₀)
  have hundecided := hlater.undecided (by
    unfold Session.Undecided
    rw [hs₀.deferred]
    exact Ranges.undecided_nil _)
  have hcases := finish_cases (hcalls.ledger hs₀) htracks hundecided
  rw [relations_prepared] at hcases
  have htrace : s.trace = log.map (·.2) := by
    rw [hcalls.trace, hs₀.trace, List.nil_append]
  refine ⟨log, hcalls, htrace, hnext, ?_⟩
  intro e
  have hwaiting : e.Stuck → ¬ ∀ n < e.relations.length, e.log.returned n = true := by
    rintro ⟨⟨n, hn, hfalse⟩, -⟩ hreturned
    rw [hreturned n hn] at hfalse
    cases hfalse
  have hunbound : e.Undetermined → ¬ e.Solved := by
    rintro ⟨-, ⟨i, hi, hfree⟩, -⟩ hsolved
    have hsome := hsolved.bound i hi
    rw [hfree] at hsome
    cases hsome
  obtain hstuck | hundetermined | hsolved := hcases
  · exact Or.inl ⟨hstuck, fun h => hwaiting hstuck h.returned, fun h => hwaiting hstuck h.returned⟩
  · exact Or.inr (Or.inl ⟨fun h => hwaiting h hundetermined.returned, hundetermined,
      hunbound hundetermined⟩)
  · exact Or.inr (Or.inr ⟨fun h => hwaiting h hsolved.returned, fun h => hunbound h hsolved,
      hsolved⟩)

/-- A rule binds its placeholder to a pair of another and one that it makes up, and
nothing determines those. -/
theorem solve_exactly_one_pair :
    let p : Placeholder := ⟨0, .type⟩
    let q : Placeholder := ⟨1, .type⟩
    let r : Placeholder := ⟨7, .type⟩
    let pair : Relation :=
      ⟨⟨"pair", fun _ => .assign (.hole p) (.tuple [.hole r, .hole q]) (.done true)⟩, [.hole p], 0,
        .empty, .dummy, Nat.zero_le 1⟩
    let s₀ := prepared .empty .default [.fresh .type, .fresh .type, .relation pair]
    let result : Result := .error [.unresolved [q, r]]
    s₀.solve.2 = result ∧ s₀.solve.1.failure = none ∧
      ∃ log, Calls s₀ log s₀.solve.1 ∧ Ending.Undetermined ⟨[pair], log, s₀.solve.1, result⟩ := by
  intro p q r pair s₀ result
  have hresult : s₀.solve.2 = result := by cbv
  have hnone : s₀.solve.1.failure = none := by cbv
  have hcapped : ¬ result.Capped := by
    rintro ⟨errors, herrors, rule, args, span, hmem⟩
    rw [← Except.error.inj herrors] at hmem
    cases List.mem_singleton.mp hmem
  have hsolve : s₀.solve = (s₀.solve.1, result) := Prod.ext rfl hresult
  obtain ⟨log, hcalls, -, -, hcases⟩ := solve_exactly_one .empty .default _ hsolve hnone hcapped
  refine ⟨hresult, hnone, log, hcalls, ?_⟩
  obtain ⟨⟨-, hstuck⟩, -⟩ | ⟨-, hundetermined, -⟩ | ⟨-, -, -, -, sol, hsol, -⟩ := hcases
  · have herrors := Except.error.inj hstuck
    obtain ⟨r', -, hr'⟩ := List.mem_map.mp (herrors ▸ List.mem_singleton_self _)
    cases hr'
  · exact hundetermined
  · cases hsol

end Session

end TensorTyping
