import TensorTyping.Proofs.Rule.Filling
import TensorTyping.Proofs.Session.Checking
import TensorTyping.Proofs.Session.Ending
import TensorTyping.Proofs.Session.Feasible

namespace TensorTyping

open Ty

namespace Site

variable {site : Site} {s s' : Progress} {p : Placeholder} {u : Ty}

/-- A placeholder that is solved for a reference is that very reference from then on. -/
theorem resolve_hole_eq_of_unify (hc : s.classes.Valid) (hp : s.classes.Settled p.id)
    (h : site.unify s (hole p) (ref u) = .ok s') :
    s'.classes.resolve (hole p) = s'.classes.resolve (ref u) := by
  have hsrc : s.classes.resolve (ref u) = ref (s.classes.resolve u) := by
    rw [s.classes.resolve_eq_fill, s.classes.resolve_eq_fill, fill_ref]
  have hdst : s.classes.resolve (hole p) = hole p := by rw [Classes.resolve_hole, hp.image rfl]
  have hstep : site.step s (hole p) (ref (s.classes.resolve u)) =
      site.bindHole s p (ref (s.classes.resolve u)) := rfl
  rw [unify, hdst, hsrc, solve_cons, hstep] at h
  split at h
  · cases h
  · rename_i hbind
    unfold bindHole at hbind
    dsimp only at hbind
    split at hbind <;> cases hbind
  · rename_i hbind
    unfold bindHole at hbind
    dsimp only at hbind
    split at hbind <;> cases hbind
  · rename_i s₁ id image hbind
    obtain ⟨-, -, hfree⟩ := step_eliminated (hstep.trans hbind)
    obtain ⟨⟨-, ⟨c, hregisters, heliminates⟩, -, -⟩, rfl, rfl⟩ :=
      eliminates_of_bindHole hc hp (hsrc ▸ hc.resolved_resolve (ref u)) hbind
    have hs' : s' = s₁ := by
      rw [Equations.eliminate, List.map_nil, solve] at h
      exact (Except.ok.inj h).symm
    rw [hs', heliminates.resolve, heliminates.resolve, hregisters.resolve, hregisters.resolve,
      hdst, hsrc, Classes.eliminate_hole_self, eliminate_eq_self hfree]

/-- Dimensions that were compared without failure are not known to differ. -/
theorem Compatible.mayEqual {known : Ranges} {deferred : List Cond}
    (hundecided : known.Undecided deferred) {d e : Dim} (h : Compatible known deferred d e) :
    known.MayEqual d e := by
  obtain rfl | rfl | rfl | hproven | hdeferred := h
  · exact .refl known d
  · exact Or.inl rfl
  · exact Or.inr (Or.inl rfl)
  · exact Or.inr (Or.inr (by rw [hproven]; nofun))
  · have hunknown : known.compare .eq d e = .unknown := hundecided.unknown _ hdeferred
    exact Or.inr (Or.inr (by rw [hunknown]; nofun))

end Site

namespace Session

variable {s : Session}

theorem resolve_hole_eq_of_conclude (hc : s.classes.Valid) {p : Placeholder}
    (hp : s.classes.Settled p.id) {u : Ty}
    (hnone : ((Resolution.conclude (hole p) (ref u)).run reporter s).state.failure = none) :
    ((Resolution.conclude (hole p) (ref u)).run reporter s).state.resolve (hole p) =
      ((Resolution.conclude (hole p) (ref u)).run reporter s).state.resolve (ref u) := by
  have hrun : ((Resolution.conclude (hole p) (ref u)).run reporter s).state =
      s.assign (hole p) (ref u) := rfl
  rw [hrun] at hnone ⊢
  obtain ⟨hfailed, heq⟩ | ⟨e, hnone', hunify, heq⟩ | ⟨s', hnone', hunify, heq⟩ :=
    assign_cases s (hole p) (ref u)
  · rw [heq] at hnone
    exact absurd hnone hfailed
  · rw [heq, fail, hnone'] at hnone
    cases hnone
  · rw [heq, resolve, resolve, (foldl_wake_fields _ _).1]
    exact Site.resolve_hole_eq_of_unify (s := ⟨s.classes, s.deferred, []⟩) hc hp hunify

end Session

/-- A relation with what a solution found put in. -/
def Relation.solved (sol : Solution) (r : Relation) : Relation :=
  { r with
    args := r.args.map sol.apply
    numInputs_le := by
      rw [List.length_map]
      exact r.numInputs_le }

/-- What is done to a session with a solution put in. Placeholders are not needed any more. -/
def Setup.solved (sol : Solution) : Setup → Option Setup
  | range x r => some (range x r)
  | fresh _ => none
  | relation r => some (relation (r.solved sol))

theorem Setup.mem_relations {setup : List Setup} {r : Relation} :
    r ∈ setup.filterMap Setup.relation? ↔ Setup.relation r ∈ setup := by
  constructor
  · intro hr
    obtain ⟨a, ha, hr⟩ := List.mem_filterMap.mp hr
    cases a with
    | relation => exact Option.some.inj hr ▸ ha
    | range | fresh => cases hr
  · exact fun hr => List.mem_filterMap.mpr ⟨_, hr, rfl⟩

theorem Setup.range?_solved (sol : Solution) (setup : List Setup) :
    (setup.filterMap (Setup.solved sol)).filterMap Setup.range? =
      setup.filterMap Setup.range? := by
  rw [List.filterMap_filterMap]
  exact congrFun (congrArg List.filterMap (funext fun a => by cases a <;> rfl)) setup

theorem Setup.relation?_solved (sol : Solution) (setup : List Setup) :
    (setup.filterMap (Setup.solved sol)).filterMap Setup.relation? =
      (setup.filterMap Setup.relation?).map (Relation.solved sol) := by
  rw [List.filterMap_filterMap, List.map_filterMap]
  exact congrFun (congrArg List.filterMap (funext fun a => by cases a <;> rfl)) setup

namespace Session

variable {s : Session} {sol : Solution} {r : Relation}

/-- A solution is complete on what has registered placeholders only once everything known is put
in. -/
theorem isComplete_apply (hc : s.classes.Valid) (hconclude : s.conclude = .ok sol) {t : Ty}
    (ht : ∀ i ∈ (s.resolve t).ids, s.classes.Registered i) : (sol.apply t).isComplete = true := by
  rw [apply_eq_resolve hconclude, isComplete_iff, List.eq_nil_iff_forall_not_mem]
  intro p hp
  have hid : p.id ∈ (s.resolve t).ids := mem_ids.mpr ⟨p, hp, rfl⟩
  have hcomplete := complete_of_conclude hconclude p (ht p.id hid)
  rw [resolve, Classes.resolve_hole, (hc.resolved_resolve t p.id hid).image rfl] at hcomplete
  cases hcomplete

/-- A relation that was resolved holds with the solution put in. -/
theorem Ran.holds_solved (hran : s.Ran r) (hrule : r.rule ∈ Rule.builtins)
    (hclosed : s.globals.Closed) (hkept : s.AllKept) (hundecided : s.Undecided)
    (hconclude : s.conclude = .ok sol)
    (hcomplete : ∀ t ∈ (r.solved sol).args, t.isComplete = true) : s.Holds (r.solved sol) := by
  obtain ⟨s₁, hvalid, hgrows, hglobals, hnone, hresolved, hreports⟩ := hran
  have hgrows₁ : Grows s₁ s := (outcome_grows hvalid r).1.trans hgrows
  have hquery : (s₁.query r).fill s.classes.image =
      ⟨(r.solved sol).args, r.numInputs, r.attrs, s.globals⟩ := by
    have hargs : ∀ t ∈ r.args, (s₁.resolve t).fill s.classes.image = sol.apply t := fun t _ => by
      rw [apply_eq_resolve hconclude, ← hgrows₁.resolve]
      exact (s.classes.resolve_eq_fill _).symm
    rw [query, Query.fill, hglobals, List.map_map]
    exact congrArg (Query.mk · r.numInputs r.attrs s.globals) (List.map_congr_left hargs)
  have hmeets : (r.rule.resolve ((s₁.query r).fill s.classes.image)).Meets s.known
      (Alike s.known.MayEqual) := by
    have hclosed₁ : (s₁.query r).globals.Closed := by
      rw [query, hglobals]
      exact hclosed
    refine Rule.meets_resolve_fill hrule (Alike.refl (.refl s.known)) hclosed₁ ?_ ?_
    · rw [hgrows₁.known]
      refine meets_of_run (s := { s₁ with location := r.span }) _ hvalid hnone hresolved
        fun dst src hmem => ?_
      obtain ⟨v, hv, hreport⟩ := hreports _ hmem
      have hkept := hkept v hv _ hreport
      rw [← s.classes.resolve_eq_fill, ← s.classes.resolve_eq_fill, ← hgrows₁.known]
      exact hkept.mono fun _ _ => Site.Compatible.mayEqual hundecided
    · intro p u hp hresolve
      have hp : s₁.classes.Settled p.id := by
        obtain ⟨t, -, ht⟩ := List.mem_map.mp hp
        exact Site.settled_of_resolved_hole (ht ▸ hvalid.resolved_resolve t)
      have houtcome : s₁.outcome r =
          (Resolution.conclude (hole p) (ref u)).run reporter { s₁ with location := r.span } := by
        rw [outcome, hresolve]
      rw [houtcome] at hnone hgrows
      have heq := resolve_hole_eq_of_conclude (s := { s₁ with location := r.span }) hvalid hp hnone
      rw [← Classes.resolve_hole, ← s.classes.resolve_eq_fill]
      exact (hgrows.resolve _).symm.trans ((congrArg s.resolve heq).trans (hgrows.resolve _))
  rw [hquery] at hmeets
  refine ⟨hcomplete, hmeets.of_within (Rule.local_of_mem_builtins hrule _ hclosed)
    fun t u halike ht hu => ?_⟩
  have hmentions : ∀ p, ¬ Query.Mentions ⟨(r.solved sol).args, r.numInputs, r.attrs, s.globals⟩ p := by
    rintro p ⟨t, ht, hp⟩
    rw [(isComplete_iff t).mp (hcomplete t ht)] at hp
    cases hp
  exact ⟨(isComplete_iff t).mpr (List.eq_nil_iff_forall_not_mem.mpr fun p hp => hmentions p (ht p hp)),
    (isComplete_iff u).mpr (List.eq_nil_iff_forall_not_mem.mpr fun p hp => hmentions p (hu p hp)),
    halike⟩

private theorem countP_modify_le {α : Type} (P : α → Bool) (f : α → α) (xs : List α) (n : Nat) :
    xs.countP P ≤ (xs.modify n f).countP P + 1 := by
  induction xs generalizing n with
  | nil => exact Nat.zero_le _
  | cons x xs ih =>
    cases n with
    | zero =>
      rw [List.modify_zero_cons, List.countP_cons, List.countP_cons]
      split <;> omega
    | succ n =>
      have htail := ih n
      rw [List.modify_succ_cons, List.countP_cons, List.countP_cons]
      omega

theorem pending_eq_zero_of_finish (h : s.finish = .ok sol) :
    s.entries.countP (!·.resolved) = 0 := by
  unfold finish at h
  split at h
  · rename_i hstuck
    rw [List.countP_eq_zero]
    intro e he
    simp [(stuckErrors_eq_nil_iff s false).mp hstuck e he]
  · cases h

/-- A run resolves at most one relation with every call. -/
theorem pending_le_of_run_ok {budget : Nat} (h : (s.run budget).2 = .ok sol) :
    s.entries.countP (!·.resolved) ≤ budget := by
  induction budget generalizing s with
  | zero =>
    rw [run] at h
    split at h
    · exact (pending_eq_zero_of_finish h).le
    · cases h
  | succ budget ih =>
    rw [run] at h
    split at h
    · exact (pending_eq_zero_of_finish h).le.trans (Nat.zero_le _)
    · rename_i number r rest hnext
      obtain ⟨queue, rfl, -, -⟩ := next?_eq_some hnext
      dsimp only at h
      split at h
      · cases h
      · have hrest := ih h
        obtain ⟨-, -, hentries⟩ := invoke_worklist { s with queue } number r
        rw [hentries] at hrest
        split at hrest
        · exact (countP_modify_le _ _ _ number).trans (Nat.succ_le_succ hrest)
        · exact hrest.trans (Nat.le_succ budget)

/-- A session prepared with a solution put in has no placeholders. -/
theorem classes_prepared_solved (globals : Globals) (config : Config) {setup : List Setup}
    (hcomplete : ∀ r, Setup.relation r ∈ setup → ∀ t ∈ (r.solved sol).args, t.isComplete = true) :
    (prepared globals config (setup.filterMap (Setup.solved sol))).classes = .empty := by
  have hfold : ∀ s : Session, s.classes = .empty →
      ((setup.filterMap (Setup.solved sol)).foldl Setup.apply s).classes = .empty := by
    induction setup with
    | nil => exact fun _ h => h
    | cons a setup ih =>
      intro s hs
      have hrest := ih fun r hr => hcomplete r (List.mem_cons_of_mem _ hr)
      cases a with
      | range x r => exact hrest _ hs
      | fresh kind => exact hrest s hs
      | relation r =>
        refine hrest (s.add (r.solved sol)) ?_
        have hholes : (r.solved sol).args.flatMap Ty.holes = [] := by
          rw [List.flatMap_eq_nil_iff]
          exact fun t ht => (holes_eq_nil_iff t).mpr (hcomplete r List.mem_cons_self t ht)
        unfold add
        rw [hholes]
        exact hs
  exact hfold _ rfl

/-- All relations hold with the solution of a session put in. -/
theorem holds_solved_of_solve {s₀ : Session} (hs₀ : s₀.Untouched) (hclosed : s₀.globals.Closed)
    (hbuiltin : ∀ r ∈ s₀.entries.map (·.relation), r.rule ∈ Rule.builtins)
    (h : s₀.solve.2 = .ok sol) : ∀ r ∈ s₀.entries.map (·.relation), s₀.Holds (r.solved sol) := by
  obtain ⟨hturns, -, hresolved, hconclude⟩ := turns_of_solve_ok h
  obtain ⟨hglobals, hrelations, hran⟩ := ran_of_turns hs₀ hturns
  have hgrows := Turns.grows hs₀.valid hturns
  have hkept : s₀.solve.1.AllKept := by
    refine Turns.allKept hs₀.valid hturns fun v hv => ?_
    rw [hs₀.trace] at hv
    cases hv
  obtain ⟨log, hcalls⟩ := exists_calls hturns
  have hledger := hcalls.ledger hs₀
  intro r hr
  rw [← hrelations] at hr
  obtain ⟨e, he, rfl⟩ := List.mem_map.mp hr
  have hcomplete : ∀ t ∈ (e.relation.solved sol).args, t.isComplete = true := by
    intro u hu
    obtain ⟨t, ht, rfl⟩ := List.mem_map.mp hu
    obtain ⟨n, hn⟩ := List.mem_iff_getElem?.mp he
    exact isComplete_apply hgrows.valid hconclude fun i hi =>
      Classes.registered_of_mem_users (hledger.watched n e hn t ht i hi)
  have hholds := (hran e he (hresolved e he)).holds_solved (hbuiltin _ (hrelations ▸ hr))
    (hglobals ▸ hclosed) hkept (undecided_of_turns hs₀ hturns) hconclude hcomplete
  exact ⟨hholds.complete, by rw [← hglobals, ← hgrows.known]; exact hholds.meets⟩

/-- A budget that is enough to resolve all relations is enough to call each of them once. -/
theorem length_le_budget_of_solve (hs : s.Untouched) (h : s.solve.2 = .ok sol) :
    s.entries.length ≤ s.config.budget s.entries.length := by
  have hle := pending_le_of_run_ok h
  rwa [List.countP_eq_length.mpr fun e he => by rw [hs.pending e he]; rfl] at hle

/-- A solution solves what it is a solution of: with the types found put in, all relations are
resolved by one call each, in order, and nothing is left to find. -/
theorem solve_solved (globals : Globals) (config : Config) (setup : List Setup) (sol : Solution)
    (hclosed : globals.Closed) (hlenient : config.strictShapes = false)
    (hbuiltin : ∀ r, Setup.relation r ∈ setup → r.rule ∈ Rule.builtins)
    (h : (prepared globals config setup).solve.2 = .ok sol) :
    let again := (prepared globals config (setup.filterMap (Setup.solved sol))).solve
    (∃ sol', again.2 = .ok sol' ∧ sol'.bindings = []) ∧
      again.1.trace.map (fun v => (v.rule, v.args, v.resolved)) =
        (setup.filterMap Setup.relation?).map fun r =>
          (r.rule.name, r.args.map sol.apply, true) := by
  have hs := untouched_prepared globals config setup
  obtain ⟨hglobals, hconfig, hknown⟩ := provides_prepared globals config setup
  have hrelations := relations_prepared globals config setup
  have hagain := untouched_prepared globals config (setup.filterMap (Setup.solved sol))
  obtain ⟨hglobals', hconfig', hknown'⟩ :=
    provides_prepared globals config (setup.filterMap (Setup.solved sol))
  have hrelations' := relations_prepared globals config (setup.filterMap (Setup.solved sol))
  rw [Setup.relation?_solved] at hrelations'
  rw [Setup.range?_solved] at hknown'
  have hholds : ∀ r, Setup.relation r ∈ setup →
      (prepared globals config setup).Holds (r.solved sol) := by
    intro r hr
    refine holds_solved_of_solve hs (by rwa [hglobals]) (fun r hr => ?_) h r ?_
    · rw [hrelations] at hr
      exact hbuiltin r (Setup.mem_relations.mp hr)
    · rw [hrelations]
      exact Setup.mem_relations.mpr hr
  have hcomplete : ∀ r, Setup.relation r ∈ setup → ∀ t ∈ (r.solved sol).args,
      t.isComplete = true := fun r hr => (hholds r hr).complete
  have hlength : (prepared globals config (setup.filterMap (Setup.solved sol))).entries.length =
      (prepared globals config setup).entries.length := by
    have hlength := congrArg List.length hrelations'
    rwa [List.length_map, List.length_map, ← hrelations, List.length_map] at hlength
  have hbudget := length_le_budget_of_solve hs h
  rw [hconfig, ← hconfig', ← hlength] at hbudget
  have hlenient' :
      (prepared globals config (setup.filterMap (Setup.solved sol))).config.strictShapes = false := by
    rw [hconfig', Config.raised]
    split <;> exact hlenient
  have hholds' : ∀ r ∈ (prepared globals config
      (setup.filterMap (Setup.solved sol))).entries.map (·.relation),
      (prepared globals config (setup.filterMap (Setup.solved sol))).Holds r := by
    intro r' hr'
    rw [hrelations'] at hr'
    obtain ⟨r, hr, rfl⟩ := List.mem_map.mp hr'
    have hr := hholds r (Setup.mem_relations.mp hr)
    exact ⟨hr.complete, by rw [hglobals', hknown', ← hglobals, ← hknown]; exact hr.meets⟩
  obtain ⟨hok, hcalls⟩ := solve_holds hagain (classes_prepared_solved globals config hcomplete)
    hlenient' hholds' hbudget
  refine ⟨hok, ?_⟩
  rw [← calls, hcalls, hrelations', List.map_map]
  rfl

/-- A reference is inferred from one thing read and compared with another. Once its type is put in,
it is taken apart both times. -/
theorem solve_solved_read :
    let read (n : SizeVar) : Relation := ⟨Rule.refRead,
      [.hole ⟨0, .type⟩, .tensor ⟨[.var n], .float 32⟩], 1, .empty, .dummy, Nat.le_succ 1⟩
    let setup : List Setup := [.relation (read ⟨0, "n"⟩), .relation (read ⟨1, "m"⟩)]
    let sol : Solution := ⟨[(0, .ref (.tensor ⟨[.var ⟨0, "n"⟩], .float 32⟩))],
      [.eq (.var ⟨1, "m"⟩) (.var ⟨0, "n"⟩)]⟩
    let again := (prepared .empty .default (setup.filterMap (Setup.solved sol))).solve
    (prepared .empty .default setup).solve.2 = .ok sol ∧
      (∃ sol', again.2 = .ok sol' ∧ sol'.bindings = []) ∧
      again.1.trace.map (fun v => (v.rule, v.args, v.resolved)) =
        (setup.filterMap Setup.relation?).map fun r =>
          (r.rule.name, r.args.map sol.apply, true) := by
  intro read setup sol
  have hbuiltin : ∀ r, Setup.relation r ∈ setup → r.rule ∈ Rule.builtins := by
    intro r hr
    have hr : r = read ⟨0, "n"⟩ ∨ r = read ⟨1, "m"⟩ := by simpa [setup] using hr
    obtain rfl | rfl := hr <;> simp [read, Rule.builtins]
  have hlenient : Config.default.strictShapes = false := rfl
  have hsolve : (prepared .empty .default setup).solve.2 = .ok sol := by cbv
  exact ⟨hsolve, solve_solved .empty .default setup sol Globals.closed_empty hlenient hbuiltin hsolve⟩

end Session

end TensorTyping
