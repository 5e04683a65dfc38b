import TensorTyping.Proofs.Rule.Builtin
import TensorTyping.Proofs.Session.History
import TensorTyping.Proofs.Session.Soundness

namespace TensorTyping

open Ty

namespace Session

/-- A choice of types accepts what a relation's rule requests of some query that
comes to the same as the arguments, and the types declared equal there hold certain
dimensions and placeholders only. -/
def Feasible (s₀ : Session) (k : Kind) (S : Dim → Prop) (θ : Grounding) (r : Relation) : Prop :=
  ∃ args : List Ty, List.Forall₂ (fun t u => (t.ground θ).Same (u.ground θ)) args r.args ∧
    (r.rule.resolve ⟨args, r.numInputs, r.attrs, s₀.globals⟩).Accepts s₀.known θ ∧
    ∀ t ∈ (r.rule.resolve ⟨args, r.numInputs, r.attrs, s₀.globals⟩).types,
      (∀ p ∈ t.occurrences, p.kind = k) ∧ ∀ d ∈ (t.ground θ).dims, S d

variable {k : Kind} {S : Dim → Prop} {s₀ s : Session} {log : List Firing} {θ : Grounding}
  {r : Relation} {number : Nat} {rest : Session}

theorem same_args_resolve (hc : s.classes.Valid) (hθ : θ.Satisfies s.classes) (args : List Ty) :
    List.Forall₂ (fun t u => (t.ground θ).Same (u.ground θ)) args (args.map s.resolve) := by
  rw [List.forall₂_map_right_iff]
  exact List.forall₂_same.mpr fun t _ => (Grounding.satisfies_iff_resolve hc).mp hθ t

theorem forall₂_same_trans {ts us vs : List Ty}
    (h : List.Forall₂ (fun t u => (t.ground θ).Same (u.ground θ)) ts us)
    (h' : List.Forall₂ (fun t u => (t.ground θ).Same (u.ground θ)) us vs) :
    List.Forall₂ (fun t u => (t.ground θ).Same (u.ground θ)) ts vs := by
  induction h generalizing vs with
  | nil => exact h'
  | cons htu _ ih =>
    obtain ⟨v, vs, huv, hrest, rfl⟩ := List.forall₂_cons_left_iff.mp h'
    exact .cons (htu.trans huv) (ih hrest)

theorem History.registered_args (h : History k S s₀ s log) {n : Nat} {e : Entry}
    (he : s.entries[n]? = some e) {t : Ty} (ht : t ∈ e.relation.args) {i : UInt32}
    (hi : i ∈ (s.resolve t).ids) : s.classes.Registered i :=
  Classes.registered_of_mem_users (h.watched n e he t ht i hi)

/-- A rule of a feasible relation has nothing to request yet, or the choice accepts its requests. -/
theorem History.idle_or_accepts (h : History k S s₀ s log) (hθ : θ.Satisfies s.classes)
    (hnext : s.next? = some (number, r, rest)) (hstable : r.rule.Stable)
    (hfeasible : s₀.Feasible k S θ r) :
    r.rule.resolve (s.query r) = .done false ∨
      ((r.rule.resolve (s.query r)).Accepts s₀.known θ ∧
        ∀ t ∈ (r.rule.resolve (s.query r)).types, s.classes.Fits k S t) := by
  obtain ⟨args, hargs, haccepts, htypes⟩ := hfeasible
  obtain ⟨queue, hrest, hentry, -⟩ := next?_eq_some hnext
  have hsame : Query.Same θ ⟨args, r.numInputs, r.attrs, s₀.globals⟩ (s.query r) :=
    ⟨forall₂_same_trans hargs (same_args_resolve h.valid hθ r.args), rfl, rfl, h.globals⟩
  obtain ⟨hidle, -⟩ | hmirrors := hstable s₀.known θ _ _ hsame haccepts
  · exact Or.inl hidle
  · refine Or.inr ⟨hmirrors.accepts, fun t ht => ⟨fun p hp => ?_, fun d hd => ?_⟩⟩
    · obtain ⟨a, ha, hpa⟩ | ⟨u, hu, hpu⟩ := hmirrors.occurrences t ht p hp
      · obtain ⟨v, hv, rfl⟩ := List.mem_map.mp ha
        exact Or.inr (h.registered_args hentry hv (mem_ids.mpr ⟨p, hpa, rfl⟩))
      · exact Or.inl ((htypes u hu).1 p hpu)
    · obtain ⟨u, hu, hdu⟩ := hmirrors.dims t ht d hd
      exact (htypes u hu).2 d hdu

/-- A turn on a relation that is feasible does not fail, and the choice still agrees
with what is known. -/
theorem History.turn (h : History k S s₀ s log)
    (hθ : θ.Satisfies s.classes) (hnext : s.next? = some (number, r, rest)) (hstable : r.rule.Stable)
    (hfeasible : s₀.Feasible k S θ r) :
    ∃ log', History k S s₀ (rest.invoke number r) log' ∧
      θ.Satisfies (rest.invoke number r).classes := by
  obtain hidle | ⟨haccepts, hfits⟩ := h.idle_or_accepts hθ hnext hstable hfeasible
  · refine ⟨log, h.idle hnext hidle, ?_⟩
    rw [(h.idle hnext hidle).explains.satisfies]
    exact (h.explains.satisfies θ).mp hθ
  · have hfire := h.fire hnext hfits hθ haccepts
    refine ⟨_, hfire, ?_⟩
    rw [hfire.explains.satisfies, List.forall_mem_append, List.forall_mem_singleton, ← and_assoc]
    refine ⟨(h.explains.satisfies θ).mp hθ, ?_⟩
    rw [query, h.globals] at haccepts
    exact haccepts

end Session

/-- What a report says is exact: by a solution, the types declared equal are the
same to the letter, and all placeholders in them are of one kind. -/
structure Report.Exact (k : Kind) (sol : Solution) (report : Report) : Prop where
  same : ∀ dst src, report = .assigned dst src → (sol.apply dst).Same (sol.apply src)
  kind : ∀ t ∈ report.types, ∀ p ∈ t.occurrences, p.kind = k

namespace Session

/-- All that rules declared equal is exact by a solution. -/
def Exact (s : Session) (k : Kind) (sol : Solution) : Prop :=
  ∀ v ∈ s.trace, ∀ report ∈ v.reports, report.Exact k sol

/-- A relation was resolved without failure when less was known, and the trace has
what it requested. -/
def Ran (s : Session) (r : Relation) : Prop := ∃ s₁ : Session, s₁.classes.Valid ∧
  Grows (s₁.outcome r).state s ∧ s₁.globals = s.globals ∧
  (s₁.outcome r).state.failure = none ∧ (s₁.outcome r).resolved = true ∧
  ∀ report ∈ (s₁.outcome r).reports, ∃ v ∈ s.trace, report ∈ v.reports

variable {k : Kind} {s₀ s s' : Session} {sol : Solution} {r : Relation}

theorem Ran.mono (h : s.Ran r) (hgrows : Grows s s') (hglobals : s'.globals = s.globals)
    (htrace : s.trace ⊆ s'.trace) : s'.Ran r := by
  obtain ⟨s₁, hvalid, hgrows₁, hglobals₁, hnone, hresolved, hreports⟩ := h
  refine ⟨s₁, hvalid, hgrows₁.trans hgrows, hglobals₁.trans hglobals.symm, hnone, hresolved,
    fun report hreport => ?_⟩
  obtain ⟨v, hv, hmem⟩ := hreports report hreport
  exact ⟨v, htrace hv, hmem⟩

theorem ran_of_turns (hs₀ : s₀.Untouched) (hturns : Turns s₀ s) :
    s.globals = s₀.globals ∧ s.entries.map (·.relation) = s₀.entries.map (·.relation) ∧
      ∀ e ∈ s.entries, e.resolved = true → s.Ran e.relation := by
  induction hturns with
  | refl =>
    refine ⟨rfl, rfl, fun e he hresolved => ?_⟩
    rw [hs₀.pending e he] at hresolved
    cases hresolved
  | tail hturns hturn ih =>
    rename_i s s'
    obtain ⟨hglobals, hrelations, hran⟩ := ih
    have hvalid := (Turns.grows hs₀.valid hturns).valid
    have hgrows := hturn.grows hvalid
    obtain ⟨number, r, rest, hnext, rfl, hnone⟩ := hturn
    obtain ⟨queue, rfl, hentry, -⟩ := next?_eq_some hnext
    obtain ⟨hclasses, hknown, hdeferred, hfailure, htrace⟩ :=
      invoke_fields { s with queue } number r
    obtain ⟨-, hglobals', hentries⟩ := invoke_worklist { s with queue } number r
    have hkept : s.trace ⊆ (invoke { s with queue } number r).trace := by
      rw [htrace]
      exact List.subset_append_left _ _
    have hold : ∀ e ∈ s.entries, e.resolved = true →
        (invoke { s with queue } number r).Ran e.relation :=
      fun e he hresolved => (hran e he hresolved).mono hgrows hglobals' hkept
    rw [hentries]
    split
    · rename_i hresolved
      refine ⟨hglobals'.trans hglobals, (map_relation_retired _ _).trans hrelations, fun e he h => ?_⟩
      obtain ⟨n, hn⟩ := List.mem_iff_getElem?.mp he
      obtain ⟨e', he', hrelation, ⟨hnumber, -⟩ | ⟨-, rfl⟩⟩ := getElem?_retired hn
      · rw [hnumber, hentry, Option.some.injEq] at he'
        rw [hrelation, ← he']
        have hgrows' := (outcome_grows (s := { s with queue }) hvalid r).1
        have hinvoke : Grows (outcome { s with queue } r).state (invoke { s with queue } number r) :=
          .of_eq hgrows'.valid hclasses (hknown.trans hgrows'.known.symm) hdeferred
            fun h => hfailure ▸ h
        refine ⟨{ s with queue }, hvalid, hinvoke, hglobals'.symm, hfailure ▸ hnone, hresolved,
          fun report hreport => ?_⟩
        rw [htrace]
        exact ⟨_, List.mem_append_right _ (List.mem_singleton_self _), hreport⟩
      · exact hold e (List.mem_of_getElem? he') h
    · exact ⟨hglobals'.trans hglobals, hrelations, hold⟩

end Session

/-- The choice of the empty tuple for every placeholder. -/
def Grounding.unit : Grounding := ⟨fun _ => .unit, fun _ => rfl⟩

namespace Session

variable {k : Kind} {s₀ s : Session} {sol : Solution} {r : Relation} {θ : Grounding}

end Session

end TensorTyping
