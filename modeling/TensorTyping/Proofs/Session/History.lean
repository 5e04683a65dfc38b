import TensorTyping.Proofs.Session.Firing
import TensorTyping.Proofs.Session.Setup

namespace TensorTyping

open Ty

/-- A relation that was resolved, with what was known just before. -/
structure Firing where
  relation : Relation
  before : Classes

/-- What the relation's rule was asked. -/
def Firing.query (f : Firing) (globals : Globals) : Query :=
  ⟨f.relation.args.map f.before.resolve, f.relation.numInputs, f.relation.attrs, globals⟩

/-- The requests that were made. -/
def Firing.resolution (f : Firing) (globals : Globals) : Resolution :=
  f.relation.rule.resolve (f.query globals)

namespace Session

/-- Classes are explained by a log of relations: what is known is exactly what those
requested, and nothing else is registered. -/
structure Explains (s₀ : Session) (log : List Firing) (c : Classes) : Prop where
  registered : ∀ i, c.Registered i ↔ s₀.classes.Registered i ∨
    ∃ f ∈ log, ∃ t ∈ (f.resolution s₀.globals).types, i ∈ t.ids
  satisfies : ∀ θ : Grounding, θ.Satisfies c ↔ θ.Satisfies s₀.classes ∧
    ∀ f ∈ log, (f.resolution s₀.globals).Accepts s₀.known θ

/-- A session is explained by a log: so is everything it knew when it ran the logged
relations, and relations that are not resolved and not on the worklist have nothing
to request. -/
structure History (k : Kind) (S : Dim → Prop) (s₀ s : Session) (log : List Firing) : Prop where
  valid : s.classes.Valid
  uniform : s.classes.Uniform k S
  failure : s.failure = none
  lenient : s.config.strictShapes = false
  known : s.known = s₀.known
  globals : s.globals = s₀.globals
  relations : s.entries.map (·.relation) = s₀.entries.map (·.relation)
  fired : ∀ e ∈ s.entries, e.resolved = true → ∃ f ∈ log, f.relation = e.relation
  logged : ∀ f ∈ log, f.relation ∈ s₀.entries.map (·.relation)
  explains : Explains s₀ log s.classes
  before : ∀ l f l', log = l ++ f :: l' → f.before.Valid ∧ Explains s₀ l f.before
  deferred : ∀ c, ¬ s₀.known.Excused S c → (c ∈ s.deferred ↔
    (∃ f ∈ log, c ∈ (f.resolution s₀.globals).conds) ∧ s₀.known.prove c = .unknown)
  nodup : s.deferred.Nodup
  watched : ∀ n e, s.entries[n]? = some e → ∀ t ∈ e.relation.args, s.classes.Watched n t
  waiting : ∀ n r, s.entries[n]? = some ⟨r, false⟩ → n ∉ s.queue →
    r.rule.resolve (s.query r) = .done false

variable {k : Kind} {S : Dim → Prop} {s₀ s s' : Session} {log : List Firing}

theorem History.mem_of_next? (h : History k S s₀ s log) {number : Nat} {r : Relation} {rest : Session}
    (hnext : s.next? = some (number, r, rest)) : r ∈ s₀.entries.map (·.relation) := by
  obtain ⟨-, -, hentry, -⟩ := next?_eq_some hnext
  rw [← h.relations]
  exact List.mem_map_of_mem (List.mem_of_getElem? hentry)

theorem Explains.snoc {c c' : Classes} {f : Firing} (h : Explains s₀ log c)
    (hregistered : ∀ i, c'.Registered i ↔ c.Registered i ∨
      ∃ t ∈ (f.resolution s₀.globals).types, i ∈ t.ids)
    (hsatisfies : ∀ θ : Grounding, θ.Satisfies c' ↔
      θ.Satisfies c ∧ (f.resolution s₀.globals).Accepts s₀.known θ) :
    Explains s₀ (log ++ [f]) c' := by
  refine ⟨fun i => ?_, fun θ => ?_⟩
  · rw [hregistered, h.registered]
    simp only [List.mem_append, List.mem_singleton, or_and_right, exists_or, exists_eq_left, or_assoc]
  · rw [hsatisfies, h.satisfies, List.forall_mem_append, List.forall_mem_singleton, and_assoc]

/-- Taking a relation off the worklist leaves the others that are not resolved on
it, or waiting. -/
theorem History.waiting_rest (h : History k S s₀ s log) {number : Nat} {skipped queue : List Nat}
    (hqueue : s.queue = skipped ++ number :: queue) (hskipped : ∀ n ∈ skipped, s.isPending n = false)
    {n : Nat} {r : Relation} (hn : s.entries[n]? = some ⟨r, false⟩) (hne : n ≠ number)
    (hnot : n ∉ queue) : r.rule.resolve (s.query r) = .done false := by
  have hpending : s.isPending n = true := by simp [isPending, hn]
  refine h.waiting n r hn fun hmem => ?_
  obtain heq | hmem := mem_rest_of_next? hqueue hskipped hpending hmem
  · exact hne heq
  · exact hnot hmem

theorem History.idle (h : History k S s₀ s log) {number : Nat} {r : Relation} {rest : Session}
    (hnext : s.next? = some (number, r, rest)) (hidle : r.rule.resolve (s.query r) = .done false) :
    History k S s₀ (rest.invoke number r) log := by
  obtain ⟨queue, rfl, hentry, skipped, hqueue, hskipped⟩ := next?_eq_some hnext
  have hinvoke : invoke { s with queue } number r = { s with
      queue
      location := r.span
      trace := s.trace ++ [⟨r.rule.name, r.args.map s.resolve, [], false⟩] } := by
    have hquery : query { s with queue } r = s.query r := rfl
    rw [invoke_eq, outcome, hquery, hidle]
    rfl
  rw [hinvoke]
  refine ⟨h.valid, h.uniform, h.failure, h.lenient, h.known, h.globals, h.relations, h.fired, h.logged,
    h.explains, h.before, h.deferred, h.nodup, h.watched, fun n r' hn hnot => ?_⟩
  by_cases hne : n = number
  · have hr : r' = r := by
      rw [hne, hentry, Option.some.injEq, Entry.mk.injEq] at hn
      exact hn.1.symm
    rw [hr]
    exact hidle
  · exact h.waiting_rest hqueue hskipped hn hne hnot

theorem getElem?_retired {entries : List Entry} {number n : Nat} {e : Entry}
    (h : (entries.modify number fun e => { e with resolved := true })[n]? = some e) :
    ∃ e', entries[n]? = some e' ∧ e.relation = e'.relation ∧
      ((n = number ∧ e.resolved = true) ∨ (n ≠ number ∧ e = e')) := by
  rw [List.getElem?_modify] at h
  obtain ⟨e', he', rfl⟩ := Option.map_eq_some_iff.mp h
  refine ⟨e', he', ?_⟩
  by_cases hn : number = n
  · simp [hn]
  · simp [hn, Ne.symm hn]

theorem map_relation_retired (entries : List Entry) (number : Nat) :
    (entries.modify number fun e => { e with resolved := true }).map (·.relation) =
      entries.map (·.relation) := by
  refine List.ext_getElem? fun n => ?_
  rw [List.getElem?_map, List.getElem?_map, List.getElem?_modify]
  cases entries[n]? with
  | none => rfl
  | some e =>
    by_cases hn : number = n
    · simp [hn]
    · simp [hn]

/-- A relation that is accepted by a choice that agrees with what is known is logged. -/
theorem History.fire (h : History k S s₀ s log) {number : Nat}
    {r : Relation} {rest : Session} (hnext : s.next? = some (number, r, rest))
    (hfits : ∀ t ∈ (r.rule.resolve (s.query r)).types, s.classes.Fits k S t) {θ : Grounding}
    (hθ : θ.Satisfies s.classes) (haccepts : (r.rule.resolve (s.query r)).Accepts s₀.known θ) :
    History k S s₀ (rest.invoke number r) (log ++ [⟨r, s.classes⟩]) := by
  have hmem := h.mem_of_next? hnext
  obtain ⟨queue, rfl, hentry, skipped, hqueue, hskipped⟩ := next?_eq_some hnext
  obtain ⟨hclasses, hknown, hdeferred, hfailure, -⟩ := invoke_fields { s with queue } number r
  obtain ⟨hworklist, hglobals, hentries⟩ := invoke_worklist { s with queue } number r
  have hconfig := congrArg (·.strictShapes) (config_invoke { s with queue } number r)
  have hresolution : (Firing.mk r s.classes).resolution s₀.globals = r.rule.resolve (s.query r) := by
    rw [← h.globals]
    rfl
  rw [← h.known] at haccepts
  obtain ⟨hnone, hresolved, hlearns⟩ := run_accepted
    (s := { s with queue, location := r.span }) h.lenient h.valid h.uniform h.failure hfits hθ haccepts
  have hwakes : Wakes { s with queue, location := r.span } (outcome { s with queue } r).state :=
    run_wakes _ h.valid
  have hgrows := (outcome_grows (s := { s with queue }) h.valid r).1
  have hretired : (invoke { s with queue } number r).entries =
      s.entries.modify number fun e => { e with resolved := true } := by
    rw [hentries]
    exact if_pos hresolved
  have hlearns : Learns k S { s with queue, location := r.span } (outcome { s with queue } r).state
      ((Firing.mk r s.classes).resolution s₀.globals) := by
    rw [hresolution]
    exact hlearns
  have hsatisfies : ∀ θ : Grounding, θ.Satisfies (outcome { s with queue } r).state.classes ↔
      θ.Satisfies s.classes ∧
        ((Firing.mk r s.classes).resolution s₀.globals).Accepts s₀.known θ := fun θ => by
    rw [← h.known]
    exact hlearns.satisfies θ
  have hconds : ∀ c, ¬ s₀.known.Excused S c → (c ∈ (outcome { s with queue } r).state.deferred ↔
      c ∈ s.deferred ∨ (c ∈ ((Firing.mk r s.classes).resolution s₀.globals).conds ∧
        s₀.known.prove c = .unknown)) := by
    rw [← h.known]
    exact hlearns.deferred
  refine ⟨hclasses ▸ hgrows.valid, hclasses ▸ hlearns.uniform, hfailure.trans hnone,
    hconfig.trans h.lenient, hknown.trans h.known, hglobals.trans h.globals, ?_,
    fun e he hresolved => ?_, ?_, ?_,
    fun l f l' heq => ?_, fun c hc => ?_, hdeferred ▸ hlearns.nodup h.nodup, fun n e he t ht => ?_,
    fun n r' hn hnot => ?_⟩
  · rw [hretired, map_relation_retired, h.relations]
  · rw [hretired] at he
    obtain ⟨n, hn⟩ := List.mem_iff_getElem?.mp he
    obtain ⟨e', he', hrelation, ⟨rfl, -⟩ | ⟨-, rfl⟩⟩ := getElem?_retired hn
    · rw [hentry, Option.some.injEq] at he'
      rw [hrelation, ← he']
      exact ⟨_, List.mem_append_right _ (List.mem_singleton_self _), rfl⟩
    · obtain ⟨f, hf, heq⟩ := h.fired e (List.mem_of_getElem? he') hresolved
      exact ⟨f, List.mem_append_left _ hf, heq⟩
  · rw [List.forall_mem_append, List.forall_mem_singleton]
    exact ⟨h.logged, hmem⟩
  · rw [hclasses]
    exact h.explains.snoc hlearns.registered hsatisfies
  · obtain rfl | ⟨l'', g, rfl⟩ := List.eq_nil_or_concat l'
    · obtain ⟨rfl, hf⟩ := List.append_inj' heq rfl
      cases hf
      exact ⟨h.valid, h.explains⟩
    · rw [List.concat_eq_append, ← List.cons_append, ← List.append_assoc] at heq
      exact h.before l f l'' (List.append_inj' heq rfl).1
  · rw [hdeferred, hconds c hc, h.deferred c hc, ← or_and_right]
    simp only [List.mem_append, List.mem_singleton, or_and_right, exists_or, exists_eq_left]
  · rw [hretired] at he
    obtain ⟨e', he', hrelation, -⟩ := getElem?_retired he
    rw [hclasses]
    exact hwakes.watched n t (h.watched n e' he' t (hrelation ▸ ht))
  · rw [hretired] at hn
    rw [hworklist] at hnot
    obtain ⟨e', he', -, ⟨-, hresolved⟩ | ⟨hne, rfl⟩⟩ := getElem?_retired hn
    · cases hresolved
    · have hwaiting := h.waiting_rest hqueue hskipped he' hne fun hmem => hnot (hwakes.queue hmem)
      have hquery : (invoke { s with queue } number r).query r' = s.query r' := by
        rw [query, query, hglobals]
        congr 1
        refine List.map_congr_left fun t ht => ?_
        have hpending : isPending { s with queue, location := r.span } n = true := by
          simp [isPending, he']
        obtain heq | hmem := hwakes.wakes n t hpending (h.watched n _ he' t ht)
        · rw [resolve, hclasses]
          exact heq
        · exact absurd hmem hnot
      rw [hquery]
      exact hwaiting

end Session

end TensorTyping
