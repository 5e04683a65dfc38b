import TensorTyping.Proofs.Rule.Requests
import TensorTyping.Proofs.Session.Decided

namespace TensorTyping

open Ty

namespace Classes

variable {c c' : Classes} {S : Finset UInt32} {id : UInt32} {t : Ty}

/-- All that is known concerns some placeholders, and in place of those stand no others. -/
structure Confined (c : Classes) (S : Finset UInt32) : Prop where
  settled : ∀ i ∉ S, c.Settled i
  image : ∀ p : Placeholder, p.id ∈ S → ∀ i ∈ (c.image p).ids, i ∈ S

theorem confined_of_settled (h : ∀ i, c.Settled i) : c.Confined S := by
  refine ⟨fun i _ => h i, fun p hp i hi => ?_⟩
  rw [(h p.id).image rfl, ids_hole, List.mem_singleton] at hi
  rwa [hi]

theorem Confined.decided_subset (h : c.Confined S) : c.decided ⊆ S := fun i hi => by
  by_contra hS
  exact mem_decided.mp hi (h.settled i hS)

theorem Confined.resolve (h : c.Confined S) (ht : ∀ i ∈ t.ids, i ∈ S) :
    ∀ i ∈ (c.resolve t).ids, i ∈ S := by
  intro i hi
  rw [resolve_eq_fill] at hi
  obtain ⟨p, hp, rfl⟩ := mem_ids.mp hi
  obtain ⟨q, hq, hp⟩ := mem_occurrences_fill.mp hp
  exact h.image q (ht q.id (mem_ids.mpr ⟨q, hq, rfl⟩)) p.id (mem_ids.mpr ⟨p, hp, rfl⟩)

theorem Confined.registers {new : List UInt32} (h : c.Confined S) (hc : Registers c c' new) :
    c'.Confined S := by
  refine ⟨fun i hi => (hc.settled i).mpr (h.settled i hi), fun p hp => ?_⟩
  rw [Classes.image, hc.image?]
  exact h.image p hp

theorem Confined.eliminates (h : c.Confined S) (hc : Eliminates c c' id t) (hid : id ∈ S)
    (ht : ∀ i ∈ t.ids, i ∈ S) : c'.Confined S := by
  refine ⟨fun i hi => hc.settled i (h.settled i hi) fun heq => hi (heq ▸ hid), fun p hp i hi => ?_⟩
  rw [← resolve_hole, hc.resolve, resolve_hole] at hi
  obtain hi | ⟨hi, -⟩ := Ty.mem_ids_eliminate hi
  · exact ht i hi
  · exact h.image p hp i hi

end Classes

namespace Site

variable {site : Site} {s s' : Progress} {S : Finset UInt32} {t u : Ty}

theorem confined_of_step {result : Step} (h : s.classes.Confined S) (hc : s.classes.Valid)
    (ht : s.classes.Resolved t) (hu : s.classes.Resolved u)
    (hS : ∀ i, i ∈ t.ids ∨ i ∈ u.ids → i ∈ S) (hstep : site.step s t u = .ok result) :
    result.progress.classes.Confined S := by
  cases result with
  | solved s' => exact h.registers (solved_of_step hc ht hu hstep).1
  | parts s' eqs =>
    obtain ⟨rfl, -⟩ := parts_of_step hstep
    exact h
  | eliminated s' id image =>
    obtain ⟨⟨-, ⟨c, hregisters, heliminates⟩, -⟩, -⟩ := eliminates_of_step hc ht hu hstep
    obtain ⟨hid, himage, -⟩ := step_eliminated hstep
    exact (h.registers hregisters).eliminates heliminates (hS id hid) fun i hi => hS i (himage i hi)

/-- No placeholders are made up. -/
theorem ids_remaining {result : Step} {rest : Equations}
    (hS : ∀ i ∈ Equations.ids ((t, u) :: rest), i ∈ S) (hstep : site.step s t u = .ok result) :
    ∀ i ∈ (result.remaining rest).ids, i ∈ S := by
  obtain ⟨ht, hu, hrest⟩ := forall_mem_ids_cons.mp hS
  cases result with
  | solved s' => exact hrest
  | parts s' eqs =>
    intro i hi
    obtain hi | hi := mem_ids_append.mp hi
    · exact ((step_parts hstep).1 i hi).elim (ht i) (hu i)
    · exact hrest i hi
  | eliminated s' id image =>
    intro i hi
    obtain hi | ⟨hi, -⟩ := Equations.mem_ids_eliminate hi
    · exact ((step_eliminated hstep).2.1 i hi).elim (ht i) (hu i)
    · exact hrest i hi

theorem confined_of_solve {eqs : Equations} (h : s.classes.Confined S) (hc : s.classes.Valid)
    (heqs : ∀ i ∈ eqs.ids, s.classes.Settled i) (hS : ∀ i ∈ eqs.ids, i ∈ S)
    (hsolve : site.solve s eqs = .ok s') : s'.classes.Confined S := by
  fun_induction site.solve s eqs with
  | case1 s =>
    cases hsolve
    exact h
  | case2 s t u rest e hstep => cases hsolve
  | case3 s t u rest s₁ hstep ih | case4 s t u rest s₁ eqs hstep ih
  | case5 s t u rest s₁ id image hstep ih =>
    obtain ⟨ht, hu, -⟩ := resolved_of_cons heqs
    obtain ⟨htS, huS, -⟩ := forall_mem_ids_cons.mp hS
    have hconfined := confined_of_step h hc ht hu (fun i hi => hi.elim (htS i) (huS i)) hstep
    exact ih hconfined (evolves_of_step hc ht hu hstep).valid (settled_remaining hstep hc heqs)
      (ids_remaining hS hstep) hsolve

end Site

namespace Session

variable {s₀ s : Session} {S : Finset UInt32}

theorem assign_confined (h : s.classes.Confined S) (hc : s.classes.Valid) {dst src : Ty}
    (hdst : ∀ i ∈ dst.ids, i ∈ S) (hsrc : ∀ i ∈ src.ids, i ∈ S) :
    (s.assign dst src).classes.Confined S := by
  obtain ⟨-, heq⟩ | ⟨e, -, -, heq⟩ | ⟨p, -, hunify, heq⟩ := assign_cases s dst src <;> rw [heq]
  · exact h
  · exact h
  · rw [(foldl_wake_fields { s with classes := p.classes, deferred := p.deferred } p.woken).1]
    refine Site.confined_of_solve h hc (Site.settled_sides hc dst src) ?_ hunify
    exact Site.forall_mem_ids_cons.mpr ⟨h.resolve hdst, h.resolve hsrc, fun i hi => nomatch hi⟩

theorem run_confined {r : Resolution} (hr : r.Within fun p => p.id ∈ S) (h : s.classes.Confined S)
    (hc : s.classes.Valid) : (r.run reporter s).state.classes.Confined S := by
  induction r generalizing s with
  | done resolved => exact h
  | assign dst src next ih =>
    obtain ⟨hdst, hsrc, hnext⟩ := hr
    exact ih hnext (assign_confined h hc (forall_mem_ids.mpr hdst) (forall_mem_ids.mpr hsrc))
      (assign_grows hc dst src).valid
  | assert cond next ih =>
    obtain ⟨deferred, failure, heq⟩ := exists_assert_eq s cond
    have hassert : (s.assert cond).2.classes.Confined S := by
      rw [heq]
      exact h
    exact ih _ (hr _) hassert (assert_grows hc cond).valid
  | locate span next ih => exact ih (s := { s with location := span }) hr h hc

/-- Built-in rules over relations and signatures with some placeholders. -/
structure Draws (s : Session) (S : Finset UInt32) : Prop where
  rule : ∀ e ∈ s.entries, e.relation.rule ∈ Rule.builtins
  args : ∀ e ∈ s.entries, ∀ t ∈ e.relation.args, ∀ i ∈ t.ids, i ∈ S
  globals : ∀ p, s.globals.Mentions p → p.id ∈ S

theorem invoke_confined (h : s.classes.Confined S) (hc : s.classes.Valid) {r : Relation}
    (hrule : r.rule ∈ Rule.builtins) (hargs : ∀ t ∈ r.args, ∀ i ∈ t.ids, i ∈ S)
    (hglobals : ∀ p, s.globals.Mentions p → p.id ∈ S) (number : Nat) :
    (s.invoke number r).classes.Confined S := by
  rw [(invoke_fields s number r).1]
  refine run_confined ((Rule.within_of_mem_builtins hrule (s.query r)).mono fun p hp => ?_) h hc
  obtain ⟨u, hu, hp⟩ | hp := hp
  · obtain ⟨t, ht, rfl⟩ := List.mem_map.mp hu
    exact h.resolve (hargs t ht) p.id (mem_ids.mpr ⟨p, hp, rfl⟩)
  · exact hglobals p hp

/-- Built-in rules find out nothing about placeholders that neither the relations nor the
signatures mention. -/
theorem Calls.confined {log : CallLog} (hs₀ : s₀.Untouched) (hdraws : s₀.Draws S)
    (h : Calls s₀ log s) : s.globals = s₀.globals ∧ s.classes.Confined S := by
  induction h with
  | start => exact ⟨rfl, Classes.confined_of_settled hs₀.settled⟩
  | @call log s rest number r hcalls hnext _ ih =>
    obtain ⟨hglobals, hconfined⟩ := ih
    have hledger := hcalls.ledger hs₀
    obtain ⟨queue, rfl, hentry, -⟩ := next?_eq_some hnext
    rw [hledger.entries] at hentry
    obtain ⟨e, he, heq⟩ := Option.map_eq_some_iff.mp hentry
    obtain ⟨rfl, -⟩ := Entry.mk.inj heq
    have hmem := List.mem_of_getElem? he
    refine ⟨(invoke_worklist { s with queue } number _).2.1.trans hglobals, ?_⟩
    exact invoke_confined (s := { s with queue }) hconfined hledger.valid (hdraws.rule e hmem)
      (hdraws.args e hmem) (fun p hp => hdraws.globals p (hglobals ▸ hp)) number

end Session

end TensorTyping
