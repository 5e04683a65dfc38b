import TensorTyping.Proofs.Session.Passage

namespace TensorTyping

open Ty

namespace Site

variable {site : Site} {s s' : Progress}

theorem steps_of_step {t u : Ty} {r : Except TypeError Step} (h : site.step s t u = r) :
    site.Steps s t u r :=
  h ▸ .separate t u

/-- An equation that has no error is between two nodes, or its one node says nothing. -/
theorem Steps.ok {t u : Ty} {result : Step} (h : site.Steps s t u (.ok result)) :
    (t = u ∧ result = .solved s) ∨ site.step s t u = .ok result := by
  generalize hr : (Except.ok result : Except TypeError Step) = r at h
  cases h with
  | shared =>
    cases hr
    exact Or.inl ⟨rfl, rfl⟩
  | separate => exact Or.inr rfl

theorem Steps.error {t u : Ty} {e : TypeError} (h : site.Steps s t u (.error e)) :
    site.step s t u = .error e := by
  generalize hr : (Except.error e : Except TypeError Step) = r at h
  cases h with
  | shared => cases hr
  | separate => rfl

theorem solves_nil_iff {r : Except TypeError Progress} : site.Solves s [] r ↔ r = .ok s := by
  constructor
  · rintro ⟨⟩
    rfl
  · rintro rfl
    exact .done s

/-- The first equation is between one node and itself, or between two. -/
theorem solves_cons_iff {t u : Ty} {rest : Equations} {r : Except TypeError Progress} :
    site.Solves s ((t, u) :: rest) r ↔ (t = u ∧ site.Solves s rest r) ∨
      (∃ e, site.step s t u = .error e ∧ r = .error e) ∨
      ∃ result, site.step s t u = .ok result ∧
        site.Solves result.progress (result.remaining rest) r := by
  constructor
  · intro h
    cases h with
    | failed rest h => exact Or.inr (Or.inl ⟨_, h.error, rfl⟩)
    | next h hrest =>
      obtain ⟨rfl, rfl⟩ | hstep := h.ok
      · exact Or.inl ⟨rfl, hrest⟩
      · exact Or.inr (Or.inr ⟨_, hstep, hrest⟩)
  · rintro (⟨rfl, hrest⟩ | ⟨e, hstep, rfl⟩ | ⟨result, hstep, hrest⟩)
    · exact .next (.shared t) hrest
    · exact .failed rest (steps_of_step hstep)
    · exact .next (steps_of_step hstep) hrest

/-- Equations may be solved with every node on its own. -/
theorem solves_solve (site : Site) (s : Progress) (eqs : Equations) :
    site.Solves s eqs (site.solve s eqs) := by
  fun_induction site.solve s eqs with
  | case1 s => exact .done s
  | case2 s t u rest e hstep => exact .failed rest (steps_of_step hstep)
  | case3 s t u rest s' hstep ih | case4 s t u rest s' eqs hstep ih
  | case5 s t u rest s' id image hstep ih => exact .next (steps_of_step hstep) ih

theorem unifies_unify (site : Site) (s : Progress) (t u : Ty) :
    site.Unifies s t u (site.unify s t u) :=
  solves_solve site s _

/-- Whatever is shared, classes stay valid and the equations that are left stay resolved. -/
theorem Steps.valid {t u : Ty} {result : Step} {rest : Equations}
    (h : site.Steps s t u (.ok result)) (hc : s.classes.Valid)
    (heqs : ∀ i ∈ Equations.ids ((t, u) :: rest), s.classes.Settled i) :
    result.progress.classes.Valid ∧
      ∀ i ∈ (result.remaining rest).ids, result.progress.classes.Settled i := by
  obtain ⟨ht, hu, hrest⟩ := resolved_of_cons heqs
  obtain ⟨rfl, rfl⟩ | hstep := h.ok
  · exact ⟨hc, hrest⟩
  · exact ⟨(evolves_of_step hc ht hu hstep).valid, settled_remaining hstep hc heqs⟩

theorem Solves.valid {eqs : Equations} {r : Except TypeError Progress} (h : site.Solves s eqs r)
    (hc : s.classes.Valid) (heqs : ∀ i ∈ eqs.ids, s.classes.Settled i) :
    ∀ s', r = .ok s' → s'.classes.Valid := by
  induction h with
  | done s =>
    rintro _ ⟨⟩
    exact hc
  | failed rest h => exact fun _ heq => nomatch heq
  | next h _ ih =>
    obtain ⟨hvalid, hsettled⟩ := h.valid hc heqs
    exact ih hvalid hsettled

theorem Unifies.valid {t u : Ty} (h : site.Unifies s t u (.ok s')) (hc : s.classes.Valid) :
    s'.classes.Valid :=
  Solves.valid h hc (settled_sides hc t u) s' rfl

end Site

namespace Session

variable {s s' : Session}

theorem Assigns.valid {dst src : Ty} (h : s.Assigns dst src s') (hc : s.classes.Valid) :
    s'.classes.Valid := by
  cases h with
  | ignored => exact hc
  | @unified r _ h =>
    cases r with
    | error e => exact hc
    | ok p =>
      rw [settle, (foldl_wake_fields _ p.woken).1]
      exact h.valid hc

theorem assigns_assign (s : Session) (dst src : Ty) : s.Assigns dst src (s.assign dst src) := by
  obtain ⟨hfailed, heq⟩ | ⟨e, hnone, hunify, heq⟩ | ⟨p, hnone, hunify, heq⟩ :=
    assign_cases s dst src <;> rw [heq]
  · exact .ignored hfailed
  · exact .unified hnone (hunify ▸ Site.unifies_unify ..)
  · exact .unified hnone (hunify ▸ Site.unifies_unify ..)

theorem performs_run (r : Resolution) (s : Session) : Performs r s (r.run reporter s) := by
  induction r generalizing s with
  | done resolved => exact .done resolved s
  | assign dst src next ih => exact .assign (assigns_assign s dst src) (ih _)
  | assert cond next ih => exact .assert (ih _ _)
  | locate span next ih => exact .locate (ih _)

theorem invokes_invoke (s : Session) (number : Nat) (r : Relation) :
    s.Invokes number r (s.invoke number r) :=
  ⟨s.outcome r, performs_run _ _, rfl⟩

theorem runs_run (budget : Nat) (s : Session) : Runs budget s (s.run budget) := by
  induction budget generalizing s with
  | zero =>
    rw [run]
    cases hnext : s.next? with
    | none => exact .finished hnext
    | some next => exact .capped hnext
  | succ budget ih =>
    rw [run]
    cases hnext : s.next? with
    | none => exact .finished hnext
    | some next =>
      obtain ⟨number, r, rest⟩ := next
      have hinvokes := invokes_invoke rest number r
      dsimp only
      cases hfailure : (rest.invoke number r).failure with
      | some e => exact .failed hnext hinvokes hfailure
      | none => exact .continued hnext hinvokes hfailure (ih _)

/-- A session in which every node is on its own is one of those that share nodes. -/
theorem solves_solve (s : Session) : s.Solves s.solve := runs_run _ s

end Session

end TensorTyping
