import TensorTyping.Proofs.Ranges
import TensorTyping.Proofs.Session.Sharing
import TensorTyping.Proofs.Session.Unifier

namespace TensorTyping

open Ty

/-- A literal that is not negative. -/
def Dim.IsSize (d : Dim) : Prop := ∃ n : Word, 0 ≤ n.toInt ∧ d = .const n

/-- Literals that are not negative are always told apart. -/
theorem decides_sizes (known : Ranges) : known.Decides Dim.IsSize := by
  rintro d e ⟨m, hm, rfl⟩ ⟨n, hn, rfl⟩
  refine ⟨by simp, ?_⟩
  rw [Ranges.compare_const hm hn]
  simp [Comparison.holds, Int64.toInt_inj]

namespace Session

/-- The states of sessions: between actions and requests, and between the steps of
a unification, whatever nodes are shared. -/
inductive Reachable : Session → Prop where
  | start (globals : Globals) (config : Config) : Reachable (start globals config)
  | setup {s : Session} (a : Setup) : Reachable s → Reachable (a.apply s)
  | next {s s' : Session} {number : Nat} {r : Relation} :
    Reachable s → s.next? = some (number, r, s') → Reachable s'
  | assigns {s s' : Session} {dst src : Ty} : Reachable s → s.Assigns dst src s' → Reachable s'
  | equation {s : Session} {t u : Ty} {result : Site.Step} : Reachable s →
    s.classes.Resolved t → s.classes.Resolved u →
    s.site.step ⟨s.classes, s.deferred, []⟩ t u = .ok result →
    Reachable { s with
      classes := result.progress.classes
      deferred := result.progress.deferred }
  | assert {s : Session} (cond : Cond) : Reachable s → Reachable (s.assert cond).2
  | locate {s : Session} (span : Span) : Reachable s → Reachable { s with location := span }
  | record {s : Session} (v : Invocation) :
    Reachable s → Reachable { s with trace := s.trace ++ [v] }
  | retire {s : Session} (number : Nat) : Reachable s → Reachable (s.retire number)

variable {s : Session}

theorem valid_apply (h : s.classes.Valid) (a : Setup) : (a.apply s).classes.Valid := by
  cases a with
  | range x r => exact h
  | fresh kind => exact h.ensure _
  | relation r =>
    obtain ⟨classes, nextId, heq, hregisters, -⟩ := add_fields h r
    rw [Setup.apply, heq]
    exact hregisters.valid

theorem Reachable.valid (h : Reachable s) : s.classes.Valid := by
  induction h with
  | start globals config => exact (untouched_start globals config).valid
  | setup a _ ih => exact valid_apply ih a
  | next _ hnext ih =>
    obtain ⟨queue, rfl, -⟩ := next?_eq_some hnext
    exact ih
  | assigns _ hassigns ih => exact hassigns.valid ih
  | @equation s t u result _ ht hu hstep ih =>
    cases result with
    | solved s₁ => exact (Site.solved_of_step ih ht hu hstep).1.valid
    | parts s₁ eqs =>
      obtain ⟨rfl, -⟩ := Site.parts_of_step hstep
      exact ih
    | eliminated s₁ id image =>
      obtain ⟨⟨-, ⟨c, -, heliminates⟩, -⟩, -⟩ := Site.eliminates_of_step ih ht hu hstep
      exact heliminates.valid
  | assert cond _ ih => exact (assert_grows ih cond).valid
  | locate span _ ih => exact ih
  | record v _ ih => exact ih
  | retire number _ ih => exact ih

theorem Reachable.assign (h : Reachable s) (dst src : Ty) : Reachable (s.assign dst src) :=
  h.assigns (assigns_assign s dst src)

theorem Reachable.performs {r : Resolution} {o : Outcome Session} (h : Reachable s)
    (hperforms : Performs r s o) : Reachable o.state := by
  induction hperforms with
  | done resolved s => exact h
  | assign hassigns _ ih => exact ih (h.assigns hassigns)
  | assert _ ih => exact ih (h.assert _)
  | locate _ ih => exact ih (h.locate _)

theorem Reachable.invokes {s' : Session} {number : Nat} {r : Relation} (h : Reachable s)
    (hinvokes : s.Invokes number r s') : Reachable s' := by
  obtain ⟨o, hperforms, rfl⟩ := hinvokes
  have ho := (h.locate r.span).performs hperforms
  unfold log
  dsimp only
  split
  · exact (ho.record _).retire number
  · exact ho.record _

theorem Reachable.runs {budget : Nat} {result : Session × Result} (h : Reachable s)
    (hruns : Runs budget s result) : Reachable result.1 := by
  induction hruns with
  | finished => exact h
  | capped hnext => exact h.next hnext
  | failed hnext hinvokes _ => exact (h.next hnext).invokes hinvokes
  | continued hnext hinvokes _ _ ih => exact ih ((h.next hnext).invokes hinvokes)

/-- A session reaches no other states when it is solved. -/
theorem Reachable.solves {result : Session × Result} (h : Reachable s) (hsolves : s.Solves result) :
    Reachable result.1 :=
  h.runs hsolves

private theorem dims_image (h : ∀ id, ∀ b ∈ s.classes.binding? id, ∀ d ∈ b.dims, d.IsSize)
    (p : Placeholder) : ∀ d ∈ (s.classes.image p).dims, d.IsSize := by
  intro d hd
  cases hb : s.classes.binding? p.id with
  | some b =>
    rw [Classes.image_of_binding? hb] at hd
    exact h p.id b hb d hd
  | none =>
    cases hr : s.classes.class? p.id with
    | none => simp [Classes.image, Classes.image?, hr, dims] at hd
    | some r =>
      obtain ⟨q, himage, -⟩ :=
        Classes.exists_image_eq_hole hr ((Classes.binding?_eq_none hr).mp hb)
      rw [himage] at hd
      cases hd

/-- In every reachable state with placeholders of one kind, and with dimensions
that are literals and not negative, two types unify exactly if some choice of
types for placeholders agrees with the state and makes them the same. What is
known afterwards leaves exactly those choices. -/
theorem unify_most_general (hs : Reachable s) (t u : Ty) (k : Kind)
    (hkind : ∀ p ∈ s.classes.placeholders, p.kind = k)
    (hbound : ∀ id, ∀ b ∈ s.classes.binding? id, ∀ d ∈ b.dims, d.IsSize)
    (ht : (∀ p ∈ t.occurrences, p.kind = k) ∧ ∀ d ∈ t.dims, d.IsSize)
    (hu : (∀ p ∈ u.occurrences, p.kind = k) ∧ ∀ d ∈ u.dims, d.IsSize) :
    ((∃ s', s.site.unify ⟨s.classes, s.deferred, []⟩ t u = .ok s') ↔
      ∃ θ : Grounding, θ.Satisfies s.classes ∧ (t.ground θ).Same (u.ground θ)) ∧
    ∀ s', s.site.unify ⟨s.classes, s.deferred, []⟩ t u = .ok s' → ∀ θ : Grounding,
      θ.Satisfies s'.classes ↔ θ.Satisfies s.classes ∧ (t.ground θ).Same (u.ground θ) := by
  have hvalid := hs.valid
  have huniform : s.classes.Uniform k Dim.IsSize := ⟨hkind, dims_image hbound⟩
  have hfit : ∀ {v : Ty}, ((∀ p ∈ v.occurrences, p.kind = k) ∧ ∀ d ∈ v.dims, d.IsSize) →
      s.classes.Fits k Dim.IsSize v :=
    fun hv => ⟨fun p hp => Or.inl (hv.1 p hp), hv.2⟩
  have htolerates : s.site.Tolerates Dim.IsSize := (decides_sizes s.site.known).tolerates
  obtain ⟨hok, herror⟩ := @Site.unify_exact s.site ⟨s.classes, s.deferred, []⟩ Dim.IsSize k t u
    htolerates hvalid huniform (hfit ht) (hfit hu) (.inl (decides_sizes s.known))
  have hexact : ∀ s', s.site.unify ⟨s.classes, s.deferred, []⟩ t u = .ok s' → ∀ θ : Grounding,
      θ.Satisfies s'.classes ↔ θ.Satisfies s.classes ∧ (t.ground θ).Same (u.ground θ) := by
    intro s' h θ
    have hiff := (hok s' h).satisfies θ
    rwa [List.forall_mem_singleton] at hiff
  refine ⟨⟨?_, ?_⟩, hexact⟩
  · rintro ⟨s', h⟩
    have hsound : s.site.Sound _ s' [(t, u)] := Site.unify_sound hvalid h
    have hvalid' := hsound.valid
    obtain ⟨θ, hθ, -⟩ := Grounding.exists_satisfies hvalid' ⟨fun _ => .tuple [], fun _ => rfl⟩
    exact ⟨θ, (hexact s' h θ).mp hθ⟩
  · rintro ⟨θ, hθ, hsame⟩
    cases h : s.site.unify ⟨s.classes, s.deferred, []⟩ t u with
    | ok s' => exact ⟨s', rfl⟩
    | error e => exact absurd hsame (herror e h θ hθ)

/-- A pair and a pair whose second field is known unify after two placeholders were
made one. -/
theorem unify_most_general_pair :
    let p : Placeholder := ⟨0, .type⟩
    let q : Placeholder := ⟨1, .type⟩
    let vector : Ty := .tensor ⟨[.const 3], .float 32⟩
    let s := ((start .empty .default).fresh .type).2.assign (.hole p) (.hole q)
    let t : Ty := .tuple [.hole p, vector]
    let u : Ty := .tuple [.hole q, .hole p]
    (∃ s', s.site.unify ⟨s.classes, s.deferred, []⟩ t u = .ok s') ∧
      ∃ θ : Grounding, θ.Satisfies s.classes ∧ (t.ground θ).Same (u.ground θ) := by
  intro p q vector s t u
  have hs : Reachable s := ((Reachable.start .empty .default).setup (.fresh .type)).assign _ _
  have hcells : s.classes = ⟨[⟨p, 0, 1, p, none, []⟩, ⟨q, 0, 0, q, none, []⟩]⟩ := by
    subst s
    cbv
  have hbinding : ∀ id, s.classes.binding? id = none := by
    intro id
    cases hr : s.classes.class? id with
    | none => simp [Classes.binding?, hr]
    | some r =>
      obtain ⟨x, -, hr'⟩ := Option.bind_eq_some_iff.mp hr
      have hmem := List.mem_of_find?_eq_some hr'
      rw [hcells] at hmem
      rw [Classes.binding?_eq_none hr]
      simp only [List.mem_cons, List.not_mem_nil, or_false] at hmem
      obtain rfl | rfl := hmem <;> rfl
  have hsolved : (s.site.unify ⟨s.classes, s.deferred, []⟩ t u).toOption.isSome = true := by
    rw [hcells]
    subst s
    cbv
  have hok : ∃ s', s.site.unify ⟨s.classes, s.deferred, []⟩ t u = .ok s' := by
    cases h : s.site.unify ⟨s.classes, s.deferred, []⟩ t u with
    | ok s' => exact ⟨s', rfl⟩
    | error e =>
      rw [h] at hsolved
      cases hsolved
  have hsize : ∀ d ∈ vector.dims, d.IsSize := by
    intro d hd
    rw [List.mem_singleton.mp hd]
    exact ⟨3, by decide, rfl⟩
  refine ⟨hok, (unify_most_general hs t u .type ?_ ?_ ⟨by decide, hsize⟩ ⟨by decide, ?_⟩).1.mp hok⟩
  · rw [hcells]
    decide
  · intro id b hb
    rw [hbinding] at hb
    cases hb
  · intro d hd
    cases hd

end Session

end TensorTyping
