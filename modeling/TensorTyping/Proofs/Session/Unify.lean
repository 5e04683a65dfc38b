import TensorTyping.Proofs.Session.Step

namespace TensorTyping

open Ty

/-- A relation is a user of all placeholders that are left in a type. -/
def Classes.Watched (c : Classes) (number : Nat) (t : Ty) : Prop :=
  ∀ i ∈ (c.resolve t).ids, number ∈ c.users i

namespace Site

variable {site : Site} {s s' : Progress}

/-- Whoever watches a type still does, and is woken if more is known of it. -/
structure Wakes (s s' : Progress) : Prop where
  woken : s.woken ⊆ s'.woken
  watched : ∀ n t, s.classes.Watched n t → s'.classes.Watched n t
  wakes : ∀ n t, s.classes.Watched n t →
    s'.classes.resolve t = s.classes.resolve t ∨ n ∈ s'.woken

theorem Wakes.trans {s'' : Progress} (h : Wakes s s') (h' : Wakes s' s'') : Wakes s s'' := by
  refine ⟨fun _ hn => h'.woken (h.woken hn), fun n t hw => h'.watched n t (h.watched n t hw),
    fun n t hw => ?_⟩
  obtain heq | hn := h.wakes n t hw
  · rw [← heq]
    exact h'.wakes n t (h.watched n t hw)
  · exact Or.inr (h'.woken hn)

theorem wakes_of_registers {ids : List UInt32} (h : s.classes.Registers s'.classes ids)
    (hwoken : s'.woken = s.woken) : Wakes s s' := by
  refine ⟨fun _ hn => hwoken ▸ hn, fun n t hw i hi => ?_, fun n t _ => Or.inl (h.resolve t)⟩
  rw [h.resolve] at hi
  exact h.users i (hw i hi)

theorem Eliminates.wakes {ids : List UInt32} {id : UInt32} {image : Ty}
    (h : Eliminates s s' ids id image) : Wakes s s' := by
  obtain ⟨c, hregisters, heliminates⟩ := h.classes
  have hresolve : ∀ t, s'.classes.resolve t = (s.classes.resolve t).eliminate id image := fun t => by
    rw [heliminates.resolve, hregisters.resolve]
  have husers : ∀ {n i}, n ∈ s.classes.users i → n ∈ s'.classes.users i := fun hn =>
    heliminates.users _ (hregisters.users _ hn)
  refine ⟨h.woken, fun n t hw i hi => ?_, fun n t hw => ?_⟩
  · rw [hresolve] at hi
    by_cases hid : id ∈ (s.classes.resolve t).ids
    · obtain hi | ⟨hi, -⟩ := mem_ids_eliminate hi
      · exact (h.users n (hw id hid)).2 i hi
      · exact husers (hw i hi)
    · rw [eliminate_eq_self hid] at hi
      exact husers (hw i hi)
  · by_cases hid : id ∈ (s.classes.resolve t).ids
    · exact Or.inr (h.users n (hw id hid)).1
    · rw [hresolve, eliminate_eq_self hid]
      exact Or.inl rfl

theorem compatible_refl (known : Ranges) (deferred : List Cond) (d : Dim) :
    Compatible known deferred d d := Or.inl rfl

/-- Both sides of an equation that was solved for a placeholder are alike from
then on. -/
theorem alike_eliminate {t u v image : Ty} {p : Placeholder} (hfree : p.id ∉ image.ids)
    (hsides : t = hole p ∧ u = v ∨ t = v ∧ u = hole p)
    (hv : v = image ∨ ∃ q r, v = hole q ∧ image = hole r ∧ q.id = r.id)
    {D : Dim → Dim → Prop} (hD : ∀ d, D d d) :
    (t.eliminate p.id image).Alike D (u.eliminate p.id image) := by
  have hself : (hole p).eliminate p.id image = image := Classes.eliminate_hole_self image
  obtain rfl | ⟨q, r, rfl, rfl, hqr⟩ := hv
  · have hv : v.eliminate p.id v = v := eliminate_eq_self hfree v
    obtain ⟨rfl, rfl⟩ | ⟨rfl, rfl⟩ := hsides
    · rw [hself, hv]
      exact Alike.refl hD u
    · rw [hself, hv]
      exact Alike.refl hD t
  · have hne : q.id ≠ p.id := by
      rw [ids_hole, List.mem_singleton, ← hqr] at hfree
      exact Ne.symm hfree
    have hq : (hole q).eliminate p.id (hole r) = hole q := Classes.eliminate_hole_of_ne hne _
    obtain ⟨rfl, rfl⟩ | ⟨rfl, rfl⟩ := hsides
    · rw [hself, hq]
      exact alike_hole.mpr hqr.symm
    · rw [hself, hq]
      exact alike_hole.mpr hqr

/-- What solving equations achieves: the classes know all that they knew, and
what they know makes both sides of every equation alike, up to the conditions put
off. Whoever waits for what has become known is woken. -/
structure Sound (site : Site) (s s' : Progress) (eqs : Equations) : Prop where
  valid : s'.classes.Valid
  registered : ∀ i, s'.classes.Registered i ↔ s.classes.Registered i ∨ i ∈ eqs.ids
  deferred : s.deferred ⊆ s'.deferred
  resolve : ∀ t, s'.classes.resolve (s.classes.resolve t) = s'.classes.resolve t
  alike : ∀ e ∈ eqs, (s'.classes.resolve e.1).Alike (Compatible site.known s'.deferred)
    (s'.classes.resolve e.2)
  wakes : Wakes s s'

theorem mem_ids_cons {t u : Ty} {rest : Equations} {i : UInt32} :
    i ∈ Equations.ids ((t, u) :: rest) ↔ i ∈ t.ids ++ u.ids ∨ i ∈ rest.ids := by
  simp only [Equations.ids, List.flatMap_cons, List.mem_append]

theorem forall_mem_ids_cons {P : UInt32 → Prop} {t u : Ty} {rest : Equations} :
    (∀ i ∈ Equations.ids ((t, u) :: rest), P i) ↔
      (∀ i ∈ t.ids, P i) ∧ (∀ i ∈ u.ids, P i) ∧ ∀ i ∈ rest.ids, P i := by
  simp only [mem_ids_cons, List.mem_append, or_imp, forall_and, and_assoc]

/-- Both sides of the first of some resolved equations are resolved, and so are the
others. -/
theorem resolved_of_cons {c : Classes} {t u : Ty} {rest : Equations}
    (h : ∀ i ∈ Equations.ids ((t, u) :: rest), c.Settled i) :
    c.Resolved t ∧ c.Resolved u ∧ ∀ i ∈ rest.ids, c.Settled i :=
  forall_mem_ids_cons.mp h

theorem mem_ids_append {eqs rest : Equations} {i : UInt32} :
    i ∈ Equations.ids (eqs ++ rest) ↔ i ∈ eqs.ids ∨ i ∈ rest.ids := by
  simp only [Equations.ids, List.flatMap_append, List.mem_append]

theorem mem_ids_eliminate_of_ne {t image : Ty} {id i : UInt32} (hi : i ∈ t.ids) (hne : i ≠ id) :
    i ∈ (t.eliminate id image).ids := by
  obtain ⟨p, hp, rfl⟩ := mem_ids.mp hi
  rw [eliminate_eq_fill]
  exact mem_ids.mpr ⟨p, mem_occurrences_fill.mpr ⟨p, hp, by simp [hne, occurrences]⟩, rfl⟩

/-- Placeholders that are lost when equations are solved for one are those of the
equation that was solved. -/
private theorem mem_ids_eliminate_iff {t u image : Ty} {id : UInt32} {rest : Equations}
    (hid : id ∈ t.ids ∨ id ∈ u.ids) (himage : ∀ i ∈ image.ids, i ∈ t.ids ∨ i ∈ u.ids) (i : UInt32) :
    i ∈ t.ids ++ u.ids ∨ i ∈ (rest.eliminate id image).ids ↔
      i ∈ t.ids ++ u.ids ∨ i ∈ rest.ids := by
  rw [List.mem_append]
  constructor
  · rintro (hi | hi)
    · exact Or.inl hi
    · obtain hi | ⟨hi, -⟩ := Equations.mem_ids_eliminate hi
      · exact Or.inl (himage i hi)
      · exact Or.inr hi
  · rintro (hi | hi)
    · exact Or.inl hi
    · by_cases hne : i = id
      · exact Or.inl (hne ▸ hid)
      · refine Or.inr ?_
        simp only [Equations.ids, Equations.eliminate, List.flatMap_map, List.mem_flatMap,
          List.mem_append] at hi ⊢
        obtain ⟨e, he, hi⟩ := hi
        exact ⟨e, he, hi.imp (mem_ids_eliminate_of_ne · hne) (mem_ids_eliminate_of_ne · hne)⟩

/-- Placeholders of one id are alike once everything known is put in. -/
theorem alike_resolve {c : Classes} {D E : Dim → Dim → Prop} {t u : Ty} (h : t.Alike D u)
    (hDE : ∀ d e, D d e → E d e) (hE : ∀ d, E d d) : (c.resolve t).Alike E (c.resolve u) := by
  rw [Classes.resolve_eq_fill, Classes.resolve_eq_fill]
  refine (h.mono hDE).fill fun p _ q hpq => ?_
  rw [Classes.image, Classes.image, Classes.image?_congr hpq]
  cases c.image? q with
  | none => exact alike_hole.mpr hpq
  | some t => exact Alike.refl hE t

/-- The equations that are left after a placeholder was solved for are resolved. -/
theorem settled_of_step_eliminated {t u image : Ty} {id : UInt32} {rest : Equations}
    (hc : s.classes.Valid) (heqs : ∀ i ∈ Equations.ids ((t, u) :: rest), s.classes.Settled i)
    (h : site.step s t u = .ok (.eliminated s' id image)) :
    ∀ i ∈ (Equations.eliminate id image rest).ids, s'.classes.Settled i := by
  obtain ⟨ht, hu, hrest⟩ := resolved_of_cons heqs
  obtain ⟨⟨-, ⟨c, hregisters, heliminates⟩, -⟩, -⟩ := eliminates_of_step hc ht hu h
  obtain ⟨-, himage, hfree⟩ := step_eliminated h
  intro i hi
  obtain hi | ⟨hi, hne⟩ := Equations.mem_ids_eliminate hi
  · refine heliminates.settled i ((hregisters.settled i).mpr ?_) fun heq => hfree (heq ▸ hi)
    exact (himage i hi).elim (ht i) (hu i)
  · exact heliminates.settled i
      ((hregisters.settled i).mpr (hrest i hi)) hne

theorem solve_sound {eqs : Equations} (hc : s.classes.Valid)
    (heqs : ∀ i ∈ eqs.ids, s.classes.Settled i) (h : site.solve s eqs = .ok s') :
    site.Sound s s' eqs := by
  fun_induction site.solve s eqs with
  | case1 s =>
    cases h
    exact ⟨hc, fun i => by simp [Equations.ids], fun _ hd => hd, hc.resolve_resolve,
      fun _ he => absurd he List.not_mem_nil,
      wakes_of_registers (.refl hc fun i (hi : i ∈ []) => absurd hi List.not_mem_nil) rfl⟩
  | case2 s t u rest e hstep => cases h
  | case3 s t u rest s₁ hstep ih =>
    obtain ⟨ht, hu, hsettled⟩ := resolved_of_cons heqs
    obtain ⟨hregisters, hwoken, -⟩ := solved_of_step hc ht hu hstep
    obtain ⟨hdeferred, halike⟩ := alike_of_step_solved hc ht hu hstep
    have hrest := ih hregisters.valid
      (fun i hi => (hregisters.settled i).mpr (hsettled i hi)) h
    refine ⟨hrest.valid, fun i => ?_, fun _ hd => hrest.deferred (hdeferred hd), fun v => ?_, ?_,
      (wakes_of_registers hregisters hwoken).trans hrest.wakes⟩
    · rw [hrest.registered, hregisters.registered, mem_ids_cons, or_assoc]
    · rw [← hregisters.resolve, hrest.resolve]
    · rw [List.forall_mem_cons]
      refine ⟨?_, hrest.alike⟩
      exact alike_resolve halike (fun _ _ => Compatible.mono hrest.deferred) (compatible_refl _ _)
  | case4 s t u rest s₁ eqs' hstep ih =>
    obtain ⟨rfl, hids, halike⟩ := parts_of_step hstep
    have hids' : ∀ i, i ∈ eqs'.ids ↔ i ∈ t.ids ++ u.ids := fun i =>
      ⟨fun hi => List.mem_append.mpr ((step_parts hstep).1 i hi), fun hi =>
        hids i (List.mem_append.mp hi)⟩
    have hall : ∀ i, i ∈ Equations.ids (eqs' ++ rest) ↔ i ∈ Equations.ids ((t, u) :: rest) := by
      intro i
      rw [mem_ids_append, mem_ids_cons, hids']
    have hrest := ih hc (fun i hi => heqs i ((hall i).mp hi)) h
    refine ⟨hrest.valid, fun i => ?_, hrest.deferred, hrest.resolve, ?_, hrest.wakes⟩
    · rw [hrest.registered, hall]
    · have hparts := hrest.alike
      rw [List.forall_mem_append] at hparts
      rw [List.forall_mem_cons]
      refine ⟨?_, hparts.2⟩
      simp only [Classes.resolve_eq_fill] at hparts ⊢
      exact (halike _ _).mpr hparts.1
  | case5 s t u rest s₁ id image hstep ih =>
    obtain ⟨ht, hu, hothers⟩ := resolved_of_cons heqs
    obtain ⟨hprogress, p, v, rfl, hsides, hv⟩ := eliminates_of_step hc ht hu hstep
    have hwakes := hprogress.wakes
    obtain ⟨hdeferred, ⟨c, hregisters, heliminates⟩, -, -⟩ := hprogress
    obtain ⟨hid, himage, hfree⟩ := step_eliminated hstep
    have hsettled := settled_of_step_eliminated hc heqs hstep
    have hrest := ih heliminates.valid hsettled h
    have hresolve : ∀ v, s'.classes.resolve ((s.classes.resolve v).eliminate p.id image) =
        s'.classes.resolve v := by
      intro v
      rw [← hregisters.resolve, ← heliminates.resolve, hrest.resolve]
    have hresolved : ∀ {v}, s.classes.Resolved v →
        s'.classes.resolve (v.eliminate p.id image) = s'.classes.resolve v := by
      intro v hv
      rw [← hresolve v, hv.resolve_eq]
    refine ⟨hrest.valid, fun i => ?_, fun _ hd => hrest.deferred (hdeferred ▸ hd), fun v => ?_, ?_,
      hwakes.trans hrest.wakes⟩
    · rw [hrest.registered, heliminates.registered, hregisters.registered, mem_ids_cons, or_assoc,
        mem_ids_eliminate_iff hid himage]
    · rw [← hresolved (hc.resolved_resolve v), hresolve]
    · rw [List.forall_mem_cons]
      constructor
      · rw [← hresolved ht, ← hresolved hu]
        exact alike_resolve (alike_eliminate hfree hsides hv (compatible_refl site.known s'.deferred))
          (fun _ _ h => h) (compatible_refl _ _)
      · intro e he
        have hmem : ∀ i, i ∈ e.1.ids ∨ i ∈ e.2.ids → s.classes.Settled i := fun i hi =>
          hothers i (List.mem_flatMap.mpr ⟨e, he, List.mem_append.mpr hi⟩)
        have halike := hrest.alike _ (List.mem_map_of_mem he)
        rwa [hresolved fun i hi => hmem i (Or.inl hi), hresolved fun i hi => hmem i (Or.inr hi)]
          at halike

/-- The two sides of the equation that unification starts with are resolved. -/
theorem settled_sides {c : Classes} (hc : c.Valid) (t u : Ty) :
    ∀ i ∈ Equations.ids [(c.resolve t, c.resolve u)], c.Settled i :=
  forall_mem_ids_cons.mpr
    ⟨hc.resolved_resolve t, hc.resolved_resolve u, fun _ hi => absurd hi List.not_mem_nil⟩

/-- Unification makes two types alike and forgets nothing. -/
theorem unify_sound {t u : Ty} (hc : s.classes.Valid) (h : site.unify s t u = .ok s') :
    site.Sound s s' [(t, u)] := by
  have hids : ∀ i, i ∈ Equations.ids [(s.classes.resolve t, s.classes.resolve u)] ↔
      i ∈ (s.classes.resolve t).ids ∨ i ∈ (s.classes.resolve u).ids := fun i => by
    simp [Equations.ids]
  have hsound := solve_sound hc (settled_sides hc t u) h
  refine ⟨hsound.valid, fun i => ?_, hsound.deferred, hsound.resolve, ?_, hsound.wakes⟩
  · rw [hsound.registered, hids]
    have ht := hc.registered_or_mem_resolve t i
    have hu := hc.registered_or_mem_resolve u i
    simp only [Equations.ids, List.flatMap_cons, List.flatMap_nil, List.append_nil,
      List.mem_append]
    tauto
  · have halike := hsound.alike _ List.mem_cons_self
    rw [hsound.resolve, hsound.resolve] at halike
    simpa using halike

end Site

end TensorTyping
