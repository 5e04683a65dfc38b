import Mathlib.Data.Finset.Card
import TensorTyping.Proofs.Session.Calls
import TensorTyping.Proofs.Session.Passage

namespace TensorTyping

open Ty

theorem distinctCount_eq_card (xs : List UInt32) : distinctCount xs = xs.toFinset.card := by
  induction xs with
  | nil => rfl
  | cons x xs ih =>
    rw [distinctCount, List.toFinset_cons]
    split
    · rename_i hx
      rw [Finset.insert_eq_of_mem (List.mem_toFinset.mpr hx), ih]
    · rename_i hx
      rw [Finset.card_insert_of_notMem (mt List.mem_toFinset.mp hx), ih]

namespace Classes

variable {c c' : Classes} {S : Finset UInt32} {id i : UInt32} {t : Ty}

/-- The placeholders that something else stands for: what their class is bound to, or another
placeholder of it. -/
def decided (c : Classes) : Finset UInt32 :=
  (c.placeholders.map (·.id)).toFinset.filter fun i => (c.image? ⟨i, .type⟩).isSome

theorem mem_decided : i ∈ c.decided ↔ ¬ c.Settled i := by
  have hsettled : c.Settled i ↔ c.image? ⟨i, .type⟩ = none :=
    ⟨fun h => h _ rfl, fun h p hp => (image?_congr hp).trans h⟩
  rw [decided, Finset.mem_filter, List.mem_toFinset, hsettled, Option.isSome_iff_ne_none,
    and_iff_right_iff_imp]
  intro hsome
  by_contra hmem
  refine hsome (hsettled.mp (settled_of_not_registered fun hregistered => hmem ?_))
  obtain ⟨x, hx, hid⟩ := registered_iff_mem.mp hregistered
  exact List.mem_map.mpr ⟨x.placeholder, List.mem_map_of_mem hx, hid⟩

theorem card_decided_le (c : Classes) :
    c.decided.card ≤ distinctCount (c.placeholders.map (·.id)) := by
  rw [distinctCount_eq_card]
  exact Finset.card_filter_le _ _

theorem Registers.decided {new : List UInt32} (h : Registers c c' new) : c'.decided = c.decided := by
  ext i
  rw [mem_decided, mem_decided, h.settled]

/-- Once something stands for a placeholder, something always does. -/
theorem Eliminates.settled_of_settled (h : Eliminates c c' id t) (hc : c.Valid) (ht : c.Resolved t)
    (hi : c'.Settled i) : c.Settled i := by
  have himage : (c.image ⟨i, .type⟩).eliminate id t = hole ⟨i, .type⟩ := by
    rw [← resolve_hole, ← h.resolve, resolve_hole, hi.image rfl]
  obtain ⟨q, hq⟩ := eq_hole_of_eliminate himage
  rw [hq] at himage
  by_cases hid : q.id = id
  · subst hid
    rw [eliminate_hole_self] at himage
    exact ht i (by rw [himage, ids_hole]; exact List.mem_singleton_self i)
  · rw [eliminate_hole_of_ne hid] at himage
    have hresolved := hc.resolved_image ⟨i, .type⟩
    rw [hq, himage, Resolved, ids_hole] at hresolved
    exact hresolved i (List.mem_singleton_self i)

/-- Solving for a placeholder decides it. -/
theorem Eliminates.decided_ssubset (h : Eliminates c c' id t) (hc : c.Valid) (ht : c.Resolved t)
    (hid : c.Settled id) (hfree : id ∉ t.ids) : c.decided ⊂ c'.decided := by
  have hsubset : c.decided ⊆ c'.decided := fun i hi =>
    mem_decided.mpr fun hsettled => mem_decided.mp hi (h.settled_of_settled hc ht hsettled)
  refine hsubset.ssubset_of_mem_notMem (a := id) (mem_decided.mpr fun hsettled => hfree ?_)
    fun hmem => mem_decided.mp hmem hid
  have himage : t = hole ⟨id, .type⟩ := by
    calc t = (hole ⟨id, .type⟩).eliminate id t := (eliminate_hole_self (p := ⟨id, .type⟩) t).symm
      _ = (c.resolve (hole ⟨id, .type⟩)).eliminate id t := by rw [resolve_hole, hid.image rfl]
      _ = hole ⟨id, .type⟩ := by rw [← h.resolve, resolve_hole, hsettled.image rfl]
  rw [himage, ids_hole]
  exact List.mem_singleton_self id

/-- Relations are only put on a list when one more placeholder is decided. -/
structure Pays (c c' : Classes) (numbers numbers' : List Nat) : Prop where
  decided : c.decided ⊆ c'.decided
  numbers : numbers' = numbers ∨ c.decided ⊂ c'.decided

theorem Pays.refl (c : Classes) (numbers : List Nat) : Pays c c numbers numbers :=
  ⟨Finset.Subset.refl _, Or.inl rfl⟩

theorem Pays.trans {c'' : Classes} {numbers numbers' numbers'' : List Nat}
    (h : Pays c c' numbers numbers') (h' : Pays c' c'' numbers' numbers'') :
    Pays c c'' numbers numbers'' := by
  refine ⟨h.decided.trans h'.decided, ?_⟩
  obtain heq | hlt := h.numbers
  · obtain heq' | hlt' := h'.numbers
    · exact Or.inl (heq'.trans heq)
    · exact Or.inr (Finset.ssubset_of_subset_of_ssubset h.decided hlt')
  · exact Or.inr (Finset.ssubset_of_ssubset_of_subset hlt h'.decided)

end Classes

namespace Site

variable {site : Site} {s s' : Progress} {t u : Ty}

theorem pays_of_step {result : Step} (hc : s.classes.Valid) (ht : s.classes.Resolved t)
    (hu : s.classes.Resolved u) (h : site.step s t u = .ok result) :
    s.classes.Pays result.progress.classes s.woken result.progress.woken := by
  cases result with
  | solved s' =>
    obtain ⟨hregisters, hwoken, -⟩ := solved_of_step hc ht hu h
    exact ⟨hregisters.decided.symm.subset, Or.inl hwoken⟩
  | parts s' eqs =>
    obtain ⟨rfl, -⟩ := parts_of_step h
    exact .refl _ _
  | eliminated s' id image =>
    obtain ⟨⟨-, ⟨c, hregisters, heliminates⟩, -⟩, -⟩ := eliminates_of_step hc ht hu h
    obtain ⟨hid, himage, hfree⟩ := step_eliminated h
    have hresolved : c.Resolved image := fun i hi =>
      (hregisters.settled i).mpr ((himage i hi).elim (ht i) (hu i))
    have hsettled : c.Settled id := (hregisters.settled id).mpr (hid.elim (ht id) (hu id))
    have hlt := heliminates.decided_ssubset hregisters.valid hresolved hsettled hfree
    rw [hregisters.decided] at hlt
    exact ⟨hlt.subset, Or.inr hlt⟩

theorem pays_of_solve {eqs : Equations} (hc : s.classes.Valid)
    (heqs : ∀ i ∈ eqs.ids, s.classes.Settled i) (h : site.solve s eqs = .ok s') :
    s.classes.Pays s'.classes s.woken s'.woken := by
  fun_induction site.solve s eqs with
  | case1 s =>
    cases h
    exact .refl _ _
  | case2 s t u rest e hstep => cases h
  | case3 s t u rest s₁ hstep ih | case4 s t u rest s₁ eqs hstep ih
  | case5 s t u rest s₁ id image hstep ih =>
    obtain ⟨ht, hu, -⟩ := resolved_of_cons heqs
    have hvalid := (evolves_of_step hc ht hu hstep).valid
    exact (pays_of_step hc ht hu hstep).trans (ih hvalid (settled_remaining hstep hc heqs) h)

end Site

namespace Session

variable {s s' : Session}

/-- Relations are only put on the worklist when one more placeholder is decided. -/
abbrev Pays (s s' : Session) : Prop := s.classes.Pays s'.classes s.queue s'.queue

theorem assign_pays (hc : s.classes.Valid) (dst src : Ty) : Pays s (s.assign dst src) := by
  obtain ⟨-, heq⟩ | ⟨e, -, -, heq⟩ | ⟨p, -, hunify, heq⟩ := assign_cases s dst src <;> rw [heq]
  · exact .refl _ _
  · exact .refl _ _
  · have hpays := Site.pays_of_solve hc (Site.settled_sides hc dst src) hunify
    obtain ⟨hclasses, -⟩ :=
      foldl_wake_fields { s with classes := p.classes, deferred := p.deferred } p.woken
    unfold Pays
    rw [hclasses]
    refine ⟨hpays.decided, hpays.numbers.imp_left fun hwoken => ?_⟩
    rw [hwoken]
    rfl

theorem assert_pays (s : Session) (cond : Cond) : Pays s (s.assert cond).2 := by
  obtain ⟨deferred, failure, heq⟩ := exists_assert_eq s cond
  rw [heq]
  exact .refl _ _

theorem run_pays (r : Resolution) (hc : s.classes.Valid) : Pays s (r.run reporter s).state := by
  induction r generalizing s with
  | done resolved => exact .refl _ _
  | assign dst src next ih => exact (assign_pays hc dst src).trans (ih (assign_grows hc dst src).valid)
  | assert cond next ih => exact (assert_pays s cond).trans (ih _ (assert_grows hc cond).valid)
  | locate span next ih => exact ih (s := { s with location := span }) hc

theorem invoke_pays (hc : s.classes.Valid) (number : Nat) (r : Relation) :
    Pays s (s.invoke number r) := by
  unfold Pays
  rw [(invoke_fields s number r).1, (invoke_worklist s number r).1]
  exact run_pays (s := { s with location := r.span }) (r.rule.resolve (s.query r)) hc

end Session

end TensorTyping
