import Mathlib.Data.List.Zip
import TensorTyping.Proofs.Exchange.Classes
import TensorTyping.Proofs.Exchange.Compare
import TensorTyping.Proofs.Independence.Unify
import TensorTyping.Proofs.Session.Passage
import TensorTyping.Proofs.Session.Unifier

namespace TensorTyping

open Ty

/-- Two computations both fail or come to results that are related. -/
inductive Parallel {α β : Type} (R : α → β → Prop) :
    Except TypeError α → Except TypeError β → Prop
  | ok {x : α} {y : β} : R x y → Parallel R (.ok x) (.ok y)
  | error (e e' : TypeError) : Parallel R (.error e) (.error e')

section Parallel

variable {α β γ δ : Type} {R : α → β → Prop} {S : γ → δ → Prop} {x : Except TypeError α}
  {y : Except TypeError β} (h : Parallel R x y)

include h

theorem Parallel.of_ok {u : α} (hx : x = .ok u) : ∃ v, y = .ok v ∧ R u v := by
  subst hx
  cases h with
  | ok hxy => exact ⟨_, rfl, hxy⟩

theorem Parallel.of_error {e : TypeError} (hx : x = .error e) : ∃ e', y = .error e' := by
  subst hx
  cases h with
  | error e e' => exact ⟨e', rfl⟩

theorem Parallel.map {f : α → γ} {g : β → δ} (hfg : ∀ {x y}, R x y → S (f x) (g y)) :
    Parallel S (x.map f) (y.map g) := by
  cases h with
  | ok hxy => exact .ok (hfg hxy)
  | error e e' => exact .error e e'

theorem Parallel.bind {f : α → Except TypeError γ} {g : β → Except TypeError δ}
    (hfg : ∀ {x y}, R x y → Parallel S (f x) (g y)) : Parallel S (x >>= f) (y >>= g) := by
  cases h with
  | ok hxy => exact hfg hxy
  | error e e' => exact .error e e'

end Parallel

/-- What two runs have come to that solve the same equations with their sides exchanged. Of the
conditions that both began with nothing is lost, and those since then are exchanged as well. -/
structure Progress.Exchanged (D : List Cond) (s s' : Progress) : Prop where
  classes : s.classes.Equivalent s'.classes
  deferred : ∃ new : List (Dim × Dim), s.deferred = addConds D (new.map fun a => .eq a.1 a.2) ∧
    s'.deferred = addConds D (new.map fun a => .eq a.2 a.1)

variable {D : List Cond} {s s' : Progress}

namespace Progress

namespace Exchanged

theorem defer (h : s.Exchanged D s') (d e : Dim) :
    (s.defer (.eq d e)).Exchanged D (s'.defer (.eq e d)) := by
  obtain ⟨new, hnew, hnew'⟩ := h.deferred
  refine ⟨?_, new ++ [(d, e)], ?_, ?_⟩
  · rw [(s.defer_fields _).1, (s'.defer_fields _).1]
    exact h.classes
  · simp [deferred_defer, hnew, addConds, List.foldl_append]
  · simp [deferred_defer, hnew', addConds, List.foldl_append]

/-- Changing the classes only. -/
theorem of_classes {s₁ s₁' : Progress} (h : s.Exchanged D s')
    (hclasses : s₁.classes.Equivalent s₁'.classes) (hdeferred : s₁.deferred = s.deferred)
    (hdeferred' : s₁'.deferred = s'.deferred) : s₁.Exchanged D s₁' := by
  refine ⟨hclasses, ?_⟩
  rw [hdeferred, hdeferred']
  exact h.deferred

/-- Solving for the same placeholder in the same way. -/
theorem eliminates {s₁ s₁' : Progress} {ids ids' : List UInt32} {id : UInt32} {image : Ty}
    (h : s.Exchanged D s') (hs : Site.Eliminates s s₁ ids id image)
    (hs' : Site.Eliminates s' s₁' ids' id image)
    (hplaceholders : ∀ p, p ∈ s₁'.classes.placeholders ↔ p ∈ s₁.classes.placeholders) :
    s₁.Exchanged D s₁' := by
  obtain ⟨c, hregisters, heliminates⟩ := hs.classes
  obtain ⟨c', hregisters', heliminates'⟩ := hs'.classes
  refine h.of_classes ⟨heliminates.valid, heliminates'.valid, fun t => ?_, hplaceholders⟩
    hs.deferred hs'.deferred
  rw [heliminates.resolve, heliminates'.resolve, hregisters.resolve, hregisters'.resolve,
    h.classes.resolve]

end Exchanged

end Progress

namespace Site

variable (site : Site)

/-- What two equations come to that are the same with their sides exchanged. -/
structure Step.Exchanged (D : List Cond) (a b : Step) : Prop where
  progress : a.progress.Exchanged D b.progress
  remaining : ∀ rest : Equations,
    b.remaining (rest.map Prod.swap) = (a.remaining rest).map Prod.swap

theorem Step.Exchanged.solved (h : s.Exchanged D s') :
    Step.Exchanged D (.solved s) (.solved s') := ⟨h, fun _ => rfl⟩

theorem Step.Exchanged.parts (h : s.Exchanged D s') (eqs : Equations) :
    Step.Exchanged D (.parts s eqs) (.parts s' (eqs.map Prod.swap)) :=
  ⟨h, fun rest => by simp [Step.remaining]⟩

theorem Step.Exchanged.eliminated (h : s.Exchanged D s') (id : UInt32) (image : Ty) :
    Step.Exchanged D (.eliminated s id image) (.eliminated s' id image) :=
  ⟨h, fun rest => by simp [Step.remaining, Equations.eliminate]⟩

theorem compareAxis_exchanged (h : s.Exchanged D s') (axis : Nat) {d e : Dim}
    (hde : site.known.Balanced d e) :
    Parallel (Progress.Exchanged D) (site.compareAxis s axis d e)
      (site.compareAxis s' axis e d) := by
  unfold compareAxis
  by_cases hany : d = .any ∨ e = .any
  · rw [if_pos hany, if_pos hany.symm]
    exact .ok h
  · rw [if_neg hany, if_neg (mt Or.symm hany), hde.compare_comm]
    split
    · exact .ok h
    · split
      · exact .error _ _
      · exact .ok (h.defer d e)
    · exact .error _ _

theorem compareAxes_exchanged (h : s.Exchanged D s') (axis : Nat) {axes : List (Dim × Dim)}
    (haxes : ∀ a ∈ axes, site.known.Balanced a.1 a.2) :
    Parallel (Progress.Exchanged D) (site.compareAxes s axis axes)
      (site.compareAxes s' axis (axes.map Prod.swap)) := by
  induction axes generalizing s s' axis with
  | nil => exact .ok h
  | cons a axes ih =>
    rw [List.forall_mem_cons] at haxes
    obtain ⟨d, e⟩ := a
    rw [List.map_cons, compareAxes, Prod.swap_prod_mk, compareAxes]
    exact (site.compareAxis_exchanged h axis haxes.1).bind fun h => ih h (axis + 1) haxes.2

theorem compareTensors_exchanged (h : s.Exchanged D s') {a b : TensorType}
    (hab : ∀ d ∈ a.shape, ∀ e ∈ b.shape, site.known.Balanced d e) :
    Parallel (Progress.Exchanged D) (site.compareTensors s a b) (site.compareTensors s' b a) := by
  unfold compareTensors
  by_cases hdtype : a.dtype = b.dtype
  · by_cases hrank : a.rank = b.rank
    · have hzip : b.shape.zip a.shape = (a.shape.zip b.shape).map Prod.swap :=
        (List.zip_swap a.shape b.shape).symm
      rw [if_neg (not_not.mpr hdtype), if_neg (not_not.mpr hrank),
        if_neg (not_not.mpr hdtype.symm), if_neg (not_not.mpr hrank.symm), hzip]
      exact site.compareAxes_exchanged h 0 fun x hx =>
        hab x.1 (List.of_mem_zip hx).1 x.2 (List.of_mem_zip hx).2
    · rw [if_neg (not_not.mpr hdtype), if_pos hrank, if_neg (not_not.mpr hdtype.symm),
        if_pos (Ne.symm hrank)]
      exact .error _ _
  · rw [if_pos hdtype, if_pos (Ne.symm hdtype)]
    exact .error _ _

/-- Placeholders of different classes are joined, or are of different kinds. -/
theorem joinHoles_of_ne {p q : Placeholder} {c : Classes} (hc : c = (s.classes.ensure p).ensure q)
    (hleader : c.leader p.id ≠ c.leader q.id) : site.joinHoles s p q =
      if (c.least p).kind ≠ (c.least q).kind then
        .error (.kindMismatch (c.least p).kind (c.least q).kind site.span)
      else if q.id < p.id then
        .ok (.eliminated (Progress.join { s with classes := c } p q) p.id
          (hole ⟨q.id, (c.least p).kind⟩))
      else .ok (.eliminated (Progress.join { s with classes := c } p q) q.id
        (hole ⟨p.id, (c.least p).kind⟩)) := by
  subst hc
  exact if_neg hleader

/-- An equation between two placeholders, which are of one kind unless the session knows better. -/
theorem joinHoles_exchanged (h : s.Exchanged D s') {p q : Placeholder}
    (hp : s.classes.Settled p.id) (hq : s.classes.Settled q.id)
    (hkind : p.id = q.id → s.classes.Registered p.id ∨ p.kind = q.kind) :
    Parallel (Step.Exchanged D) (site.joinHoles s p q) (site.joinHoles s' q p) := by
  have hensured := h.classes.ensure_comm hkind
  have hc := (Classes.registers_ensure h.classes.left p).trans
    (Classes.registers_ensure (h.classes.left.ensure p) q)
  have hrp := (hc.registered p.id).mpr (Or.inr (by simp))
  have hrq := (hc.registered q.id).mpr (Or.inr (by simp))
  have hsp := (hc.settled p.id).mpr hp
  have hsq := (hc.settled q.id).mpr hq
  by_cases hid : p.id = q.id
  · have hsolved : Progress.Exchanged D { s with classes := (s.classes.ensure p).ensure q }
        { s' with classes := (s'.classes.ensure q).ensure p } := h.of_classes hensured rfl rfl
    unfold joinHoles
    dsimp only
    rw [if_pos (by rw [hid]), if_pos (by rw [hid])]
    exact .ok (.solved hsolved)
  · have hleader := mt (hensured.left.eq_of_settled hrp hrq hsp hsq) hid
    have hleader' := mt (hensured.right.eq_of_settled ((hensured.registered _).mpr hrq)
      ((hensured.registered _).mpr hrp) ((hensured.settled _).mpr hsq)
      ((hensured.settled _).mpr hsp)) (Ne.symm hid)
    have hjoin := site.joinHoles_of_ne rfl hleader
    have hjoin' := site.joinHoles_of_ne rfl hleader'
    rw [hensured.least hrp hsp, hensured.least hrq hsq] at hjoin'
    -- one is solved for the other alike, and the joint classes are those of the same placeholders
    have hjoined : ∀ {s₁ s₁' : Progress} {id : UInt32} {image : Ty},
        site.joinHoles s p q = .ok (.eliminated s₁ id image) →
        site.joinHoles s' q p = .ok (.eliminated s₁' id image) →
        s₁.classes.placeholders = ((s.classes.ensure p).ensure q).placeholders →
        s₁'.classes.placeholders = ((s'.classes.ensure q).ensure p).placeholders →
        Parallel (Step.Exchanged D) (site.joinHoles s p q) (site.joinHoles s' q p) := by
      intro s₁ s₁' id image hs₁ hs₁' hplaceholders hplaceholders'
      rw [hs₁, hs₁']
      refine .ok (.eliminated (h.eliminates (eliminates_of_joinHoles h.classes.left hp hq hs₁).1
        (eliminates_of_joinHoles h.classes.right ((h.classes.settled _).mpr hq)
          ((h.classes.settled _).mpr hp) hs₁').1 fun r => ?_) id image)
      rw [hplaceholders, hplaceholders']
      exact hensured.placeholders r
    by_cases hkinds : (((s.classes.ensure p).ensure q).least p).kind =
        (((s.classes.ensure p).ensure q).least q).kind
    · rw [if_neg (not_not.mpr hkinds)] at hjoin
      rw [if_neg (not_not.mpr hkinds.symm), ← hkinds] at hjoin'
      have hplaceholders := hensured.left.placeholders_join
      have hplaceholders' := hensured.right.placeholders_join
      by_cases hlt : q.id < p.id
      · rw [if_pos hlt] at hjoin
        rw [if_neg (UInt32.lt_asymm hlt)] at hjoin'
        exact hjoined hjoin hjoin' (hplaceholders _ _) (hplaceholders' _ _)
      · rw [if_neg hlt] at hjoin
        rw [if_pos (UInt32.lt_of_le_of_ne (UInt32.not_lt.mp hlt) hid)] at hjoin'
        exact hjoined hjoin hjoin' (hplaceholders _ _) (hplaceholders' _ _)
    · rw [hjoin, hjoin', if_pos hkinds, if_pos (Ne.symm hkinds)]
      exact .error _ _

/-- A placeholder opposite a type of another form. -/
theorem bindHole_exchanged (h : s.Exchanged D s') {p : Placeholder} {t : Ty}
    (hp : s.classes.Settled p.id) (ht : s.classes.Resolved t) :
    Parallel (Step.Exchanged D) (site.bindHole s p t) (site.bindHole s' p t) := by
  have hp' := (h.classes.settled _).mpr hp
  have ht' := h.classes.resolved.mpr ht
  by_cases hmem : p.id ∈ t.ids
  · have herror : ∀ s : Progress, site.bindHole s p t = .error (.occurs p t site.span) := by
      intro s
      obtain ⟨q, hq, hid⟩ := List.mem_map.mp (id_mem_holes.mpr hmem)
      unfold bindHole
      exact if_pos (List.any_eq_true.mpr ⟨q, hq, by simp [hid]⟩)
    rw [herror, herror]
    exact .error _ _
  · have hbind : ∀ {s : Progress}, s.classes.Valid → s.classes.Settled p.id →
        s.classes.Resolved t → site.bindHole s p t = .ok (.eliminated (Progress.bind
          { s with classes := (s.classes.ensure p).ensureAll t.holes } p t) p.id t) := by
      intro s hc hp ht
      cases hresult : site.bindHole s p t with
      | error e => exact absurd (mem_ids_of_bindHole_error hc hp ht hresult) hmem
      | ok result =>
        unfold bindHole at hresult
        dsimp only at hresult
        split at hresult
        · cases hresult
        · exact hresult.symm
    have hleft := hbind h.classes.left hp ht
    have hright := hbind h.classes.right hp' ht'
    have hplaceholders := ((h.classes.ensure p).ensureAll t.holes).placeholders
    rw [hleft, hright]
    refine .ok (.eliminated (h.eliminates (eliminates_of_bindHole h.classes.left hp ht hleft).1
      (eliminates_of_bindHole h.classes.right hp' ht' hright).1 fun q => ?_) p.id t)
    rw [Progress.placeholders_bind, Progress.placeholders_bind]
    exact hplaceholders q

end Site

/-- The sides of an equation can be exchanged: opposite placeholders of one id are of one kind, or
the session has seen the id before, and the dimensions are some of those that are compared alike. -/
structure Classes.Fair (c : Classes) (S : Dim → Prop) (t u : Ty) : Prop where
  kinds : ∀ p ∈ t.occurrences, ∀ q ∈ u.occurrences, p.id = q.id →
    c.Registered p.id ∨ p.kind = q.kind
  left : ∀ d ∈ t.dims, S d
  right : ∀ d ∈ u.dims, S d

namespace Site

variable {site : Site} {S : Dim → Prop} {t u : Ty}

theorem step_exchanged (hS : ∀ d e, S d → S e → site.known.Balanced d e) (h : s.Exchanged D s')
    (ht : s.classes.Resolved t) (hu : s.classes.Resolved u) (hfair : s.classes.Fair S t u) :
    Parallel (Step.Exchanged D) (site.step s t u) (site.step s' u t) := by
  have hzip : ∀ ts us : List Ty, us.zip ts = (ts.zip us).map Prod.swap :=
    fun ts us => (List.zip_swap ts us).symm
  cases t <;> cases u
  case hole.hole p q =>
    exact site.joinHoles_exchanged h (settled_of_resolved_hole ht) (settled_of_resolved_hole hu)
      (hfair.kinds p (List.mem_singleton_self p) q (List.mem_singleton_self q))
  case tensor.tensor a b =>
    exact (site.compareTensors_exchanged h fun d hd e he =>
      hS d e (hfair.left d hd) (hfair.right e he)).map .solved
  case ref.ref t u => exact .ok (.parts h [(t, u)])
  case tuple.tuple ts us =>
    simp only [step]
    by_cases hlength : ts.length = us.length
    · rw [if_neg (not_not.mpr hlength), if_neg (not_not.mpr hlength.symm), hzip ts us]
      exact .ok (.parts h _)
    · rw [if_pos hlength, if_pos (Ne.symm hlength)]
      exact .error _ _
  case call.call f ts g us =>
    simp only [step]
    by_cases hlength : ts.length = us.length
    · rw [if_neg (not_not.mpr hlength), if_neg (not_not.mpr hlength.symm), hzip ts us]
      exact .ok (.parts h ((f, g) :: ts.zip us))
    · rw [if_pos hlength, if_pos (Ne.symm hlength)]
      exact .error _ _
  case func.func ts r vs us r' ws =>
    simp only [step]
    by_cases hlength : ts.length = us.length
    · rw [if_neg (not_not.mpr hlength), if_neg (not_not.mpr hlength.symm)]
      by_cases hvars : vs = ws
      · have hparts : us.zip ts ++ [(r', r)] = (ts.zip us ++ [(r, r')]).map Prod.swap := by
          rw [List.map_append, hzip ts us]
          rfl
        rw [if_neg (not_not.mpr hvars), if_neg (not_not.mpr hvars.symm), hparts]
        exact .ok (.parts h _)
      · rw [if_pos hvars, if_pos (Ne.symm hvars)]
        exact .error _ _
    · rw [if_pos hlength, if_pos (Ne.symm hlength)]
      exact .error _ _
  case var.var v w =>
    simp only [step]
    by_cases hid : v.id = w.id
    · rw [if_pos hid, if_pos hid.symm]
      exact .ok (.solved h)
    · rw [if_neg hid, if_neg (Ne.symm hid)]
      exact .error _ _
  case global.global g g' =>
    simp only [step]
    by_cases hname : g.name = g'.name
    · rw [if_pos hname, if_pos hname.symm]
      exact .ok (.solved h)
    · rw [if_neg hname, if_neg (Ne.symm hname)]
      exact .error _ _
  -- what is left is a placeholder opposite a type of another form, or two different forms
  all_goals first
    | exact site.bindHole_exchanged h (settled_of_resolved_hole ht) hu
    | exact site.bindHole_exchanged h (settled_of_resolved_hole hu) ht
    | exact .error _ _

/-- Sides can be exchanged in all that is left of some equations if they can be in those. -/
theorem fair_remaining {result : Step} {rest : Equations} (hc : s.classes.Valid)
    (ht : s.classes.Resolved t) (hu : s.classes.Resolved u) (htu : s.classes.Fair S t u)
    (hrest : ∀ e ∈ rest, s.classes.Fair S e.1 e.2) (h : site.step s t u = .ok result) :
    ∀ e ∈ result.remaining rest, result.progress.classes.Fair S e.1 e.2 := by
  have hmono : ∀ {c : Classes} {ids : List UInt32} {v w : Ty}, s.classes.Registers c ids →
      s.classes.Fair S v w → c.Fair S v w := by
    intro c ids v w hregisters hfair
    refine ⟨fun p hp q hq hid => ?_, hfair.left, hfair.right⟩
    exact (hfair.kinds p hp q hq hid).imp_left fun hp => (hregisters.registered _).mpr (Or.inl hp)
  cases result with
  | solved s₁ =>
    obtain ⟨hregisters, -⟩ := solved_of_step hc ht hu h
    exact fun e he => hmono hregisters (hrest e he)
  | parts s₁ eqs =>
    have hparts := part_of_step h
    obtain ⟨rfl, -⟩ := parts_of_step h
    refine List.forall_mem_append.mpr ⟨fun e he => ?_, hrest⟩
    obtain ⟨hleft, hright⟩ := hparts e he
    exact ⟨fun p hp q hq => htu.kinds p (hleft.1 p hp) q (hright.1 q hq),
      fun d hd => htu.left d (hleft.2 d hd), fun d hd => htu.right d (hright.2 d hd)⟩
  | eliminated s₁ id image =>
    obtain ⟨⟨-, ⟨c, hregisters, heliminates⟩, -⟩, p, v, -, hsides, hv⟩ :=
      eliminates_of_step hc ht hu h
    obtain ⟨-, himage, -⟩ := step_eliminated h
    have hregistered : ∀ i ∈ image.ids, s₁.classes.Registered i := fun i hi =>
      (heliminates.registered i).mpr
        ((hregisters.registered i).mpr (Or.inr (List.mem_append.mpr (himage i hi))))
    have hdims : ∀ d ∈ image.dims, S d := by
      obtain rfl | ⟨q, r, -, rfl, -⟩ := hv
      · obtain ⟨-, rfl⟩ | ⟨rfl, -⟩ := hsides
        · exact htu.right
        · exact htu.left
      · exact fun d hd => absurd hd List.not_mem_nil
    -- what an occurrence is after the elimination: one of the image, or one of before
    have hoccurrences : ∀ {w : Ty} {p : Placeholder}, p ∈ (w.eliminate id image).occurrences →
        s₁.classes.Registered p.id ∨ p ∈ w.occurrences := by
      intro w p hp
      rw [eliminate_eq_fill] at hp
      obtain ⟨q, hq, hpq⟩ := mem_occurrences_fill.mp hp
      split at hpq
      · exact Or.inl (hregistered p.id (mem_ids.mpr ⟨p, hpq, rfl⟩))
      · exact Or.inr (List.mem_singleton.mp hpq ▸ hq)
    have hfilled : ∀ {w : Ty}, (∀ d ∈ w.dims, S d) → ∀ d ∈ (w.eliminate id image).dims, S d := by
      intro w hw d hd
      rw [eliminate_eq_fill] at hd
      obtain hd | ⟨p, -, hd⟩ := mem_dims_fill.mp hd
      · exact hw d hd
      · split at hd
        · exact hdims d hd
        · exact absurd hd List.not_mem_nil
    intro e he
    obtain ⟨x, hx, rfl⟩ := List.mem_map.mp he
    have hfair := hrest x hx
    refine ⟨fun p hp q hq hid => ?_, hfilled hfair.left, hfilled hfair.right⟩
    obtain hp | hp := hoccurrences hp
    · exact Or.inl hp
    · obtain hq | hq := hoccurrences hq
      · exact Or.inl (hid ▸ hq)
      · exact (hfair.kinds p hp q hq hid).imp_left fun hp =>
          (heliminates.registered _).mpr ((hregisters.registered _).mpr (Or.inl hp))

/-- Solving equations with their sides exchanged. -/
theorem solve_exchanged (hS : ∀ d e, S d → S e → site.known.Balanced d e) (h : s.Exchanged D s')
    {eqs : Equations} (heqs : ∀ i ∈ eqs.ids, s.classes.Settled i)
    (hfair : ∀ e ∈ eqs, s.classes.Fair S e.1 e.2) :
    Parallel (Progress.Exchanged D) (site.solve s eqs) (site.solve s' (eqs.map Prod.swap)) := by
  fun_induction site.solve s eqs generalizing s' with
  | case1 s =>
    rw [List.map_nil, solve]
    exact .ok h
  | case2 s t u rest e hstep =>
    obtain ⟨ht, hu, -⟩ := resolved_of_cons heqs
    obtain ⟨e', hstep'⟩ := (step_exchanged hS h ht hu (hfair _ List.mem_cons_self)).of_error hstep
    rw [List.map_cons, Prod.swap_prod_mk, solve_cons, hstep']
    exact .error e e'
  | case3 s t u rest s₁ hstep ih | case4 s t u rest s₁ eqs hstep ih
  | case5 s t u rest s₁ id image hstep ih =>
    obtain ⟨ht, hu, -⟩ := resolved_of_cons heqs
    rw [List.forall_mem_cons] at hfair
    obtain ⟨result, hstep', hresult⟩ := (step_exchanged hS h ht hu hfair.1).of_ok hstep
    rw [List.map_cons, Prod.swap_prod_mk, solve_cons_remaining hstep', hresult.remaining]
    exact ih hresult.progress (settled_remaining hstep h.classes.left heqs)
      (fair_remaining h.classes.left ht hu hfair.1 hfair.2 hstep)

/-- Unifying two types the other way round. -/
theorem unify_exchanged (hS : ∀ d e, S d → S e → site.known.Balanced d e) (h : s.Exchanged D s')
    (hfair : s.classes.Fair S (s.classes.resolve t) (s.classes.resolve u)) :
    Parallel (Progress.Exchanged D) (site.unify s t u) (site.unify s' u t) := by
  have hsolve := solve_exchanged hS h (settled_sides h.classes.left t u)
    ((List.forall_mem_singleton).mpr hfair)
  unfold unify
  rw [h.classes.resolve, h.classes.resolve]
  exact hsolve

end Site

end TensorTyping
