import TensorTyping.Proofs.Session.Deferral
import TensorTyping.Proofs.Session.Sharing
import TensorTyping.Proofs.Session.Strictness
import TensorTyping.Proofs.Session.Unifier

namespace TensorTyping

open Ty

/-- Two states of a unification differ in nothing but what is put off. -/
structure Progress.Like (s p : Progress) : Prop where
  classes : p.classes = s.classes
  woken : p.woken = s.woken

theorem Progress.nodup_defer {s : Progress} (h : s.deferred.Nodup) (c : Cond) :
    (s.defer c).deferred.Nodup := by
  rw [deferred_defer]
  exact nodup_addConds h [c]

/-- All placeholders on one side of an equation are registered. -/
def Classes.Anchors (c : Classes) (e : Ty × Ty) : Prop :=
  (∀ i ∈ e.1.ids, c.Registered i) ∨ ∀ i ∈ e.2.ids, c.Registered i

namespace Site

variable {site : Site} {s s₁ p p₁ : Progress} {t u : Ty} {rest eqs : Equations}

/-- A state was reached that is like another, and all it put off is put off there too. -/
structure Reaches (s s' p' : Progress) : Prop where
  like : s'.Like p'
  kept : s.deferred ⊆ s'.deferred
  new : ∀ c ∈ s'.deferred, c ∈ s.deferred ∨ c ∈ p'.deferred
  nodup : s.deferred.Nodup → s'.deferred.Nodup

/-- What a computation from some state comes to, and what it comes to where no node is shared and
nothing undecided is an error. It does not fail alone, unless at two dimensions that are put off as
equal there. -/
def Follows (site : Site) (s : Progress) : Except TypeError Progress → Except TypeError Progress → Prop
  | .ok s', .ok p' => Reaches s s' p'
  | .ok _, .error _ => False
  | .error e, .ok p' => site.strict = true ∧
      ∃ axis a b, e = .dimensionMismatch axis a b site.span ∧ Cond.eq a b ∈ p'.deferred
  | .error _, .error _ => True

theorem follows_ok (h : s.Like p) : site.Follows s (.ok s) (.ok p) :=
  ⟨h, fun _ hc => hc, fun _ hc => Or.inl hc, id⟩

theorem Follows.trans {r r' : Except TypeError Progress} (h : Reaches s s₁ p₁)
    (h' : site.Follows s₁ r r') (hgrows : ∀ p', r' = .ok p' → p₁.deferred ⊆ p'.deferred) :
    site.Follows s r r' := by
  cases r with
  | error e => cases r' <;> exact h'
  | ok s' =>
    cases r' with
    | error e => exact h'
    | ok p' =>
      obtain ⟨hlike, hkept, hnew, hnodup⟩ := h'
      refine ⟨hlike, fun c hc => hkept (h.kept hc), fun c hc => ?_, fun hs => hnodup (h.nodup hs)⟩
      obtain hc | hc := hnew c hc
      · exact (h.new c hc).imp_right fun hc => hgrows p' rfl hc
      · exact Or.inr hc

theorem Follows.stop {r : Except TypeError Progress} {e : TypeError}
    (h : site.Follows s (.error e) (.ok p)) (hgrows : ∀ p', r = .ok p' → p.deferred ⊆ p'.deferred) :
    site.Follows s (.error e) r := by
  cases r with
  | error e' => trivial
  | ok p' =>
    obtain ⟨hstrict, axis, a, b, rfl, hmem⟩ := h
    exact ⟨hstrict, axis, a, b, rfl, hgrows p' rfl hmem⟩

theorem follows_defer (h : s.Like p) (c : Cond) :
    site.Follows s (.ok (s.defer c)) (.ok (p.defer c)) := by
  obtain ⟨hclasses, hwoken⟩ := s.defer_fields c
  obtain ⟨hclasses', hwoken'⟩ := p.defer_fields c
  refine ⟨⟨?_, ?_⟩, fun x hx => Progress.mem_defer.mpr (Or.inl hx), fun x hx => ?_,
    fun hs => Progress.nodup_defer hs c⟩
  · rw [hclasses, hclasses', h.classes]
  · rw [hwoken, hwoken', h.woken]
  · exact (Progress.mem_defer.mp hx).imp_right fun hx => Progress.mem_defer.mpr (Or.inr hx)

theorem compareAxis_follows (h : s.Like p) (axis : Nat) (a b : Dim) :
    site.Follows s (site.compareAxis s axis a b) (site.lenient.compareAxis p axis a b) := by
  unfold compareAxis
  split
  · exact follows_ok h
  · cases hverdict : site.known.compare .eq a b with
    | proven => simpa [lenient, hverdict] using follows_ok h
    | refuted => simp [lenient, hverdict, Follows]
    | unknown =>
      cases hstrict : site.strict with
      | false => simpa [lenient, hverdict] using follows_defer h _
      | true =>
        have hmem : Cond.eq a b ∈ (p.defer (.eq a b)).deferred :=
          Progress.mem_defer.mpr (Or.inr rfl)
        simpa [lenient, hverdict, Follows, hstrict] using hmem

theorem compareAxes_follows (h : s.Like p) (axis : Nat) (axes : List (Dim × Dim)) :
    site.Follows s (site.compareAxes s axis axes) (site.lenient.compareAxes p axis axes) := by
  induction axes generalizing s p axis with
  | nil => exact follows_ok h
  | cons pair axes ih =>
    rw [compareAxes, compareAxes]
    have hhead := site.compareAxis_follows h axis pair.1 pair.2
    cases hplain : site.lenient.compareAxis p axis pair.1 pair.2 with
    | error e =>
      rw [hplain] at hhead
      cases hshared : site.compareAxis s axis pair.1 pair.2 with
      | error e' => trivial
      | ok s₁ =>
        rw [hshared] at hhead
        exact hhead.elim
    | ok p₁ =>
      rw [hplain] at hhead
      have hgrows : ∀ p', site.lenient.compareAxes p₁ (axis + 1) axes = .ok p' →
          p₁.deferred ⊆ p'.deferred := fun p' hp' => (compareAxes_ok hp').1.deferred
      cases hshared : site.compareAxis s axis pair.1 pair.2 with
      | error e' =>
        rw [hshared] at hhead
        exact hhead.stop hgrows
      | ok s₁ =>
        rw [hshared] at hhead
        exact .trans hhead (ih hhead.like (axis + 1)) hgrows

theorem compareTensors_follows (h : s.Like p) (a b : TensorType) :
    site.Follows s (site.compareTensors s a b) (site.lenient.compareTensors p a b) := by
  unfold compareTensors
  split
  · trivial
  · split
    · trivial
    · exact compareAxes_follows h 0 _

/-- A step where other conditions were put off before. -/
def Step.putOff (conds : List Cond) : Step → Step
  | solved s => solved { s with deferred := conds }
  | parts s eqs => parts { s with deferred := conds } eqs
  | eliminated s id image => eliminated { s with deferred := conds } id image

@[simp]
theorem Step.progress_putOff (conds : List Cond) (result : Step) :
    (result.putOff conds).progress = { result.progress with deferred := conds } := by
  cases result <;> rfl

@[simp]
theorem Step.remaining_putOff (conds : List Cond) (result : Step) (rest : Equations) :
    (result.putOff conds).remaining rest = result.remaining rest := by
  cases result <;> rfl

theorem joinHoles_putOff (conds : List Cond) (x y : Placeholder) :
    site.lenient.joinHoles { s with deferred := conds } x y =
      (site.joinHoles s x y).map (Step.putOff conds) := by
  unfold joinHoles
  dsimp only
  split
  · rfl
  · split
    · rfl
    · split <;> rfl

theorem bindHole_putOff (conds : List Cond) (x : Placeholder) (t : Ty) :
    site.lenient.bindHole { s with deferred := conds } x t =
      (site.bindHole s x t).map (Step.putOff conds) := by
  unfold bindHole
  dsimp only
  split <;> rfl

/-- What was put off before matters only where two tensors meet, and only there is something put
off. -/
theorem step_putOff (conds : List Cond) (h : ∀ a b, t = tensor a → u ≠ tensor b) :
    site.lenient.step { s with deferred := conds } t u =
      (site.step s t u).map (Step.putOff conds) ∧
    ∀ result, site.step s t u = .ok result → result.progress.deferred = s.deferred := by
  constructor
  · unfold step
    split
    · exact joinHoles_putOff conds _ _
    · exact bindHole_putOff conds _ _
    · exact bindHole_putOff conds _ _
    · exact absurd rfl (h _ _ rfl)
    all_goals
      (repeat' split) <;> rfl
  · intro result hstep
    unfold step at hstep
    split at hstep
    · exact deferred_joinHoles hstep
    · exact deferred_bindHole hstep
    · exact deferred_bindHole hstep
    · exact absurd rfl (h _ _ rfl)
    all_goals
      (repeat' split at hstep) <;> cases hstep <;> rfl

/-- Of the equations that are left, one side is registered again. -/
theorem anchors_remaining {result : Step} (hc : p.classes.Valid) (ht : p.classes.Resolved t)
    (hu : p.classes.Resolved u) (h : site.step p t u = .ok result)
    (heqs : ∀ e ∈ (t, u) :: rest, p.classes.Anchors e) :
    ∀ e ∈ result.remaining rest, result.progress.classes.Anchors e := by
  rw [List.forall_mem_cons] at heqs
  cases result with
  | solved p' =>
    obtain ⟨hregisters, -⟩ := solved_of_step hc ht hu h
    exact fun e he => (heqs.2 e he).imp
      (fun hall i hi => (hregisters.registered i).mpr (Or.inl (hall i hi)))
      fun hall i hi => (hregisters.registered i).mpr (Or.inl (hall i hi))
  | parts p' eqs =>
    obtain ⟨rfl, -⟩ := parts_of_step h
    refine List.forall_mem_append.mpr ⟨fun e he => ?_, heqs.2⟩
    obtain ⟨hleft, hright⟩ := part_of_step h e he
    exact heqs.1.imp
      (fun hall => forall_mem_ids.mpr fun q hq => forall_mem_ids.mp hall q (hleft.1 q hq))
      fun hall => forall_mem_ids.mpr fun q hq => forall_mem_ids.mp hall q (hright.1 q hq)
  | eliminated p' id image =>
    obtain ⟨⟨-, ⟨c, hregisters, heliminates⟩, -⟩, -⟩ := eliminates_of_step hc ht hu h
    obtain ⟨-, himage, -⟩ := step_eliminated h
    have hregistered : ∀ i, p'.classes.Registered i ↔ p.classes.Registered i ∨ i ∈ t.ids ++ u.ids :=
      fun i => by rw [heliminates.registered, hregisters.registered]
    have hside : ∀ {v : Ty}, (∀ i ∈ v.ids, p.classes.Registered i) →
        ∀ i ∈ (v.eliminate id image).ids, p'.classes.Registered i := by
      intro v hv i hi
      obtain hi | ⟨hi, -⟩ := mem_ids_eliminate hi
      · exact (hregistered i).mpr (Or.inr (List.mem_append.mpr (himage i hi)))
      · exact (hregistered i).mpr (Or.inl (hv i hi))
    intro e he
    obtain ⟨x, hx, rfl⟩ := List.mem_map.mp he
    exact (heqs.2 x hx).imp hside hside

theorem fst_eq_snd_of_mem_zip {ts : List Ty} {e : Ty × Ty} (he : e ∈ ts.zip ts) : e.1 = e.2 :=
  (List.forall₂_iff_zip.mp (List.forall₂_same.mpr fun t _ => Eq.refl t)).2 he

/-- The equation of a type with itself leaves equations of types with themselves. -/
theorem step_self (hlenient : site.strict = false) (ht : ∀ i ∈ t.ids, p.classes.Registered i) :
    ∃ result, site.step p t t = .ok result ∧ p.Like result.progress ∧
      ∃ eqs : Equations, (∀ e ∈ eqs, e.1 = e.2) ∧ ∀ rest, result.remaining rest = eqs ++ rest := by
  have hparts : ∀ eqs : Equations, (∀ e ∈ eqs, e.1 = e.2) → site.step p t t = .ok (.parts p eqs) →
      ∃ result, site.step p t t = .ok result ∧ p.Like result.progress ∧
        ∃ eqs : Equations, (∀ e ∈ eqs, e.1 = e.2) ∧ ∀ rest, result.remaining rest = eqs ++ rest :=
    fun eqs heqs hstep => ⟨_, hstep, ⟨rfl, rfl⟩, eqs, heqs, fun rest => rfl⟩
  have hsolved : ∀ {p'}, site.step p t t = .ok (.solved p') → p.Like p' →
      ∃ result, site.step p t t = .ok result ∧ p.Like result.progress ∧
        ∃ eqs : Equations, (∀ e ∈ eqs, e.1 = e.2) ∧ ∀ rest, result.remaining rest = eqs ++ rest :=
    fun hstep hlike => ⟨_, hstep, hlike, [], fun e he => absurd he List.not_mem_nil, fun rest => rfl⟩
  cases t with
  | tensor a =>
    have hcompare := (compareTensors_self p a).trans (recheck_of_lenient hlenient [] a.shape.zipIdx)
    exact hsolved (congrArg (Except.map Step.solved) hcompare) ⟨rfl, rfl⟩
  | tuple ts => exact hparts (ts.zip ts) (fun e => fst_eq_snd_of_mem_zip) (by rw [step, if_neg (by simp)])
  | ref t => exact hparts [(t, t)] (by simp) rfl
  | call f ts =>
    refine hparts ((f, f) :: ts.zip ts) ?_ (by rw [step, if_neg (by simp)])
    exact List.forall_mem_cons.mpr ⟨rfl, fun e => fst_eq_snd_of_mem_zip⟩
  | hole x => exact hsolved (step_hole_self p rfl) ⟨if_pos (ht x.id (by simp [ids, occurrences])), rfl⟩
  | func ts r vs =>
    refine hparts (ts.zip ts ++ [(r, r)]) ?_ (by rw [step, if_neg (by simp), if_neg (by simp)])
    exact List.forall_mem_append.mpr ⟨fun e => fst_eq_snd_of_mem_zip, by simp⟩
  | var v => exact hsolved (if_pos rfl) ⟨rfl, rfl⟩
  | global g => exact hsolved (if_pos rfl) ⟨rfl, rfl⟩

/-- Equations of one node each may all be left out. -/
theorem Solves.append_self {r : Except TypeError Progress} (heqs : ∀ e ∈ eqs, e.1 = e.2)
    (h : site.Solves s rest r) : site.Solves s (eqs ++ rest) r := by
  induction eqs with
  | nil => exact h
  | cons e eqs ih =>
    obtain ⟨t, u⟩ := e
    rw [List.forall_mem_cons] at heqs
    obtain rfl : t = u := heqs.1
    exact .next (.shared t) (ih heqs.2)

/-- A step follows the same step where no node is shared, and leaves the same equations. -/
theorem step_follows (hlike : s.Like p) (t u : Ty) :
    site.Follows s ((site.step s t u).map Step.progress)
      ((site.lenient.step p t u).map Step.progress) ∧
    ∀ result result', site.step s t u = .ok result → site.lenient.step p t u = .ok result' →
      ∀ rest, result.remaining rest = result'.remaining rest := by
  by_cases htensors : ∃ a b, t = tensor a ∧ u = tensor b
  · obtain ⟨a, b, rfl, rfl⟩ := htensors
    have hfollows := site.compareTensors_follows hlike a b
    simp only [step]
    cases hs : site.compareTensors s a b <;> cases hp : site.lenient.compareTensors p a b <;>
      rw [hs, hp] at hfollows
    · refine ⟨trivial, fun _ _ h => ?_⟩
      cases h
    · refine ⟨hfollows, fun _ _ h => ?_⟩
      cases h
    · exact hfollows.elim
    · refine ⟨hfollows, fun result result' h h' rest => ?_⟩
      cases h
      cases h'
      rfl
  · obtain ⟨hput, hkept⟩ := @step_putOff site s t u p.deferred
      fun a b ht hu => htensors ⟨a, b, ht, hu⟩
    have hp : p = { s with deferred := p.deferred } := by
      cases p
      obtain ⟨rfl, rfl⟩ := hlike
      rfl
    rw [hp, hput]
    cases hstep : site.step s t u with
    | error e =>
      refine ⟨trivial, fun _ _ h => ?_⟩
      cases h
    | ok result =>
      refine ⟨?_, fun _ _ h h' rest => ?_⟩
      · have hfollows : site.Follows s (.ok result.progress)
            (.ok (result.putOff p.deferred).progress) := by
          rw [Follows, Step.progress_putOff]
          have heq := hkept result hstep
          exact ⟨⟨rfl, rfl⟩, heq ▸ fun _ hc => hc, fun c hc => Or.inl (heq ▸ hc), fun hs => heq ▸ hs⟩
        exact hfollows
      · cases h
        cases h'
        rw [Step.remaining_putOff]

/-- The first equation, where nodes may be shared and where none is. -/
theorem Solves.follows_cons {r : Except TypeError Progress} (hanchored : p.classes.Anchors (t, u))
    (hlike : s.Like p) (h : site.Solves s ((t, u) :: rest) r) :
    (∃ e, r = .error e ∧ site.Follows s r ((site.lenient.step p t u).map Step.progress)) ∨
    ∃ result s₁, site.lenient.step p t u = .ok result ∧
      Reaches s s₁ result.progress ∧ site.Solves s₁ (result.remaining rest) r := by
  obtain ⟨rfl, hrest⟩ | ⟨e, hstep, rfl⟩ | ⟨result, hstep, hrest⟩ := solves_cons_iff.mp h
  · obtain ⟨result, hstep, hsame, eqs, heqs, hremaining⟩ :=
      site.lenient.step_self rfl (hanchored.elim (fun h => h) fun h => h)
    refine Or.inr ⟨result, s, hstep, ⟨?_, fun _ hc => hc, fun _ hc => Or.inl hc, id⟩, ?_⟩
    · exact ⟨hsame.classes.trans hlike.classes, hsame.woken.trans hlike.woken⟩
    · rw [hremaining]
      exact hrest.append_self heqs
  · have hfollows := (site.step_follows hlike t u).1
    rw [hstep] at hfollows
    exact Or.inl ⟨e, rfl, hfollows⟩
  · obtain ⟨hfollows, hremaining⟩ := site.step_follows hlike t u
    rw [hstep] at hfollows
    cases hplain : site.lenient.step p t u with
    | error e =>
      rw [hplain] at hfollows
      exact hfollows.elim
    | ok result' =>
      rw [hplain] at hfollows
      rw [hremaining result result' hstep hplain] at hrest
      exact Or.inr ⟨result', result.progress, rfl, hfollows, hrest⟩

/-- Equations follow what they come to without sharing if those left after the first do. -/
theorem Solves.follows_next {r : Except TypeError Progress} {result : Step} (hc : p.classes.Valid)
    (heqs : ∀ i ∈ Equations.ids ((t, u) :: rest), p.classes.Settled i)
    (hanchored : ∀ e ∈ (t, u) :: rest, p.classes.Anchors e) (hlike : s.Like p)
    (h : site.Solves s ((t, u) :: rest) r) (hstep : site.lenient.step p t u = .ok result)
    (ih : ∀ s₁, result.progress.classes.Valid →
      (∀ i ∈ (result.remaining rest).ids, result.progress.classes.Settled i) →
      (∀ e ∈ result.remaining rest, result.progress.classes.Anchors e) → s₁.Like result.progress →
      site.Solves s₁ (result.remaining rest) r →
      site.Follows s₁ r (site.lenient.solve result.progress (result.remaining rest))) :
    site.Follows s r (site.lenient.solve result.progress (result.remaining rest)) := by
  obtain ⟨ht, hu, -⟩ := resolved_of_cons heqs
  have hvalid := (evolves_of_step hc ht hu hstep).valid
  have hsettled := settled_remaining hstep hc heqs
  have hgrows : ∀ p', site.lenient.solve result.progress (result.remaining rest) = .ok p' →
      result.progress.deferred ⊆ p'.deferred :=
    fun p' hp' => (solve_sound hvalid hsettled hp').deferred
  obtain ⟨e, rfl, hfollows⟩ | ⟨result', s₁, hstep', hreaches, hrest⟩ :=
    h.follows_cons (hanchored _ (List.mem_cons_self ..)) hlike
  · rw [hstep] at hfollows
    exact hfollows.stop hgrows
  · rw [hstep] at hstep'
    cases hstep'
    have hanchored := anchors_remaining hc ht hu hstep hanchored
    exact .trans hreaches (ih s₁ hvalid hsettled hanchored hreaches.like hrest) hgrows

/-- Where one side of each equation is registered, all that sharing may change is which dimensions
are put off, or rejected, as equal to themselves. -/
theorem Solves.follows {r : Except TypeError Progress} (hc : p.classes.Valid)
    (heqs : ∀ i ∈ eqs.ids, p.classes.Settled i) (hanchored : ∀ e ∈ eqs, p.classes.Anchors e)
    (hlike : s.Like p) (h : site.Solves s eqs r) : site.Follows s r (site.lenient.solve p eqs) := by
  fun_induction site.lenient.solve p eqs generalizing s with
  | case1 p =>
    rw [solves_nil_iff] at h
    rw [h]
    exact follows_ok hlike
  | case2 p t u rest e hstep =>
    obtain ⟨e', rfl, -⟩ | ⟨result, s₁, hstep', -, -⟩ :=
      h.follows_cons (hanchored _ (List.mem_cons_self ..)) hlike
    · trivial
    · rw [hstep] at hstep'
      cases hstep'
  | case3 p t u rest p' hstep ih | case4 p t u rest p' parts hstep ih
  | case5 p t u rest p' id image hstep ih =>
    exact h.follows_next hc heqs hanchored hlike hstep fun s₁ => ih

end Site

end TensorTyping
