import TensorTyping.Proofs.Session.Placeholders

namespace TensorTyping

open Ty

/-- How classes change when something is learned: members of a class stay together,
only classes that are not bound are joined, and only a class that is not bound is
bound, to a type of other classes that are not bound either. -/
structure Classes.Evolves (c c' : Classes) (new : Option (UInt32 × Ty)) : Prop where
  valid : c'.Valid
  together : ∀ {i j}, c.leader i = c.leader j → c'.leader i = c'.leader j
  joined : ∀ {i j}, c'.leader i = c'.leader j →
    c.leader i = c.leader j ∨ (c.binding? i = none ∧ c.binding? j = none)
  resolve : ∀ t, c'.resolve (c.resolve t) = c'.resolve t
  bound : ∀ i, (c'.binding? i).isSome ↔
    (c.binding? i).isSome ∨ ∃ e ∈ new, c'.leader i = c'.leader e.1
  fresh : ∀ e ∈ new, c.binding? e.1 = none ∧ c'.binding? e.1 = some (c'.resolve e.2) ∧
    ∀ i ∈ e.2.ids, c.binding? i = none ∧ c'.leader i ≠ c'.leader e.1
  least : ∀ {p q}, c'.image p = hole q → ∃ r, c.image p = hole r ∧ q.id ≤ r.id

namespace Classes

variable {c c' : Classes}

theorem Partitioned.binding?_congr (h : c.Partitioned) {i j : UInt32}
    (hleader : c.leader i = c.leader j) : c.binding? i = c.binding? j := by
  by_cases hi : c.Registered i
  · rw [binding?, binding?, class?_congr hi (h.registered_of_leader_eq hi hleader) hleader]
  · have hj : ¬ c.Registered j := fun hj => hi (h.registered_of_leader_eq hj hleader.symm)
    rw [binding?, binding?, class?_of_not_registered hi, class?_of_not_registered hj]

/-- Nothing that is known of placeholders has changed. -/
theorem evolves_of_eq (h : c.Valid) (h' : c'.Valid) (hleader : ∀ i, c'.leader i = c.leader i)
    (hbinding : ∀ i, c'.binding? i = c.binding? i) (himage : c'.image? = c.image?) :
    Evolves c c' none := by
  have hresolve : ∀ t, c'.resolve t = c.resolve t := fun t => by
    rw [Classes.resolve, Classes.resolve, himage]
  refine ⟨h', fun heq => ?_, fun heq => Or.inl ?_, fun t => ?_, fun i => ?_, fun e he => ?_,
    fun {p q} hq => ⟨q, ?_, UInt32.le_refl _⟩⟩
  · rw [hleader, hleader, heq]
  · rwa [hleader, hleader] at heq
  · rw [hresolve, hresolve, h.resolve_resolve]
  · simp [hbinding]
  · cases he
  · rwa [image, himage] at hq

theorem Evolves.refl (h : c.Valid) : Evolves c c none :=
  evolves_of_eq h h (fun _ => rfl) (fun _ => rfl) rfl

/-- What is not bound afterwards was not bound before. -/
theorem Evolves.unbound {new : Option (UInt32 × Ty)} (h : Evolves c c' new) {i : UInt32}
    (hi : c'.binding? i = none) : c.binding? i = none := by
  rw [← Option.not_isSome_iff_eq_none, h.bound, not_or] at hi
  exact Option.not_isSome_iff_eq_none.mp hi.1

theorem Evolves.trans {c'' : Classes} {new : Option (UInt32 × Ty)} (h : Evolves c c' none)
    (h' : Evolves c' c'' new) : Evolves c c'' new := by
  refine ⟨h'.valid, fun heq => h'.together (h.together heq), fun heq => ?_, fun t => ?_, fun i => ?_,
    fun e he => ?_, fun hq => ?_⟩
  · obtain heq | ⟨hi, hj⟩ := h'.joined heq
    · exact h.joined heq
    · exact Or.inr ⟨h.unbound hi, h.unbound hj⟩
  · rw [← h'.resolve, h.resolve, h'.resolve]
  · rw [h'.bound, h.bound]
    simp
  · obtain ⟨hnone, hvalue, hids⟩ := h'.fresh e he
    exact ⟨h.unbound hnone, hvalue, fun i hi => ⟨h.unbound (hids i hi).1, (hids i hi).2⟩⟩
  · obtain ⟨r, hr, hle⟩ := h'.least hq
    obtain ⟨r', hr', hle'⟩ := h.least hr
    exact ⟨r', hr', UInt32.le_trans hle hle'⟩

theorem evolves_ensure (h : c.Valid) (p : Placeholder) : Evolves c (c.ensure p) none :=
  evolves_of_eq h (h.ensure p) (leader_ensure c p) (h.binding?_ensure p) (h.image?_ensure p)

theorem evolves_use (h : c.Valid) (leader : UInt32) (users : List Nat) :
    Evolves c (c.use leader users) none :=
  evolves_of_eq h (h.use leader users) (leader_use leader users) (binding?_use leader users)
    (image?_use leader users)

/-- Changes for one placeholder after another. -/
theorem evolves_foldl {f : Classes → Placeholder → Classes}
    (hf : ∀ {c}, c.Valid → ∀ p, Evolves c (f c p) none) (h : c.Valid) (ps : List Placeholder) :
    Evolves c (ps.foldl f c) none := by
  induction ps generalizing c with
  | nil => exact .refl h
  | cons p ps ih =>
    have hp := hf h p
    exact hp.trans (ih hp.valid)

theorem eq_hole_of_eliminate {t u : Ty} {id : UInt32} {q : Placeholder}
    (h : t.eliminate id u = hole q) : ∃ r, t = hole r := by
  cases t with
  | hole r => exact ⟨r, rfl⟩
  | tensor | var | global => cases h
  | tuple | ref | call | func => simp [eliminate_eq_fill] at h

/-- Solving for a placeholder leaves only smaller ids in place of placeholders. -/
theorem Eliminates.least {id : UInt32} {t : Ty} (h : Eliminates c c' id t)
    (ht : ∀ r, t = hole r → r.id < id) {p q : Placeholder} (hq : c'.image p = hole q) :
    ∃ r, c.image p = hole r ∧ q.id ≤ r.id := by
  rw [← resolve_hole, h.resolve, resolve_hole] at hq
  obtain ⟨r, hr⟩ := eq_hole_of_eliminate hq
  refine ⟨r, hr, ?_⟩
  rw [hr] at hq
  by_cases hid : r.id = id
  · subst hid
    rw [eliminate_hole_self] at hq
    exact UInt32.le_of_lt (ht q hq)
  · rw [eliminate_hole_of_ne hid, hole.injEq] at hq
    rw [hq]
    exact UInt32.le_refl _

theorem Eliminates.resolve_resolve {id : UInt32} {t : Ty} (h : Eliminates c c' id t) (hc : c.Valid)
    (u : Ty) : c'.resolve (c.resolve u) = c'.resolve u := by
  rw [h.resolve, h.resolve, hc.resolve_resolve]

theorem evolves_bind (h : c.Valid) {id : UInt32} {t : Ty} (hsettled : c.Settled id)
    (hid : c.Registered id) (ht : ∀ i ∈ t.ids, c.Settled i ∧ c.Registered i)
    (hfree : ∀ i ∈ t.ids, c.leader i ≠ c.leader id) (hhole : ∀ q, t ≠ hole q) :
    Evolves c (c.bind (c.leader id) t) (some (id, t)) := by
  have heliminates := eliminates_bind h hsettled hid ht hfree
  have hleader := leader_bind c (c.leader id) t
  have hbound := h.isSome_binding?_bind (c.leader id) t
  refine ⟨heliminates.valid, fun heq => ?_, fun heq => Or.inl ?_,
    heliminates.resolve_resolve h, fun i => ?_, ?_,
    fun hq => heliminates.least (fun r hr => absurd hr (hhole r)) hq⟩
  · rw [hleader, hleader, heq]
  · rwa [hleader, hleader] at heq
  · rw [hbound]
    refine or_congr_right ?_
    constructor
    · rintro ⟨-, hlead⟩
      exact ⟨(id, t), rfl, by rw [hleader, hleader, hlead]⟩
    · rintro ⟨e, ⟨⟩, hlead⟩
      rw [hleader, hleader] at hlead
      exact ⟨h.registered_of_leader_eq hid hlead.symm, hlead⟩
  · rintro e ⟨⟩
    obtain ⟨u, hu⟩ := Option.isSome_iff_exists.mp ((hbound id).mpr (Or.inr ⟨hid, rfl⟩))
    refine ⟨hsettled.binding?_eq, ?_, fun i hi => ⟨(ht i hi).1.binding?_eq, ?_⟩⟩
    · have himage := heliminates.resolve (hole ⟨id, .type⟩)
      rw [resolve_hole, resolve_hole, hsettled.image rfl, image_of_binding? hu] at himage
      have hresolved : c.Resolved t := fun i hi => (ht i hi).1
      rw [heliminates.resolve, hresolved.resolve_eq, hu, himage,
        eliminate_eq_self fun hmem => hfree id hmem rfl]
      exact congrArg some (eliminate_hole_self (p := ⟨id, .type⟩) t)
    · rw [hleader, hleader]
      exact hfree i hi

theorem evolves_join (h : c.Valid) {i j : UInt32} (hi : c.Registered i) (hj : c.Registered j)
    (hsi : c.Settled i) (hsj : c.Settled j) (hne : c.leader i ≠ c.leader j) :
    Evolves c (c.join (c.leader i) (c.leader j)) none := by
  obtain ⟨ri, rj, hri, hrj, heliminates, -⟩ := eliminates_join h hi hj hsi hsj hne
  have hleader := h.leader_join_iff hi hj hne
  have hbound := h.isSome_binding?_join hi hj hsi.binding?_eq hsj.binding?_eq hne
  have hunbound : ∀ {k}, c.leader k = c.leader i ∨ c.leader k = c.leader j →
      c.binding? k = none := by
    rintro k (hk | hk)
    · rw [h.binding?_congr hk, hsi.binding?_eq]
    · rw [h.binding?_congr hk, hsj.binding?_eq]
  refine ⟨heliminates.valid, fun heq => (hleader _ _).mpr (Or.inl heq), fun heq => ?_,
    heliminates.resolve_resolve h, fun k => ?_, fun e he => (nomatch he),
    fun hq => heliminates.least (fun r hr => ?_) hq⟩
  · exact ((hleader _ _).mp heq).imp_right fun hmem => ⟨hunbound hmem.1, hunbound hmem.2⟩
  · simp [hbound]
  · rw [hole.injEq] at hr
    rw [← hr]
    have hli := ((settled_iff hri).mp hsi).2
    have hlj := ((settled_iff hrj).mp hsj).2
    split
    · rename_i hlt
      rwa [hlj]
    · rename_i hlt
      rw [hli]
      rw [UInt32.not_lt] at hlt
      exact UInt32.lt_of_le_of_ne hlt fun heq => hne (by rw [heq])

end Classes

namespace Site

variable {site : Site} {s : Progress} {t u : Ty}

/-- The binding that a step made, if it made one. -/
def Step.binding? : Step → Option (UInt32 × Ty)
  | eliminated _ _ (.hole _) => none
  | eliminated _ id image => some (id, image)
  | _ => none

theorem binding?_eliminated {id : UInt32} (h : ∀ q, t ≠ hole q) :
    (Step.eliminated s id t).binding? = some (id, t) := by
  cases t with
  | hole q => exact absurd rfl (h q)
  | tensor | tuple | ref | call | func | var | global => rfl

theorem evolves_of_joinHoles {p q : Placeholder} {result : Step} (hc : s.classes.Valid)
    (hp : s.classes.Settled p.id) (hq : s.classes.Settled q.id)
    (h : site.joinHoles s p q = .ok result) :
    s.classes.Evolves result.progress.classes result.binding? := by
  have hensure := (Classes.evolves_ensure hc p).trans (Classes.evolves_ensure (hc.ensure p) q)
  have hregisters := (Classes.registers_ensure hc p).trans
    (Classes.registers_ensure (hc.ensure p) q)
  unfold joinHoles at h
  dsimp only at h
  split at h
  · cases h
    exact hensure
  · rename_i hleader
    have hjoin := hensure.trans <| Classes.evolves_join hensure.valid
      ((hregisters.registered p.id).mpr (by simp)) ((hregisters.registered q.id).mpr (by simp))
      ((hregisters.settled _).mpr hp) ((hregisters.settled _).mpr hq) hleader
    split at h
    · cases h
    · split at h <;> cases h <;> exact hjoin

theorem evolves_of_bindHole {p : Placeholder} {result : Step} (hc : s.classes.Valid)
    (hp : s.classes.Settled p.id) (ht : s.classes.Resolved t) (hhole : ∀ q, t ≠ hole q)
    (h : site.bindHole s p t = .ok result) :
    s.classes.Evolves result.progress.classes result.binding? := by
  have hregisters := (Classes.registers_ensure hc p).trans
    (Classes.registers_ensureAll (hc.ensure p) t)
  have hensure := (Classes.evolves_ensure hc p).trans
    (Classes.evolves_foldl Classes.evolves_ensure (hc.ensure p) t.holes)
  unfold bindHole at h
  dsimp only at h
  split at h
  · cases h
  · rename_i hocc
    cases h
    obtain ⟨hwaiting, hleader, -⟩ := Classes.registers_useAll hregisters.valid t.holes
      (((s.classes.ensure p).ensureAll t.holes).users p.id)
    have huse := hensure.trans <| Classes.evolves_foldl (f := fun c q => c.use (c.leader q.id)
      (((s.classes.ensure p).ensureAll t.holes).users p.id))
      (fun hc q => Classes.evolves_use hc _ _) hregisters.valid t.holes
    have hall := hregisters.trans hwaiting
    have hfree : ∀ i ∈ t.ids, ((s.classes.ensure p).ensureAll t.holes).leader i ≠
        ((s.classes.ensure p).ensureAll t.holes).leader p.id := by
      intro i hi hlead
      obtain ⟨q, hq, rfl⟩ := List.mem_map.mp (id_mem_holes.mpr hi)
      exact hocc (List.any_eq_true.mpr ⟨q, hq, by simpa using hlead⟩)
    have hsettled := (hall.settled p.id).mpr hp
    have hregistered := (hall.registered p.id).mpr (Or.inr (by simp))
    rw [binding?_eliminated hhole]
    refine huse.trans (Classes.evolves_bind huse.valid hsettled hregistered (fun i hi => ?_)
      (fun i hi => ?_) hhole)
    · exact ⟨(hall.settled i).mpr (ht i hi), (hall.registered i).mpr (Or.inr (by simp [hi]))⟩
    · rw [hleader, hleader]
      exact hfree i hi

/-- Every step changes the classes by at most one binding. -/
theorem evolves_of_step {result : Step} (hc : s.classes.Valid) (ht : s.classes.Resolved t)
    (hu : s.classes.Resolved u) (h : site.step s t u = .ok result) :
    s.classes.Evolves result.progress.classes result.binding? := by
  unfold step at h
  split at h
  · exact evolves_of_joinHoles hc (settled_of_resolved_hole ht) (settled_of_resolved_hole hu) h
  · rename_i p _ hhole
    exact evolves_of_bindHole hc (settled_of_resolved_hole ht) hu (fun q hq => hhole q hq) h
  · rename_i p _ hhole
    exact evolves_of_bindHole hc (settled_of_resolved_hole hu) ht (fun q hq => hhole q hq) h
  · rename_i a b
    cases hcompare : site.compareTensors s a b with
    | error e =>
      rw [hcompare] at h
      cases h
    | ok s₁ =>
      rw [hcompare] at h
      cases h
      rw [Step.progress, (compareTensors_ok hcompare).1.classes]
      exact .refl hc
  all_goals
    (repeat' split at h) <;> cases h <;> exact .refl hc

end Site

end TensorTyping
