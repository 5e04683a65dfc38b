import TensorTyping.Proofs.Session.Placeholders
import TensorTyping.Proofs.Session.Uncertain
import TensorTyping.Proofs.Session.Unify
import TensorTyping.Proofs.Ty.Ground

namespace TensorTyping

open Ty

/-- Any two of some dimensions are known to be equal if they are the same, and to
differ otherwise. -/
def Ranges.Decides (known : Ranges) (S : Dim → Prop) : Prop :=
  ∀ d e, S d → S e → d ≠ .any ∧ known.compare .eq d e = .ofBool (d = e)

/-- A condition says of one of some dimensions that it equals itself, which is not known. -/
def Ranges.Excused (known : Ranges) (S : Dim → Prop) (c : Cond) : Prop :=
  ∃ d, S d ∧ known.Uncertain d ∧ c = .eq d d

/-- None of some dimensions is rejected when it is compared with itself. -/
def Site.Tolerates (site : Site) (S : Dim → Prop) : Prop :=
  site.strict = true → ∀ d, S d → ¬ site.known.Uncertain d

theorem Ranges.Decides.tolerates {site : Site} {S : Dim → Prop} (h : site.known.Decides S) :
    site.Tolerates S := by
  intro _ d hd huncertain
  obtain ⟨-, hcompare⟩ := h d d hd hd
  exact huncertain.2 (by simpa [Verdict.ofBool] using hcompare)

/-- Conditions were put off that are excused, and no others. -/
def Ranges.Excuses (known : Ranges) (S : Dim → Prop) (conds conds' : List Cond) : Prop :=
  ∃ new, (∀ c ∈ new, known.Excused S c) ∧ conds' = addConds conds new

theorem Ranges.Excuses.refl (known : Ranges) (S : Dim → Prop) (conds : List Cond) :
    known.Excuses S conds conds :=
  ⟨[], fun _ hc => absurd hc List.not_mem_nil, rfl⟩

theorem Ranges.Excuses.trans {known : Ranges} {S : Dim → Prop} {conds conds' conds'' : List Cond}
    (h : known.Excuses S conds conds') (h' : known.Excuses S conds' conds'') :
    known.Excuses S conds conds'' := by
  obtain ⟨new, hnew, rfl⟩ := h
  obtain ⟨new', hnew', rfl⟩ := h'
  exact ⟨new ++ new', List.forall_mem_append.mpr ⟨hnew, hnew'⟩, by rw [addConds_append]⟩

namespace Grounding

/-- A choice of types agrees with all merges and bindings. -/
def Satisfies (θ : Grounding) (c : Classes) : Prop :=
  (∀ i j, c.leader i = c.leader j → (θ.ty i).Same (θ.ty j)) ∧
    ∀ i t, c.binding? i = some t → (θ.ty i).Same (t.ground θ)

variable {c c' : Classes} {θ : Grounding}

/-- Agreeing with merges and bindings is agreeing with what stands for
placeholders. -/
theorem satisfies_iff (h : c.Valid) :
    θ.Satisfies c ↔ ∀ p : Placeholder, (θ.ty p.id).Same ((c.image p).ground θ) := by
  constructor
  · rintro ⟨hmerge, hbind⟩ p
    by_cases hp : c.Registered p.id
    · obtain ⟨r, hr⟩ := h.exists_class? hp
      cases hb : r.binding with
      | none =>
        obtain ⟨q, himage, hq⟩ := Classes.exists_image_eq_hole hr hb
        rw [himage, ground_hole, hq]
        exact hmerge _ _ (h.class?_least hr).2.1.symm
      | some t =>
        have hbinding : c.binding? p.id = some t := by simp [Classes.binding?, hr, hb]
        rw [Classes.image_of_binding? hbinding]
        exact hbind _ _ hbinding
    · rw [(Classes.settled_of_not_registered hp).image rfl]
      exact .refl _
  · intro himage
    refine ⟨fun i j hleader => ?_, fun i t ht => ?_⟩
    · by_cases hi : c.Registered i
      · have hj := h.registered_of_leader_eq hi hleader
        obtain ⟨r, hr⟩ := h.exists_class? hi
        have hr' := (Classes.class?_congr hi hj hleader).symm.trans hr
        have heq : (c.image ⟨i, .type⟩).ground θ = (c.image ⟨j, .type⟩).ground θ := by
          cases hb : r.binding with
          | none =>
            obtain ⟨p, hp, hpid⟩ := Classes.exists_image_eq_hole (p := ⟨i, .type⟩) hr hb
            obtain ⟨q, hq, hqid⟩ := Classes.exists_image_eq_hole (p := ⟨j, .type⟩) hr' hb
            rw [hp, hq, ground_hole, ground_hole, hpid, hqid]
          | some t =>
            have hti : c.binding? (Placeholder.mk i .type).id = some t := by
              simp [Classes.binding?, hr, hb]
            have htj : c.binding? (Placeholder.mk j .type).id = some t := by
              simp [Classes.binding?, hr', hb]
            rw [Classes.image_of_binding? hti, Classes.image_of_binding? htj]
        exact (himage ⟨i, .type⟩).trans (heq ▸ (himage ⟨j, .type⟩).symm)
      · have hj : ¬ c.Registered j := fun hj => hi (h.registered_of_leader_eq hj hleader.symm)
        rw [Classes.Partitioned.leader_of_not_registered hi,
          Classes.Partitioned.leader_of_not_registered hj] at hleader
        rw [hleader]
        exact .refl _
    · have ht' : c.binding? (Placeholder.mk i .type).id = some t := ht
      have hi := himage ⟨i, .type⟩
      rwa [Classes.image_of_binding? ht'] at hi

theorem satisfies_iff_resolve (h : c.Valid) :
    θ.Satisfies c ↔ ∀ t : Ty, (t.ground θ).Same ((c.resolve t).ground θ) := by
  rw [satisfies_iff h]
  constructor
  · intro himage t
    rw [Classes.resolve_eq_fill, ground_fill]
    exact (Same.refl t).fill fun p _ q hpq => (hpq ▸ Same.refl _ : (θ.ty p.id).Same _).trans (himage q)
  · intro hresolve p
    have hp := hresolve (hole p)
    rwa [Classes.resolve_hole] at hp

theorem satisfies_registers {ids : List UInt32} (hc : c.Valid) (h : c.Registers c' ids) :
    θ.Satisfies c' ↔ θ.Satisfies c := by
  rw [satisfies_iff_resolve h.valid, satisfies_iff_resolve hc]
  simp only [h.resolve]

theorem same_ground_eliminate {id : UInt32} {t : Ty} (h : (θ.ty id).Same (t.ground θ)) (u : Ty) :
    (u.ground θ).Same ((u.eliminate id t).ground θ) := by
  rw [eliminate_eq_fill, ground_fill]
  refine (Same.refl u).fill fun p _ q hpq => ?_
  split
  · rename_i hq
    rw [hpq, hq]
    exact h
  · rw [ground_hole, hpq]
    exact Same.refl _

/-- Solving for a placeholder rules out the choices that do not respect it, and no
others. -/
theorem satisfies_eliminates (hc : c.Valid) {id : UInt32} {t : Ty} (h : c.Eliminates c' id t)
    (hid : c.Settled id) :
    θ.Satisfies c' ↔ θ.Satisfies c ∧ (θ.ty id).Same (t.ground θ) := by
  rw [satisfies_iff_resolve h.valid, satisfies_iff_resolve hc]
  constructor
  · intro hresolve
    have hsame : (θ.ty id).Same (t.ground θ) := by
      have hp := hresolve (hole ⟨id, .type⟩)
      rw [h.resolve, Classes.resolve_hole, hid.image (p := ⟨id, .type⟩) rfl,
        Classes.eliminate_hole_self] at hp
      exact hp
    refine ⟨fun u => ?_, hsame⟩
    have hu := hresolve u
    rw [h.resolve] at hu
    exact hu.trans (same_ground_eliminate hsame _).symm
  · rintro ⟨hresolve, hsame⟩ u
    rw [h.resolve]
    exact (hresolve u).trans (same_ground_eliminate hsame _)

end Grounding

namespace Site

variable {site : Site} {s s' : Progress} {S : Dim → Prop}

/-- A tensor unifies with itself, and only excused conditions are put off. -/
theorem compareTensors_self_ok (hS : site.Tolerates S) {a : TensorType} (ha : ∀ d ∈ a.shape, S d)
    (s : Progress) : ∃ ds : List Dim, (∀ d ∈ ds, S d ∧ site.known.Uncertain d) ∧
      site.compareTensors s a a = .ok (s.note [] ds) := by
  have hshape : ∀ x ∈ a.shape.zipIdx, S x.1 := fun x hx => ha _ (List.fst_mem_of_mem_zipIdx hx)
  rw [compareTensors_self]
  cases hstrict : site.strict with
  | true =>
    rw [recheck_of_certain fun x hx => hS hstrict x.1 (hshape x hx)]
    exact ⟨[], fun _ hd => absurd hd List.not_mem_nil, rfl⟩
  | false =>
    rw [recheck_of_lenient hstrict]
    refine ⟨_, fun d hd => ?_, rfl⟩
    obtain ⟨x, hx, rfl⟩ := List.mem_map.mp hd
    rw [List.mem_filter, decide_eq_true_eq] at hx
    exact ⟨hshape x hx.1, hx.2⟩

theorem excuses_note {ds : List Dim} (h : ∀ d ∈ ds, S d ∧ site.known.Uncertain d) (s : Progress)
    (ps : List Placeholder) : site.known.Excuses S s.deferred (s.note ps ds).deferred := by
  refine ⟨_, fun c hc => ?_, rfl⟩
  obtain ⟨d, hd, rfl⟩ := List.mem_map.mp hc
  exact ⟨d, (h d hd).1, (h d hd).2, rfl⟩

theorem eq_of_compareAxes_decided (hS : site.known.Decides S) {axis : Nat} {axes : List (Dim × Dim)}
    (haxes : ∀ a ∈ axes, S a.1 ∧ S a.2) (h : site.compareAxes s axis axes = .ok s') :
    ∀ a ∈ axes, a.1 = a.2 := by
  induction axes generalizing axis s with
  | nil => exact fun a ha => absurd ha List.not_mem_nil
  | cons a axes ih =>
    obtain ⟨d, e⟩ := a
    simp only [List.forall_mem_cons] at haxes ⊢
    obtain ⟨hd, hcompare⟩ := hS d e haxes.1.1 haxes.1.2
    obtain ⟨he, -⟩ := hS e d haxes.1.2 haxes.1.1
    rw [compareAxes, compareAxis, if_neg (not_or.mpr ⟨hd, he⟩), hcompare] at h
    by_cases heq : d = e
    · simp only [heq, decide_true, Verdict.ofBool, if_true] at h
      exact ⟨heq, ih haxes.2 h⟩
    · simp only [heq, decide_false, Verdict.ofBool, Bool.false_eq_true, if_false] at h
      cases h

/-- Tensors that unify are the same, if every comparison of dimensions is decided. -/
theorem same_of_compareTensors_decided (hS : site.known.Decides S) {a b : TensorType}
    (ha : ∀ d ∈ a.shape, S d) (hb : ∀ d ∈ b.shape, S d)
    (h : site.compareTensors s a b = .ok s') : (tensor a).Same (tensor b) := by
  have haxes : ∀ x ∈ a.shape.zip b.shape, S x.1 ∧ S x.2 := fun x hx =>
    ⟨ha _ (List.of_mem_zip hx).1, hb _ (List.of_mem_zip hx).2⟩
  unfold compareTensors at h
  split at h
  · cases h
  · rename_i hdtype
    split at h
    · cases h
    · rename_i hrank
      rw [Same, alike_tensor, List.forall₂_iff_zip]
      exact ⟨not_not.mp hdtype, not_not.mp hrank,
        fun hx => eq_of_compareAxes_decided hS haxes h _ hx⟩

end Site

/-- A type has placeholders of one kind, but for those that are registered, and
certain dimensions only. -/
structure Classes.Fits (c : Classes) (k : Kind) (S : Dim → Prop) (t : Ty) : Prop where
  kind : ∀ p ∈ t.occurrences, p.kind = k ∨ c.Registered p.id
  dims : ∀ d ∈ t.dims, S d

/-- All placeholders are of one kind, and what is known holds certain dimensions
only. -/
structure Classes.Uniform (c : Classes) (k : Kind) (S : Dim → Prop) : Prop where
  kind : ∀ p ∈ c.placeholders, p.kind = k
  dims : ∀ p, ∀ d ∈ (c.image p).dims, S d

namespace Classes

variable {c : Classes} {k : Kind} {S : Dim → Prop} {t : Ty}

theorem Partitioned.kind_least (hc : c.Partitioned) (h : ∀ p ∈ c.placeholders, p.kind = k)
    {p : Placeholder} (hp : c.Registered p.id) : (c.least p).kind = k := by
  obtain ⟨r, hr⟩ := hc.exists_class? hp
  obtain ⟨x, hx, hplaceholder, -⟩ := hc.least hr
  have hleast : c.least p = r.least := by simp [Classes.least, hr]
  rw [hleast, ← hplaceholder]
  exact h _ (List.mem_map_of_mem (List.mem_of_find?_eq_some hx))

theorem Uniform.resolve (h : c.Uniform k S) (hc : c.Valid) (ht : c.Fits k S t) :
    c.Fits k S (c.resolve t) := by
  rw [resolve_eq_fill]
  refine ⟨fun p hp => ?_, fun d hd => ?_⟩
  · obtain ⟨q, hq, hpq⟩ := mem_occurrences_fill.mp hp
    by_cases hregistered : c.Registered q.id
    · exact Or.inr (hc.registered_image hregistered (mem_ids.mpr ⟨p, hpq, rfl⟩))
    · rw [(settled_of_not_registered hregistered).image rfl, occurrences, List.mem_singleton] at hpq
      exact hpq ▸ ht.kind q hq
  · obtain hd | ⟨p, -, hd⟩ := mem_dims_fill.mp hd
    · exact ht.dims d hd
    · exact h.dims p d hd

theorem Fits.mono {c' : Classes} (h : c.Fits k S t)
    (hregistered : ∀ i, c.Registered i → c'.Registered i) : c'.Fits k S t :=
  ⟨fun p hp => (h.kind p hp).imp id (hregistered p.id), h.dims⟩

end Classes

namespace Site

variable {site : Site} {s s' : Progress} {S : Dim → Prop} {k : Kind} {t u : Ty}

/-- Placeholders of one kind are always joined. -/
theorem joinHoles_ne_error (hc : s.classes.Valid) (huniform : s.classes.Uniform k S)
    {p q : Placeholder} (hp : s.classes.Fits k S (hole p)) (hq : s.classes.Fits k S (hole q))
    (e : TypeError) : site.joinHoles s p q ≠ .error e := by
  have hregisters := (Classes.registers_ensure hc p).trans
    (Classes.registers_ensure (hc.ensure p) q)
  have hkind : ∀ r ∈ ((s.classes.ensure p).ensure q).placeholders, r.kind = k := by
    intro r hr
    have hfits : ∀ {p}, s.classes.Fits k S (hole p) → ¬ s.classes.Registered p.id → p.kind = k :=
      fun h hregistered => (h.kind _ (by simp [occurrences])).resolve_right hregistered
    obtain hr | ⟨rfl, hregistered⟩ := Classes.mem_placeholders_ensure hr
    · obtain hr | ⟨rfl, hregistered⟩ := Classes.mem_placeholders_ensure hr
      · exact huniform.kind r hr
      · exact hfits hp hregistered
    · rw [Classes.registered_ensure, not_or] at hregistered
      exact hfits hq hregistered.1
  have hkindp := hregisters.valid.kind_least hkind (p := p)
    ((hregisters.registered _).mpr (by simp))
  have hkindq := hregisters.valid.kind_least hkind (p := q)
    ((hregisters.registered _).mpr (by simp))
  intro h
  unfold joinHoles at h
  dsimp only at h
  split at h
  · cases h
  · split at h
    · rename_i hne
      exact hne (hkindp.trans hkindq.symm)
    · split at h <;> cases h

/-- A placeholder is not bound only if it would have to contain itself. -/
theorem mem_ids_of_bindHole_error (hc : s.classes.Valid) {p : Placeholder}
    (hp : s.classes.Settled p.id) (ht : s.classes.Resolved t) {e : TypeError}
    (h : site.bindHole s p t = .error e) : p.id ∈ t.ids := by
  have hregisters := (Classes.registers_ensure hc p).trans
    (Classes.registers_ensureAll (hc.ensure p) t)
  unfold bindHole at h
  dsimp only at h
  split at h
  · rename_i hocc
    obtain ⟨q, hq, hleader⟩ := List.any_eq_true.mp hocc
    have hid : q.id ∈ t.ids := id_mem_holes.mp (List.mem_map_of_mem hq)
    have heq := hregisters.valid.eq_of_settled
      ((hregisters.registered _).mpr (Or.inr (List.mem_append_right _ hid)))
      ((hregisters.registered _).mpr (by simp)) ((hregisters.settled _).mpr (ht _ hid))
      ((hregisters.settled _).mpr hp) (of_decide_eq_true hleader)
    exact heq ▸ hid
  · cases h

/-- An equation that fails has no solution. -/
theorem not_same_of_step_error (hS : site.Tolerates S) (hc : s.classes.Valid)
    (huniform : s.classes.Uniform k S) (ht : s.classes.Resolved t) (hu : s.classes.Resolved u)
    (hft : s.classes.Fits k S t) (hfu : s.classes.Fits k S u) {e : TypeError}
    (h : site.step s t u = .error e) (θ : Grounding) : ¬ (t.ground θ).Same (u.ground θ) := by
  unfold step at h
  split at h
  · exact absurd h (joinHoles_ne_error hc huniform hft hfu e)
  · rename_i p _ hnot
    have hmem := mem_ids_of_bindHole_error hc (settled_of_resolved_hole ht) hu h
    have hhole : u.hole? = none := by
      cases u with
      | hole q => exact absurd rfl (hnot q)
      | _ => rfl
    exact not_same_ground_of_mem hmem rfl hhole θ
  · rename_i p hnot
    have hmem := mem_ids_of_bindHole_error hc (settled_of_resolved_hole hu) ht h
    have hhole : t.hole? = none := by
      cases t with
      | hole q => exact absurd rfl (hnot q)
      | _ => rfl
    exact fun hsame => not_same_ground_of_mem hmem rfl hhole θ hsame.symm
  · rename_i a b
    intro hsame
    have hab := eq_of_same_tensor hsame
    obtain ⟨ds, -, hcompare⟩ := compareTensors_self_ok hS hfu.dims s
    rw [hab, hcompare] at h
    cases h
  · rename_i ts us
    split at h
    · rename_i hlength
      intro hsame
      simp only [ground, fill_tuple, alike_tuple] at hsame
      exact hlength (by simpa using hsame.length_eq)
    · cases h
  · cases h
  · rename_i f ts g us
    split at h
    · rename_i hlength
      intro hsame
      simp only [ground, fill_call, alike_call] at hsame
      exact hlength (by simpa using hsame.2.length_eq)
    · cases h
  · rename_i ts r vs us r' ws
    split at h
    · rename_i hlength
      intro hsame
      simp only [ground, fill_func, alike_func] at hsame
      exact hlength (by simpa using hsame.1.length_eq)
    · split at h
      · rename_i hparams
        intro hsame
        simp only [ground, fill_func, alike_func] at hsame
        exact hparams hsame.2.2
      · cases h
  · split at h
    · cases h
    · rename_i hid
      intro hsame
      exact hid (alike_var.mp hsame)
  · split at h
    · cases h
    · rename_i hname
      intro hsame
      exact hname (alike_global.mp hsame)
  · intro hsame
    cases t <;> cases u <;> simp_all [ground, Alike]
    · rename_i hother
      exact hother _ _ _ _ rfl rfl rfl rfl
    · rename_i hother
      exact hother _ _ _ _ _ _ rfl rfl rfl rfl rfl rfl

/-- One type is a part of another, as far as placeholders and dimensions go. -/
def Part (t u : Ty) : Prop :=
  (∀ p ∈ t.occurrences, p ∈ u.occurrences) ∧ ∀ d ∈ t.dims, d ∈ u.dims

private theorem Part.fits {c : Classes} (h : Part t u) (hu : c.Fits k S u) : c.Fits k S t :=
  ⟨fun p hp => hu.kind p (h.1 p hp), fun d hd => hu.dims d (h.2 d hd)⟩

private theorem part_tuple {ts : List Ty} (ht : t ∈ ts) : Part t (tuple ts) := by
  simp only [Part, occurrences_tuple, dims, dimsAll_eq_flatMap, List.mem_flatMap]
  exact ⟨fun p hp => ⟨t, ht, hp⟩, fun d hd => ⟨t, ht, hd⟩⟩

private theorem part_call {f : Ty} {ts : List Ty} (ht : t = f ∨ t ∈ ts) : Part t (call f ts) := by
  simp only [Part, occurrences_call, dims, dimsAll_eq_flatMap, List.mem_append, List.mem_flatMap]
  obtain rfl | ht := ht
  · exact ⟨fun p hp => Or.inl hp, fun d hd => Or.inl hd⟩
  · exact ⟨fun p hp => Or.inr ⟨t, ht, hp⟩, fun d hd => Or.inr ⟨t, ht, hd⟩⟩

private theorem part_func {ts : List Ty} {r : Ty} {vs : List TypeVar} (ht : t ∈ ts ∨ t = r) :
    Part t (func ts r vs) := by
  simp only [Part, occurrences_func, dims, dimsAll_eq_flatMap, List.mem_append, List.mem_flatMap]
  obtain ht | rfl := ht
  · exact ⟨fun p hp => Or.inl ⟨t, ht, hp⟩, fun d hd => Or.inl ⟨t, ht, hd⟩⟩
  · exact ⟨fun p hp => Or.inr hp, fun d hd => Or.inr hd⟩

/-- The parts of an equation have the placeholders and dimensions of the whole. -/
theorem part_of_step {eqs : Equations} (h : site.step s t u = .ok (.parts s' eqs)) :
    ∀ e ∈ eqs, Part e.1 t ∧ Part e.2 u := by
  unfold step at h
  split at h
  · unfold joinHoles at h
    grind
  · unfold bindHole at h
    grind
  · unfold bindHole at h
    grind
  · rename_i a b
    cases hc : site.compareTensors s a b <;> simp [hc, Except.map] at h
  · split at h <;> cases h
    exact fun e he => ⟨part_tuple (List.of_mem_zip he).1, part_tuple (List.of_mem_zip he).2⟩
  · cases h
    intro e he
    rw [List.mem_singleton.mp he]
    exact ⟨⟨fun _ hp => hp, fun _ hd => hd⟩, ⟨fun _ hp => hp, fun _ hd => hd⟩⟩
  · split at h <;> cases h
    intro e he
    obtain rfl | he := List.mem_cons.mp he
    · exact ⟨part_call (Or.inl rfl), part_call (Or.inl rfl)⟩
    · exact ⟨part_call (Or.inr (List.of_mem_zip he).1), part_call (Or.inr (List.of_mem_zip he).2)⟩
  · split at h
    · cases h
    · split at h <;> cases h
      intro e he
      obtain he | he := List.mem_append.mp he
      · exact ⟨part_func (Or.inl (List.of_mem_zip he).1),
          part_func (Or.inl (List.of_mem_zip he).2)⟩
      · rw [List.mem_singleton.mp he]
        exact ⟨part_func (Or.inr rfl), part_func (Or.inr rfl)⟩
  · split at h <;> cases h
  · split at h <;> cases h
  · cases h

theorem fits_of_parts {c : Classes} {eqs : Equations} (h : site.step s t u = .ok (.parts s' eqs))
    (ht : c.Fits k S t) (hu : c.Fits k S u) : ∀ e ∈ eqs, c.Fits k S e.1 ∧ c.Fits k S e.2 :=
  fun e he => ⟨(part_of_step h e he).1.fits ht, (part_of_step h e he).2.fits hu⟩

/-- After a placeholder was solved for, types with the type in its place fit. -/
theorem fits_eliminate {c c' : Classes} {id : UInt32} {image : Ty} (ht : c.Fits k S t)
    (hregistered : ∀ i, c.Registered i → c'.Registered i)
    (himage : ∀ i ∈ image.ids, c'.Registered i) (hdims : ∀ d ∈ image.dims, S d) :
    c'.Fits k S (t.eliminate id image) := by
  rw [eliminate_eq_fill]
  refine ⟨fun p hp => ?_, fun d hd => ?_⟩
  · obtain ⟨q, hq, hpq⟩ := mem_occurrences_fill.mp hp
    split at hpq
    · exact Or.inr (himage _ (mem_ids.mpr ⟨p, hpq, rfl⟩))
    · rw [occurrences, List.mem_singleton] at hpq
      exact hpq ▸ (ht.kind q hq).imp_right (hregistered q.id)
  · obtain hd | ⟨p, -, hd⟩ := mem_dims_fill.mp hd
    · exact ht.dims d hd
    · split at hd
      · exact hdims d hd
      · cases hd

theorem same_of_step_solved (hS : site.Tolerates S) (hc : s.classes.Valid)
    (ht : s.classes.Resolved t) (hu : s.classes.Resolved u) (hft : s.classes.Fits k S t)
    (hfu : s.classes.Fits k S u)
    (hside : site.known.Decides S ∨ ∃ θ : Grounding, (t.ground θ).Same (u.ground θ))
    (h : site.step s t u = .ok (.solved s')) :
    s.classes.Registers s'.classes (t.ids ++ u.ids) ∧ t.Same u ∧
      site.known.Excuses S s.deferred s'.deferred := by
  obtain ⟨hregisters, -, ⟨a, b, rfl, rfl, hcompare⟩ | ⟨hdeferred, halike⟩⟩ :=
    solved_of_step hc ht hu h
  · have hsame : (tensor a).Same (tensor b) := by
      obtain hS | ⟨θ, hsame⟩ := hside
      · exact same_of_compareTensors_decided hS hft.dims hfu.dims hcompare
      · exact hsame
    have hab := eq_of_same_tensor hsame
    subst hab
    obtain ⟨ds, hds, hself⟩ := compareTensors_self_ok hS hft.dims s
    rw [hself, Except.ok.injEq] at hcompare
    exact ⟨hregisters, hsame, hcompare ▸ excuses_note hds s []⟩
  · exact ⟨hregisters, halike _, hdeferred ▸ .refl _ _ _⟩

theorem dims_image_of_step {id : UInt32} {image : Ty} (hc : s.classes.Valid)
    (ht : s.classes.Resolved t) (hu : s.classes.Resolved u) (hft : s.classes.Fits k S t)
    (hfu : s.classes.Fits k S u) (h : site.step s t u = .ok (.eliminated s' id image)) :
    ∀ d ∈ image.dims, S d := by
  obtain ⟨-, p, v, -, hsides, hv⟩ := eliminates_of_step hc ht hu h
  obtain rfl | ⟨q, r, rfl, rfl, -⟩ := hv
  · obtain ⟨-, rfl⟩ | ⟨rfl, -⟩ := hsides
    · exact hfu.dims
    · exact hft.dims
  · intro d hd
    cases hd

theorem uniform_step {result : Step} (hc : s.classes.Valid) (huniform : s.classes.Uniform k S)
    (ht : s.classes.Resolved t) (hu : s.classes.Resolved u) (hft : s.classes.Fits k S t)
    (hfu : s.classes.Fits k S u) (h : site.step s t u = .ok result) :
    result.progress.classes.Uniform k S := by
  refine ⟨fun q hq => ?_, fun p d hd => ?_⟩
  · obtain hq | ⟨hq | hq, hregistered⟩ := mem_placeholders_step h hq
    · exact huniform.kind q hq
    · exact (hft.kind q hq).resolve_right hregistered
    · exact (hfu.kind q hq).resolve_right hregistered
  · cases result with
    | solved s₁ =>
      obtain ⟨hregisters, -⟩ := solved_of_step hc ht hu h
      refine huniform.dims p d ?_
      rwa [Step.progress, ← Classes.resolve_hole, hregisters.resolve, Classes.resolve_hole] at hd
    | parts s₁ eqs =>
      obtain ⟨rfl, -⟩ := parts_of_step h
      exact huniform.dims p d hd
    | eliminated s₁ id image =>
      have himage := dims_image_of_step hc ht hu hft hfu h
      obtain ⟨⟨-, ⟨c, hregisters, heliminates⟩, -⟩, -⟩ := eliminates_of_step hc ht hu h
      rw [Step.progress, ← Classes.resolve_hole, heliminates.resolve, hregisters.resolve,
        Classes.resolve_hole, eliminate_eq_fill] at hd
      obtain hd | ⟨q, -, hd⟩ := mem_dims_fill.mp hd
      · exact huniform.dims p d hd
      · split at hd
        · exact himage d hd
        · cases hd

private theorem same_ground_iff {v image : Ty} {p : Placeholder} {θ : Grounding}
    (hsides : t = hole p ∧ u = v ∨ t = v ∧ u = hole p)
    (hv : v = image ∨ ∃ q r, v = hole q ∧ image = hole r ∧ q.id = r.id) :
    (θ.ty p.id).Same (image.ground θ) ↔ (t.ground θ).Same (u.ground θ) := by
  have hground : v.ground θ = image.ground θ := by
    obtain rfl | ⟨q, r, rfl, rfl, hqr⟩ := hv
    · rfl
    · rw [ground_hole, ground_hole, hqr]
  obtain ⟨rfl, rfl⟩ | ⟨rfl, rfl⟩ := hsides
  · rw [ground_hole, hground]
  · rw [ground_hole, hground]
    exact ⟨Same.symm, Same.symm⟩

/-- What solving equations comes to where no dimension is taken for another: exactly
the choices that solve all equations are left. -/
structure Exact (site : Site) (k : Kind) (S : Dim → Prop) (s s' : Progress) (eqs : Equations) :
    Prop where
  uniform : s'.classes.Uniform k S
  deferred : site.known.Excuses S s.deferred s'.deferred
  satisfies : ∀ θ : Grounding, θ.Satisfies s'.classes ↔
    θ.Satisfies s.classes ∧ ∀ e ∈ eqs, (e.1.ground θ).Same (e.2.ground θ)

/-- No dimension is taken for another: all comparisons are decided, or some choice
solves the equations as they are. -/
def Strict (site : Site) (S : Dim → Prop) (s : Progress) (eqs : Equations) : Prop :=
  site.known.Decides S ∨
    ∃ θ : Grounding, θ.Satisfies s.classes ∧ ∀ e ∈ eqs, (e.1.ground θ).Same (e.2.ground θ)

theorem Strict.of_imp {eqs eqs' : Equations} (h : site.Strict S s eqs)
    (himp : ∀ θ : Grounding, (θ.Satisfies s.classes ∧
      ∀ e ∈ eqs, (e.1.ground θ).Same (e.2.ground θ)) → θ.Satisfies s'.classes ∧
      ∀ e ∈ eqs', (e.1.ground θ).Same (e.2.ground θ)) : site.Strict S s' eqs' :=
  h.imp id fun h => h.elim fun θ hθ => ⟨θ, himp θ hθ⟩

/-- The equations that are left after a placeholder was solved for hold nothing
new. -/
theorem fits_of_step_eliminated {id : UInt32} {image : Ty} {rest : Equations}
    (hc : s.classes.Valid) (ht : s.classes.Resolved t) (hu : s.classes.Resolved u)
    (hft : s.classes.Fits k S t) (hfu : s.classes.Fits k S u)
    (hrest : ∀ e ∈ rest, s.classes.Fits k S e.1 ∧ s.classes.Fits k S e.2)
    (h : site.step s t u = .ok (.eliminated s' id image)) :
    ∀ e ∈ Equations.eliminate id image rest,
      s'.classes.Fits k S e.1 ∧ s'.classes.Fits k S e.2 := by
  obtain ⟨⟨-, ⟨c, hregisters, heliminates⟩, -⟩, -⟩ := eliminates_of_step hc ht hu h
  obtain ⟨-, himage, -⟩ := step_eliminated h
  have hregistered : ∀ i, s'.classes.Registered i ↔ s.classes.Registered i ∨ i ∈ t.ids ++ u.ids :=
    fun i => by rw [heliminates.registered, hregisters.registered]
  have hfits : ∀ {w : Ty}, s.classes.Fits k S w → s'.classes.Fits k S (w.eliminate id image) :=
    fun hw => fits_eliminate hw (fun i hi => (hregistered i).mpr (Or.inl hi))
      (fun i hi => (hregistered i).mpr (Or.inr (List.mem_append.mpr (himage i hi))))
      (dims_image_of_step hc ht hu hft hfu h)
  intro e he
  obtain ⟨x, hx, rfl⟩ := List.mem_map.mp he
  exact ⟨hfits (hrest x hx).1, hfits (hrest x hx).2⟩

/-- Solving an equation for a placeholder keeps the solutions of all equations. -/
theorem satisfies_step_eliminated {id : UInt32} {image : Ty} (rest : Equations)
    (hc : s.classes.Valid) (ht : s.classes.Resolved t) (hu : s.classes.Resolved u)
    (h : site.step s t u = .ok (.eliminated s' id image)) (θ : Grounding) :
    (θ.Satisfies s'.classes ∧
        ∀ e ∈ Equations.eliminate id image rest, (e.1.ground θ).Same (e.2.ground θ)) ↔
      θ.Satisfies s.classes ∧ ∀ e ∈ (t, u) :: rest, (e.1.ground θ).Same (e.2.ground θ) := by
  obtain ⟨⟨-, ⟨c, hregisters, heliminates⟩, -⟩, p, v, rfl, hsides, hv⟩ :=
    eliminates_of_step hc ht hu h
  have hsettled : c.Settled p.id := (hregisters.settled _).mpr (by
    obtain ⟨rfl, -⟩ | ⟨-, rfl⟩ := hsides
    · exact settled_of_resolved_hole ht
    · exact settled_of_resolved_hole hu)
  rw [Grounding.satisfies_eliminates hregisters.valid heliminates hsettled,
    Grounding.satisfies_registers hc hregisters, and_assoc, List.forall_mem_cons]
  refine and_congr_right fun _ => ?_
  rw [same_ground_iff hsides hv]
  refine and_congr_right fun hsame => ?_
  have hsame := (same_ground_iff hsides hv).mpr hsame
  simp only [Equations.eliminate, List.forall_mem_map]
  refine forall₂_congr fun e _ => ?_
  have hleft := Grounding.same_ground_eliminate hsame e.1
  have hright := Grounding.same_ground_eliminate hsame e.2
  exact ⟨fun h => (hleft.trans h).trans hright.symm, fun h => (hleft.symm.trans h).trans hright⟩

theorem solve_exact (hS : site.Tolerates S) {eqs : Equations} (hc : s.classes.Valid)
    (huniform : s.classes.Uniform k S) (hstrict : site.Strict S s eqs)
    (heqs : ∀ i ∈ eqs.ids, s.classes.Settled i)
    (hfits : ∀ e ∈ eqs, s.classes.Fits k S e.1 ∧ s.classes.Fits k S e.2) :
    (∀ s', site.solve s eqs = .ok s' → site.Exact k S s s' eqs) ∧
      ∀ e, site.solve s eqs = .error e → ∀ θ : Grounding, θ.Satisfies s.classes →
        ¬ ∀ e ∈ eqs, (e.1.ground θ).Same (e.2.ground θ) := by
  fun_induction site.solve s eqs with
  | case1 s =>
    refine ⟨fun s' h => ?_, fun e h => by cases h⟩
    cases h
    exact ⟨huniform, .refl _ _ _, fun θ => by simp⟩
  | case2 s t u rest e hstep =>
    refine ⟨fun s' h => (by cases h), fun _ _ θ _ hsame => ?_⟩
    rw [List.forall_mem_cons] at hfits hsame
    obtain ⟨ht, hu, -⟩ := resolved_of_cons heqs
    exact not_same_of_step_error hS hc huniform ht hu hfits.1.1 hfits.1.2 hstep θ hsame.1
  | case3 s t u rest s₁ hstep ih =>
    rw [List.forall_mem_cons] at hfits
    obtain ⟨ht, hu, hsettled⟩ := resolved_of_cons heqs
    have hside : site.known.Decides S ∨ ∃ θ : Grounding, (t.ground θ).Same (u.ground θ) := by
      refine hstrict.imp id ?_
      rintro ⟨θ, -, hsame⟩
      exact ⟨θ, hsame _ List.mem_cons_self⟩
    obtain ⟨hregisters, hsame, hdeferred⟩ :=
      same_of_step_solved hS hc ht hu hfits.1.1 hfits.1.2 hside hstep
    have hiff : ∀ θ : Grounding,
        (θ.Satisfies s₁.classes ∧ ∀ e ∈ rest, (e.1.ground θ).Same (e.2.ground θ)) ↔
          θ.Satisfies s.classes ∧ ∀ e ∈ (t, u) :: rest, (e.1.ground θ).Same (e.2.ground θ) := by
      intro θ
      rw [Grounding.satisfies_registers hc hregisters, List.forall_mem_cons]
      exact and_congr_right fun _ => (and_iff_right (hsame.ground (fun _ => rfl) θ)).symm
    obtain ⟨hok, herror⟩ := ih hregisters.valid (uniform_step hc huniform ht hu hfits.1.1 hfits.1.2 hstep)
      (hstrict.of_imp fun θ hθ => (hiff θ).mpr hθ)
      (fun i hi => (hregisters.settled i).mpr (hsettled i hi))
      fun e he => ⟨(hfits.2 e he).1.mono fun i hi => (hregisters.registered i).mpr (Or.inl hi),
        (hfits.2 e he).2.mono fun i hi => (hregisters.registered i).mpr (Or.inl hi)⟩
    refine ⟨fun s' h => ?_, fun e h θ hθ hsame => ?_⟩
    · have hrest := hok s' h
      exact ⟨hrest.uniform, hdeferred.trans hrest.deferred, fun θ => by rw [hrest.satisfies, hiff]⟩
    · obtain ⟨hθ, hsame⟩ := (hiff θ).mpr ⟨hθ, hsame⟩
      exact herror e h θ hθ hsame
  | case4 s t u rest s₁ eqs' hstep ih =>
    rw [List.forall_mem_cons] at hfits
    have hparts := fits_of_parts hstep hfits.1.1 hfits.1.2
    obtain ⟨rfl, -, halike⟩ := parts_of_step hstep
    have hiff : ∀ θ : Grounding, (∀ e ∈ eqs' ++ rest, (e.1.ground θ).Same (e.2.ground θ)) ↔
        ∀ e ∈ (t, u) :: rest, (e.1.ground θ).Same (e.2.ground θ) := by
      intro θ
      rw [List.forall_mem_append, List.forall_mem_cons]
      exact and_congr_left fun _ => (halike _ _).symm
    obtain ⟨hok, herror⟩ := ih hc huniform (hstrict.of_imp fun θ hθ => ⟨hθ.1, (hiff θ).mpr hθ.2⟩)
      (fun i hi => by
        rw [mem_ids_append] at hi
        refine heqs i (mem_ids_cons.mpr (hi.imp_left fun hi => ?_))
        exact List.mem_append.mpr ((step_parts hstep).1 i hi))
      (List.forall_mem_append.mpr ⟨hparts, hfits.2⟩)
    refine ⟨fun s' h => ?_, fun e h θ hθ hsame => herror e h θ hθ ((hiff θ).mpr hsame)⟩
    have hrest := hok s' h
    exact ⟨hrest.uniform, hrest.deferred, fun θ => by rw [hrest.satisfies, hiff]⟩
  | case5 s t u rest s₁ id image hstep ih =>
    rw [List.forall_mem_cons] at hfits
    obtain ⟨ht, hu, -⟩ := resolved_of_cons heqs
    obtain ⟨⟨hdeferred, ⟨c, -, heliminates⟩, -⟩, -⟩ := eliminates_of_step hc ht hu hstep
    have hiff := satisfies_step_eliminated rest hc ht hu hstep
    obtain ⟨hok, herror⟩ := ih heliminates.valid
      (uniform_step hc huniform ht hu hfits.1.1 hfits.1.2 hstep)
      (hstrict.of_imp fun θ hθ => (hiff θ).mpr hθ) (settled_of_step_eliminated hc heqs hstep)
      (fits_of_step_eliminated hc ht hu hfits.1.1 hfits.1.2 hfits.2 hstep)
    refine ⟨fun s' h => ?_, fun e h θ hθ hsame => ?_⟩
    · have hrest := hok s' h
      exact ⟨hrest.uniform, hdeferred ▸ hrest.deferred, fun θ => by rw [hrest.satisfies, hiff]⟩
    · obtain ⟨hθ, hsame⟩ := (hiff θ).mpr ⟨hθ, hsame⟩
      exact herror e h θ hθ hsame

/-- Where no dimension is taken for another, unification leaves exactly the choices
that make two types the same, and fails only if there are none. -/
theorem unify_exact (hS : site.Tolerates S) (hc : s.classes.Valid)
    (huniform : s.classes.Uniform k S) (ht : s.classes.Fits k S t) (hu : s.classes.Fits k S u)
    (hstrict : site.Strict S s [(t, u)]) :
    (∀ s', site.unify s t u = .ok s' → site.Exact k S s s' [(t, u)]) ∧
      ∀ e, site.unify s t u = .error e → ∀ θ : Grounding, θ.Satisfies s.classes →
        ¬ (t.ground θ).Same (u.ground θ) := by
  have hsettled := settled_sides hc t u
  have hfits : ∀ e ∈ [(s.classes.resolve t, s.classes.resolve u)],
      s.classes.Fits k S e.1 ∧ s.classes.Fits k S e.2 := by
    rw [List.forall_mem_singleton]
    exact ⟨huniform.resolve hc ht, huniform.resolve hc hu⟩
  have hiff : ∀ θ : Grounding, θ.Satisfies s.classes →
      (((s.classes.resolve t).ground θ).Same ((s.classes.resolve u).ground θ) ↔
        (t.ground θ).Same (u.ground θ)) := by
    intro θ hθ
    have hresolve := (Grounding.satisfies_iff_resolve hc).mp hθ
    exact ⟨fun h => ((hresolve t).trans h).trans (hresolve u).symm,
      fun h => ((hresolve t).symm.trans h).trans (hresolve u)⟩
  have hstrict' : site.Strict S s [(s.classes.resolve t, s.classes.resolve u)] := by
    refine hstrict.of_imp fun θ hθ => ⟨hθ.1, ?_⟩
    rw [List.forall_mem_singleton]
    exact (hiff θ hθ.1).mpr (hθ.2 _ List.mem_cons_self)
  obtain ⟨hok, herror⟩ := solve_exact hS hc huniform hstrict' hsettled hfits
  refine ⟨fun s' h => ?_, fun e h θ hθ hsame => ?_⟩
  · have hexact := hok s' h
    refine ⟨hexact.uniform, hexact.deferred, fun θ => ?_⟩
    rw [hexact.satisfies, List.forall_mem_singleton, List.forall_mem_singleton]
    exact and_congr_right (hiff θ)
  · refine herror e h θ hθ ?_
    rw [List.forall_mem_singleton]
    exact (hiff θ hθ).mpr hsame

end Site

/-- Whatever is chosen for placeholders that nothing is known of, the rest can be
chosen to agree with what is known. -/
theorem Grounding.exists_satisfies {c : Classes} (hc : c.Valid) (ρ : Grounding) :
    ∃ θ : Grounding, θ.Satisfies c ∧ ∀ t : Ty, t.ground θ = (c.resolve t).ground ρ := by
  have hkind : ∀ p : Placeholder,
      (c.image ⟨p.id, .type⟩).ground ρ = (c.image p).ground ρ := by
    intro p
    have himage : c.image? ⟨p.id, .type⟩ = c.image? p := Classes.image?_congr rfl
    rw [Classes.image, Classes.image, himage]
    cases c.image? p <;> rfl
  let θ : Grounding := ⟨fun id => (c.image ⟨id, .type⟩).ground ρ, fun id => isComplete_ground ρ _⟩
  have hground : ∀ t : Ty, t.ground θ = (c.resolve t).ground ρ := by
    intro t
    rw [Classes.resolve_eq_fill, ground_fill]
    exact fill_congr fun p _ => hkind p
  refine ⟨θ, (Grounding.satisfies_iff_resolve hc).mpr fun t => ?_, hground⟩
  rw [hground, hground, hc.resolve_resolve]
  exact Same.refl _

end TensorTyping
