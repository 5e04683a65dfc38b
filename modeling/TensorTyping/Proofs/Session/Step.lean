import TensorTyping.Proofs.Session.Classes.Bind
import TensorTyping.Proofs.Session.Classes.Ensure
import TensorTyping.Proofs.Session.Classes.Join
import TensorTyping.Proofs.Ty.Alike
import TensorTyping.Session.Unify

namespace TensorTyping

open Ty

/-- The classes after some placeholders were registered: nothing else that is known
has changed, and nobody stops waiting. -/
structure Classes.Registers (c c' : Classes) (ids : List UInt32) : Prop where
  valid : c'.Valid
  registered : ∀ i, c'.Registered i ↔ c.Registered i ∨ i ∈ ids
  image? : c'.image? = c.image?
  users : ∀ i, c.users i ⊆ c'.users i

namespace Classes

variable {c c' : Classes} {new : List UInt32}

theorem Registers.refl (h : c.Valid) (hnew : ∀ i ∈ new, c.Registered i) : Registers c c new :=
  ⟨h, fun i => ⟨Or.inl, fun hi => hi.elim id (hnew i)⟩, rfl, fun _ _ hn => hn⟩

theorem Registers.settled (h : Registers c c' new) (i : UInt32) : c'.Settled i ↔ c.Settled i := by
  rw [Settled, Settled, h.image?]

theorem Registers.resolve (h : Registers c c' new) (t : Ty) : c'.resolve t = c.resolve t := by
  rw [Classes.resolve, Classes.resolve, h.image?]

theorem registers_ensure (h : c.Valid) (p : Placeholder) : Registers c (c.ensure p) [p.id] :=
  ⟨h.ensure p, fun i => by rw [registered_ensure, List.mem_singleton], h.image?_ensure p,
    fun i _ hn => h.users_ensure p i ▸ hn⟩

theorem registers_ensureAll (h : c.Valid) (t : Ty) : Registers c (c.ensureAll t.holes) t.ids := by
  refine ⟨h.ensureAll _, fun i => ?_, h.image?_ensureAll _,
    fun i _ hn => h.users_ensureAll t.holes i ▸ hn⟩
  rw [registered_ensureAll, ← id_mem_holes, List.mem_map]

theorem Registers.congr {more : List UInt32} (h : Registers c c' new)
    (hmem : ∀ i, i ∈ new ↔ i ∈ more) : Registers c c' more :=
  ⟨h.valid, fun i => by rw [h.registered, hmem], h.image?, h.users⟩

theorem Registers.trans {c'' : Classes} {more : List UInt32} (h : Registers c c' new)
    (h' : Registers c' c'' more) : Registers c c'' (new ++ more) := by
  refine ⟨h'.valid, fun i => ?_, h'.image?.trans h.image?,
    fun i _ hn => h'.users i (h.users i hn)⟩
  rw [h'.registered, h.registered, List.mem_append, or_assoc]

theorem registers_use (h : c.Valid) (leader : UInt32) (users : List Nat) :
    Registers c (c.use leader users) [] :=
  ⟨h.use leader users, fun i => by rw [registered_use]; simp, image?_use leader users,
    fun _ _ hn => (h.mem_users_use leader users).mpr (Or.inl hn)⟩

/-- Adding users to the classes of some placeholders changes nothing else, and they
are users of those from then on. -/
theorem registers_useAll (h : c.Valid) (qs : List Placeholder) (users : List Nat) :
    Registers c (qs.foldl (fun c q => c.use (c.leader q.id) users) c) [] ∧
      (∀ i, (qs.foldl (fun c q => c.use (c.leader q.id) users) c).leader i = c.leader i) ∧
      ∀ q ∈ qs, c.Registered q.id →
        users ⊆ (qs.foldl (fun c q => c.use (c.leader q.id) users) c).users q.id := by
  induction qs generalizing c with
  | nil =>
    exact ⟨.refl h fun _ hi => absurd hi List.not_mem_nil, fun _ => rfl,
      fun _ hq => absurd hq List.not_mem_nil⟩
  | cons q qs ih =>
    obtain ⟨hregisters, hleader, husers⟩ := ih (h.use (c.leader q.id) users)
    refine ⟨(registers_use h _ _).trans hregisters, fun i => ?_, ?_⟩
    · rw [List.foldl_cons, hleader, leader_use]
    · rw [List.forall_mem_cons]
      constructor
      · intro hq n hn
        exact hregisters.users _ ((h.mem_users_use _ users).mpr (Or.inr ⟨hq, rfl, hn⟩))
      · intro p hp hregistered
        exact husers p hp ((registered_use _ users p.id).mpr hregistered)

end Classes

namespace Site

variable {site : Site} {s s' : Progress}

/-- What is left of some equations is decided by what the first of them comes to. -/
theorem solve_cons (site : Site) (s : Progress) (t u : Ty) (rest : Equations) :
    site.solve s ((t, u) :: rest) =
      match site.step s t u with
      | .error e => .error e
      | .ok (.solved s') => site.solve s' rest
      | .ok (.parts s' eqs) => site.solve s' (eqs ++ rest)
      | .ok (.eliminated s' id image) => site.solve s' (Equations.eliminate id image rest) := by
  rw [solve]
  split <;> simp [*]

/-- Dimensions that unification takes for equal, given the conditions it has put
off. -/
def Compatible (known : Ranges) (deferred : List Cond) (d e : Dim) : Prop :=
  d = e ∨ d = .any ∨ e = .any ∨ known.compare .eq d e = .proven ∨ Cond.eq d e ∈ deferred

theorem Compatible.mono {known : Ranges} {deferred deferred' : List Cond}
    (hsub : deferred ⊆ deferred') {d e : Dim} (h : Compatible known deferred d e) :
    Compatible known deferred' d e :=
  h.imp id (Or.imp id (Or.imp id (Or.imp id fun hmem => hsub hmem)))

/-- Nothing but the conditions put off has changed, and there may be more of
those. -/
structure Defers (s s' : Progress) : Prop where
  classes : s'.classes = s.classes
  woken : s'.woken = s.woken
  deferred : s.deferred ⊆ s'.deferred

theorem Defers.refl (s : Progress) : Defers s s := ⟨rfl, rfl, fun _ h => h⟩

theorem Defers.trans {s'' : Progress} (h : Defers s s') (h' : Defers s' s'') : Defers s s'' :=
  ⟨h'.classes.trans h.classes, h'.woken.trans h.woken, fun _ hc => h'.deferred (h.deferred hc)⟩

theorem compareAxis_ok {axis : Nat} {d e : Dim} (h : site.compareAxis s axis d e = .ok s') :
    Defers s s' ∧ Compatible site.known s'.deferred d e := by
  unfold compareAxis at h
  split at h
  · rename_i hany
    cases h
    exact ⟨.refl s, Or.inr (hany.imp id Or.inl)⟩
  · split at h
    · rename_i hproven
      cases h
      exact ⟨.refl s, Or.inr (Or.inr (Or.inr (Or.inl hproven)))⟩
    · split at h
      · cases h
      · cases h
        refine ⟨⟨?_, ?_, ?_⟩, Or.inr (Or.inr (Or.inr (Or.inr ?_)))⟩ <;> unfold Progress.defer <;>
          split <;> simp_all
    · cases h

theorem compareAxes_ok {axis : Nat} {axes : List (Dim × Dim)}
    (h : site.compareAxes s axis axes = .ok s') :
    Defers s s' ∧ ∀ a ∈ axes, Compatible site.known s'.deferred a.1 a.2 := by
  induction axes generalizing s axis with
  | nil =>
    cases h
    exact ⟨.refl _, fun _ ha => absurd ha List.not_mem_nil⟩
  | cons a axes ih =>
    obtain ⟨d, e⟩ := a
    rw [compareAxes] at h
    cases hhead : site.compareAxis s axis d e with
    | error err =>
      rw [hhead] at h
      cases h
    | ok s₁ =>
      rw [hhead] at h
      obtain ⟨hdefers, hcompatible⟩ := compareAxis_ok hhead
      obtain ⟨hdefers', hrest⟩ := ih h
      refine ⟨hdefers.trans hdefers', ?_⟩
      simp only [List.mem_cons, forall_eq_or_imp]
      exact ⟨hcompatible.mono hdefers'.deferred, hrest⟩

theorem compareTensors_ok {a b : TensorType} (h : site.compareTensors s a b = .ok s') :
    Defers s s' ∧ (tensor a).Alike (Compatible site.known s'.deferred) (tensor b) := by
  unfold compareTensors at h
  split at h
  · cases h
  · rename_i hdtype
    split at h
    · cases h
    · rename_i hrank
      obtain ⟨hdefers, haxes⟩ := compareAxes_ok h
      refine ⟨hdefers, alike_tensor.mpr ⟨not_not.mp hdtype, ?_⟩⟩
      rw [List.forall₂_iff_zip]
      exact ⟨not_not.mp hrank, fun hmem => haxes _ hmem⟩

theorem joinHoles_solved {p q : Placeholder} (hc : s.classes.Valid)
    (hp : s.classes.Settled p.id) (hq : s.classes.Settled q.id)
    (h : site.joinHoles s p q = .ok (.solved s')) :
    s.classes.Registers s'.classes [p.id, q.id] ∧ s'.deferred = s.deferred ∧
      s'.woken = s.woken ∧ p.id = q.id := by
  have hregisters := (Classes.registers_ensure hc p).trans
    (Classes.registers_ensure (hc.ensure p) q)
  unfold joinHoles at h
  dsimp only at h
  split at h
  · rename_i hleader
    cases h
    refine ⟨hregisters, rfl, rfl, ?_⟩
    have hrp : ((s.classes.ensure p).ensure q).Registered p.id :=
      (hregisters.registered _).mpr (by simp)
    have hrq : ((s.classes.ensure p).ensure q).Registered q.id :=
      (hregisters.registered _).mpr (by simp)
    exact hregisters.valid.eq_of_settled hrp hrq ((hregisters.settled _).mpr hp)
      ((hregisters.settled _).mpr hq) hleader
  · split at h
    · cases h
    · split at h <;> cases h

/-- Progress by solving for a placeholder, after some placeholders were registered.
Its users are woken, and also wait for what has taken its place. -/
structure Eliminates (s s' : Progress) (ids : List UInt32) (id : UInt32) (image : Ty) : Prop where
  deferred : s'.deferred = s.deferred
  classes : ∃ c, s.classes.Registers c ids ∧ c.Eliminates s'.classes id image
  woken : s.woken ⊆ s'.woken
  users : ∀ n ∈ s.classes.users id, n ∈ s'.woken ∧ ∀ i ∈ image.ids, n ∈ s'.classes.users i

/-- Two placeholders are joined by solving for the one with the larger id. -/
theorem eliminates_of_joinHoles {p q : Placeholder} {id : UInt32} {image : Ty}
    (hc : s.classes.Valid) (hp : s.classes.Settled p.id) (hq : s.classes.Settled q.id)
    (h : site.joinHoles s p q = .ok (.eliminated s' id image)) :
    Eliminates s s' [p.id, q.id] id image ∧
      ((id = p.id ∧ ∃ r, image = hole r ∧ q.id = r.id) ∨
        (id = q.id ∧ ∃ r, image = hole r ∧ p.id = r.id)) := by
  have hregisters := (Classes.registers_ensure hc p).trans
    (Classes.registers_ensure (hc.ensure p) q)
  have hrp : ((s.classes.ensure p).ensure q).Registered p.id :=
    (hregisters.registered _).mpr (by simp)
  have hrq : ((s.classes.ensure p).ensure q).Registered q.id :=
    (hregisters.registered _).mpr (by simp)
  have hsp := (hregisters.settled _).mpr hp
  have hsq := (hregisters.settled _).mpr hq
  unfold joinHoles at h
  dsimp only at h
  split at h
  · cases h
  · rename_i hleader
    obtain ⟨rp, rq, hclassp, hclassq, heliminates, husers⟩ :=
      Classes.eliminates_join hregisters.valid hrp hrq hsp hsq hleader
    have hleastp : ((s.classes.ensure p).ensure q).least p = rp.least := by
      simp [Classes.least, hclassp]
    have hleastq : ((s.classes.ensure p).ensure q).least q = rq.least := by
      simp [Classes.least, hclassq]
    have hidp := ((Classes.settled_iff hclassp).mp hsp).2
    have hidq := ((Classes.settled_iff hclassq).mp hsq).2
    have hwoken : ∀ (id : UInt32) (image : Ty), id = p.id ∨ id = q.id →
        image.ids = [p.id] ∨ image.ids = [q.id] → ∀ n ∈ s.classes.users id,
          n ∈ (Progress.join { s with classes := (s.classes.ensure p).ensure q } p q).woken ∧
          ∀ i ∈ image.ids, n ∈
            (Progress.join { s with classes := (s.classes.ensure p).ensure q } p q).classes.users i := by
      intro id image hid himage n hn
      have hn := hregisters.users id hn
      have hmem : n ∈ ((s.classes.ensure p).ensure q).users p.id ++
          ((s.classes.ensure p).ensure q).users q.id := by
        obtain rfl | rfl := hid
        · exact List.mem_append_left _ hn
        · exact List.mem_append_right _ hn
      refine ⟨List.mem_append_right _ (husers _ (Or.inl rfl) hmem), fun i hi => husers i ?_ hmem⟩
      obtain himage | himage := himage
      · exact Or.inl (by simpa [himage] using hi)
      · exact Or.inr (by simpa [himage] using hi)
    rw [hleastp, hleastq] at h
    split at h
    · cases h
    · rename_i hkind
      have hkind := not_not.mp hkind
      split at h
      · rename_i hlt
        cases h
        rw [if_pos hlt, if_pos hlt] at heliminates
        have himage : (⟨q.id, rp.least.kind⟩ : Placeholder) = rq.least := by
          rw [hkind, ← hidq]
        refine ⟨⟨rfl, ⟨_, hregisters, ?_⟩, List.subset_append_left _ _,
          hwoken _ _ (Or.inl rfl) (Or.inr rfl)⟩, Or.inl ⟨rfl, _, rfl, rfl⟩⟩
        rw [himage]
        exact heliminates
      · rename_i hlt
        cases h
        rw [if_neg hlt, if_neg hlt] at heliminates
        have himage : (⟨p.id, rp.least.kind⟩ : Placeholder) = rp.least := by
          rw [← hidp]
        refine ⟨⟨rfl, ⟨_, hregisters, ?_⟩, List.subset_append_left _ _,
          hwoken _ _ (Or.inr rfl) (Or.inl rfl)⟩, Or.inr ⟨rfl, _, rfl, rfl⟩⟩
        rw [himage]
        exact heliminates

theorem eliminates_of_bindHole {p : Placeholder} {t : Ty} {id : UInt32} {image : Ty}
    (hc : s.classes.Valid) (hp : s.classes.Settled p.id) (ht : s.classes.Resolved t)
    (h : site.bindHole s p t = .ok (.eliminated s' id image)) :
    Eliminates s s' (p.id :: t.ids) id image ∧ id = p.id ∧ image = t := by
  have hregisters := (Classes.registers_ensure hc p).trans
    (Classes.registers_ensureAll (hc.ensure p) t)
  unfold bindHole at h
  dsimp only at h
  split at h
  · cases h
  · rename_i hocc
    cases h
    obtain ⟨hwaiting, hleader, husers⟩ := Classes.registers_useAll hregisters.valid t.holes
      (((s.classes.ensure p).ensureAll t.holes).users p.id)
    have hall := hregisters.trans hwaiting
    simp only [List.append_nil, List.singleton_append] at hall
    refine ⟨⟨rfl, ⟨_, hall, Classes.eliminates_bind hall.valid ?_ ?_ ?_ ?_⟩,
      List.subset_append_left _ _, ?_⟩, rfl, rfl⟩
    · exact (hall.settled _).mpr hp
    · exact (hall.registered _).mpr (Or.inr List.mem_cons_self)
    · intro i hi
      exact ⟨(hall.settled _).mpr (ht i hi),
        (hall.registered _).mpr (Or.inr (List.mem_cons_of_mem _ hi))⟩
    · intro i hi hlead
      obtain ⟨q, hq, rfl⟩ := List.mem_map.mp (id_mem_holes.mpr hi)
      rw [hleader, hleader] at hlead
      exact hocc (List.any_eq_true.mpr ⟨q, hq, by simpa using hlead⟩)
    · intro n hn
      have hn := hregisters.users p.id hn
      refine ⟨List.mem_append_right _ hn, fun i hi => ?_⟩
      obtain ⟨q, hq, rfl⟩ := List.mem_map.mp (id_mem_holes.mpr hi)
      have hregistered := (hregisters.registered q.id).mpr (Or.inr (List.mem_append_right _ hi))
      have hn := husers q hq hregistered hn
      rw [Progress.bind, Classes.users_bind]
      exact hn

variable {t u : Ty}

theorem settled_of_resolved_hole {c : Classes} {p : Placeholder} (h : c.Resolved (hole p)) :
    c.Settled p.id :=
  h p.id (by simp [ids_hole])

/-- An equation that is solved outright is between tensors, or between types that
are alike. -/
theorem solved_of_step (hc : s.classes.Valid) (ht : s.classes.Resolved t)
    (hu : s.classes.Resolved u) (h : site.step s t u = .ok (.solved s')) :
    s.classes.Registers s'.classes (t.ids ++ u.ids) ∧ s'.woken = s.woken ∧
      ((∃ a b, t = tensor a ∧ u = tensor b ∧ site.compareTensors s a b = .ok s') ∨
        (s'.deferred = s.deferred ∧ ∀ D, t.Alike D u)) := by
  unfold step at h
  split at h
  · rename_i p q
    obtain ⟨hregisters, hdeferred, hwoken, hid⟩ :=
      joinHoles_solved hc (settled_of_resolved_hole ht) (settled_of_resolved_hole hu) h
    exact ⟨hregisters, hwoken, Or.inr ⟨hdeferred, fun D => alike_hole.mpr hid⟩⟩
  · unfold bindHole at h
    dsimp only at h
    split at h <;> cases h
  · unfold bindHole at h
    dsimp only at h
    split at h <;> cases h
  · rename_i a b
    cases hcompare : site.compareTensors s a b with
    | error e =>
      rw [hcompare] at h
      cases h
    | ok s₁ =>
      rw [hcompare] at h
      cases h
      obtain ⟨hdefers, halike⟩ := compareTensors_ok hcompare
      refine ⟨?_, hdefers.woken, Or.inl ⟨a, b, rfl, rfl, hcompare⟩⟩
      rw [hdefers.classes]
      exact .refl hc fun i hi => absurd hi List.not_mem_nil
  · split at h <;> cases h
  · cases h
  · split at h <;> cases h
  · split at h
    · cases h
    · split at h <;> cases h
  · split at h
    · rename_i hid
      cases h
      exact ⟨.refl hc fun i hi => absurd hi List.not_mem_nil, rfl,
        Or.inr ⟨rfl, fun D => alike_var.mpr hid⟩⟩
    · cases h
  · split at h
    · rename_i hname
      cases h
      exact ⟨.refl hc fun i hi => absurd hi List.not_mem_nil, rfl,
        Or.inr ⟨rfl, fun D => alike_global.mpr hname⟩⟩
    · cases h
  · cases h

theorem alike_of_step_solved (hc : s.classes.Valid) (ht : s.classes.Resolved t)
    (hu : s.classes.Resolved u) (h : site.step s t u = .ok (.solved s')) :
    s.deferred ⊆ s'.deferred ∧ t.Alike (Compatible site.known s'.deferred) u := by
  obtain ⟨-, -, ⟨a, b, rfl, rfl, hcompare⟩ | ⟨hdeferred, halike⟩⟩ := solved_of_step hc ht hu h
  · obtain ⟨hdefers, halike⟩ := compareTensors_ok hcompare
    exact ⟨hdefers.deferred, halike⟩
  · exact ⟨fun _ hd => hdeferred ▸ hd, halike _⟩

private theorem forall₂_fill_iff {D : Dim → Dim → Prop} {f : Placeholder → Ty} {ts us : List Ty}
    (hlength : ts.length = us.length) :
    List.Forall₂ (Alike D) (ts.map (fill f)) (us.map (fill f)) ↔
      ∀ e ∈ ts.zip us, (e.1.fill f).Alike D (e.2.fill f) := by
  rw [List.forall₂_map_left_iff, List.forall₂_map_right_iff, List.forall₂_iff_zip]
  exact ⟨fun h e he => h.2 he, fun h => ⟨hlength, fun he => h _ he⟩⟩

private theorem mem_ids_zip {ts us : List Ty} (hlength : ts.length = us.length) {i : UInt32}
    (hi : i ∈ ts.flatMap ids ∨ i ∈ us.flatMap ids) : i ∈ Equations.ids (ts.zip us) := by
  have hts : (ts.zip us).map Prod.fst = ts := List.map_fst_zip (by omega)
  have hus : (ts.zip us).map Prod.snd = us := List.map_snd_zip (by omega)
  rw [Equations.ids, List.mem_flatMap]
  obtain hi | hi := hi
  · obtain ⟨t, ht, hi⟩ := List.mem_flatMap.mp hi
    rw [← hts] at ht
    obtain ⟨e, he, rfl⟩ := List.mem_map.mp ht
    exact ⟨e, he, List.mem_append_left _ hi⟩
  · obtain ⟨u, hu, hi⟩ := List.mem_flatMap.mp hi
    rw [← hus] at hu
    obtain ⟨e, he, rfl⟩ := List.mem_map.mp hu
    exact ⟨e, he, List.mem_append_right _ hi⟩

/-- Taking an equation apart leaves its solutions and its placeholders. -/
theorem parts_of_step {eqs : Equations} (h : site.step s t u = .ok (.parts s' eqs)) :
    s' = s ∧ (∀ i, i ∈ t.ids ∨ i ∈ u.ids → i ∈ eqs.ids) ∧
      ∀ D f, (t.fill f).Alike D (u.fill f) ↔ ∀ e ∈ eqs, (e.1.fill f).Alike D (e.2.fill f) := by
  unfold step at h
  split at h
  · unfold joinHoles at h
    grind
  · unfold bindHole at h
    grind
  · unfold bindHole at h
    grind
  · rename_i a b
    cases hc : site.compareTensors s a b <;> simp [hc, Except.map] at h
  · rename_i ts us
    split at h
    · cases h
    · rename_i hlength
      cases h
      refine ⟨rfl, fun i hi => ?_, fun D f => ?_⟩
      · rw [ids_tuple, ids_tuple] at hi
        exact mem_ids_zip (not_not.mp hlength) hi
      · rw [fill_tuple, fill_tuple, alike_tuple, forall₂_fill_iff (not_not.mp hlength)]
  · cases h
    refine ⟨rfl, fun i hi => ?_, fun D f => ?_⟩
    · simpa [Equations.ids, ids, occurrences] using hi
    · simp
  · rename_i f ts g us
    split at h
    · cases h
    · rename_i hlength
      cases h
      refine ⟨rfl, fun i hi => ?_, fun D f => ?_⟩
      · rw [ids_call, ids_call, List.mem_append, List.mem_append] at hi
        have hzip := mem_ids_zip (not_not.mp hlength) (i := i)
        simp only [Equations.ids, List.flatMap_cons, List.mem_append] at hzip ⊢
        tauto
      · rw [fill_call, fill_call, alike_call, forall₂_fill_iff (not_not.mp hlength),
          List.forall_mem_cons]
  · rename_i ts r vs us r' ws
    split at h
    · cases h
    · rename_i hlength
      split at h
      · cases h
      · rename_i hparams
        cases h
        refine ⟨rfl, fun i hi => ?_, fun D f => ?_⟩
        · rw [ids_func, ids_func, List.mem_append, List.mem_append] at hi
          have hzip := mem_ids_zip (not_not.mp hlength) (i := i)
          simp only [Equations.ids, List.flatMap_append, List.flatMap_cons, List.flatMap_nil,
            List.mem_append] at hzip ⊢
          tauto
        · rw [fill_func, fill_func, alike_func, forall₂_fill_iff (not_not.mp hlength),
            List.forall_mem_append]
          simp [not_not.mp hparams]
  · split at h <;> cases h
  · split at h <;> cases h
  · cases h

/-- A placeholder is solved for what stands on the other side of the equation. -/
theorem eliminates_of_step {id : UInt32} {image : Ty} (hc : s.classes.Valid)
    (ht : s.classes.Resolved t) (hu : s.classes.Resolved u)
    (h : site.step s t u = .ok (.eliminated s' id image)) :
    Eliminates s s' (t.ids ++ u.ids) id image ∧
      ∃ p v, p.id = id ∧ (t = hole p ∧ u = v ∨ t = v ∧ u = hole p) ∧
        (v = image ∨ ∃ q r, v = hole q ∧ image = hole r ∧ q.id = r.id) := by
  unfold step at h
  split at h
  · rename_i p q
    obtain ⟨heliminates, hsides⟩ := eliminates_of_joinHoles hc
      (settled_of_resolved_hole ht) (settled_of_resolved_hole hu) h
    refine ⟨heliminates, ?_⟩
    obtain ⟨rfl, r, rfl, hr⟩ | ⟨rfl, r, rfl, hr⟩ := hsides
    · exact ⟨p, hole q, rfl, Or.inl ⟨rfl, rfl⟩, Or.inr ⟨q, r, rfl, rfl, hr⟩⟩
    · exact ⟨q, hole p, rfl, Or.inr ⟨rfl, rfl⟩, Or.inr ⟨p, r, rfl, rfl, hr⟩⟩
  · rename_i p _
    obtain ⟨heliminates, rfl, rfl⟩ :=
      eliminates_of_bindHole hc (settled_of_resolved_hole ht) hu h
    exact ⟨heliminates, p, _, rfl, Or.inl ⟨rfl, rfl⟩, Or.inl rfl⟩
  · rename_i p _
    obtain ⟨⟨hdeferred, ⟨c, hregisters, heliminates⟩, hwoken, husers⟩, rfl, rfl⟩ :=
      eliminates_of_bindHole hc (settled_of_resolved_hole hu) ht h
    refine ⟨⟨hdeferred, ⟨c, hregisters.congr fun i => ?_, heliminates⟩, hwoken, husers⟩, p, _, rfl,
      Or.inr ⟨rfl, rfl⟩, Or.inl rfl⟩
    rw [ids_hole, List.mem_cons, List.mem_append, List.mem_singleton, or_comm]
  · rename_i a b
    cases hcompare : site.compareTensors s a b <;> simp [hcompare, Except.map] at h
  all_goals
    (repeat' split at h) <;> cases h

end Site

end TensorTyping
