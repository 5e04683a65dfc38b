import TensorTyping.Proofs.Rule.Meaning
import TensorTyping.Proofs.Session.Run
import TensorTyping.Proofs.Session.Unifier

namespace TensorTyping

open Ty

namespace Session

variable {s s' : Session}

theorem isPending_congr (h : s'.entries = s.entries) (number : Nat) :
    s'.isPending number = s.isPending number := by
  rw [isPending, isPending, h]

theorem mem_queue_wake (s : Session) (number n : Nat) :
    n ∈ (s.wake number).queue ↔ n ∈ s.queue ∨ (n = number ∧ s.isPending n = true) := by
  unfold wake
  split
  · rename_i hwake
    rw [Bool.and_eq_true] at hwake
    rw [List.mem_append, List.mem_singleton]
    exact or_congr_right ⟨fun hn => ⟨hn, hn ▸ hwake.1⟩, fun hn => hn.1⟩
  · rename_i hwake
    refine ⟨Or.inl, fun hn => hn.elim id ?_⟩
    rintro ⟨rfl, hpending⟩
    simpa [hpending] using hwake

theorem mem_queue_foldl_wake (s : Session) (numbers : List Nat) (n : Nat) :
    n ∈ (numbers.foldl wake s).queue ↔ n ∈ s.queue ∨ (n ∈ numbers ∧ s.isPending n = true) := by
  induction numbers generalizing s with
  | nil => simp
  | cons m numbers ih =>
    rw [List.foldl_cons, ih, mem_queue_wake, isPending_congr (frames_wake s m).entries,
      List.mem_cons, or_assoc, or_and_right]

/-- Relations that watch what has become known are on the worklist. -/
structure Wakes (s s' : Session) : Prop where
  queue : s.queue ⊆ s'.queue
  watched : ∀ n t, s.classes.Watched n t → s'.classes.Watched n t
  wakes : ∀ n t, s.isPending n = true → s.classes.Watched n t →
    s'.resolve t = s.resolve t ∨ n ∈ s'.queue

theorem Wakes.of_eq (hclasses : s'.classes = s.classes) (hqueue : s'.queue = s.queue) :
    Wakes s s' :=
  ⟨fun _ hn => hqueue ▸ hn, fun _ _ hw => hclasses ▸ hw,
    fun _ t _ _ => Or.inl (by rw [resolve, resolve, hclasses])⟩

theorem Wakes.trans {s'' : Session} (h : Wakes s s') (h' : Wakes s' s'')
    (hentries : s'.entries = s.entries) : Wakes s s'' := by
  refine ⟨fun _ hn => h'.queue (h.queue hn), fun n t hw => h'.watched n t (h.watched n t hw),
    fun n t hpending hw => ?_⟩
  obtain heq | hn := h.wakes n t hpending hw
  · rw [← heq]
    exact h'.wakes n t (isPending_congr hentries n ▸ hpending) (h.watched n t hw)
  · exact Or.inr (h'.queue hn)

theorem assign_wakes (hc : s.classes.Valid) (dst src : Ty) : Wakes s (s.assign dst src) := by
  obtain ⟨-, heq⟩ | ⟨e, -, -, heq⟩ | ⟨p, -, hunify, heq⟩ := assign_cases s dst src <;> rw [heq]
  · exact .of_eq rfl rfl
  · exact .of_eq rfl rfl
  · have hwakes := (Site.unify_sound hc hunify).wakes
    obtain ⟨hclasses, -⟩ := foldl_wake_fields
      { s with classes := p.classes, deferred := p.deferred } p.woken
    refine ⟨fun n hn => ?_, fun n t hw => ?_, fun n t hpending hw => ?_⟩
    · rw [mem_queue_foldl_wake]
      exact Or.inl hn
    · rw [hclasses]
      exact hwakes.watched n t hw
    · rw [mem_queue_foldl_wake, resolve, hclasses]
      exact (hwakes.wakes n t hw).imp id fun hn => Or.inr ⟨hn, hpending⟩

theorem assert_wakes (s : Session) (cond : Cond) : Wakes s (s.assert cond).2 := by
  obtain ⟨deferred, failure, heq⟩ := exists_assert_eq s cond
  rw [heq]
  exact .of_eq rfl rfl

theorem run_wakes (r : Resolution) (hc : s.classes.Valid) : Wakes s (r.run reporter s).state := by
  induction r generalizing s with
  | done resolved => exact .of_eq rfl rfl
  | assign dst src next ih =>
    exact (assign_wakes hc dst src).trans (ih (assign_grows hc dst src).valid)
      (frames_assign s dst src).entries
  | assert cond next ih =>
    exact (assert_wakes s cond).trans (ih _ (assert_grows hc cond).valid) (frames_assert s cond).entries
  | locate span next ih =>
    have hlocate : Wakes s { s with location := span } := .of_eq rfl rfl
    exact hlocate.trans (ih (locate_grows hc span).valid) rfl

/-- What a session learns from a rule that is resolved, where no dimension is taken for
another. Conditions that a dimension equals itself may be put off besides. -/
structure Learns (k : Kind) (S : Dim → Prop) (s s' : Session) (r : Resolution) : Prop where
  uniform : s'.classes.Uniform k S
  registered : ∀ i, s'.classes.Registered i ↔ s.classes.Registered i ∨ ∃ t ∈ r.types, i ∈ t.ids
  deferred : ∀ c, ¬ s.known.Excused S c →
    (c ∈ s'.deferred ↔ c ∈ s.deferred ∨ (c ∈ r.conds ∧ s.known.prove c = .unknown))
  nodup : s.deferred.Nodup → s'.deferred.Nodup
  satisfies : ∀ θ : Grounding, θ.Satisfies s'.classes ↔
    θ.Satisfies s.classes ∧ r.Accepts s.known θ

variable {k : Kind} {S : Dim → Prop} {dst src : Ty} {r : Resolution}

theorem assign_accepted (hlenient : s.config.strictShapes = false) (hc : s.classes.Valid)
    (huniform : s.classes.Uniform k S) (hnone : s.failure = none)
    (hdst : s.classes.Fits k S dst) (hsrc : s.classes.Fits k S src) {θ : Grounding}
    (hθ : θ.Satisfies s.classes) (hsame : (dst.ground θ).Same (src.ground θ)) :
    (s.assign dst src).failure = none ∧
      Learns k S s (s.assign dst src) (.assign dst src (.done true)) := by
  have htolerates : s.site.Tolerates S := fun hstrict => absurd (hlenient.symm.trans hstrict) nofun
  have hstrict : s.site.Strict S ⟨s.classes, s.deferred, []⟩ [(dst, src)] :=
    Or.inr ⟨θ, hθ, List.forall_mem_singleton.mpr hsame⟩
  obtain ⟨hok, herror⟩ := @Site.unify_exact s.site ⟨s.classes, s.deferred, []⟩ S k dst src
    htolerates hc huniform hdst hsrc hstrict
  cases hunify : s.site.unify ⟨s.classes, s.deferred, []⟩ dst src with
  | error e => exact absurd hsame (herror e hunify θ hθ)
  | ok p =>
    have hexact := hok p hunify
    have hsound := Site.unify_sound hc hunify
    rw [assign_of_ok hnone hunify]
    obtain ⟨hclasses, hknown, hdeferred, hfailure⟩ := foldl_wake_fields
      { s with classes := p.classes, deferred := p.deferred } p.woken
    obtain ⟨new, hnew, hadd⟩ := hexact.deferred
    refine ⟨hfailure.trans hnone, ?_, fun i => ?_, fun c hc => ?_, fun hd => ?_, fun θ => ?_⟩
    · rw [hclasses]
      exact hexact.uniform
    · rw [hclasses, hsound.registered]
      simp [Equations.ids, Resolution.types]
    · rw [hdeferred, hadd, mem_addConds]
      simp [Resolution.conds, mt (hnew c) hc]
    · rw [hdeferred, hadd]
      exact nodup_addConds hd new
    · rw [hclasses, hexact.satisfies, List.forall_mem_singleton]
      simp [Resolution.Accepts]

theorem assert_accepted (hnone : s.failure = none) {cond : Cond}
    (hcond : s.known.prove cond ≠ .refuted) :
    (s.assert cond).1 = true ∧ (s.assert cond).2.failure = none ∧
      (s.assert cond).2.classes = s.classes ∧
      (s.assert cond).2.deferred = if s.known.prove cond = .unknown ∧ cond ∉ s.deferred then
        s.deferred ++ [cond] else s.deferred := by
  unfold assert
  rw [if_neg (by simp [hnone])]
  split
  · rename_i hproven
    simp [hproven, hnone]
  · rename_i hunknown
    by_cases hmem : cond ∈ s.deferred
    · simp [hunknown, hmem, hnone]
    · simp [hunknown, hmem, hnone]
  · rename_i hrefuted
    exact absurd hrefuted hcond

/-- What is put off once a question that may hold has been answered. -/
theorem mem_deferred_assert (hnone : s.failure = none) {cond : Cond}
    (hcond : s.known.prove cond ≠ .refuted) {c : Cond} : c ∈ (s.assert cond).2.deferred ↔
      c ∈ s.deferred ∨ (c = cond ∧ s.known.prove cond = .unknown) := by
  rw [(assert_accepted hnone hcond).2.2.2]
  split
  · rename_i hnew
    rw [List.mem_append, List.mem_singleton, and_iff_left hnew.1]
  · rename_i hnew
    refine ⟨Or.inl, fun hc => hc.elim id ?_⟩
    rintro ⟨rfl, hunknown⟩
    by_contra hmem
    exact hnew ⟨hunknown, hmem⟩

theorem Learns.assign {s₁ s₂ : Session} {next : Resolution}
    (h : Learns k S s s₁ (.assign dst src (.done true))) (h' : Learns k S s₁ s₂ next)
    (hknown : s₁.known = s.known) : Learns k S s s₂ (.assign dst src next) := by
  refine ⟨h'.uniform, fun i => ?_, fun c hc => ?_, fun hd => h'.nodup (h.nodup hd), fun θ => ?_⟩
  · rw [h'.registered, h.registered]
    simp only [Resolution.types, List.mem_cons, List.not_mem_nil, or_false, or_and_right, exists_or,
      exists_eq_left, or_assoc]
  · rw [h'.deferred c (hknown ▸ hc), h.deferred c hc, hknown]
    simp [Resolution.conds]
  · rw [h'.satisfies, h.satisfies, hknown, Resolution.Accepts, Resolution.Accepts, and_assoc]
    exact and_congr_right fun _ => and_congr_left fun _ => and_iff_left rfl

theorem Learns.assert {cond : Cond} {next : Bool → Resolution} (hnone : s.failure = none)
    (hcond : s.known.prove cond ≠ .refuted) (h : Learns k S (s.assert cond).2 s' (next true)) :
    Learns k S s s' (.assert cond next) := by
  obtain ⟨-, -, hclasses, hdeferred⟩ := assert_accepted hnone hcond
  have hknown := (frames_assert s cond).known
  refine ⟨h.uniform, fun i => ?_, fun c hc => ?_, fun hd => h.nodup ?_, fun θ => ?_⟩
  · rw [h.registered, hclasses]
    rfl
  · rw [h.deferred c (hknown ▸ hc), mem_deferred_assert hnone hcond, hknown, Resolution.conds, List.mem_cons,
      or_and_right, ← or_assoc]
    exact or_congr_left (or_congr_right (and_congr_right fun hc => by rw [hc]))
  · rw [hdeferred]
    split
    · rename_i hnew
      rw [List.nodup_append]
      refine ⟨hd, by simp, fun c hc d hd' => ?_⟩
      rw [List.mem_singleton.mp hd']
      rintro rfl
      exact hnew.2 hc
    · exact hd
  · rw [h.satisfies, hclasses, hknown]
    exact and_congr_right fun _ => (and_iff_right hcond).symm

/-- A rule that is accepted by a choice that agrees with what is known does not fail,
and what it requested is known from then on. -/
theorem run_accepted {r : Resolution} (hlenient : s.config.strictShapes = false) (hc : s.classes.Valid)
    (huniform : s.classes.Uniform k S) (hnone : s.failure = none)
    (hfits : ∀ t ∈ r.types, s.classes.Fits k S t) {θ : Grounding} (hθ : θ.Satisfies s.classes)
    (haccepts : r.Accepts s.known θ) :
    (r.run reporter s).state.failure = none ∧ (r.run reporter s).resolved = true ∧
      Learns k S s (r.run reporter s).state r := by
  induction r generalizing s with
  | done resolved =>
    refine ⟨hnone, haccepts, huniform, fun i => ?_, fun c _ => ?_, id, fun θ => ?_⟩
    · simp [Resolution.run, Resolution.types]
    · simp [Resolution.run, Resolution.conds]
    · exact (and_iff_left haccepts).symm
  | assign dst src next ih =>
    simp only [Resolution.types, List.forall_mem_cons] at hfits
    obtain ⟨hdst, hsrc, hfits⟩ := hfits
    have hvalid := (assign_grows hc dst src).valid
    have hknown := (assign_grows hc dst src).known
    obtain ⟨hnone₁, hlearns⟩ :=
      assign_accepted hlenient hc huniform hnone hdst hsrc hθ haccepts.1
    have hregistered : ∀ i, s.classes.Registered i → (s.assign dst src).classes.Registered i :=
      fun i hi => (hlearns.registered i).mpr (Or.inl hi)
    have hconfig := (frames_assign s dst src).config
    obtain ⟨hnone₂, hresolved, hrest⟩ := ih (hconfig ▸ hlenient) hvalid hlearns.uniform hnone₁
      (fun t ht => (hfits t ht).mono hregistered)
      ((hlearns.satisfies θ).mpr ⟨hθ, haccepts.1, rfl⟩) (hknown ▸ haccepts.2)
    exact ⟨hnone₂, hresolved, hlearns.assign hrest hknown⟩
  | assert cond next ih =>
    have hvalid := (assert_grows hc cond).valid
    have hknown := (assert_grows hc cond).known
    obtain ⟨hanswer, hnone₁, hclasses, -⟩ := assert_accepted hnone haccepts.1
    rw [Resolution.run]
    dsimp only [reporter]
    rw [hanswer]
    have hconfig := (frames_assert s cond).config
    obtain ⟨hnone₂, hresolved, hrest⟩ := ih true (hconfig ▸ hlenient) hvalid (hclasses ▸ huniform) hnone₁
      (fun t ht => hclasses ▸ hfits t ht) (hclasses ▸ hθ) (hknown ▸ haccepts.2)
    exact ⟨hnone₂, hresolved, .assert hnone haccepts.1 hrest⟩
  | locate span next ih =>
    obtain ⟨hnone₁, hresolved, hrest⟩ := ih (s := { s with location := span }) hlenient hc huniform
      hnone hfits hθ haccepts
    exact ⟨hnone₁, hresolved, hrest.uniform, hrest.registered, hrest.deferred, hrest.nodup,
      hrest.satisfies⟩

/-- A rule that was resolved without failure meets its requests in every way in which
the types it declared equal are. -/
theorem meets_of_run (r : Resolution) (hc : s.classes.Valid)
    (hnone : (r.run reporter s).state.failure = none)
    (hresolved : (r.run reporter s).resolved = true) {A : Ty → Ty → Prop}
    (hassigned : ∀ dst src, Report.assigned dst src ∈ (r.run reporter s).reports → A dst src) :
    r.Meets s.known A := by
  induction r generalizing s with
  | done resolved => exact hresolved
  | assign dst src next ih =>
    have hgrows := assign_grows hc dst src
    refine ⟨hassigned dst src List.mem_cons_self, ?_⟩
    rw [← hgrows.known]
    exact ih hgrows.valid hnone hresolved fun t u h => hassigned t u (List.mem_cons_of_mem _ h)
  | assert cond next ih =>
    have hgrows := assert_grows hc cond
    have hnone₁ := (run_kept (next (s.assert cond).1) hgrows.valid).1.failure hnone
    obtain ⟨hanswer, hkept⟩ := asserted_kept hnone₁
    refine ⟨fun hrefuted => ?_, ?_⟩
    · have hfail : (s.assert cond).1 = false := by
        unfold assert
        split
        · rfl
        · rw [hrefuted]
      rw [hanswer] at hfail
      cases hfail
    · have hmeets := ih (s.assert cond).1 hgrows.valid hnone hresolved
        fun t u h => hassigned t u (List.mem_cons_of_mem _ h)
      rwa [hanswer, hgrows.known] at hmeets
  | locate span next ih =>
    exact ih (s := { s with location := span }) hc hnone hresolved
      fun t u h => hassigned t u (List.mem_cons_of_mem _ h)

end Session

/-- The types that a request declares equal. -/
def Report.types : Report → List Ty
  | .assigned dst src => [dst, src]
  | _ => []

namespace Session

variable {s : Session}

end Session

end TensorTyping
