import TensorTyping.Proofs.Ranges
import TensorTyping.Proofs.Session.Conclusion
import TensorTyping.Proofs.Session.Firing

namespace TensorTyping

open Ty

/-- Two dimensions of an axis that are not known to differ. -/
def Ranges.MayEqual (known : Ranges) (d e : Dim) : Prop :=
  d = .any ∨ e = .any ∨ known.compare .eq d e ≠ .refuted

theorem Ranges.MayEqual.refl (known : Ranges) (d : Dim) : known.MayEqual d d :=
  Or.inr (Or.inr (compare_self_ne_refuted d))

/-- Two types without placeholders that differ at most in dimensions, and there not for sure. -/
structure Ty.Checks (known : Ranges) (t u : Ty) : Prop where
  left : t.isComplete = true
  right : u.isComplete = true
  alike : t.Alike known.MayEqual u

namespace Site

variable {site : Site} {s : Progress}

theorem compareAxis_mayEqual (hstrict : site.strict = false) (axis : Nat) {d e : Dim}
    (h : site.known.MayEqual d e) :
    ∃ deferred, site.compareAxis s axis d e = .ok { s with deferred } := by
  unfold compareAxis
  split
  · exact ⟨s.deferred, rfl⟩
  · rename_i hany
    rw [not_or] at hany
    cases hverdict : site.known.compare .eq d e with
    | proven => exact ⟨s.deferred, by simp⟩
    | unknown =>
      simp only [hstrict, Bool.false_eq_true, if_false, Progress.defer]
      split
      · exact ⟨s.deferred, rfl⟩
      · exact ⟨_, rfl⟩
    | refuted =>
      obtain h | h | h := h
      · exact absurd h hany.1
      · exact absurd h hany.2
      · exact absurd hverdict h

theorem compareAxes_mayEqual (hstrict : site.strict = false) (axis : Nat) {ds es : List Dim}
    (h : List.Forall₂ site.known.MayEqual ds es) :
    ∃ deferred, site.compareAxes s axis (ds.zip es) = .ok { s with deferred } := by
  induction h generalizing s axis with
  | nil => exact ⟨s.deferred, rfl⟩
  | cons h hs ih =>
    obtain ⟨deferred, heq⟩ := compareAxis_mayEqual (s := s) hstrict axis h
    obtain ⟨deferred', heq'⟩ := ih (s := { s with deferred }) (axis + 1)
    exact ⟨deferred', by rw [List.zip_cons_cons, compareAxes, heq]; exact heq'⟩

theorem compareTensors_mayEqual (hstrict : site.strict = false) {a b : TensorType}
    (h : (tensor a).Alike site.known.MayEqual (tensor b)) :
    ∃ deferred, site.compareTensors s a b = .ok { s with deferred } := by
  obtain ⟨hdtype, hshape⟩ := alike_tensor.mp h
  have hrank : a.rank = b.rank := hshape.length_eq
  simp only [compareTensors, hdtype, hrank, ne_eq, not_true_eq_false, if_false]
  exact compareAxes_mayEqual hstrict 0 hshape

/-- Equations between types that check. -/
def Checked (known : Ranges) (eqs : Equations) : Prop := ∀ e ∈ eqs, e.1.Checks known e.2

theorem checked_zip {known : Ranges} {ts us : List Ty} (hts : ∀ t ∈ ts, t.isComplete = true)
    (hus : ∀ u ∈ us, u.isComplete = true) (h : List.Forall₂ (Alike known.MayEqual) ts us) :
    Checked known (ts.zip us) := fun _ he =>
  ⟨hts _ (List.of_mem_zip he).1, hus _ (List.of_mem_zip he).2, List.forall₂_zip h he⟩

/-- An equation between types that check is solved, or taken apart into such equations. Nothing
but conditions put off comes of it. -/
theorem step_checks (hstrict : site.strict = false) {t u : Ty} (h : t.Checks site.known u) :
    (∃ deferred, site.step s t u = .ok (.solved { s with deferred })) ∨
      ∃ eqs, site.step s t u = .ok (.parts s eqs) ∧ Checked site.known eqs := by
  obtain ⟨ht, hu, halike⟩ := h
  cases t with
  | tensor a =>
    cases u with
    | tensor b =>
      obtain ⟨deferred, heq⟩ := compareTensors_mayEqual (s := s) hstrict halike
      exact Or.inl ⟨deferred, by rw [step, heq]; rfl⟩
    | hole => cases hu
    | _ => simp [Alike] at halike
  | tuple ts =>
    cases u with
    | tuple us =>
      simp only [isComplete, allComplete_eq_all, List.all_eq_true] at ht hu
      have hfields := alike_tuple.mp halike
      exact Or.inr ⟨ts.zip us, by simp [step, hfields.length_eq], checked_zip ht hu hfields⟩
    | hole => cases hu
    | _ => simp [Alike] at halike
  | ref t =>
    cases u with
    | ref u =>
      refine Or.inr ⟨[(t, u)], rfl, ?_⟩
      rintro e ⟨⟩
      · exact ⟨ht, hu, alike_ref.mp halike⟩
      · rename_i he
        cases he
    | hole => cases hu
    | _ => simp [Alike] at halike
  | call f ts =>
    cases u with
    | call g us =>
      simp only [isComplete, allComplete_eq_all, Bool.and_eq_true, List.all_eq_true] at ht hu
      obtain ⟨hcallee, hargs⟩ := alike_call.mp halike
      refine Or.inr ⟨(f, g) :: ts.zip us, by simp [step, hargs.length_eq], ?_⟩
      exact List.forall_mem_cons.mpr
        ⟨⟨ht.1, hu.1, hcallee⟩, checked_zip ht.2 hu.2 hargs⟩
    | hole => cases hu
    | _ => simp [Alike] at halike
  | func ts r vs =>
    cases u with
    | func us r' ws =>
      simp only [isComplete, allComplete_eq_all, Bool.and_eq_true, List.all_eq_true] at ht hu
      obtain ⟨hparams, hresult, rfl⟩ := alike_func.mp halike
      refine Or.inr ⟨ts.zip us ++ [(r, r')], by simp [step, hparams.length_eq], ?_⟩
      refine List.forall_mem_append.mpr ⟨checked_zip ht.1 hu.1 hparams, ?_⟩
      exact List.forall_mem_singleton.mpr ⟨ht.2, hu.2, hresult⟩
    | hole => cases hu
    | _ => simp [Alike] at halike
  | hole => cases ht
  | var v =>
    cases u with
    | var w => exact Or.inl ⟨s.deferred, by simp [step, alike_var.mp halike]⟩
    | hole => cases hu
    | _ => simp [Alike] at halike
  | global g =>
    cases u with
    | global h => exact Or.inl ⟨s.deferred, by simp [step, alike_global.mp halike]⟩
    | hole => cases hu
    | _ => simp [Alike] at halike

/-- Equations between types that check are solved. -/
theorem solve_checked (hstrict : site.strict = false) {eqs : Equations}
    (h : Checked site.known eqs) :
    ∃ deferred, site.solve s eqs = .ok { s with deferred } := by
  induction s, eqs using solve.induct site with
  | case1 s => exact ⟨s.deferred, by rw [solve]⟩
  | case2 s t u rest e hstep =>
    obtain ⟨_, heq⟩ | ⟨_, heq, -⟩ := step_checks (s := s) hstrict (h _ List.mem_cons_self)
    all_goals rw [heq] at hstep; cases hstep
  | case3 s t u rest s' hstep ih =>
    obtain ⟨deferred, heq⟩ | ⟨eqs, heq, hparts⟩ :=
      step_checks (s := s) hstrict (h _ List.mem_cons_self)
    · rw [heq] at hstep
      cases hstep
      obtain ⟨deferred', heq'⟩ := ih fun e he => h e (List.mem_cons_of_mem _ he)
      exact ⟨deferred', by rw [solve_cons, heq]; exact heq'⟩
    · rw [heq] at hstep
      cases hstep
  | case4 s t u rest s' eqs hstep ih =>
    obtain ⟨deferred, heq⟩ | ⟨eqs, heq, hparts⟩ :=
      step_checks (s := s) hstrict (h _ List.mem_cons_self)
    · rw [heq] at hstep
      cases hstep
    · rw [heq] at hstep
      cases hstep
      obtain ⟨deferred', heq'⟩ := ih <|
        List.forall_mem_append.mpr ⟨hparts, fun e he => h e (List.mem_cons_of_mem _ he)⟩
      exact ⟨deferred', by rw [solve_cons, heq]; exact heq'⟩
  | case5 s t u rest s' id image hstep ih =>
    obtain ⟨_, heq⟩ | ⟨_, heq, -⟩ := step_checks (s := s) hstrict (h _ List.mem_cons_self)
    all_goals rw [heq] at hstep; cases hstep

theorem unify_checks (hstrict : site.strict = false) {t u : Ty} (h : t.Checks site.known u) :
    ∃ deferred, site.unify s t u = .ok { s with deferred } := by
  rw [unify, s.classes.resolve_eq_fill, s.classes.resolve_eq_fill, fill_of_isComplete h.left,
    fill_of_isComplete h.right]
  exact solve_checked hstrict fun e he => List.mem_singleton.mp he ▸ h

end Site

namespace Session

variable {s : Session} {t u : Ty} {r : Resolution}

theorem assign_checks (hnone : s.failure = none) (hlenient : s.config.strictShapes = false)
    (h : t.Checks s.known u) : ∃ deferred, s.assign t u = { s with deferred } := by
  obtain ⟨deferred, heq⟩ : ∃ deferred, s.site.unify ⟨s.classes, s.deferred, []⟩ t u =
      .ok ⟨s.classes, deferred, []⟩ := Site.unify_checks hlenient h
  exact ⟨deferred, by rw [assign_of_ok hnone heq]; rfl⟩

theorem assert_checks (hnone : s.failure = none) {cond : Cond}
    (h : s.known.prove cond ≠ .refuted) :
    (s.assert cond).1 = true ∧ ∃ deferred, (s.assert cond).2 = { s with deferred } := by
  obtain ⟨hanswer, hnone', -⟩ := assert_accepted hnone h
  obtain ⟨deferred, failure, heq⟩ := s.exists_assert_eq cond
  rw [heq] at hnone'
  exact ⟨hanswer, deferred, by rw [heq, hnone, show failure = none from hnone']⟩

/-- Requests that are met by types without placeholders leave conditions behind, and
nothing else. -/
theorem run_checks (hnone : s.failure = none) (hlenient : s.config.strictShapes = false)
    (h : r.Meets s.known (Checks s.known)) : (r.run reporter s).resolved = true ∧
      ∃ deferred location, (r.run reporter s).state = { s with deferred, location } := by
  induction r generalizing s with
  | done resolved => exact ⟨h, s.deferred, s.location, rfl⟩
  | assign dst src next ih =>
    obtain ⟨deferred, heq⟩ := assign_checks hnone hlenient h.1
    obtain ⟨hresolved, deferred', location, hstate⟩ := ih (s := { s with deferred }) hnone hlenient h.2
    rw [← heq] at hresolved hstate
    exact ⟨hresolved, deferred', location, hstate.trans (by rw [heq])⟩
  | assert cond next ih =>
    obtain ⟨hanswer, deferred, heq⟩ := assert_checks hnone h.1
    obtain ⟨hresolved, deferred', location, hstate⟩ :=
      ih true (s := { s with deferred }) hnone hlenient h.2
    rw [run_assert, hanswer, heq]
    exact ⟨hresolved, deferred', location, hstate⟩
  | locate span next ih =>
    exact ih (s := { s with location := span }) hnone hlenient h

/-- A relation holds as it stands: its arguments have no placeholders, and they meet its
requests. -/
structure Holds (s : Session) (r : Relation) : Prop where
  complete : ∀ t ∈ r.args, t.isComplete = true
  meets : (r.rule.resolve ⟨r.args, r.numInputs, r.attrs, s.globals⟩).Meets s.known (Checks s.known)

theorem Holds.resolve_args {rel : Relation} (h : s.Holds rel) :
    rel.args.map s.resolve = rel.args := by
  refine (List.map_congr_left fun t ht => ?_).trans (List.map_id _)
  rw [resolve, s.classes.resolve_eq_fill, fill_of_isComplete (h.complete t ht), id_eq]

/-- A relation that holds is resolved when it is run. -/
theorem invoke_holds (hnone : s.failure = none) (hlenient : s.config.strictShapes = false)
    {rel : Relation} (h : s.Holds rel) (number : Nat) :
    ∃ deferred location reports, s.invoke number rel = retire { s with
      deferred
      location
      trace := s.trace ++ [⟨rel.rule.name, rel.args, reports, true⟩] } number := by
  have hmeets : (rel.rule.resolve (s.query rel)).Meets s.known (Checks s.known) := by
    rw [query, h.resolve_args]
    exact h.meets
  obtain ⟨hresolved, deferred, location, hstate⟩ : (s.outcome rel).resolved = true ∧
      ∃ deferred location, (s.outcome rel).state = { s with deferred, location } :=
    run_checks (s := { s with location := rel.span }) hnone hlenient hmeets
  refine ⟨deferred, location, (s.outcome rel).reports, ?_⟩
  rw [invoke_eq, if_pos hresolved, h.resolve_args, hresolved, hstate]

/-- Some relations are resolved, and the others are queued in order. -/
structure Halfway (s : Session) (passed : List Entry) (rest : List Relation) : Prop where
  entries : s.entries = passed ++ rest.map (Entry.mk · false)
  resolved : ∀ e ∈ passed, e.resolved = true
  queue : s.queue = List.range' passed.length rest.length

section Halfway

variable {passed : List Entry} {rel : Relation} {rest : List Relation}

theorem Halfway.next? (h : s.Halfway passed (rel :: rest)) :
    s.next? = some (passed.length, rel,
      { s with queue := List.range' (passed.length + 1) rest.length }) := by
  have hentry : s.entries[passed.length]? = some ⟨rel, false⟩ := by
    rw [h.entries, List.getElem?_append_right (Nat.le_refl _), Nat.sub_self]
    rfl
  have hpending : s.isPending passed.length = true := by simp [isPending, hentry]
  simp [Session.next?, h.queue, List.range'_succ, hpending, hentry]

theorem Halfway.next?_nil (h : s.Halfway passed []) : s.next? = none := by
  simp [Session.next?, h.queue]

private theorem modify_length (rel : Relation) (passed rest : List Entry) :
    (passed ++ ⟨rel, false⟩ :: rest).modify passed.length (fun e => { e with resolved := true }) =
      passed ++ ⟨rel, true⟩ :: rest := by
  induction passed with
  | nil => rfl
  | cons e passed ih => exact congrArg (e :: ·) ih

/-- What can be told of a call without its requests. -/
def calls (s : Session) : List (String × List Ty × Bool) :=
  s.trace.map fun v => (v.rule, v.args, v.resolved)

/-- The next of the relations that hold is run and resolved. -/
theorem run_succ_holds (hnone : s.failure = none) (hlenient : s.config.strictShapes = false)
    (h : s.Halfway passed (rel :: rest)) (hrel : s.Holds rel) (budget : Nat) :
    ∃ s₁, s.run (budget + 1) = s₁.run budget ∧ s₁.Halfway (passed ++ [⟨rel, true⟩]) rest ∧
      Frames { s with entries := s₁.entries, trace := s₁.trace } s₁ ∧ s₁.failure = none ∧
      s₁.classes = s.classes ∧ s₁.calls = s.calls ++ [(rel.rule.name, rel.args, true)] := by
  let taken : Session := { s with queue := List.range' (passed.length + 1) rest.length }
  obtain ⟨deferred, location, reports, heq⟩ := invoke_holds (s := taken) hnone hlenient
    ⟨hrel.complete, hrel.meets⟩ passed.length
  have hfailure : (taken.invoke passed.length rel).failure = none := by
    rw [heq]
    exact hnone
  refine ⟨taken.invoke passed.length rel, ?_, ?_, ?_, hfailure, ?_, ?_⟩
  · rw [run, h.next?]
    dsimp only
    rw [hfailure]
  · rw [heq]
    refine ⟨?_, fun e he => ?_, ?_⟩
    · simp [retire, taken, h.entries, modify_length]
    · exact (List.mem_append.mp he).elim (h.resolved e) fun he => List.mem_singleton.mp he ▸ rfl
    · simp [retire, taken]
  · rw [heq]
    exact ⟨rfl, rfl, rfl, rfl, rfl⟩
  · rw [heq]
    rfl
  · rw [heq]
    simp [calls, retire, taken]

/-- Relations that hold are run once each, in order. -/
theorem run_holds (hnone : s.failure = none) (hlenient : s.config.strictShapes = false)
    (h : s.Halfway passed rest) (hholds : ∀ rel ∈ rest, s.Holds rel) {budget : Nat}
    (hbudget : rest.length ≤ budget) :
    ∃ s', s.run budget = (s', s'.finish) ∧ (∀ e ∈ s'.entries, e.resolved = true) ∧
      s'.classes = s.classes ∧
      s'.calls = s.calls ++ rest.map fun rel => (rel.rule.name, rel.args, true) := by
  induction rest generalizing s passed budget with
  | nil =>
    refine ⟨s, by rw [run, h.next?_nil], fun e he => h.resolved e ?_, rfl, by simp⟩
    simpa [h.entries] using he
  | cons rel rest ih =>
    cases budget with
    | zero => cases hbudget
    | succ budget =>
      obtain ⟨s₁, hrun, hhalfway, hframes, hnone₁, hclasses, hcalls⟩ :=
        run_succ_holds hnone hlenient h (hholds rel List.mem_cons_self) budget
      have hholds₁ : ∀ rel ∈ rest, s₁.Holds rel := fun rel hrel => by
        have hrel := hholds rel (List.mem_cons_of_mem _ hrel)
        exact ⟨hrel.complete, by rw [hframes.known, hframes.globals]; exact hrel.meets⟩
      obtain ⟨s', hrun', hresolved, hclasses', hcalls'⟩ := ih hnone₁
        (hframes.config ▸ hlenient) hhalfway hholds₁ (Nat.le_of_succ_le_succ hbudget)
      refine ⟨s', hrun.trans hrun', hresolved, hclasses'.trans hclasses, ?_⟩
      rw [hcalls', hcalls, List.map_cons, List.append_assoc]
      rfl

end Halfway

theorem halfway_of_untouched (h : s.Untouched) : s.Halfway [] (s.entries.map (·.relation)) := by
  refine ⟨?_, fun e he => absurd he List.not_mem_nil, ?_⟩
  · rw [List.nil_append, List.map_map]
    refine (List.map_id _).symm.trans (List.map_congr_left fun e he => ?_)
    obtain ⟨relation, resolved⟩ := e
    rw [show resolved = false from h.pending _ he]
    rfl
  · rw [h.queue, List.length_map, List.range_eq_range']
    rfl

/-- A session without placeholders succeeds if all its relations hold. -/
theorem solve_holds (hs : s.Untouched) (hclasses : s.classes = .empty)
    (hlenient : s.config.strictShapes = false)
    (hholds : ∀ r ∈ s.entries.map (·.relation), s.Holds r)
    (hbudget : s.entries.length ≤ s.config.budget s.entries.length) :
    (∃ sol, s.solve.2 = .ok sol ∧ sol.bindings = []) ∧
      s.solve.1.calls =
        (s.entries.map (·.relation)).map fun r => (r.rule.name, r.args, true) := by
  obtain ⟨s', hrun, hresolved, hclasses', hcalls⟩ := run_holds hs.failure hlenient
    (halfway_of_untouched hs) hholds ((List.length_map _).trans_le hbudget)
  have hsolve : s.solve = (s', s'.finish) := hrun
  rw [hsolve]
  have hcells : s'.classes = .empty := hclasses'.trans hclasses
  obtain ⟨sol, hsol⟩ := conclude_of_complete (s := s') fun p hp => by
    rw [hcells] at hp
    cases hp
  refine ⟨⟨sol, ?_, ?_⟩, ?_⟩
  · rw [finish, (stuckErrors_eq_nil_iff s' false).mpr hresolved]
    exact hsol
  · simp [(conclude_ok hsol).2.1, sortedPlaceholders, hcells, Classes.placeholders, Classes.empty]
  · rw [hcalls, calls, hs.trace]
    rfl

end Session

end TensorTyping
