import TensorTyping.Proofs.Order
import TensorTyping.Proofs.Session.Setup

namespace TensorTyping

open Ty

namespace Session

variable {s : Session} {sol : Solution}

theorem addLeftovers_eq_nil {found new : List Placeholder} (h : addLeftovers found new = []) :
    found = [] ∧ new = [] := by
  induction new generalizing found with
  | nil => exact ⟨h, rfl⟩
  | cons p new ih =>
    obtain ⟨hfound, -⟩ := ih h
    dsimp only at hfound
    split at hfound
    · rename_i hany
      simp [hfound] at hany
    · simp at hfound

/-- Adding the placeholders of types one type after the other adds those of all. -/
theorem foldl_addLeftovers (found : List (UInt32 × Ty)) (acc : List Placeholder) :
    found.foldl (fun acc e => addLeftovers acc e.2.holes) acc =
      addLeftovers acc (found.flatMap (·.2.holes)) :=
  (List.foldl_flatMap ..).symm

/-- A placeholder for every id, in increasing order. -/
def sortedPlaceholders (s : Session) : List Placeholder :=
  s.classes.placeholders.mergeSort fun p q => decide (p.id ≤ q.id)

/-- A successful session knows a complete type for every placeholder. -/
theorem conclude_ok (h : s.conclude = .ok sol) :
    (∀ p ∈ s.classes.placeholders, (s.resolve (hole p)).isComplete = true) ∧
      sol.bindings = s.sortedPlaceholders.map (fun p => (p.id, s.resolve (hole p))) ∧
      sol.deferred = s.deferred.mergeSort fun a b => (compare a b).isLE := by
  unfold conclude at h
  dsimp only at h
  rw [foldl_addLeftovers] at h
  split at h
  · rename_i hleftovers
    have hholes := List.flatMap_eq_nil_iff.mp (addLeftovers_eq_nil hleftovers).2
    have hcomplete : ∀ p ∈ s.sortedPlaceholders, (s.resolve (hole p)).isComplete = true :=
      fun p hp => (holes_eq_nil_iff _).mp (hholes _ (List.mem_map_of_mem hp))
    cases h
    refine ⟨fun p hp => hcomplete p (List.mem_mergeSort.mpr hp), ?_, rfl⟩
    refine List.filter_eq_self.mpr fun e he => ?_
    obtain ⟨p, hp, rfl⟩ := List.mem_map.mp he
    exact hcomplete p hp
  · cases h

private theorem lookup_map_id (ps : List Placeholder) (f : Placeholder → Ty) (id : UInt32) :
    (ps.map fun p => (p.id, f p)).lookup id = (ps.find? (·.id = id)).map f := by
  induction ps with
  | nil => rfl
  | cons p ps ih =>
    rw [List.map_cons, List.lookup_cons, List.find?_cons, ih]
    by_cases hid : p.id = id
    · simp [hid]
    · have hbeq : (id == p.id) = false := beq_eq_false_iff_ne.mpr (Ne.symm hid)
      simp [hid, hbeq]

/-- The solution puts in what the session knew at its end. -/
theorem apply_eq_resolve (h : s.conclude = .ok sol) (t : Ty) : sol.apply t = s.resolve t := by
  obtain ⟨hcomplete, hbindings, -⟩ := conclude_ok h
  have hfind : (fun p : Placeholder => sol.find? p.id) = s.classes.image? := by
    funext p
    rw [Solution.find?, hbindings, lookup_map_id]
    cases hq : s.sortedPlaceholders.find? (·.id = p.id) with
    | none =>
      rw [Option.map_none]
      refine ((Classes.settled_of_not_registered ?_).eq_none).symm
      rw [Classes.registered_iff_mem]
      rintro ⟨x, hx, hid⟩
      have hmem : x.placeholder ∈ s.sortedPlaceholders :=
        List.mem_mergeSort.mpr (List.mem_map_of_mem hx)
      exact absurd hid (by simpa using List.find?_eq_none.mp hq _ hmem)
    | some q =>
      have hid : q.id = p.id := by simpa using List.find?_some hq
      have hq := hcomplete q (List.mem_mergeSort.mp (List.mem_of_find?_eq_some hq))
      rw [resolve, Classes.resolve_hole, Classes.image] at hq
      rw [Option.map_some, resolve, Classes.resolve_hole, Classes.image, Classes.image?_congr hid.symm]
      cases himage : s.classes.image? q with
      | none =>
        rw [himage] at hq
        cases hq
      | some t => rfl
  rw [Solution.apply, hfind]
  rfl

theorem finish_eq_ok_iff :
    s.finish = .ok sol ↔ (∀ e ∈ s.entries, e.resolved = true) ∧ s.conclude = .ok sol := by
  rw [← stuckErrors_eq_nil_iff s false, finish]
  cases s.stuckErrors false with
  | nil => exact (and_iff_right rfl).symm
  | cons e errors => exact ⟨nofun, fun h => nomatch h.1⟩

theorem turns_of_solve_ok (h : s.solve.2 = .ok sol) :
    Turns s s.solve.1 ∧ s.solve.1.next? = none ∧
      (∀ e ∈ s.solve.1.entries, e.resolved = true) ∧ s.solve.1.conclude = .ok sol := by
  obtain ⟨s', hturns, ⟨hnext, hrun⟩ | ⟨number, r, rest, hnext, hrun⟩ |
    ⟨number, r, rest, e, hnext, hfailure, hrun⟩⟩ := run_cases (s.config.budget s.entries.length) s
  · rw [solve, hrun] at h ⊢
    dsimp only at h ⊢
    exact ⟨hturns, hnext, finish_eq_ok_iff.mp h⟩
  · rw [solve, hrun] at h
    cases h
  · rw [solve, hrun] at h
    cases h

end Session

/-- Two dimensions have the same value, if both have one. -/
def Dim.Agree (σ : Assignment) (d e : Dim) : Prop :=
  ∀ m n, d.eval σ = some m → e.eval σ = some n → m = n

/-- What a request says about a solution, for given sizes: types declared equal
have one structure and dimensions of one value, and conditions that were asked
for are true. Only what has a value counts. -/
def Report.Honoured (σ : Assignment) (sol : Solution) : Report → Prop
  | .assigned dst src => (sol.apply dst).Alike (Dim.Agree σ) (sol.apply src)
  | .asserted cond _ => ∀ b, cond.eval σ = some b → b = true
  | .located _ => True

theorem Dim.agree_of_compatible {σ : Assignment} {known : Ranges} {deferred : List Cond}
    (hσ : known.Admits σ) (hdeferred : ∀ c ∈ deferred, ∀ b, c.eval σ = some b → b = true) {d e : Dim}
    (h : Site.Compatible known deferred d e) : d.Agree σ e := by
  intro m n hm hn
  obtain rfl | rfl | rfl | hproven | hmem := h
  · rw [hm] at hn
    exact Option.some.inj hn
  · cases hm
  · cases hn
  · have hallows := Ranges.allows_compare hσ .eq hm hn
    rw [hproven] at hallows
    simpa [Verdict.Allows, Comparison.holds] using hallows
  · have htrue := hdeferred _ hmem (Comparison.holds .eq m n) (by simp [Cond.eval, hm, hn])
    simpa [Comparison.holds] using htrue

namespace Session

/-- If a session succeeds, then for all sizes within the registered ranges under
which the conditions put off are true, every request that any rule made is
honoured by the solution. -/
theorem requests_honoured (globals : Globals) (config : Config) (setup : List Setup)
    (sol : Solution) (h : (prepared globals config setup).solve.2 = .ok sol) (σ : Assignment)
    (hσ : ∀ x r, Setup.range x r ∈ setup → r.Contains (σ x))
    (hdeferred : ∀ c ∈ sol.deferred, ∀ b, c.eval σ = some b → b = true) :
    ∀ v ∈ (prepared globals config setup).solve.1.trace, ∀ report ∈ v.reports,
      report.Honoured σ sol := by
  have hstart := untouched_prepared globals config setup
  obtain ⟨hturns, -, -, hconclude⟩ := turns_of_solve_ok h
  have hgrows := Turns.grows hstart.valid hturns
  have hkept := Turns.allKept hstart.valid hturns (fun v hv => by
    rw [hstart.trace] at hv
    cases hv)
  obtain ⟨-, -, hsorted⟩ := conclude_ok hconclude
  have hadmits := admits_prepared globals config hσ
  rw [← hgrows.known] at hadmits
  have hdeferred' : ∀ c ∈ (prepared globals config setup).solve.1.deferred, ∀ b,
      c.eval σ = some b → b = true := by
    intro c hc
    apply hdeferred
    rw [hsorted]
    exact List.mem_mergeSort.mpr hc
  intro v hv report hreport
  have hreport := hkept v hv report hreport
  cases report with
  | assigned dst src =>
    rw [Report.Honoured, apply_eq_resolve hconclude, apply_eq_resolve hconclude]
    exact hreport.mono fun d e => Dim.agree_of_compatible hadmits hdeferred'
  | asserted cond answer =>
    intro b hb
    obtain hproven | hmem := hreport
    · have hallows := Ranges.allows_prove hadmits hb
      rw [hproven] at hallows
      exact hallows
    · exact hdeferred' cond hmem b hb
  | located span => trivial

/-- A rule that asks for two bounds on a size, one of which is put off, and then
declares its argument to be a vector of that size. -/
theorem requests_honoured_vector :
    let n : SizeVar := ⟨0, "n"⟩
    let vector : Ty := .tensor ⟨[.var n], .float 32⟩
    let rule : Rule := ⟨"vector", fun q => .require (.le (.var n) (.const 8)) <|
      .require (.eq (.var n) (.const 5)) <|
        .assign (q.args.headD .unit) vector (.done true)⟩
    let setup : List Setup := [.range n ⟨1, 8⟩, .fresh .type,
      .relation ⟨rule, [.hole ⟨0, .type⟩], 0, .empty, .dummy, Nat.zero_le 1⟩]
    let sol : Solution := ⟨[(0, vector)], [.eq (.var n) (.const 5)]⟩
    let s := prepared .empty .default setup
    s.solve.2 = .ok sol ∧
      ∀ v ∈ s.solve.1.trace, ∀ report ∈ v.reports, report.Honoured (fun _ => 5) sol := by
  intro n vector rule setup sol s
  have hsolve : s.solve.2 = .ok sol := by cbv
  refine ⟨hsolve, requests_honoured .empty .default setup sol hsolve (fun _ => 5) ?_ ?_⟩
  · intro x r h
    simp only [setup, List.mem_cons, Setup.range.injEq, reduceCtorEq, List.not_mem_nil,
      or_false] at h
    rw [h.2]
    decide
  · intro c hc b hb
    rw [List.mem_singleton.mp hc] at hb
    simpa [Cond.eval, Dim.eval, Comparison.holds] using hb.symm

end Session

end TensorTyping
