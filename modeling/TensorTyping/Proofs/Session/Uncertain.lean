import Mathlib.Data.List.Nodup
import TensorTyping.Proofs.Ranges
import TensorTyping.Proofs.Session.Step

namespace TensorTyping

open Ty

/-- A dimension is compared at all, and not known to be equal to itself. -/
def Ranges.Uncertain (known : Ranges) (d : Dim) : Prop :=
  d ≠ .any ∧ known.compare .eq d d ≠ .proven

instance (known : Ranges) : DecidablePred known.Uncertain := fun d =>
  inferInstanceAs (Decidable (d ≠ .any ∧ known.compare .eq d d ≠ .proven))

/-- What is not known to equal itself holds `?` without being `?`, or has no normal form, or none
with an opposite. -/
theorem Ranges.uncertain_iff {known : Ranges} {d : Dim} :
    known.Uncertain d ↔ d ≠ .any ∧
      (d.containsAny = true ∨ ∀ p, NormalForm.ofDim? d = some p → p.neg? = Option.none) := by
  refine and_congr_right fun _ => ?_
  rw [ne_eq, compare_self_iff, not_and_or, Bool.not_eq_false]
  refine or_congr_right ?_
  simp only [not_exists, not_and, Option.eq_none_iff_forall_ne_some, ne_eq]
  exact forall_congr' fun p => forall_comm

theorem Ranges.Uncertain.unknown {known : Ranges} {d : Dim} (h : known.Uncertain d) :
    known.compare .eq d d = .unknown := by
  cases hcompare : known.compare .eq d d with
  | unknown => rfl
  | proven => exact absurd hcompare h.2
  | refuted => exact absurd hcompare (compare_self_ne_refuted d)

/-- Adds conditions to a list without repeating any. -/
def addConds (conds new : List Cond) : List Cond :=
  new.foldl (fun acc c => if c ∈ acc then acc else acc ++ [c]) conds

theorem addConds_append (conds new new' : List Cond) :
    addConds conds (new ++ new') = addConds (addConds conds new) new' :=
  List.foldl_append

theorem mem_addConds {conds new : List Cond} {c : Cond} :
    c ∈ addConds conds new ↔ c ∈ conds ∨ c ∈ new := by
  induction new generalizing conds with
  | nil => simp [addConds]
  | cons d new ih =>
    rw [addConds, List.foldl_cons, ← addConds, ih, List.mem_cons, ← or_assoc]
    refine or_congr_left ?_
    split
    · rename_i hd
      exact ⟨Or.inl, fun hc => hc.elim id (· ▸ hd)⟩
    · rw [List.mem_append, List.mem_singleton]

theorem nodup_addConds {conds : List Cond} (h : conds.Nodup) (new : List Cond) :
    (addConds conds new).Nodup := by
  induction new generalizing conds with
  | nil => exact h
  | cons d new ih =>
    rw [addConds, List.foldl_cons, ← addConds]
    refine ih ?_
    split
    · exact h
    · rename_i hd
      rw [← List.concat_eq_append]
      exact List.Nodup.concat hd h

namespace Progress

theorem mem_defer {s : Progress} {c d : Cond} :
    d ∈ (s.defer c).deferred ↔ d ∈ s.deferred ∨ d = c := by
  unfold defer
  split
  · rename_i hc
    exact ⟨Or.inl, fun h => h.elim (fun h => h) fun heq => heq ▸ hc⟩
  · rw [List.mem_append, List.mem_singleton]

theorem defer_fields (s : Progress) (c : Cond) :
    (s.defer c).classes = s.classes ∧ (s.defer c).woken = s.woken := by
  unfold defer
  split <;> exact ⟨rfl, rfl⟩

theorem deferred_defer (s : Progress) (c : Cond) :
    (s.defer c).deferred = addConds s.deferred [c] := by
  by_cases hc : c ∈ s.deferred <;> simp [addConds, defer, hc]

/-- Registers placeholders and puts off the conditions that some dimensions equal themselves. -/
def note (s : Progress) (ps : List Placeholder) (ds : List Dim) : Progress :=
  { s with
    classes := s.classes.ensureAll ps
    deferred := addConds s.deferred (ds.map fun d => .eq d d) }

theorem note_note (s : Progress) (ps ps' : List Placeholder) (ds ds' : List Dim) :
    (s.note ps ds).note ps' ds' = s.note (ps ++ ps') (ds ++ ds') := by
  simp only [note, addConds, Classes.ensureAll, List.map_append, List.foldl_append]

theorem note_singleton (s : Progress) (d : Dim) : s.note [] [d] = s.defer (.eq d d) := by
  by_cases h : Cond.eq d d ∈ s.deferred <;> simp [note, addConds, Classes.ensureAll, defer, h]

end Progress

namespace Site

/-- What comes of meeting placeholders and, axis by axis, dimensions in a comparison of equal types:
the placeholders are registered and the uncertain dimensions put off, or the first of these is
rejected. -/
def recheck (site : Site) (s : Progress) (ps : List Placeholder) (axes : List (Dim × Nat)) :
    Except TypeError Progress :=
  match site.strict, axes.filter fun a => site.known.Uncertain a.1 with
  | true, (d, axis) :: _ => .error (.dimensionMismatch axis d d site.span)
  | _, uncertain => .ok (s.note ps (uncertain.map Prod.fst))

variable {site : Site} {s : Progress}

theorem recheck_of_lenient (h : site.strict = false) (ps : List Placeholder)
    (axes : List (Dim × Nat)) : site.recheck s ps axes =
      .ok (s.note ps ((axes.filter fun a => site.known.Uncertain a.1).map Prod.fst)) := by
  rw [recheck, h]

theorem recheck_of_certain {axes : List (Dim × Nat)} (h : ∀ a ∈ axes, ¬ site.known.Uncertain a.1)
    (ps : List Placeholder) : site.recheck s ps axes = .ok (s.note ps []) := by
  have hfilter : axes.filter (fun a => site.known.Uncertain a.1) = [] := by simpa using h
  rw [recheck, hfilter]
  cases site.strict <;> rfl

/-- What is met later is added to what was met before. -/
theorem recheck_bind (ps ps' : List Placeholder) (axes axes' : List (Dim × Nat)) :
    ((site.recheck s ps axes).bind fun s' => site.recheck s' ps' axes') =
      site.recheck s (ps ++ ps') (axes ++ axes') := by
  unfold recheck
  rw [List.filter_append]
  cases site.strict with
  | false => simp [Except.bind, Progress.note_note]
  | true =>
    cases axes.filter fun a => site.known.Uncertain a.1 with
    | cons a rest => rfl
    | nil =>
      cases axes'.filter fun a => site.known.Uncertain a.1 with
      | cons a rest => rfl
      | nil => simp [Except.bind, Progress.note_note]

theorem compareAxis_self (s : Progress) (axis : Nat) (d : Dim) :
    site.compareAxis s axis d d = site.recheck s [] [(d, axis)] := by
  by_cases hd : site.known.Uncertain d
  · rw [compareAxis, if_neg (not_or.mpr ⟨hd.1, hd.1⟩), hd.unknown, recheck,
      List.filter_cons_of_pos (by simpa using hd)]
    cases site.strict with
    | true => rfl
    | false =>
      rw [← Progress.note_singleton]
      rfl
  · rw [recheck_of_certain (by simpa using hd)]
    unfold compareAxis
    split
    · rfl
    · rename_i hany
      rw [Ranges.Uncertain, not_and_or, not_not, not_not] at hd
      rw [hd.resolve_left fun h => hany (Or.inl h)]
      rfl

/-- A shape compared with itself. -/
theorem compareAxes_self (s : Progress) (axis : Nat) (shape : List Dim) :
    site.compareAxes s axis (shape.zip shape) = site.recheck s [] (shape.zipIdx axis) := by
  induction shape generalizing s axis with
  | nil => exact (recheck_of_certain (fun _ ha => absurd ha List.not_mem_nil) []).symm
  | cons d shape ih =>
    calc site.compareAxes s axis ((d :: shape).zip (d :: shape))
        = (site.compareAxis s axis d d).bind fun s' =>
            site.compareAxes s' (axis + 1) (shape.zip shape) := rfl
      _ = (site.recheck s [] [(d, axis)]).bind fun s' =>
            site.recheck s' [] (shape.zipIdx (axis + 1)) := by simp only [compareAxis_self, ih]
      _ = site.recheck s [] ((d :: shape).zipIdx axis) := by
            rw [recheck_bind, List.zipIdx_cons]
            rfl

theorem compareTensors_self (s : Progress) (a : TensorType) :
    site.compareTensors s a a = site.recheck s [] a.shape.zipIdx := by
  rw [← compareAxes_self]
  simp only [compareTensors, ne_eq, not_true_eq_false, if_false]

/-- Two placeholders of one id. -/
theorem step_hole_self (s : Progress) {p q : Placeholder} (h : p.id = q.id) :
    site.step s (hole p) (hole q) = .ok (.solved (s.note [p] [])) := by
  have hregistered : ((s.classes.ensure p).cell? q.id).isSome = true :=
    (Classes.registered_ensure s.classes p).mpr (Or.inr h.symm)
  have hensure : (s.classes.ensure p).ensure q = s.classes.ensure p := if_pos hregistered
  rw [step, joinHoles]
  dsimp only
  rw [if_pos (by rw [h]), hensure]
  rfl

end Site

end TensorTyping
