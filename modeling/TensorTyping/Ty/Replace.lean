import TensorTyping.Ty.Placeholders

namespace TensorTyping.Ty

mutual

/-- Puts a type in place of every placeholder that has one. Replacements are not replaced again. -/
def subst (f : Placeholder → Option Ty) : Ty → Ty
  | tensor t => tensor t
  | tuple fields => tuple (substAll f fields)
  | ref value => ref (value.subst f)
  | call callee args => call (callee.subst f) (substAll f args)
  | hole p => (f p).getD (hole p)
  | func params result typeParams => func (substAll f params) (result.subst f) typeParams
  | var v => var v
  | global g => global g

/-- Replacement in every member of a list. -/
def substAll (f : Placeholder → Option Ty) : List Ty → List Ty
  | [] => []
  | t :: ts => t.subst f :: substAll f ts

end

mutual

/-- The type after replacement; none if no placeholder of it has a replacement. -/
def replace? (f : Placeholder → Option Ty) : Ty → Option Ty
  | tensor _ | var _ | global _ => none
  | hole p => f p
  | tuple fields => (replaceAll? f fields).map tuple
  | ref value => (value.replace? f).map ref
  | call callee args =>
    match callee.replace? f, replaceAll? f args with
    | none, none => none
    | callee', args' => some (call (callee'.getD callee) (args'.getD args))
  | func params result typeParams =>
    match replaceAll? f params, result.replace? f with
    | none, none => none
    | params', result' => some (func (params'.getD params) (result'.getD result) typeParams)

/-- The list after replacement; none if nothing in it has a replacement. -/
def replaceAll? (f : Placeholder → Option Ty) : List Ty → Option (List Ty)
  | [] => none
  | t :: ts =>
    match t.replace? f, replaceAll? f ts with
    | none, none => none
    | t', ts' => some (t'.getD t :: ts'.getD ts)

end

/-- Replacement that keeps untouched parts as they are: only the nodes above a replaced placeholder
    are built anew, and all others are shared with the input. -/
def replace (f : Placeholder → Option Ty) (t : Ty) : Ty := (t.replace? f).getD t

theorem substAll_eq_map (f : Placeholder → Option Ty) (ts : List Ty) :
    substAll f ts = ts.map (subst f) := by
  induction ts with
  | nil => rfl
  | cons t ts ih => simp [substAll, ih]

private theorem replaceAll?_getD (f : Placeholder → Option Ty) (ts : List Ty)
    (h : ∀ t ∈ ts, (t.replace? f).getD t = t.subst f) :
    (replaceAll? f ts).getD ts = substAll f ts := by
  induction ts with
  | nil => rfl
  | cons t ts ih =>
    simp only [List.mem_cons, forall_eq_or_imp] at h
    have hts := ih h.2
    have ht := h.1
    rw [replaceAll?, substAll, ← ht, ← hts]
    cases t.replace? f <;> cases replaceAll? f ts <;> rfl

/-- Sharing does not change the result. -/
theorem replace_eq_subst (f : Placeholder → Option Ty) (t : Ty) : t.replace f = t.subst f := by
  unfold replace
  induction t using Ty.induction with
  | tensor | var | global => rfl
  | hole => rfl
  | tuple fields ih =>
    have hfields := replaceAll?_getD f fields ih
    rw [replace?, subst, ← hfields]
    cases replaceAll? f fields <;> rfl
  | ref value ih =>
    rw [replace?, subst, ← ih]
    cases value.replace? f <;> rfl
  | call callee args ihc iha =>
    have hargs := replaceAll?_getD f args iha
    rw [replace?, subst, ← ihc, ← hargs]
    cases callee.replace? f <;> cases replaceAll? f args <;> rfl
  | func params result typeParams ihp ihr =>
    have hparams := replaceAll?_getD f params ihp
    rw [replace?, subst, ← ihr, ← hparams]
    cases replaceAll? f params <;> cases result.replace? f <;> rfl

/-- The walk over the result is the walk over the type, with the walk over its replacement in place
of every placeholder that has one. -/
theorem occurrences_subst (f : Placeholder → Option Ty) (t : Ty) :
    (t.subst f).occurrences = t.occurrences.flatMap fun p => ((f p).getD (hole p)).occurrences := by
  have hall {ts : List Ty} (h : ∀ t ∈ ts, (t.subst f).occurrences =
      t.occurrences.flatMap fun p => ((f p).getD (hole p)).occurrences) :
      occurrencesAll (substAll f ts) =
        (occurrencesAll ts).flatMap fun p => ((f p).getD (hole p)).occurrences := by
    rw [occurrencesAll_eq_flatMap, occurrencesAll_eq_flatMap, substAll_eq_map, List.flatMap_map,
      List.flatMap_assoc, List.flatMap_def, List.flatMap_def, List.map_congr_left h]
  induction t using Ty.induction with
  | tensor | var | global => rfl
  | hole p => simp [subst, occurrences]
  | tuple fields ih => rw [subst, occurrences, occurrences, hall ih]
  | ref value ih => rw [subst, occurrences, occurrences, ih]
  | call callee args ihc iha =>
    rw [subst, occurrences, occurrences, List.flatMap_append, ihc, hall iha]
  | func params result typeParams ihp ihr =>
    rw [subst, occurrences, occurrences, List.flatMap_append, ihr, hall ihp]

/-- A placeholder of the result is one without a replacement, or stems from a replacement. -/
theorem mem_occurrences_subst {f : Placeholder → Option Ty} {t : Ty} {p : Placeholder} :
    p ∈ (t.subst f).occurrences ↔
      ∃ q ∈ t.occurrences, p ∈ ((f q).getD (hole q)).occurrences := by
  rw [occurrences_subst, List.mem_flatMap]

end TensorTyping.Ty
