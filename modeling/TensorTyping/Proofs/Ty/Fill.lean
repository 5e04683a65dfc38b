import Mathlib.Data.List.Basic
import TensorTyping.Proofs.Ty.Placeholders
import TensorTyping.Session.Equations
import TensorTyping.Ty.Replace

namespace TensorTyping.Ty

/-- Puts a type in place of every placeholder. -/
def fill (image : Placeholder → Ty) (t : Ty) : Ty := t.subst fun p => some (image p)

section fill

variable (image : Placeholder → Ty)

@[simp] theorem fill_tensor (t : TensorType) : (tensor t).fill image = tensor t := rfl

@[simp] theorem fill_tuple (ts : List Ty) :
    (tuple ts).fill image = tuple (ts.map (fill image)) := by
  rw [fill, subst, substAll_eq_map]
  rfl

@[simp] theorem fill_ref (t : Ty) : (ref t).fill image = ref (t.fill image) := rfl

@[simp] theorem fill_call (f : Ty) (ts : List Ty) :
    (call f ts).fill image = call (f.fill image) (ts.map (fill image)) := by
  rw [fill, subst, substAll_eq_map]
  rfl

@[simp] theorem fill_hole (p : Placeholder) : (hole p).fill image = image p := rfl

@[simp] theorem fill_func (ts : List Ty) (r : Ty) (vs : List TypeVar) :
    (func ts r vs).fill image = func (ts.map (fill image)) (r.fill image) vs := by
  rw [fill, subst, substAll_eq_map]
  rfl

@[simp] theorem fill_var (v : TypeVar) : (var v).fill image = var v := rfl

@[simp] theorem fill_global (g : GlobalVar) : (global g).fill image = global g := rfl

end fill

theorem subst_eq_fill (f : Placeholder → Option Ty) (t : Ty) :
    t.subst f = t.fill fun p => (f p).getD (hole p) := by
  induction t using Ty.induction with
  | tensor | var | global | hole => rfl
  | tuple ts ih =>
    rw [subst, substAll_eq_map, fill_tuple, List.map_congr_left ih]
  | ref t ih => rw [subst, ih, fill_ref]
  | call f ts ihf ihts =>
    rw [subst, substAll_eq_map, fill_call, ihf, List.map_congr_left ihts]
  | func ts r vs ihts ihr =>
    rw [subst, substAll_eq_map, fill_func, ihr, List.map_congr_left ihts]

/-- Only the images of placeholders that occur matter. -/
theorem fill_congr {f g : Placeholder → Ty} {t : Ty} (h : ∀ p ∈ t.occurrences, f p = g p) :
    t.fill f = t.fill g := by
  induction t using Ty.induction with
  | tensor | var | global => rfl
  | hole p => exact h p (by simp [occurrences])
  | tuple ts ih =>
    simp only [occurrences_tuple, List.mem_flatMap, forall_exists_index, and_imp] at h
    simp only [fill_tuple, tuple.injEq]
    exact List.map_congr_left fun u hu => ih u hu fun p hp => h p u hu hp
  | ref t ih => rw [fill_ref, fill_ref, ih h]
  | call u ts ihu ihts =>
    simp only [occurrences_call, List.mem_append, List.mem_flatMap] at h
    simp only [fill_call, call.injEq]
    exact ⟨ihu fun p hp => h p (Or.inl hp),
      List.map_congr_left fun v hv => ihts v hv fun p hp => h p (Or.inr ⟨v, hv, hp⟩)⟩
  | func ts r vs ihts ihr =>
    simp only [occurrences_func, List.mem_append, List.mem_flatMap] at h
    simp only [fill_func, func.injEq, and_true]
    exact ⟨List.map_congr_left fun v hv => ihts v hv fun p hp => h p (Or.inl ⟨v, hv, hp⟩),
      ihr fun p hp => h p (Or.inr hp)⟩

theorem fill_hole_eq_self (t : Ty) : t.fill hole = t := by
  induction t using Ty.induction with
  | tensor | var | global | hole => rfl
  | tuple ts ih => rw [fill_tuple, List.map_congr_left ih, List.map_id']
  | ref t ih => rw [fill_ref, ih]
  | call f ts ihf ihts => rw [fill_call, ihf, List.map_congr_left ihts, List.map_id']
  | func ts r vs ihts ihr => rw [fill_func, ihr, List.map_congr_left ihts, List.map_id']

/-- Filling leaves a type alone if it leaves its placeholders alone. -/
theorem fill_eq_self {f : Placeholder → Ty} {t : Ty} (h : ∀ p ∈ t.occurrences, f p = hole p) :
    t.fill f = t := by
  rw [fill_congr h, fill_hole_eq_self]

theorem fill_fill (f g : Placeholder → Ty) (t : Ty) :
    (t.fill f).fill g = t.fill fun p => (f p).fill g := by
  induction t using Ty.induction with
  | tensor | var | global | hole => rfl
  | tuple ts ih =>
    simp only [fill_tuple, List.map_map, tuple.injEq]
    exact List.map_congr_left ih
  | ref t ih => rw [fill_ref, fill_ref, ih, fill_ref]
  | call u ts ihu ihts =>
    simp only [fill_call, List.map_map, call.injEq]
    exact ⟨ihu, List.map_congr_left ihts⟩
  | func ts r vs ihts ihr =>
    simp only [fill_func, List.map_map, func.injEq, and_true]
    exact ⟨List.map_congr_left ihts, ihr⟩

theorem mem_occurrences_fill {f : Placeholder → Ty} {t : Ty} {p : Placeholder} :
    p ∈ (t.fill f).occurrences ↔ ∃ q ∈ t.occurrences, p ∈ (f q).occurrences :=
  mem_occurrences_subst

theorem isComplete_fill {f : Placeholder → Ty} (hf : ∀ p, (f p).isComplete = true) (t : Ty) :
    (t.fill f).isComplete = true := by
  rw [isComplete_iff, List.eq_nil_iff_forall_not_mem]
  intro p hp
  obtain ⟨q, -, hq⟩ := mem_occurrences_fill.mp hp
  rw [(isComplete_iff (f q)).mp (hf q)] at hq
  cases hq

theorem fill_of_isComplete {t : Ty} (h : t.isComplete = true) (f : Placeholder → Ty) :
    t.fill f = t := by
  refine fill_eq_self fun p hp => ?_
  rw [(isComplete_iff t).mp h] at hp
  cases hp

theorem eliminate_eq_fill (t : Ty) (id : UInt32) (image : Ty) :
    t.eliminate id image = t.fill fun p => if p.id = id then image else hole p := by
  rw [eliminate, replace_eq_subst, subst_eq_fill]
  refine fill_congr fun p _ => ?_
  split <;> rfl

theorem eliminate_eq_self {t : Ty} {id : UInt32} (h : id ∉ t.ids) (image : Ty) :
    t.eliminate id image = t := by
  rw [eliminate_eq_fill]
  refine fill_eq_self fun p hp => if_neg ?_
  rintro rfl
  exact h (mem_ids.mpr ⟨p, hp, rfl⟩)

end TensorTyping.Ty
