import Mathlib.Data.List.Forall2
import TensorTyping.Proofs.Ty.Fill

namespace TensorTyping.Ty

mutual

/-- Two types have the same structure and their dimensions are related in
pairs. Placeholders and type parameters count by id and definitions by name; the
type parameters of a function count in full. -/
@[simp] def Alike (D : Dim → Dim → Prop) : Ty → Ty → Prop
  | tensor a, tensor b => a.dtype = b.dtype ∧ List.Forall₂ D a.shape b.shape
  | tuple ts, tuple us => AlikeAll D ts us
  | ref t, ref u => t.Alike D u
  | call f ts, call g us => f.Alike D g ∧ AlikeAll D ts us
  | hole p, hole q => p.id = q.id
  | func ts r vs, func us r' ws => AlikeAll D ts us ∧ r.Alike D r' ∧ vs = ws
  | var v, var w => v.id = w.id
  | global g, global h => g.name = h.name
  | _, _ => False

def AlikeAll (D : Dim → Dim → Prop) : List Ty → List Ty → Prop
  | [], [] => True
  | t :: ts, u :: us => t.Alike D u ∧ AlikeAll D ts us
  | _, _ => False

end

section Alike

variable {D : Dim → Dim → Prop}

@[simp] theorem alikeAll_iff {ts us : List Ty} :
    AlikeAll D ts us ↔ List.Forall₂ (Alike D) ts us := by
  induction ts generalizing us with
  | nil => cases us <;> simp [AlikeAll]
  | cons t ts ih => cases us <;> simp [AlikeAll, ih]

@[simp] theorem alike_tensor {a b : TensorType} :
    (tensor a).Alike D (tensor b) ↔ a.dtype = b.dtype ∧ List.Forall₂ D a.shape b.shape := by
  rw [Alike]

@[simp] theorem alike_tuple {ts us : List Ty} :
    (tuple ts).Alike D (tuple us) ↔ List.Forall₂ (Alike D) ts us := by
  rw [Alike, alikeAll_iff]

@[simp] theorem alike_ref {t u : Ty} : (ref t).Alike D (ref u) ↔ t.Alike D u := by
  rw [Alike]

@[simp] theorem alike_call {f g : Ty} {ts us : List Ty} :
    (call f ts).Alike D (call g us) ↔ f.Alike D g ∧ List.Forall₂ (Alike D) ts us := by
  rw [Alike, alikeAll_iff]

@[simp] theorem alike_hole {p q : Placeholder} :
    (hole p).Alike D (hole q) ↔ p.id = q.id := by
  rw [Alike]

@[simp] theorem alike_func {ts us : List Ty} {r r' : Ty} {vs ws : List TypeVar} :
    (func ts r vs).Alike D (func us r' ws) ↔
      List.Forall₂ (Alike D) ts us ∧ r.Alike D r' ∧ vs = ws := by
  rw [Alike, alikeAll_iff]

@[simp] theorem alike_var {v w : TypeVar} : (var v).Alike D (var w) ↔ v.id = w.id := by
  rw [Alike]

@[simp] theorem alike_global {g h : GlobalVar} :
    (global g).Alike D (global h) ↔ g.name = h.name := by
  rw [Alike]

/-- Two lists that are alike under a hypothesis on the members of the first. -/
private theorem forall₂_of_mem {R S : Ty → Ty → Prop} {ts us : List Ty}
    (h : List.Forall₂ R ts us) (hts : ∀ t ∈ ts, ∀ u, R t u → S t u) : List.Forall₂ S ts us := by
  induction h with
  | nil => exact .nil
  | cons htu _ ih =>
    simp only [List.mem_cons, forall_eq_or_imp] at hts
    exact .cons (hts.1 _ htu) (ih hts.2)

private theorem forall₂_trans_of_mem {α : Type} {R : α → α → Prop} {ts us vs : List α}
    (hts : ∀ t ∈ ts, ∀ u v, R t u → R u v → R t v) (htu : List.Forall₂ R ts us)
    (huv : List.Forall₂ R us vs) : List.Forall₂ R ts vs := by
  induction htu generalizing vs with
  | nil => exact huv
  | cons hhead _ ih =>
    cases huv with
    | cons hhead' htail =>
      simp only [List.mem_cons, forall_eq_or_imp] at hts
      exact .cons (hts.1 _ _ hhead hhead') (ih hts.2 htail)

theorem Alike.mono {E : Dim → Dim → Prop} (hDE : ∀ d e, D d e → E d e) {t u : Ty}
    (h : t.Alike D u) : t.Alike E u := by
  induction t using Ty.induction generalizing u with
  | tensor a =>
    cases u <;> simp only [Alike] at h ⊢
    exact ⟨h.1, h.2.imp hDE⟩
  | tuple ts ih =>
    cases u <;> simp only [Alike, alikeAll_iff] at h ⊢
    exact forall₂_of_mem h fun t ht u => ih t ht
  | ref t ih =>
    cases u <;> simp only [Alike] at h ⊢
    exact ih h
  | call f ts ihf ihts =>
    cases u <;> simp only [Alike, alikeAll_iff] at h ⊢
    exact ⟨ihf h.1, forall₂_of_mem h.2 fun t ht u => ihts t ht⟩
  | func ts r vs ihts ihr =>
    cases u <;> simp only [Alike, alikeAll_iff] at h ⊢
    exact ⟨forall₂_of_mem h.1 fun t ht u => ihts t ht, ihr h.2.1, h.2.2⟩
  | hole | var | global =>
    cases u <;> simp only [Alike] at h ⊢
    exact h

theorem Alike.refl (hD : ∀ d, D d d) (t : Ty) : t.Alike D t := by
  induction t using Ty.induction with
  | tensor t => exact alike_tensor.mpr ⟨rfl, List.forall₂_same.mpr fun d _ => hD d⟩
  | tuple ts ih => exact alike_tuple.mpr (List.forall₂_same.mpr ih)
  | ref t ih => exact alike_ref.mpr ih
  | call f ts ihf ihts => exact alike_call.mpr ⟨ihf, List.forall₂_same.mpr ihts⟩
  | hole p => exact alike_hole.mpr rfl
  | func ts r vs ihts ihr => exact alike_func.mpr ⟨List.forall₂_same.mpr ihts, ihr, rfl⟩
  | var v => exact alike_var.mpr rfl
  | global g => exact alike_global.mpr rfl

theorem Alike.symm (hD : ∀ d e, D d e → D e d) {t u : Ty} (h : t.Alike D u) : u.Alike D t := by
  induction t using Ty.induction generalizing u with
  | tensor t =>
    cases u with
    | tensor u =>
      obtain ⟨hdtype, hshape⟩ := alike_tensor.mp h
      exact alike_tensor.mpr ⟨hdtype.symm, hshape.flip.imp fun d e hde => hD e d hde⟩
    | _ => simp [Alike] at h
  | tuple ts ih =>
    cases u with
    | tuple us =>
      exact alike_tuple.mpr (forall₂_of_mem (alike_tuple.mp h) fun t ht u htu => ih t ht htu).flip
    | _ => simp [Alike] at h
  | ref t ih =>
    cases u with
    | ref u => exact alike_ref.mpr (ih (alike_ref.mp h))
    | _ => simp [Alike] at h
  | call f ts ihf ihts =>
    cases u with
    | call g us =>
      obtain ⟨hfg, htus⟩ := alike_call.mp h
      exact alike_call.mpr ⟨ihf hfg, (forall₂_of_mem htus fun t ht u htu => ihts t ht htu).flip⟩
    | _ => simp [Alike] at h
  | hole p =>
    cases u with
    | hole q => exact alike_hole.mpr (alike_hole.mp h).symm
    | _ => simp [Alike] at h
  | func ts r vs ihts ihr =>
    cases u with
    | func us r' ws =>
      obtain ⟨htus, hr, hvs⟩ := alike_func.mp h
      exact alike_func.mpr
        ⟨(forall₂_of_mem htus fun t ht u htu => ihts t ht htu).flip, ihr hr, hvs.symm⟩
    | _ => simp [Alike] at h
  | var v =>
    cases u with
    | var w => exact alike_var.mpr (alike_var.mp h).symm
    | _ => simp [Alike] at h
  | global g =>
    cases u with
    | global g' => exact alike_global.mpr (alike_global.mp h).symm
    | _ => simp [Alike] at h

theorem Alike.trans (hD : ∀ d e f, D d e → D e f → D d f) {t u v : Ty} (htu : t.Alike D u)
    (huv : u.Alike D v) : t.Alike D v := by
  induction t using Ty.induction generalizing u v with
  | tensor a =>
    cases u <;> cases v <;> simp only [Alike] at htu huv ⊢
    exact ⟨htu.1.trans huv.1, forall₂_trans_of_mem (fun d _ e f => hD d e f) htu.2 huv.2⟩
  | tuple ts ih =>
    cases u <;> cases v <;> simp only [Alike, alikeAll_iff] at htu huv ⊢
    exact forall₂_trans_of_mem (fun t ht u v => ih t ht) htu huv
  | ref t ih =>
    cases u <;> cases v <;> simp only [Alike] at htu huv ⊢
    exact ih htu huv
  | call f ts ihf ihts =>
    cases u <;> cases v <;> simp only [Alike, alikeAll_iff] at htu huv ⊢
    exact ⟨ihf htu.1 huv.1, forall₂_trans_of_mem (fun t ht u v => ihts t ht) htu.2 huv.2⟩
  | hole p =>
    cases u <;> cases v <;> simp only [Alike] at htu huv ⊢
    exact htu.trans huv
  | func ts r vs ihts ihr =>
    cases u <;> cases v <;> simp only [Alike, alikeAll_iff] at htu huv ⊢
    exact ⟨forall₂_trans_of_mem (fun t ht u v => ihts t ht) htu.1 huv.1, ihr htu.2.1 huv.2.1,
      htu.2.2.trans huv.2.2⟩
  | var v =>
    cases u <;> cases v <;> simp only [Alike] at htu huv ⊢
    exact htu.trans huv
  | global g =>
    cases u <;> cases v <;> simp only [Alike] at htu huv ⊢
    exact htu.trans huv

/-- Filling in types that are alike keeps types alike. -/
theorem Alike.fill {t u : Ty} (h : t.Alike D u) {f g : Placeholder → Ty}
    (hfg : ∀ p ∈ t.occurrences, ∀ q, p.id = q.id → (f p).Alike D (g q)) :
    (t.fill f).Alike D (u.fill g) := by
  induction t using Ty.induction generalizing u with
  | tensor a =>
    cases u <;> simp only [Alike] at h
    simpa [Alike] using h
  | tuple ts ih =>
    cases u <;> simp only [Alike, alikeAll_iff] at h
    simp only [occurrences_tuple, List.mem_flatMap, forall_exists_index, and_imp] at hfg
    rw [fill_tuple, fill_tuple, alike_tuple, List.forall₂_map_left_iff, List.forall₂_map_right_iff]
    exact forall₂_of_mem h fun t ht u htu => ih t ht htu fun p hp => hfg p t ht hp
  | ref t ih =>
    cases u <;> simp only [Alike] at h
    exact alike_ref.mpr (ih h hfg)
  | call f ts ihf ihts =>
    cases u <;> simp only [Alike, alikeAll_iff] at h
    simp only [occurrences_call, List.mem_append, List.mem_flatMap] at hfg
    rw [fill_call, fill_call, alike_call, List.forall₂_map_left_iff, List.forall₂_map_right_iff]
    exact ⟨ihf h.1 fun p hp => hfg p (Or.inl hp), forall₂_of_mem h.2 fun t ht u htu =>
      ihts t ht htu fun p hp => hfg p (Or.inr ⟨t, ht, hp⟩)⟩
  | hole p =>
    cases u <;> simp only [Alike] at h
    exact hfg p (by simp [occurrences]) _ h
  | func ts r vs ihts ihr =>
    cases u <;> simp only [Alike, alikeAll_iff] at h
    simp only [occurrences_func, List.mem_append, List.mem_flatMap] at hfg
    rw [fill_func, fill_func, alike_func, List.forall₂_map_left_iff, List.forall₂_map_right_iff]
    exact ⟨forall₂_of_mem h.1 fun t ht u htu =>
      ihts t ht htu fun p hp => hfg p (Or.inl ⟨t, ht, hp⟩), ihr h.2.1 fun p hp => hfg p (Or.inr hp),
      h.2.2⟩
  | var v =>
    cases u <;> simp only [Alike] at h
    simpa [Alike] using h
  | global g =>
    cases u <;> simp only [Alike] at h
    simpa [Alike] using h

end Alike

end TensorTyping.Ty
