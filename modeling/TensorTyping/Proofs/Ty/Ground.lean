import TensorTyping.Proofs.Ty.Alike

namespace TensorTyping

namespace Ty

/-- Structural equality: dimensions are written alike, type parameters count by id
and definitions by name. -/
abbrev Same : Ty → Ty → Prop := Alike (· = ·)

theorem Same.refl (t : Ty) : t.Same t := Alike.refl (fun _ => rfl) t

theorem Same.symm {t u : Ty} (h : t.Same u) : u.Same t := Alike.symm (fun _ _ => Eq.symm) h

theorem Same.trans {t u v : Ty} (htu : t.Same u) (huv : u.Same v) : t.Same v :=
  Alike.trans (fun _ _ _ hde hef => hde.trans hef) htu huv

theorem eq_of_same_tensor {a b : TensorType} (h : (tensor a).Same (tensor b)) : a = b := by
  obtain ⟨hdtype, hshape⟩ := alike_tensor.mp h
  rw [List.forall₂_eq_eq_eq] at hshape
  obtain ⟨shape, dtype⟩ := a
  dsimp only at hdtype hshape
  rw [hdtype, hshape]

mutual

/-- The dimensions of all tensors in a type. -/
@[simp] def dims : Ty → List Dim
  | tensor a => a.shape
  | var _ | global _ | hole _ => []
  | tuple fields => dimsAll fields
  | ref value => value.dims
  | call callee args => callee.dims ++ dimsAll args
  | func params result _ => dimsAll params ++ result.dims

@[simp] def dimsAll : List Ty → List Dim
  | [] => []
  | t :: ts => t.dims ++ dimsAll ts

end

theorem dimsAll_eq_flatMap (ts : List Ty) : dimsAll ts = ts.flatMap dims := by
  induction ts with
  | nil => rfl
  | cons t ts ih => rw [dimsAll, ih, List.flatMap_cons]

private theorem mem_dims_fillAll {f : Placeholder → Ty} {ts : List Ty} {d : Dim}
    (hts : ∀ t ∈ ts, (d ∈ (t.fill f).dims ↔
      d ∈ t.dims ∨ ∃ p ∈ t.occurrences, d ∈ (f p).dims)) :
    d ∈ dimsAll (ts.map (fill f)) ↔
      d ∈ dimsAll ts ∨ ∃ p ∈ ts.flatMap occurrences, d ∈ (f p).dims := by
  induction ts with
  | nil => simp [dimsAll]
  | cons t ts ih =>
    simp only [List.mem_cons, forall_eq_or_imp] at hts
    rw [List.map_cons, dimsAll, dimsAll, List.flatMap_cons, List.mem_append, List.mem_append, hts.1,
      ih hts.2]
    simp only [List.mem_append, or_and_right, exists_or]
    exact or_or_or_comm

/-- The dimensions after filling are those of before and those filled in. -/
theorem mem_dims_fill {f : Placeholder → Ty} {t : Ty} {d : Dim} :
    d ∈ (t.fill f).dims ↔ d ∈ t.dims ∨ ∃ p ∈ t.occurrences, d ∈ (f p).dims := by
  induction t using Ty.induction with
  | tensor | var | global => simp [occurrences]
  | hole p => simp [occurrences, dims]
  | tuple ts ih =>
    rw [fill_tuple, occurrences_tuple, dims, dims]
    exact mem_dims_fillAll ih
  | ref t ih => exact ih
  | call f ts ihf ihts =>
    rw [fill_call, occurrences_call, dims, dims, List.mem_append, List.mem_append, ihf,
      mem_dims_fillAll ihts]
    simp only [List.mem_append, or_and_right, exists_or]
    exact or_or_or_comm
  | func ts r vs ihts ihr =>
    rw [fill_func, occurrences_func, dims, dims, List.mem_append, List.mem_append, ihr,
      mem_dims_fillAll ihts]
    simp only [List.mem_append, or_and_right, exists_or]
    exact or_or_or_comm

private theorem nodesAll_eq_of_alike {D : Dim → Dim → Prop} {ts us : List Ty}
    (h : List.Forall₂ (Alike D) ts us)
    (hts : ∀ t ∈ ts, ∀ u, t.Alike D u → t.nodes = u.nodes) : nodesAll ts = nodesAll us := by
  induction h with
  | nil => rfl
  | cons htu _ ih =>
    simp only [List.mem_cons, forall_eq_or_imp] at hts
    rw [nodesAll, nodesAll, hts.1 _ htu, ih hts.2]

theorem Alike.nodes_eq {D : Dim → Dim → Prop} {t u : Ty} (h : t.Alike D u) :
    t.nodes = u.nodes := by
  induction t using Ty.induction generalizing u with
  | tensor | hole | var | global =>
    cases u <;> simp only [Alike] at h
    rfl
  | tuple ts ih =>
    cases u <;> simp only [Alike, alikeAll_iff] at h
    rw [nodes, nodes, nodesAll_eq_of_alike h fun t ht u htu => ih t ht htu]
  | ref t ih =>
    cases u <;> simp only [Alike] at h
    rw [nodes, nodes, ih h]
  | call f ts ihf ihts =>
    cases u <;> simp only [Alike, alikeAll_iff] at h
    rw [nodes, nodes, ihf h.1, nodesAll_eq_of_alike h.2 fun t ht u htu => ihts t ht htu]
  | func ts r vs ihts ihr =>
    cases u <;> simp only [Alike, alikeAll_iff] at h
    rw [nodes, nodes, ihr h.2.1, nodesAll_eq_of_alike h.1 fun t ht u htu => ihts t ht htu]

private theorem nodes_le_nodesAll {t : Ty} {ts : List Ty} (h : t ∈ ts) :
    t.nodes ≤ nodesAll ts := by
  induction ts with
  | nil => cases h
  | cons u ts ih =>
    rw [nodesAll]
    obtain rfl | h := List.mem_cons.mp h
    · omega
    · have := ih h
      omega

/-- What is filled into a proper part is smaller than the whole. -/
private theorem nodes_fill (f : Placeholder → Ty) {t : Ty} {p : Placeholder}
    (hp : p ∈ t.occurrences) :
    (f p).nodes ≤ (t.fill f).nodes ∧ (t.hole? = none → (f p).nodes < (t.fill f).nodes) := by
  induction t using Ty.induction with
  | tensor | var | global => cases hp
  | hole q =>
    rw [occurrences, List.mem_singleton] at hp
    subst hp
    exact ⟨Nat.le_refl _, fun h => by cases h⟩
  | tuple ts ih =>
    rw [occurrences_tuple, List.mem_flatMap] at hp
    obtain ⟨t, ht, hp⟩ := hp
    have hle := nodes_le_nodesAll (List.mem_map_of_mem (f := fill f) ht)
    have hpart := (ih t ht hp).1
    rw [fill_tuple, nodes]
    omega
  | ref t ih =>
    have hpart := (ih hp).1
    rw [fill_ref, nodes]
    omega
  | call g ts ihg ihts =>
    rw [occurrences_call, List.mem_append, List.mem_flatMap] at hp
    rw [fill_call, nodes]
    obtain hp | ⟨t, ht, hp⟩ := hp
    · have hpart := (ihg hp).1
      omega
    · have hle := nodes_le_nodesAll (List.mem_map_of_mem (f := fill f) ht)
      have hpart := (ihts t ht hp).1
      omega
  | func ts r vs ihts ihr =>
    rw [occurrences_func, List.mem_append, List.mem_flatMap] at hp
    rw [fill_func, nodes]
    obtain ⟨t, ht, hp⟩ | hp := hp
    · have hle := nodes_le_nodesAll (List.mem_map_of_mem (f := fill f) ht)
      have hpart := (ihts t ht hp).1
      omega
    · have hpart := (ihr hp).1
      omega

end Ty

/-- A choice of types without placeholders, one for every placeholder. -/
structure Grounding where
  ty : UInt32 → Ty
  complete : ∀ id, (ty id).isComplete = true

namespace Ty

/-- Puts chosen types in place of all placeholders. -/
def ground (θ : Grounding) (t : Ty) : Ty := t.fill fun p => θ.ty p.id

theorem ground_hole (θ : Grounding) (p : Placeholder) : (hole p).ground θ = θ.ty p.id := rfl

theorem isComplete_ground (θ : Grounding) (t : Ty) : (t.ground θ).isComplete = true :=
  isComplete_fill (fun p => θ.complete p.id) t

/-- Types that are alike stay so under one choice. -/
theorem Alike.ground {D : Dim → Dim → Prop} (hD : ∀ d, D d d) {t u : Ty} (h : t.Alike D u)
    (θ : Grounding) : (t.ground θ).Alike D (u.ground θ) :=
  h.fill fun p _ q hpq => by
    rw [hpq]
    exact Alike.refl hD _

theorem ground_fill (θ : Grounding) (f : Placeholder → Ty) (t : Ty) :
    (t.fill f).ground θ = t.fill fun p => (f p).ground θ :=
  fill_fill f _ t

/-- No choice makes a placeholder the same as a larger type that it occurs in. -/
theorem not_same_ground_of_mem {t : Ty} {p : Placeholder} {id : UInt32} (hid : id ∈ t.ids)
    (hp : p.id = id) (ht : t.hole? = none) (θ : Grounding) :
    ¬ ((hole p).ground θ).Same (t.ground θ) := by
  intro h
  obtain ⟨q, hq, rfl⟩ := mem_ids.mp hid
  have hnodes := h.nodes_eq
  have hlt := (nodes_fill (fun p => θ.ty p.id) hq).2 ht
  rw [ground_hole, hp] at hnodes
  rw [ground] at hnodes
  omega

end Ty

end TensorTyping
