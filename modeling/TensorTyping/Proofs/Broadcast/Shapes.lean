import Mathlib.Data.List.Basic
import TensorTyping.Rule.Builtin

namespace TensorTyping.Shape

variable {α β : Type}

/-- The entry of a shape on an axis counted from the right, or `one` beyond its rank. -/
def axis (one : α) (shape : List α) (i : Nat) : α := shape.reverse[i]?.getD one

section extents

variable [OfNat α 1]

/-- Two extents go together on one axis. -/
def Fits (m n : α) : Prop := m = n ∨ m = 1 ∨ n = 1

instance [DecidableEq α] (m n : α) : Decidable (Fits m n) := inferInstanceAs (Decidable (_ ∨ _ ∨ _))

/-- The extent of the joint axis of two extents that go together: that of the other one of a one. -/
def joint [DecidableEq α] (m n : α) : α := if m = 1 then n else m

theorem joint_eq_left [DecidableEq α] {m n : α} (h : m = 1 → n = 1) : joint m n = m := by
  rw [joint]
  split
  · rename_i hm
    rw [h hm, hm]
  · rfl

theorem joint_eq_right [DecidableEq α] {m n : α} (hfits : Fits m n) (h : n = 1 → m = 1) :
    joint m n = n := by
  rw [joint]
  split
  · rfl
  · rename_i hm
    exact hfits.resolve_right fun hone => hm (hone.elim id h)

/-- Two shapes broadcast to a third one. -/
structure Broadcasts [DecidableEq α] (xs ys zs : List α) : Prop where
  rank : zs.length = max xs.length ys.length
  fits : ∀ i, Fits (axis 1 xs i) (axis 1 ys i)
  extent : ∀ i, axis 1 zs i = joint (axis 1 xs i) (axis 1 ys i)

end extents

theorem axis_of_length_le {one : α} {shape : List α} {i : Nat} (h : shape.length ≤ i) :
    axis one shape i = one := by
  rw [axis, List.getElem?_eq_none (by rwa [List.length_reverse]), Option.getD_none]

/-- Beyond the larger rank there are only ones. -/
theorem axis_of_max_le {one : α} {one' : β} {xs : List α} {ys : List β} {i : Nat}
    (h : max xs.length ys.length ≤ i) : axis one xs i = one ∧ axis one' ys i = one' :=
  ⟨axis_of_length_le (Nat.le_trans (Nat.le_max_left ..) h),
    axis_of_length_le (Nat.le_trans (Nat.le_max_right ..) h)⟩

theorem axis_mem {one : α} {shape : List α} {P : α → Prop} (hone : P one) (hshape : ∀ x ∈ shape, P x)
    (i : Nat) : P (axis one shape i) := by
  rw [axis]
  cases h : shape.reverse[i]? with
  | none => exact hone
  | some x => exact hshape x (List.mem_reverse.mp (List.mem_of_getElem? h))

theorem axis_map (f : α → β) (one : α) (shape : List α) (i : Nat) :
    axis (f one) (shape.map f) i = f (axis one shape i) := by
  rw [axis, axis, ← List.map_reverse, List.getElem?_map, Option.getD_map]

/-- The axes of a rank, from the leftmost one on. -/
def positions (rank : Nat) : List Nat := (List.range rank).reverse

theorem mem_positions {rank i : Nat} : i ∈ positions rank ↔ i < rank := by
  rw [positions, List.mem_reverse, List.mem_range]

theorem length_positions (rank : Nat) : (positions rank).length = rank := by
  rw [positions, List.length_reverse, List.length_range]

theorem axis_map_positions {one : α} {f : Nat → α} {rank : Nat} (hf : ∀ i, rank ≤ i → f i = one)
    (i : Nat) : axis one ((positions rank).map f) i = f i := by
  by_cases hi : i < rank
  · simp [axis, positions, hi]
  · have hi := Nat.le_of_not_lt hi
    rw [axis_of_length_le (by rwa [List.length_map, length_positions]), hf i hi]

/-- Either a property holds on all axes of a rank, or there is a leftmost axis where it does not. -/
theorem forall_or_leftmost (P : Nat → Prop) (rank : Nat) :
    (∀ i ∈ positions rank, P i) ∨ ∃ before i after, positions rank = before ++ i :: after ∧
      (∀ j ∈ before, P j) ∧ ¬ P i ∧ ∀ j, i < j → j < rank → P j := by
  have hsucc : ∀ n, positions (n + 1) = n :: positions n := fun n => by
    rw [positions, List.range_succ, List.reverse_append]
    rfl
  induction rank with
  | zero => exact Or.inl nofun
  | succ n ih =>
    rw [hsucc]
    by_cases hn : P n
    · obtain hall | ⟨before, i, after, heq, hbefore, hi, hleft⟩ := ih
      · exact Or.inl (List.forall_mem_cons.mpr ⟨hn, hall⟩)
      · refine Or.inr ⟨n :: before, i, after, congrArg (List.cons n) heq,
          List.forall_mem_cons.mpr ⟨hn, hbefore⟩, hi, fun j hij hj => ?_⟩
        obtain rfl | hj := Nat.eq_or_lt_of_le (Nat.le_of_lt_succ hj)
        · exact hn
        · exact hleft j hij hj
    · exact Or.inr ⟨[], n, positions n, rfl, nofun, hn, fun j hij hj =>
        absurd hj (Nat.not_lt.mpr hij)⟩

section broadcasts

variable [OfNat α 1] {xs ys : List α} {i : Nat}

theorem fits_of_le (h : max xs.length ys.length ≤ i) : Fits (axis 1 xs i) (axis 1 ys i) := by
  obtain ⟨hxs, hys⟩ : axis 1 xs i = 1 ∧ axis 1 ys i = 1 := axis_of_max_le h
  exact Or.inl (hxs.trans hys.symm)

/-- Shapes that go together on every axis broadcast to that of the joint extents. -/
theorem broadcasts_of_fits [DecidableEq α]
    (h : ∀ i ∈ positions (max xs.length ys.length), Fits (axis 1 xs i) (axis 1 ys i)) :
    Broadcasts xs ys ((positions (max xs.length ys.length)).map
      fun i => joint (axis 1 xs i) (axis 1 ys i)) := by
  refine ⟨by rw [List.length_map, length_positions], fun i => ?_, axis_map_positions fun i hi => ?_⟩
  · by_cases hi : i < max xs.length ys.length
    · exact h i (mem_positions.mpr hi)
    · exact fits_of_le (Nat.le_of_not_lt hi)
  · obtain ⟨hxs, hys⟩ : axis 1 xs i = 1 ∧ axis 1 ys i = 1 := axis_of_max_le hi
    rw [hxs, hys, joint, if_pos rfl]

end broadcasts

theorem padded_eq_map {rank : Nat} {shape : List Dim} (h : shape.length ≤ rank) :
    Rule.padded rank shape = (positions rank).map (axis (.const 1) shape) := by
  rw [← List.reverse_inj, positions, List.map_reverse, List.reverse_reverse, Rule.padded,
    List.reverse_append, List.reverse_replicate]
  refine List.ext_getElem (by simp; omega) fun i hi _ => ?_
  rw [List.getElem_append, List.getElem_map, List.getElem_range, axis]
  split
  · rename_i hlt
    rw [List.getElem?_eq_getElem hlt, Option.getD_some]
  · rename_i hge
    rw [List.getElem_replicate, List.getElem?_eq_none (Nat.le_of_not_lt hge), Option.getD_none]

/-- The axes that are joined when two shapes are broadcast. -/
def axes (as bs : List Dim) : List (Dim × Dim) :=
  let rank := max as.length bs.length
  (Rule.padded rank as).zip (Rule.padded rank bs)

theorem axes_eq_map (as bs : List Dim) : axes as bs = (positions (max as.length bs.length)).map
    fun i => (axis (.const 1) as i, axis (.const 1) bs i) := by
  rw [axes, padded_eq_map (Nat.le_max_left ..), padded_eq_map (Nat.le_max_right ..), List.zip_map']

theorem axis_axes (as bs : List Dim) (i : Nat) : axis (Dim.const 1, Dim.const 1) (axes as bs) i =
    (axis (.const 1) as i, axis (.const 1) bs i) := by
  rw [axes_eq_map]
  refine axis_map_positions (fun i hi => ?_) i
  have hones : axis (.const 1) as i = .const 1 ∧ axis (.const 1) bs i = .const 1 := axis_of_max_le hi
  rw [hones.1, hones.2]

/-- The conditions that are asked for when axes are joined. -/
def questions (axes : List (Dim × Dim)) : List Cond :=
  axes.filterMap fun e =>
    if (e.1 = .const 1 ∨ e.1 = .any) ∨ e.2 = .const 1 ∨ e.2 = .any then none else some (.eq e.1 e.2)

/-- The joint dimensions of axes. -/
def jointDims (axes : List (Dim × Dim)) : List Dim :=
  axes.map fun e => if e.1 = .const 1 ∨ e.1 = .any then e.2 else e.1

theorem mem_questions {axes : List (Dim × Dim)} {c : Cond} : c ∈ questions axes ↔ ∃ e ∈ axes,
    (e.1 ≠ .const 1 ∧ e.1 ≠ .any) ∧ (e.2 ≠ .const 1 ∧ e.2 ≠ .any) ∧ c = .eq e.1 e.2 := by
  simp only [questions, List.mem_filterMap, Option.ite_none_left_eq_some, not_or, Option.some.injEq,
    and_assoc, ne_eq, @eq_comm _ c]

end TensorTyping.Shape

namespace TensorTyping

open Shape

/-- Axes are joined by asking all questions first. -/
theorem Rule.joinShapes_eq (axes : List (Dim × Dim)) (next : List Dim → Resolution) :
    joinShapes axes next = .requireAll (questions axes) (next (jointDims axes)) := by
  induction axes generalizing next with
  | nil => rfl
  | cons e axes ih =>
    obtain ⟨a, b⟩ := e
    rw [joinShapes]
    by_cases ha : a = .const 1 ∨ a = .any
    · rw [if_pos ha, ih]
      simp [questions, jointDims, ha]
    · by_cases hb : b = .const 1 ∨ b = .any
      · rw [if_neg ha, if_pos hb, ih]
        simp [questions, jointDims, ha, hb]
      · rw [if_neg ha, if_neg hb, ih]
        simp [questions, jointDims, ha, hb, Resolution.requireAll]

/-- A broadcast of two tensors, with a placeholder for the joint one. -/
def Relation.broadcast (a b : TensorType) (out : Placeholder) (attrs : Attrs) (span : Span) :
    Relation :=
  ⟨.broadcast, [.tensor a, .tensor b, .hole out], 2, attrs, span, Nat.le_succ 2⟩

/-- Two tensors of one element type are broadcast by joining their axes. -/
theorem Rule.resolve_broadcast {q : Query} {a b : TensorType} {out : Ty}
    (hq : q.singleOutput? = some ([.tensor a, .tensor b], out)) (hdtype : a.dtype = b.dtype) :
    broadcast.resolve q = joinShapes (Shape.axes a.shape b.shape) fun shape =>
      .conclude out (.tensor ⟨shape, a.dtype⟩) := by
  simp only [broadcast, hq, hdtype, ne_eq, not_true_eq_false, if_false]
  rfl

/-- What a broadcast asks for: nothing, if there are not two tensors, or that element types are equal which
are not, or what it takes to join the axes. -/
theorem Rule.resolve_broadcast_cases (q : Query) :
    broadcast.resolve q = .done false ∨
      (∃ a b : TensorType, a.dtype ≠ b.dtype ∧ broadcast.resolve q = differentElements b a) ∨
      ∃ a b out, q.singleOutput? = some ([.tensor a, .tensor b], out) ∧ a.dtype = b.dtype ∧
        broadcast.resolve q = .requireAll (questions (axes a.shape b.shape))
          (.conclude out (.tensor ⟨jointDims (axes a.shape b.shape), a.dtype⟩)) := by
  unfold broadcast
  dsimp only
  split
  · rename_i a b out hq
    split
    · rename_i hdtype
      exact Or.inr (Or.inl ⟨a, b, hdtype, rfl⟩)
    · rename_i hdtype
      exact Or.inr (Or.inr ⟨a, b, out, hq, not_not.mp hdtype, joinShapes_eq _ _⟩)
  · exact Or.inl rfl

end TensorTyping
