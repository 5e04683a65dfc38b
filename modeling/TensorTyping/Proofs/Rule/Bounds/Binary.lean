import Mathlib.Data.List.Forall2
import TensorTyping.Proofs.Broadcast.Shapes
import TensorTyping.Proofs.Rule.Bounds.Unary

namespace TensorTyping.Rule

open Positional

/-- Goes on with the two inputs if both are tensors. -/
def tensorsAt (q : Query) (next : TensorType → TensorType → Positional) : Positional :=
  withInputs q 2 <| upTo q.args 2 fun inputs =>
    match inputs.mapM Ty.tensor? with
    | none => .done false
    | some tensors => entry tensors 0 fun a => entry tensors 1 fun b => next a b

theorem tensorsAt_eq {q : Query} {next : TensorType → TensorType → Positional} {r : Resolution}
    (hother : (∀ a b out, q.singleOutput? ≠ some ([.tensor a, .tensor b], out)) → r = .done false)
    (h : ∀ a b out, q.args = [.tensor a, .tensor b, out] →
      q.singleOutput? = some ([.tensor a, .tensor b], out) → next a b = r.positional) :
    tensorsAt q next = r.positional := by
  refine withInputs_eq (fun hne => hother fun a b out hq => hne _ out hq rfl)
    fun xs out htwo hargs hq => ?_
  obtain ⟨x, y, rfl⟩ := List.length_eq_two.mp htwo
  rw [hargs]
  cases x with
  | tensor a =>
    cases y with
    | tensor b => exact h a b out hargs hq
    | tuple | ref | call | hole | func | var | global =>
      rw [hother fun a b out h => by simp [hq] at h]
      rfl
  | tuple | ref | call | hole | func | var | global =>
    rw [hother fun a b out h => by simp [hq] at h]
    rfl

/-- The second input should have the element type of the first one. -/
def differentElementsAt (q : Query) (t expected : TensorType) : Positional :=
  entry q.args 1 fun x => .assign (.tensor { t with dtype := expected.dtype }) x (.done false)

theorem differentElementsAt_eq {q : Query} {x out : Ty} {t : TensorType}
    (hargs : q.args = [x, .tensor t, out]) (expected : TensorType) :
    differentElementsAt q t expected = (differentElements t expected).positional := by
  rw [differentElementsAt, hargs]
  rfl

/-- A dimension of a tensor that is padded to a rank. -/
def dimAt (rank : Nat) (t : TensorType) (i : Nat) (next : Dim → Positional) : Positional :=
  minus rank t.rank fun pad =>
    if i < pad then next (.const 1) else minus i pad fun j => entry t.shape j next

theorem dimAt_of_padded {rank i : Nat} {t : TensorType} {d : Dim} (hrank : t.rank ≤ rank)
    (h : (padded rank t.shape)[i]? = some d) (next : Dim → Positional) :
    dimAt rank t i next = next d := by
  rw [dimAt, minus_of_le hrank]
  rw [padded, List.getElem?_append, List.length_replicate] at h
  rw [← TensorType.rank] at h
  split
  · rename_i hpad
    rw [if_pos hpad, List.getElem?_replicate_of_lt hpad, Option.some.injEq] at h
    rw [h]
  · rename_i hpad
    rw [if_neg hpad] at h
    rw [minus_of_le (Nat.le_of_not_lt hpad), entry_of_getElem? h]

/-- Joins the axes of two tensors that are padded to a rank. -/
def joinShapesAt (rank : Nat) (a b : TensorType) : List Nat → (List Dim → Positional) → Positional
  | [], next => next []
  | i :: axes, next => dimAt rank a i fun d => dimAt rank b i fun e =>
    if d = .const 1 ∨ d = .any then joinShapesAt rank a b axes fun shape => next (e :: shape)
    else if e = .const 1 ∨ e = .any then joinShapesAt rank a b axes fun shape => next (d :: shape)
    else require (.eq d e) (joinShapesAt rank a b axes fun shape => next (d :: shape))

/-- `broadcast` position by position. -/
def broadcastAt (q : Query) : Positional :=
  tensorsAt q fun a b =>
    if a.dtype ≠ b.dtype then differentElementsAt q b a
    else
      let rank := max a.rank b.rank
      joinShapesAt rank a b (List.range rank) fun shape =>
        entry q.args 2 fun out => conclude out (.tensor ⟨shape, a.dtype⟩)

theorem joinShapesAt_eq {rank : Nat} {a b : TensorType} (ha : a.rank ≤ rank) (hb : b.rank ≤ rank)
    {is : List Nat} {axes : List (Dim × Dim)}
    (h : List.Forall₂ (fun i e => (padded rank a.shape)[i]? = some e.1 ∧
      (padded rank b.shape)[i]? = some e.2) is axes) {next : List Dim → Resolution}
    {nextAt : List Dim → Positional} (hnext : ∀ shape, nextAt shape = (next shape).positional) :
    joinShapesAt rank a b is nextAt = (joinShapes axes next).positional := by
  -- what follows is handed a longer shape on every axis, so it must stay general
  induction h generalizing next nextAt with
  | nil => exact hnext []
  | @cons i e is axes he _ ih =>
    obtain ⟨d₁, d₂⟩ := e
    have hright := ih fun shape => hnext (d₂ :: shape)
    have hleft := ih fun shape => hnext (d₁ :: shape)
    rw [joinShapesAt, dimAt_of_padded ha he.1, dimAt_of_padded hb he.2, joinShapes, hright, hleft]
    split
    · rfl
    · split
      · rfl
      · rw [positional_require]

/-- The axes that are joined are the dimensions of the padded shapes at the positions of the rank. -/
theorem forall₂_range_axes (a b : TensorType) :
    let rank := max a.rank b.rank
    List.Forall₂ (fun i e => (padded rank a.shape)[i]? = some e.1 ∧
      (padded rank b.shape)[i]? = some e.2) (List.range rank) (Shape.axes a.shape b.shape) := by
  intro rank
  have hlength : (Shape.axes a.shape b.shape).length = rank := by
    rw [Shape.axes_eq_map, List.length_map, Shape.length_positions]
    rfl
  refine List.forall₂_iff_get.mpr ⟨by rw [List.length_range, hlength], fun i hi haxes => ?_⟩
  rw [List.get_eq_getElem, List.getElem_range]
  exact List.getElem?_zip_eq_some.mp (List.getElem?_eq_getElem haxes)

theorem broadcastAt_eq (q : Query) : broadcastAt q = (broadcast.resolve q).positional := by
  refine tensorsAt_eq (fun hother => ?_) fun a b out hargs hq => ?_
  · unfold broadcast
    dsimp only
    split
    · rename_i hq
      exact absurd hq (hother _ _ _)
    · rfl
  · by_cases hdtype : a.dtype = b.dtype
    · rw [resolve_broadcast hq hdtype, if_neg (not_not.mpr hdtype)]
      refine joinShapesAt_eq (Nat.le_max_left ..) (Nat.le_max_right ..) (forall₂_range_axes a b)
        fun shape => ?_
      rw [hargs]
      rfl
    · unfold broadcast
      dsimp only
      rw [hq, if_pos hdtype, differentElementsAt_eq hargs]
      dsimp only
      rw [if_pos hdtype]

/-- Goes on only if a tensor has a rank, whatever the answer to that question is. -/
def requireRankAt (t : TensorType) (rank : Nat) (next : Positional) : Positional :=
  require (.eq (count t.rank) (count rank)) (if t.rank = rank then next else .done false)

theorem requireRankAt_eq {t : TensorType} {rank : Nat} {nextAt : Positional} {next : Resolution}
    (h : t.rank = rank → nextAt = next.positional) :
    requireRankAt t rank nextAt = (requireRank t rank next).positional := by
  rw [requireRankAt, requireRank, positional_require]
  split
  · rename_i hrank
    rw [h hrank]
  · rfl

/-- `matmul` position by position. -/
def matmulAt (q : Query) : Positional :=
  tensorsAt q fun a b =>
    requireRankAt a 2 <| requireRankAt b 2 <|
      if a.dtype ≠ b.dtype then differentElementsAt q b a
      else
        entry a.shape 1 fun k => entry b.shape 0 fun k' => require (.eq k k') <|
          entry a.shape 0 fun m => entry b.shape 1 fun n =>
            entry q.args 2 fun out => conclude out (.tensor ⟨[m, n], a.dtype⟩)

theorem matmulAt_eq (q : Query) : matmulAt q = (matmul.resolve q).positional := by
  unfold matmul
  dsimp only
  refine tensorsAt_eq (fun hother => ?_) fun a b out hargs hq => ?_
  · split
    · rename_i hq
      exact absurd hq (hother _ _ _)
    · rfl
  · rw [hq]
    refine requireRankAt_eq fun ha => requireRankAt_eq fun hb => ?_
    obtain ⟨m, k, hashape⟩ := List.length_eq_two.mp ha
    obtain ⟨k', n, hbshape⟩ := List.length_eq_two.mp hb
    split
    · exact differentElementsAt_eq hargs a
    · rw [hargs, hashape, hbshape]
      exact (positional_require (.eq k k') (.conclude out (.tensor ⟨[m, n], a.dtype⟩))).symm

end TensorTyping.Rule
