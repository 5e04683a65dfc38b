import TensorTyping.Proofs.Rule.Positional
import TensorTyping.Proofs.Rule.Requests

namespace TensorTyping.Rule

open Positional

/-- Goes on if there is one output and a number of inputs. -/
def withInputs (q : Query) (inputs : Nat) (next : Positional) : Positional :=
  if q.numInputs ≠ inputs ∨ q.args.length ≠ inputs + 1 then .done false else next

section withInputs

variable {q : Query} {next : Positional} {r : Resolution}

theorem withInputs_eq {n : Nat}
    (hother : (∀ xs out, q.singleOutput? = some (xs, out) → xs.length ≠ n) → r = .done false)
    (h : ∀ xs out, xs.length = n → q.args = xs ++ [out] → q.singleOutput? = some (xs, out) →
      next = r.positional) :
    withInputs q n next = r.positional := by
  rw [withInputs]
  obtain ⟨hlength, hnone⟩ | ⟨xs, out, hn, hargs, hinputs, hq⟩ := q.inputs_cases n
  · rw [if_pos hlength, hother hnone]
    rfl
  · rw [if_neg (by simp [hargs, hinputs, hn])]
    exact h xs out hn hargs hq

theorem withInputs_one (hother : (∀ x out, q.singleOutput? ≠ some ([x], out)) → r = .done false)
    (h : ∀ x out, q.args = [x, out] → q.singleOutput? = some ([x], out) → next = r.positional) :
    withInputs q 1 next = r.positional := by
  refine withInputs_eq (fun hne => hother fun x out hq => hne [x] out hq rfl) fun xs out hone => ?_
  obtain ⟨x, rfl⟩ := List.length_eq_one_iff.mp hone
  exact h x out

end withInputs

/-- The output follows from the input. -/
def followsAt (f : Ty → Ty) (q : Query) : Positional :=
  withInputs q 1 <| entry q.args 1 fun out => entry q.args 0 fun x => conclude out (f x)

theorem followsAt_eq {f : Ty → Ty} {rule : Rule} (h : ∀ q, rule.resolve q =
      match q.singleOutput? with
      | some ([x], out) => .conclude out (f x)
      | _ => .done false) (q : Query) :
    followsAt f q = (rule.resolve q).positional := by
  rw [h]
  refine withInputs_one (fun hother => ?_) fun x out hargs hq => ?_
  · split
    · rename_i hq
      exact absurd hq (hother _ _)
    · rfl
  · rw [hargs, hq]
    rfl

/-- `identity` position by position. -/
def identityAt : Query → Positional := followsAt fun x => x

theorem identityAt_eq : ∀ q, identityAt q = (identity.resolve q).positional :=
  followsAt_eq fun _ => rfl

/-- `ref_new` position by position. -/
def refNewAt : Query → Positional := followsAt .ref

theorem refNewAt_eq : ∀ q, refNewAt q = (refNew.resolve q).positional :=
  followsAt_eq fun _ => rfl

/-- `ref_read` position by position. -/
def refReadAt (q : Query) : Positional :=
  withInputs q 1 <| entry q.args 0 fun x =>
    match x with
    | .ref value => entry q.args 1 fun out => conclude out value
    | .hole _ => entry q.args 0 fun x => entry q.args 1 fun out => conclude x (.ref out)
    | _ => .done false

theorem refReadAt_eq (q : Query) : refReadAt q = (refRead.resolve q).positional := by
  unfold refReadAt refRead
  dsimp only
  refine withInputs_one (fun hother => ?_) fun x out hargs hq => ?_
  · split
    · rename_i hq
      exact absurd hq (hother _ _)
    · rename_i hq
      exact absurd hq (hother _ _)
    · rfl
  · rw [hargs, hq]
    cases x <;> rfl

/-- `tuple_get` position by position. The field is looked up, and there may be none. -/
def tupleGetAt (q : Query) : Positional :=
  withInputs q 1 <| entry q.args 0 fun x =>
    match x, Attrs.int? q.attrs "index" with
    | .tuple fields, some index =>
      require (.and (.le (.const 0) (.const index)) (.lt (.const index) (count fields.length))) <|
        match if index < 0 then none else fields[index.toInt.toNat]? with
        | some field => entry q.args 1 fun out => conclude out field
        | none => .done false
    | _, _ => .done false

theorem tupleGetAt_eq (q : Query) : tupleGetAt q = (tupleGet.resolve q).positional := by
  unfold tupleGetAt tupleGet
  dsimp only
  refine withInputs_one (fun hother => ?_) fun x out hargs hq => ?_
  · split
    · rename_i hq _
      exact absurd hq (hother _ _)
    · rfl
  · rw [hargs, hq, entry_cons_zero]
    cases x with
    | tuple fields =>
      cases Attrs.int? q.attrs "index" with
      | none => rfl
      | some index =>
        dsimp only
        rw [positional_require]
        cases (if index < 0 then none else fields[index.toInt.toNat]?) <;> rfl
    | tensor | ref | call | hole | func | var | global => rfl

/-- `reshape` position by position. -/
def reshapeAt (q : Query) : Positional :=
  withInputs q 1 <| entry q.args 0 fun x =>
    match x.tensor?, Attrs.dims? q.attrs "newshape" with
    | some t, some newShape =>
      let inferred := newShape.findIdxs isInferred
      let given := newShape.filter (!isInferred ·)
      require (.le (count inferred.length) (.const 1)) <|
        requireAll (given.map (Cond.le (.const 0))) <|
          match inferred.head? with
          | some i =>
            let known := Dim.product given
            require (.lt (.const 0) known) <|
              require (.eq (.combine .floorMod t.size known) (.const 0)) <|
                update newShape i (.combine .floorDiv t.size known) fun shape =>
                  entry q.args 1 fun out => conclude out (.tensor ⟨shape, t.dtype⟩)
          | none =>
            require (.eq t.size (.product newShape)) <|
              entry q.args 1 fun out => conclude out (.tensor ⟨newShape, t.dtype⟩)
    | _, _ => .done false

theorem set_findIdx (d : Dim) (shape : List Dim) :
    shape.set (shape.findIdx isInferred) d = fillInferred d shape := by
  induction shape with
  | nil => rfl
  | cons e shape ih =>
    rw [fillInferred, List.findIdx_cons]
    cases he : isInferred e with
    | true => simp
    | false => simpa using ih

theorem head?_findIdxs {α : Type} (p : α → Bool) (xs : List α) (start : Nat) :
    (xs.findIdxs p start).head? = if xs.any p then some (xs.findIdx p + start) else none := by
  induction xs generalizing start with
  | nil => rfl
  | cons x xs ih =>
    rw [List.findIdxs_cons, List.findIdx_cons, List.any_cons]
    cases hx : p x with
    | true => simp
    | false =>
      have hnext : xs.findIdx p + 1 + start = xs.findIdx p + (start + 1) := by omega
      simp only [Bool.false_eq_true, if_false, Bool.false_or, cond_false, ih, hnext]

theorem reshapeAt_eq (q : Query) : reshapeAt q = (reshape.resolve q).positional := by
  unfold reshapeAt reshape
  dsimp only
  refine withInputs_one (fun hother => ?_) fun x out hargs hq => ?_
  · split
    · rename_i hq _
      exact absurd hq (hother _ _)
    · rfl
  · rw [hargs, hq, entry_cons_zero]
    cases x with
    | tensor t =>
      cases Attrs.dims? q.attrs "newshape" with
      | none => rfl
      | some newShape =>
        dsimp only [Ty.tensor?]
        rw [positional_require, positional_requireAll, head?_findIdxs, List.length_findIdxs]
        by_cases hany : newShape.any isInferred = true
        · have hlt : newShape.findIdx isInferred < newShape.length := by
            obtain ⟨e, he, hinferred⟩ := List.any_eq_true.mp hany
            exact List.findIdx_lt_length_of_exists ⟨e, he, hinferred⟩
          rw [if_pos hany, if_pos hany, positional_require, positional_require]
          dsimp only
          rw [Nat.add_zero, update_of_lt hlt, set_findIdx]
          rfl
        · rw [if_neg hany, if_neg hany, positional_require]
          rfl
    | tuple | ref | call | hole | func | var | global => rfl

end TensorTyping.Rule
