import TensorTyping.Proofs.Rule.Positional
import TensorTyping.Proofs.Rule.Requests

namespace TensorTyping.Rule

open Positional

/-- Goes on if there is one output. -/
def withOutput (q : Query) (next : Positional) : Positional :=
  if q.args.length ≠ q.numInputs + 1 then .done false else next

theorem withOutput_eq {q : Query} {next : Positional} {r : Resolution}
    (hother : q.singleOutput? = none → r = .done false)
    (h : ∀ xs out, q.args = xs ++ [out] → q.numInputs = xs.length →
      q.singleOutput? = some (xs, out) → next = r.positional) :
    withOutput q next = r.positional := by
  rw [withOutput]
  obtain ⟨hlength, hnone⟩ | ⟨xs, out, hargs, hinputs, hq⟩ := q.singleOutput?_cases
  · rw [if_pos hlength, hother hnone]
    rfl
  · rw [if_neg (by simp [hargs, hinputs])]
    exact h xs out hargs hinputs hq

/-- `make_tuple` position by position. -/
def makeTupleAt (q : Query) : Positional :=
  withOutput q <| upTo q.args q.numInputs fun fields => entry q.args q.numInputs fun out =>
    conclude out (.tuple fields)

theorem makeTupleAt_eq (q : Query) : makeTupleAt q = (makeTuple.resolve q).positional := by
  unfold makeTupleAt makeTuple
  dsimp only
  refine withOutput_eq (fun hnone => by rw [hnone]) fun xs out hargs hinputs hq => ?_
  rw [hargs, hinputs, hq, upTo_last, entry_last]
  rfl

/-- `call_global` position by position. -/
def callGlobalAt (q : Query) : Positional :=
  withOutput q <|
    match (Attrs.str? q.attrs "callee").bind q.globals.function? with
    | none => .done false
    | some s =>
      if !s.typeParams.isEmpty then .done false
      else
        require (.eq (count q.numInputs) (count s.params.length)) <|
          (q.args.zip s.params).foldr (fun a next => .assign a.2 a.1 next) <|
            entry q.args q.numInputs fun out => conclude out s.result

theorem positional_parameters (args : List (Ty × Ty)) (next : Resolution) :
    (args.foldr (fun a next => Resolution.assign a.2 a.1 next) next).positional =
      args.foldr (fun a next => .assign a.2 a.1 next) next.positional := by
  induction args with
  | nil => rfl
  | cons a args ih => exact congrArg (Positional.assign a.2 a.1) ih

theorem callGlobalAt_eq (q : Query) : callGlobalAt q = (callGlobal.resolve q).positional := by
  unfold callGlobalAt callGlobal
  dsimp only
  refine withOutput_eq (fun hnone => by rw [hnone]) fun xs out hargs hinputs hq => ?_
  rw [hq]
  cases (Attrs.str? q.attrs "callee").bind q.globals.function? with
  | none => rfl
  | some s =>
    dsimp only
    split
    · rfl
    · rw [positional_require, positional_parameters, hargs, hinputs, entry_last]
      rfl

/-- The inputs behind the first one, against the tensor that the first one is. -/
def sameTensorsAt (inputs : List Ty) (first : TensorType) :
    List (Ty × TensorType) → Positional → Positional
  | [], next => next
  | (x, t) :: rest, next =>
    if t.dtype ≠ first.dtype ∨ t.rank ≠ first.rank then
      entry inputs 0 fun x₀ => .assign x₀ x (.done false)
    else requireAll (List.zipWith Cond.eq first.shape t.shape) (sameTensorsAt inputs first rest next)

/-- `elemwise` position by position. -/
def elemwiseAt (q : Query) : Positional :=
  if q.numInputs = 0 then .done false
  else
    withOutput q <| upTo q.args q.numInputs fun inputs =>
      match inputs.mapM Ty.tensor? with
      | none => .done false
      | some tensors =>
        entry tensors 0 fun first =>
          sameTensorsAt inputs first ((inputs.zip tensors).drop 1) <|
            entry q.args q.numInputs fun out => entry inputs 0 fun x₀ => conclude out x₀

theorem eq_tensor_of_tensor? {x : Ty} {t : TensorType} (h : x.tensor? = some t) : x = .tensor t := by
  cases x <;> cases h
  rfl

theorem sameTensorsAt_eq {xs : List Ty} {ts : List TensorType} (h : xs.mapM Ty.tensor? = some ts)
    (first : TensorType) (inputs : List Ty) (next : Resolution) :
    sameTensorsAt (.tensor first :: inputs) first (xs.zip ts) next.positional =
      (sameTensors first ts next).positional := by
  induction xs generalizing ts with
  | nil =>
    cases h
    rfl
  | cons x xs ih =>
    simp only [List.mapM_cons, Option.bind_eq_bind, Option.bind_eq_some_iff, Option.pure_def,
      Option.some.injEq] at h
    obtain ⟨t, ht, ts, hts, rfl⟩ := h
    obtain rfl := eq_tensor_of_tensor? ht
    rw [List.zip_cons_cons, sameTensorsAt, sameTensors]
    split
    · rfl
    · rw [positional_requireAll, ih hts]

theorem elemwiseAt_eq (q : Query) : elemwiseAt q = (elemwise.resolve q).positional := by
  unfold elemwiseAt elemwise
  dsimp only
  split
  · rename_i hzero
    -- without inputs there is no first one to compare with
    obtain ⟨-, hnone⟩ | ⟨xs, out, -, hinputs, hq⟩ := q.singleOutput?_cases
    · rw [hnone]
      rfl
    · obtain rfl := List.length_eq_zero_iff.mp (hinputs.symm.trans hzero)
      rw [hq]
      rfl
  · rename_i hpositive
    refine withOutput_eq (fun hnone => by rw [hnone]) fun xs out hargs hinputs hq => ?_
    obtain ⟨x, xs, rfl⟩ := List.exists_cons_of_ne_nil (l := xs) (by
      rintro rfl
      exact hpositive hinputs)
    rw [hargs, hinputs, hq, upTo_last, List.mapM_cons]
    dsimp only
    cases hx : x.tensor? with
    | none => rfl
    | some t =>
      obtain rfl := eq_tensor_of_tensor? hx
      cases hxs : xs.mapM Ty.tensor? with
      | none => rfl
      | some ts =>
        have hsame := sameTensorsAt_eq hxs t xs (.conclude out (.tensor t))
        rw [entry_last]
        exact hsame

/-- `adt_call` looks at the first argument, if there is one. -/
def adtCallAt (q : Query) : Positional :=
  match q.args.head? with
  | some (.call (.global g) args) =>
    match q.globals.typeOf? g with
    | some d => .assert (.eq (count args.length) (count d.arity)) .done
    | none => .done false
  | _ => .done false

theorem adtCallAt_eq (q : Query) : adtCallAt q = (adtCall.resolve q).positional := by
  unfold adtCallAt adtCall
  dsimp only
  cases q.args with
  | nil => rfl
  | cons x args =>
    cases x with
    | call f args =>
      cases f with
      | global g =>
        dsimp only [List.head?_cons]
        cases q.globals.typeOf? g <;> rfl
      | tensor | tuple | ref | call | hole | func | var => rfl
    | tensor | tuple | ref | hole | func | var | global => rfl

end TensorTyping.Rule
