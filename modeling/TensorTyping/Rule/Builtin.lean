import TensorTyping.Rule.Basic

namespace TensorTyping.Rule

open Resolution

/-- A count as a literal dimension; the largest word stands for all counts beyond it. -/
def count (n : Nat) : Dim := .const ((Word.ofInt? n).getD 9223372036854775807)

/-- Declares that a tensor should have the element type of another, and leaves the rule
    unresolved. -/
def differentElements (t expected : TensorType) : Resolution :=
  assign (.tensor { t with dtype := expected.dtype }) (.tensor t) (done false)

/-- The output is the input. -/
def identity : Rule where
  name := "identity"
  resolve q :=
    match q.singleOutput? with
    | some ([x], out) => conclude out x
    | _ => done false

/-- Goes on if all tensors have the element type, rank and dimensions of the first. A tensor of
    another element type or rank is declared equal to the first, to report how they differ. -/
def sameTensors (first : TensorType) : List TensorType → Resolution → Resolution
  | [], next => next
  | t :: ts, next =>
    if t.dtype ≠ first.dtype ∨ t.rank ≠ first.rank then
      assign (.tensor first) (.tensor t) (done false)
    else requireAll (List.zipWith Cond.eq first.shape t.shape) (sameTensors first ts next)

/-- All inputs have the type of the first, and so has the output. -/
def elemwise : Rule where
  name := "elemwise"
  resolve q :=
    match q.singleOutput? with
    | some (x :: xs, out) =>
      match x.tensor?, xs.mapM Ty.tensor? with
      | some t, some ts => sameTensors t ts (conclude out x)
      | _, _ => done false
    | _ => done false

/-- A shape extended on the left with ones to a rank. -/
def padded (rank : Nat) (shape : List Dim) : List Dim :=
  List.replicate (rank - shape.length) (.const 1) ++ shape

/-- Joins two shapes of one rank, axis by axis, and hands on the joint shape. A literal `1` or a
    `?` takes the other dimension; other pairs must be equal. -/
def joinShapes : List (Dim × Dim) → (List Dim → Resolution) → Resolution
  | [], next => next []
  | (a, b) :: axes, next =>
    if a = .const 1 ∨ a = .any then joinShapes axes fun shape => next (b :: shape)
    else if b = .const 1 ∨ b = .any then joinShapes axes fun shape => next (a :: shape)
    else require (.eq a b) (joinShapes axes fun shape => next (a :: shape))

/-- Two tensors of one element type, with their shapes aligned on the right. -/
def broadcast : Rule where
  name := "broadcast"
  resolve q :=
    match q.singleOutput? with
    | some ([.tensor a, .tensor b], out) =>
      if a.dtype ≠ b.dtype then differentElements b a
      else
        let rank := max a.rank b.rank
        joinShapes ((padded rank a.shape).zip (padded rank b.shape)) fun shape =>
          conclude out (.tensor ⟨shape, a.dtype⟩)
    | _ => done false

/-- Goes on if a tensor has a rank. The rank is asked for, so that another one is reported, and
    looked at whatever the answer. -/
def requireRank (t : TensorType) (rank : Nat) (next : Resolution) : Resolution :=
  require (.eq (count t.rank) (count rank)) (if t.rank = rank then next else done false)

/-- The product of an `m` by `k` and a `k` by `n` matrix, which is `m` by `n`. -/
def matmul : Rule where
  name := "matmul"
  resolve q :=
    match q.singleOutput? with
    | some ([.tensor a, .tensor b], out) =>
      requireRank a 2 <| requireRank b 2 <|
        if a.dtype ≠ b.dtype then differentElements b a
        else
          match a.shape, b.shape with
          | [m, k], [k', n] => require (.eq k k') (conclude out (.tensor ⟨[m, n], a.dtype⟩))
          | _, _ => done false
    | _ => done false

/-- The entry of a new shape that stands for whatever is left. -/
def isInferred (d : Dim) : Bool := d = .const (-1)

/-- Puts a dimension in place of the first inferred entry. -/
def fillInferred (d : Dim) : List Dim → List Dim
  | [] => []
  | e :: shape => if isInferred e then d :: shape else e :: fillInferred d shape

/-- The shape given by the attribute `newshape`, with as many elements as the input. At most one
    entry may be `-1`; it is what remains of the number of elements, which the product of the other
    entries must divide. -/
def reshape : Rule where
  name := "reshape"
  resolve q :=
    match q.singleOutput?, Attrs.dims? q.attrs "newshape" with
    | some ([.tensor t], out), some newShape =>
      let given := newShape.filter (!isInferred ·)
      let known := Dim.product given
      require (.le (count (newShape.countP isInferred)) (.const 1)) <|
        requireAll (given.map (Cond.le (.const 0))) <|
          if newShape.any isInferred then
            require (.lt (.const 0) known) <|
              require (.eq (.combine .floorMod t.size known) (.const 0)) <|
                let rest := .combine .floorDiv t.size known
                conclude out (.tensor ⟨fillInferred rest newShape, t.dtype⟩)
          else
            require (.eq t.size (.product newShape)) <|
              conclude out (.tensor ⟨newShape, t.dtype⟩)
    | _, _ => done false

/-- The field of a tuple at the position given by the attribute `index`. -/
def tupleGet : Rule where
  name := "tuple_get"
  resolve q :=
    match q.singleOutput?, Attrs.int? q.attrs "index" with
    | some ([.tuple fields], out), some index =>
      require (.and (.le (.const 0) (.const index)) (.lt (.const index) (count fields.length))) <|
        match if index < 0 then none else fields[index.toInt.toNat]? with
        | some field => conclude out field
        | none => done false
    | _, _ => done false

/-- The tuple of the inputs, which need not be known. -/
def makeTuple : Rule where
  name := "make_tuple"
  resolve q :=
    match q.singleOutput? with
    | some (xs, out) => conclude out (.tuple xs)
    | none => done false

/-- A reference to the input. -/
def refNew : Rule where
  name := "ref_new"
  resolve q :=
    match q.singleOutput? with
    | some ([x], out) => conclude out (.ref x)
    | _ => done false

/-- What a reference refers to. A reference that is not known follows from what is read. -/
def refRead : Rule where
  name := "ref_read"
  resolve q :=
    match q.singleOutput? with
    | some ([.ref value], out) => conclude out value
    | some ([.hole p], out) => conclude (.hole p) (.ref out)
    | _ => done false

/-- An application of a defined data type has as many arguments as the definition has
    parameters. -/
def adtCall : Rule where
  name := "adt_call"
  resolve q :=
    match q.args with
    | .call (.global g) args :: _ =>
      match q.globals.typeOf? g with
      | some d => assert (.eq (count args.length) (count d.arity)) done
      | none => done false
    | _ => done false

/-- A call of the function named by the attribute `callee`, which must not be generic. Arguments
    are declared equal to parameters and the output to the result. -/
def callGlobal : Rule where
  name := "call_global"
  resolve q :=
    match q.singleOutput?, (Attrs.str? q.attrs "callee").bind q.globals.function? with
    | some (_, out), some s =>
      if !s.typeParams.isEmpty then done false
      else
        require (.eq (count q.numInputs) (count s.params.length)) <|
          (q.args.zip s.params).foldr (fun a next => assign a.2 a.1 next) (conclude out s.result)
    | _, _ => done false

/-- The rules of all built-in operators. A rule whose input is not known yet, or is of the wrong form,
    stays unresolved and is asked again when something changes. -/
def builtins : List Rule :=
  [identity, elemwise, broadcast, matmul, reshape, tupleGet, makeTuple, refNew, refRead, adtCall,
    callGlobal]

end TensorTyping.Rule

namespace TensorTyping.Registry

/-- The registry of the built-in rules. -/
def builtin : Registry := registerAll .empty Rule.builtins

end TensorTyping.Registry
