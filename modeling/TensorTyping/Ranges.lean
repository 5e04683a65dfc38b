import TensorTyping.Cond
import TensorTyping.Interval
import TensorTyping.NormalForm
import TensorTyping.Verdict

namespace TensorTyping

/-- The inclusive range of a size variable. -/
structure Range where
  lo : Word
  hi : Word
  deriving DecidableEq

/-- What is known about size variables: a range for some of them. -/
structure Ranges where
  range? : SizeVar → Option Range

namespace Interval

/-- Decides whether the members of an interval stand in a comparison to zero. -/
def compareZero (op : Comparison) (i : Interval) : Verdict :=
  match op with
  | .eq =>
    if i.point? = some 0 then .proven
    else if i.below 0 || i.above 0 then .refuted
    else .unknown
  | .ne =>
    if i.point? = some 0 then .refuted
    else if i.below 0 || i.above 0 then .proven
    else .unknown
  | .lt => if i.below 0 then .proven else if i.above (-1) then .refuted else .unknown
  | .le => if i.below 1 then .proven else if i.above 0 then .refuted else .unknown
  | .gt => if i.below 1 then .refuted else if i.above 0 then .proven else .unknown
  | .ge => if i.below 0 then .refuted else if i.above (-1) then .proven else .unknown

end Interval

namespace Ranges

/-- Nothing is known. -/
def none : Ranges := ⟨fun _ => Option.none⟩

instance : Inhabited Ranges := ⟨none⟩

/-- Adds the knowledge that `x` lies in `r`. A range known already is intersected with it, and may
    become empty. -/
def bind (known : Ranges) (x : SizeVar) (r : Range) : Ranges where
  range? y :=
    if y = x then
      match known.range? x with
      | some old =>
        some ⟨if old.lo ≤ r.lo then r.lo else old.lo, if old.hi ≤ r.hi then old.hi else r.hi⟩
      | Option.none => some r
    else known.range? y

/-- An assignment respects what is known. -/
def Admits (known : Ranges) (σ : Assignment) : Prop :=
  ∀ x, ∀ r ∈ known.range? x, r.lo.toInt ≤ σ x ∧ σ x ≤ r.hi.toInt

/-- The values a size variable can have. -/
def intervalOfVar (known : Ranges) (x : SizeVar) : Interval :=
  match known.range? x with
  | some r => ⟨some r.lo.toInt, some r.hi.toInt⟩
  | Option.none => .unbounded

/-- An interval that encloses the values of a dimension. Division and remainder are followed only
    for a positive literal divisor. -/
def intervalOfDim (known : Ranges) : Dim → Interval
  | .const n => .point n.toInt
  | .var x => known.intervalOfVar x
  | .any => .unbounded
  | .binary .add a b => (known.intervalOfDim a).add (known.intervalOfDim b)
  | .binary .sub a b => (known.intervalOfDim a).add (known.intervalOfDim b).neg
  | .binary .mul a b => (known.intervalOfDim a).mul (known.intervalOfDim b)
  | .binary .min a b => (known.intervalOfDim a).min (known.intervalOfDim b)
  | .binary .max a b => (known.intervalOfDim a).max (known.intervalOfDim b)
  | .binary .floorDiv a b =>
    match b.const? with
    | some d => if 0 < d then (known.intervalOfDim a).floorDiv d.toInt else .unbounded
    | Option.none => .unbounded
  | .binary .floorMod _ b =>
    match b.const? with
    | some d => if 0 < d then .remainders d.toInt else .unbounded
    | Option.none => .unbounded

/-- An interval that encloses the values of a monomial. -/
def intervalOfMonomial (known : Ranges) (m : Monomial) : Interval :=
  m.foldl (fun acc a => acc.mul (known.intervalOfDim a)) (.point 1)

/-- An interval that encloses the values of a normal form. -/
def intervalOf (known : Ranges) (p : NormalForm) : Interval :=
  p.terms.foldl (fun total t => total.add ((known.intervalOfMonomial t.1).scale t.2.toInt))
    (.point 0)

/-- A dimension in normal form: a literal if what is known leaves one value, and unchanged if
    there is no normal form. -/
def simplify (known : Ranges) (d : Dim) : Dim :=
  match NormalForm.ofDim? d with
  | Option.none => d
  | some p =>
    match (known.intervalOf p).point?.bind Word.ofInt? with
    | some n => .const n
    | Option.none => p.toDim

/-- The normal form of `lhs - rhs`, if both sides are free of `?` and nothing overflows. -/
def difference? (lhs rhs : Dim) : Option NormalForm :=
  if lhs.containsAny || rhs.containsAny then Option.none
  else do
    let p ← NormalForm.ofDim? lhs
    let q ← NormalForm.ofDim? rhs
    p.sub? q

/-- Decides a comparison of two dimensions. A constant difference of their normal forms decides it
    outright; otherwise the difference is enclosed in an interval. What that does not settle is left
    unknown, and so is everything that contains `?`. -/
def compare (known : Ranges) (op : Comparison) (lhs rhs : Dim) : Verdict :=
  match difference? lhs rhs with
  | Option.none => .unknown
  | some p =>
    match p.const? with
    | some d => .ofBool (op.holds d.toInt 0)
    | Option.none => (known.intervalOf p).compareZero op

/-- Decides a condition, with Kleene's connectives over its comparisons. -/
def prove (known : Ranges) : Cond → Verdict
  | .bool b => .ofBool b
  | .cmp op lhs rhs => known.compare op lhs rhs
  | .and a b => (known.prove a).and (known.prove b)
  | .or a b => (known.prove a).or (known.prove b)
  | .not a => (known.prove a).negate

/-- Bounds on one variable; an absent one does not restrict it. -/
structure Bounds where
  lower : Option Word
  upper : Option Word
  deriving DecidableEq

/-- The bounds on a variable that make `coeff * x op rhs` hold for every value of the right-hand
    side in the interval, for a positive coefficient. An equality needs a single value that the
    coefficient divides. -/
def solveBound? (coeff : Int) (op : Comparison) (rhs : Interval) : Option Bounds :=
  match op with
  | .eq => do
    let value ← rhs.point?
    if coeff ∣ value then do
      let exact ← Word.ofInt? (value / coeff)
      some ⟨exact, exact⟩
    else Option.none
  | .ne => Option.none
  | .lt => do
    let hi ← within128? ((← rhs.lo) - 1)
    let upper ← Word.ofInt? (hi.fdiv coeff)
    some ⟨Option.none, upper⟩
  | .le => do
    let hi ← rhs.lo
    let upper ← Word.ofInt? (hi.fdiv coeff)
    some ⟨Option.none, upper⟩
  | .gt => do
    let lo ← within128? ((← rhs.hi) + 1)
    ceiling lo
  | .ge => do
    let lo ← rhs.hi
    ceiling lo
where
  /-- The lower bound from the quotient rounded up. -/
  ceiling (lo : Int) : Option Bounds := do
    let opposite ← within128? (-lo)
    let least ← within128? (-(opposite.fdiv coeff))
    let lower ← Word.ofInt? least
    some ⟨lower, Option.none⟩

/-- Solves a comparison for a variable that occurs in it only as `c * x`: the bounds within which
    the comparison holds for all known values of the other variables. None if `x` cannot be
    isolated or does not occur, for `!=`, and where the side that is needed is unbounded. -/
def deduceBound? (known : Ranges) (x : SizeVar) : Cond → Option Bounds
  | .cmp op lhs rhs => do
    let p ← difference? lhs rhs
    let (coeff, rest) ← p.splitLinear? x
    if 0 < coeff then do
      let opposite ← rest.neg?
      solveBound? coeff.toInt op (known.intervalOf opposite)
    else if coeff < 0 then do
      let positive ← Word.neg? coeff
      solveBound? positive.toInt op.swap (known.intervalOf rest)
    else Option.none
  | _ => Option.none

end Ranges

end TensorTyping
