import TensorTyping.Word

namespace TensorTyping

/-- The integers between two ends, both included; an absent end is infinite. An end that leaves 128
    bits becomes absent, so every operation encloses the exact results. -/
structure Interval where
  lo : Option Int
  hi : Option Int
  deriving DecidableEq

namespace Interval

/-- Membership. -/
instance : Membership Int Interval where
  mem i n := (∀ l ∈ i.lo, l ≤ n) ∧ ∀ h ∈ i.hi, n ≤ h

/-- All integers. -/
def unbounded : Interval := ⟨none, none⟩

/-- One integer. -/
def point (n : Int) : Interval := ⟨some n, some n⟩

/-- The only member, where both ends agree. -/
def point? (i : Interval) : Option Int :=
  match i.lo, i.hi with
  | some l, some h => if l = h then some l else none
  | _, _ => none

/-- The sums. -/
def add (i j : Interval) : Interval where
  lo := do within128? ((← i.lo) + (← j.lo))
  hi := do within128? ((← i.hi) + (← j.hi))

/-- The opposites. -/
def neg (i : Interval) : Interval where
  lo := i.hi.bind fun h => within128? (-h)
  hi := i.lo.bind fun l => within128? (-l)

/-- The multiples by a constant. -/
def scale (i : Interval) (k : Int) : Interval :=
  let lo := i.lo.bind fun l => within128? (l * k)
  let hi := i.hi.bind fun h => within128? (h * k)
  if 0 < k then ⟨lo, hi⟩ else if k < 0 then ⟨hi, lo⟩ else point 0

/-- The products. Four finite ends give the least and the greatest product of ends; two
    non-negative factors are bounded below by the product of their lower ends. -/
def mul (i j : Interval) : Interval :=
  match j.point?, i.point? with
  | some k, _ => i.scale k
  | none, some k => j.scale k
  | none, none =>
    match i.lo, i.hi, j.lo, j.hi with
    | some a, some b, some c, some d =>
      match within128? (a * c), within128? (a * d), within128? (b * c), within128? (b * d) with
      | some w, some x, some y, some z =>
        ⟨some (min (min w x) (min y z)), some (max (max w x) (max y z))⟩
      | _, _, _, _ => unbounded
    | some a, _, some c, _ =>
      if 0 ≤ a ∧ 0 ≤ c then ⟨within128? (a * c), none⟩ else unbounded
    | _, _, _, _ => unbounded

/-- The smaller of one member each. -/
def min (i j : Interval) : Interval where
  lo := do some (Min.min (← i.lo) (← j.lo))
  hi :=
    match i.hi, j.hi with
    | some a, some b => some (Min.min a b)
    | some a, none | none, some a => some a
    | none, none => none

/-- The larger of one member each. -/
def max (i j : Interval) : Interval := (i.neg.min j.neg).neg

/-- The quotients by a positive constant, rounded down. -/
def floorDiv (i : Interval) (d : Int) : Interval := ⟨i.lo.map (·.fdiv d), i.hi.map (·.fdiv d)⟩

/-- The remainders by a positive constant. -/
def remainders (d : Int) : Interval := ⟨some 0, some (d - 1)⟩

/-- Whether every member is below `k` because of the upper end. -/
def below (i : Interval) (k : Int) : Bool := i.hi.any (· < k)

/-- Whether every member is above `k` because of the lower end. -/
def above (i : Interval) (k : Int) : Bool := i.lo.any (k < ·)

end Interval

end TensorTyping
