namespace TensorTyping.Text

/-- The value of a digit below `base`; letters of either case stand for ten and up. -/
def digit? (base : Nat) (c : Char) : Option Nat :=
  let value :=
    if '0' ≤ c && c ≤ '9' then c.toNat - 48
    else if 'a' ≤ c && c ≤ 'f' then c.toNat - 87
    else if 'A' ≤ c && c ≤ 'F' then c.toNat - 55
    else base
  if value < base then some value else none

/-- The value of a run of digits, with `start` standing before it. -/
def numeralFrom? (base : Nat) (start : Nat) : List Char → Option Nat
  | [] => some start
  | c :: cs => do
    let d ← digit? base c
    numeralFrom? base (start * base + d) cs

/-- The value of a non-empty run of digits. -/
def numeral? (base : Nat) (cs : List Char) : Option Nat :=
  if cs.isEmpty then none else numeralFrom? base 0 cs

/-- A decimal numeral of at most `limit`, with an optional plus sign in front. Leading zeros are
    allowed. -/
def boundedNumeral? (limit : Nat) (cs : List Char) : Option Nat := do
  let n ← numeral? 10 (match cs with
    | '+' :: rest => rest
    | _ => cs)
  if n ≤ limit then some n else none

end TensorTyping.Text
