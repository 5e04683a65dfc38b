import TensorTyping.Json.Basic
import TensorTyping.Text.Numeral
import TensorTyping.Text.Utf16

namespace TensorTyping.Json

/-- A sign of punctuation, or a text, number, truth value or `null`. -/
inductive Token where
  | openArray
  | closeArray
  | openObject
  | closeObject
  | comma
  | colon
  | atom (value : Json)

/-- Whether a character is a decimal digit. -/
def isDigit (c : Char) : Bool := '0' ≤ c && c ≤ '9'

/-- Whether digits make up the whole part of a number: there are some, and no zero in front of
    others. -/
def isWhole : List Char → Bool
  | [] => false
  | ['0'] => true
  | c :: _ => c ≠ '0'

/-- Whether nothing, or an exponent, is left of a number. -/
def isExponent : List Char → Bool
  | [] => true
  | c :: cs =>
    let digits := match cs with
      | '+' :: ds | '-' :: ds => ds
      | _ => cs
    (c = 'e' || c = 'E') && !digits.isEmpty && digits.all isDigit

/-- Whether a fraction, an exponent or both are left of a number. -/
def isFraction : List Char → Bool
  | '.' :: cs => (cs.head?.any isDigit) && isExponent (cs.dropWhile isDigit)
  | cs => !cs.isEmpty && isExponent cs

/-- The number with a given spelling. Minus zero is no integer. -/
def number? (cs : List Char) : Option Json :=
  let sign := cs.head? = some '-'
  let unsigned := if sign then cs.tail else cs
  let digits := unsigned.takeWhile isDigit
  let rest := unsigned.dropWhile isDigit
  if isWhole digits then
    if rest.isEmpty then
      if sign && digits = ['0'] then some (.real (String.ofList cs))
      else (Text.numeral? 10 digits).map fun n => .int (if sign then -n else n)
    else if isFraction rest then some (.real (String.ofList cs))
    else none
  else none

namespace Token

/-- The sign of punctuation that a character is. -/
def punctuation? : Char → Option Token
  | '[' => some openArray
  | ']' => some closeArray
  | '\x7b' => some openObject
  | '\x7d' => some closeObject
  | ',' => some comma
  | ':' => some colon
  | _ => none

/-- The value that a word outside quotes spells. -/
def ofWord? (cs : List Char) : Option Token :=
  (if cs = "null".toList then some .null
  else if cs = "true".toList then some (.bool true)
  else if cs = "false".toList then some (.bool false)
  else number? cs).map atom

/-- The text with given code units. -/
def ofUnits? (us : List Nat) : Option Token :=
  (Text.ofUnits? us).map fun cs => atom (.string (String.ofList cs))

/-- The character that a letter after a backslash stands for. -/
def escaped? (c : Char) : Option Char :=
  [('"', '"'), ('\\', '\\'), ('/', '/'), ('b', '\x08'), ('f', '\x0c'), ('n', '\n'), ('r', '\r'),
    ('t', '\t')].lookup c

/-- Where reading stands between two characters: between tokens, in a word, or in a text in quotes.
    What has been read of the word or text comes with it, the last character or code unit first. -/
inductive Reading where
  | between
  | word (read : List Char)
  | text (read : List Nat)

/-- Whether a character separates tokens and is none. -/
def isSeparator (c : Char) : Bool := c = ' ' || c = '\t' || c = '\n' || c = '\r'

/-- What a character outside quotes begins: the token that it is, if it is one, and where reading
    stands after it. -/
def start (c : Char) : Option Token × Reading :=
  match punctuation? c with
  | some t => (some t, .between)
  | none =>
    if isSeparator c then (none, .between)
    else if c = '"' then (none, .text [])
    else (none, .word [c])

/-- Whether a character ends a word. -/
def endsWord (c : Char) : Bool := (punctuation? c).isSome || isSeparator c || c = '"'

/-- The tokens of a text, from a point of reading on. -/
def scan : Reading → List Char → Option (List Token)
  | .between, [] => some []
  | .word read, [] => (ofWord? read.reverse).map ([·])
  | .text _, [] => none
  | .between, c :: cs =>
    let (token, reading) := start c
    (scan reading cs).map (token.toList ++ ·)
  | .word read, c :: cs =>
    if endsWord c then do
      let word ← ofWord? read.reverse
      let (token, reading) := start c
      (scan reading cs).map (word :: token.toList ++ ·)
    else scan (.word (c :: read)) cs
  | .text read, '"' :: cs => do
    let text ← ofUnits? read.reverse
    (scan .between cs).map (text :: ·)
  | .text read, '\\' :: 'u' :: a :: b :: c :: d :: cs => do
    let u ← Text.numeral? 16 [a, b, c, d]
    scan (.text (u :: read)) cs
  | .text read, '\\' :: c :: cs => do
    let c ← escaped? c
    scan (.text ((Text.units c).reverse ++ read)) cs
  | .text read, c :: cs =>
    if c < ' ' || c = '\\' then none else scan (.text ((Text.units c).reverse ++ read)) cs

end Token

end TensorTyping.Json
