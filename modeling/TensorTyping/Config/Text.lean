import TensorTyping.Config.Basic
import TensorTyping.Text.Numeral
import TensorTyping.Word

namespace TensorTyping.Config

/-- A value that a setting can have. -/
inductive Value where
  | int (n : Word)
  | bool (b : Bool)

/-- Space or tab. -/
def isSpace (c : Char) : Bool := c = ' ' || c = '\t'

/-- The lines of a file, each without its line feed and the carriage return before that. -/
def lines : List Char → List (List Char)
  | [] => [[]]
  | '\r' :: '\n' :: cs | '\n' :: cs => [] :: lines cs
  | c :: cs =>
    match lines cs with
    | [] => [[c]]
    | l :: ls => (c :: l) :: ls

/-- Characters that may stand in a comment: no control characters but the tab. -/
def isCommentChar (c : Char) : Bool := c = '\t' || (' ' ≤ c && c ≠ '\x7f')

/-- Whether nothing but spaces and a comment is left of a line. -/
def isTrailer (cs : List Char) : Bool :=
  match cs.dropWhile isSpace with
  | [] => true
  | '#' :: comment => comment.all isCommentChar
  | _ => false

/-- Characters of a key without quotes. -/
def isBareKeyChar (c : Char) : Bool := c.isAlphanum || c = '_' || c = '-'

/-- The character with a code given in hexadecimal digits; surrogates have none. -/
def scalar? (digits : List Char) : Option Char := do
  let n ← Text.numeral? 16 digits
  if n < 0xD800 || (0xDFFF < n && n < 0x110000) then some (Char.ofNat n) else none

/-- Reads up to the closing quote of a text in double quotes: the text and what follows. -/
def quoted? : List Char → Option (List Char × List Char)
  | [] => none
  | '"' :: rest => some ([], rest)
  | '\\' :: 'u' :: a :: b :: c :: d :: rest => do
    let x ← scalar? [a, b, c, d]
    let (text, after) ← quoted? rest
    some (x :: text, after)
  | '\\' :: 'U' :: a :: b :: c :: d :: e :: f :: g :: h :: rest => do
    let x ← scalar? [a, b, c, d, e, f, g, h]
    let (text, after) ← quoted? rest
    some (x :: text, after)
  | '\\' :: c :: rest => do
    let x ← [('b', '\x08'), ('t', '\t'), ('n', '\n'), ('f', '\x0c'), ('r', '\r'), ('"', '"'),
      ('\\', '\\')].lookup c
    let (text, after) ← quoted? rest
    some (x :: text, after)
  | c :: rest => do
    if isCommentChar c && c ≠ '\\' then
      let (text, after) ← quoted? rest
      some (c :: text, after)
    else none

/-- Reads a key, in any of its three spellings, and what follows. -/
def key? (cs : List Char) : Option (List Char × List Char) :=
  match cs with
  | '"' :: rest => quoted? rest
  | '\'' :: rest =>
    match rest.dropWhile (· ≠ '\'') with
    | [] => none
    | _ :: after =>
      let text := rest.takeWhile (· ≠ '\'')
      if text.all isCommentChar then some (text, after) else none
  | _ =>
    let text := cs.takeWhile isBareKeyChar
    if text.isEmpty then none else some (text, cs.dropWhile isBareKeyChar)

/-- Digits without the underscores that group them; each underscore needs a digit on either
    side. -/
def ungroup? : List Char → Option (List Char)
  | [] | '_' :: _ => none
  | [c] => some [c]
  | c :: '_' :: rest => (ungroup? rest).map (c :: ·)
  | c :: rest => (ungroup? rest).map (c :: ·)

/-- A decimal numeral without leading zeros. -/
def decimal? (cs : List Char) : Option Int := do
  let digits ← ungroup? cs
  match digits with
  | '0' :: _ :: _ => none
  | _ => (Text.numeral? 10 digits).map Int.ofNat

/-- A numeral in another base, where leading zeros are allowed. -/
def based? (base : Nat) (cs : List Char) : Option Int := do
  let digits ← ungroup? cs
  (Text.numeral? base digits).map Int.ofNat

/-- An integer in any of its spellings. -/
def integer? : List Char → Option Int
  | '0' :: 'x' :: cs => based? 16 cs
  | '0' :: 'o' :: cs => based? 8 cs
  | '0' :: 'b' :: cs => based? 2 cs
  | '+' :: cs => decimal? cs
  | '-' :: cs => (decimal? cs).map (- ·)
  | cs => decimal? cs

/-- A value, spelt without blanks. -/
def value? (cs : List Char) : Option Value :=
  if cs = "true".toList then some (.bool true)
  else if cs = "false".toList then some (.bool false)
  else ((integer? cs).bind Word.ofInt?).map .int

/-- A line that sets a key. -/
def assignment? (line : List Char) : Option (String × Value) := do
  let (key, afterKey) ← key? (line.dropWhile isSpace)
  match afterKey.dropWhile isSpace with
  | '=' :: afterSign =>
    let text := afterSign.dropWhile isSpace
    let isEnd := fun c => isSpace c || c = '#'
    let value ← value? (text.takeWhile (!isEnd ·))
    if isTrailer (text.dropWhile (!isEnd ·)) then some (String.ofList key, value) else none
  | _ => none

/-- Adds the settings of a line to those read before, which name no key twice. -/
def readLine? (settings : List (String × Value)) (line : List Char) :
    Option (List (String × Value)) :=
  if isTrailer line then some settings
  else do
    let (key, value) ← assignment? line
    if settings.any (·.1 = key) then none else some (settings ++ [(key, value)])

/-- Changes the setting that a key names, if its value is one for it. -/
def set? (c : Config) (key : String) (value : Value) : Option Config :=
  match key, value with
  | "max_invocations_factor", .int n =>
    if 0 ≤ n then some { c with factor := UInt64.ofNat n.toInt.toNat } else none
  | "strict_shapes", .bool b => some { c with strictShapes := b }
  | "file", .int n =>
    if 0 ≤ n ∧ n.toInt < 4294967296 then some { c with file := UInt32.ofNat n.toInt.toNat }
    else none
  | _, _ => none

/-- Reads a configuration without looking at whether it lets a session run. Every setting is an
    integer or a truth value at the top level, so a line is blank, a comment, or a key with such a
    value. A byte order mark in front is ignored. -/
def read? (text : String) : Option Config := do
  let cs := match text.toList with
    | '\uFEFF' :: cs => cs
    | cs => cs
  let settings ← (lines cs).foldlM readLine? []
  settings.foldlM (fun c s => c.set? s.1 s.2) default

/-- Reads a configuration. A text that cannot be read is reported before a factor of zero. -/
def ofText (text : String) : Except ConfigError Config :=
  match read? text with
  | none => .error .malformed
  | some c => c.validate.map fun _ => c

end TensorTyping.Config
