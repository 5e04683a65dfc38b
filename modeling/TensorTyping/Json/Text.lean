import TensorTyping.Json.Token

namespace TensorTyping.Json

/-- An array or object that is open while one of its values is read, with the items or fields before
    that value, the last one first. -/
inductive Frame where
  | array (done : List Json)
  | object (done : List (String × Json)) (key : String)

/-- Adds a field; a repeated key takes the last value. -/
def addField (key : String) (value : Json) (done : List (String × Json)) : List (String × Json) :=
  (key, value) :: done.filter (·.1 ≠ key)

mutual

/-- Reads on where a value has to come, with a stack of the arrays and objects that are open. -/
def readValue? : List Frame → List Token → Option Json
  | stack, .atom j :: ts => readAfter? stack j ts
  | stack, .openArray :: .closeArray :: ts => readAfter? stack (.array []) ts
  | stack, .openArray :: ts => readValue? (.array [] :: stack) ts
  | stack, .openObject :: .closeObject :: ts => readAfter? stack (.object []) ts
  | stack, .openObject :: .atom (.string key) :: .colon :: ts =>
    readValue? (.object [] key :: stack) ts
  | _, _ => none

/-- Reads on after a value. -/
def readAfter? : List Frame → Json → List Token → Option Json
  | [], j, [] => some j
  | .array done :: stack, j, .comma :: ts => readValue? (.array (j :: done) :: stack) ts
  | .array done :: stack, j, .closeArray :: ts => readAfter? stack (.array (j :: done).reverse) ts
  | .object done key :: stack, j, .comma :: .atom (.string next) :: .colon :: ts =>
    readValue? (.object (addField key j done) next :: stack) ts
  | .object done key :: stack, j, .closeObject :: ts =>
    readAfter? stack (.object (addField key j done).reverse) ts
  | _, _, _ => none

end

/-- Reads a text that holds one value. -/
def ofText? (text : String) : Option Json :=
  (Token.scan .between text.toList).bind (readValue? [])

/-- A code unit as it is written after a backslash: four hexadecimal digits. -/
def unitEscape (u : Nat) : List Char :=
  let digits := Nat.toDigits 16 u
  '\\' :: 'u' :: List.replicate (4 - digits.length) '0' ++ digits

/-- A character as it is written between double quotes. -/
def quoteChar (c : Char) : List Char :=
  if c = '"' || c = '\\' then ['\\', c]
  else if ' ' ≤ c && c ≤ '~' then [c]
  else (Text.units c).flatMap unitEscape

/-- A text between double quotes. -/
def quote (s : String) : String := String.ofList ('"' :: s.toList.flatMap quoteChar ++ ['"'])

mutual

/-- The text of a value, without blanks. -/
def render : Json → String
  | null => "null"
  | bool true => "true"
  | bool false => "false"
  | int n => toString n
  | real spelling => spelling
  | string s => quote s
  | array items => "[" ++ ",".intercalate (renderItems items) ++ "]"
  | object fields => "\x7b" ++ ",".intercalate (renderFields fields) ++ "\x7d"

/-- The texts of the items of an array. -/
def renderItems : List Json → List String
  | [] => []
  | j :: js => j.render :: renderItems js

/-- The texts of the fields of an object. -/
def renderFields : List (String × Json) → List String
  | [] => []
  | (key, j) :: fields => (quote key ++ ":" ++ j.render) :: renderFields fields

end

end TensorTyping.Json
