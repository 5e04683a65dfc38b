import TensorTyping.Text.Hidden

namespace TensorTyping.Text

/-- The code point of a character, in lower-case hexadecimal digits between braces. -/
def codeEscape (c : Char) : List Char :=
  '\\' :: 'u' :: '\x7b' :: Nat.toDigits 16 c.toNat ++ ['\x7d']

/-- A character as it is written between double quotes. -/
def quoteChar (c : Char) : List Char :=
  match c with
  | '"' => ['\\', '"']
  | '\\' => ['\\', '\\']
  | '\n' => ['\\', 'n']
  | '\r' => ['\\', 'r']
  | '\t' => ['\\', 't']
  | '\x00' => ['\\', '0']
  | _ => if isHidden c then codeEscape c else [c]

/-- A text between double quotes. -/
def quote (s : String) : String := String.ofList ('"' :: s.toList.flatMap quoteChar ++ ['"'])

/-- Exactly the quote, the backslash and the hidden characters are written in another way than by
    themselves. -/
theorem quoteChar_eq_singleton_iff {c : Char} :
    quoteChar c = [c] ↔ c ≠ '"' ∧ c ≠ '\\' ∧ isHidden c = false := by
  unfold quoteChar
  split
  case h_7 h₁ h₂ _ _ _ _ =>
    cases hc : isHidden c
    · simp_all
    · simp [codeEscape]
  all_goals simp [isHidden_of_lt_space]

end TensorTyping.Text
