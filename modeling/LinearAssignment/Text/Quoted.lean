import LinearAssignment.Text.Unprintable

/-! # Texts in quotes

A text that is shown inside a message stands in double quotes. Quotes and backslashes are escaped,
and a character that would not show up by itself is named by its code point.
-/

namespace LinearAssignment.Text

/-- Lower-case hexadecimal digits, without leading zeros. -/
def hexadecimal (n : Nat) : List Char := Nat.toDigits 16 n

/-- How one character appears between quotes. -/
def quotedChar (c : Char) : List Char :=
  match c with
  | '"' => ['\\', '"']
  | '\\' => ['\\', '\\']
  | '\n' => ['\\', 'n']
  | '\r' => ['\\', 'r']
  | '\t' => ['\\', 't']
  | '\x00' => ['\\', '0']
  | _ =>
    if isUnprintable c then ['\\', 'u', '\x7b'] ++ hexadecimal c.toNat ++ ['\x7d'] else [c]

/-- A text between double quotes. -/
def quoted (text : String) : String :=
  String.ofList ('"' :: text.toList.flatMap quotedChar ++ ['"'])

end LinearAssignment.Text
