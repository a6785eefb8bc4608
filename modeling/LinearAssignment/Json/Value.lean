import LinearAssignment.Decimal.Format

/-! # JSON values and their texts

Values are written in one of two layouts: compact, without any blank, or indented by two spaces a
level. A number that is not finite has no JSON form and is written as `null`.
-/

namespace LinearAssignment

/-- A JSON value. Members of an object keep their order. -/
inductive Json where
  | null
  | boolean (value : Bool)
  | natural (value : Nat)
  | real (value : Float)
  | string (value : String)
  | array (items : List Json)
  | object (members : List (String × Json))

namespace Json

/-- Numbers are written out in full from 10⁻⁵ to below 10¹⁶, and a whole number keeps one place; of
two equally near decimals the one with an even last digit is taken. -/
def numberFormat : Decimal.Format :=
  ⟨.toEven, fun power => -5 ≤ power && power < 16, true⟩

/-- The text of a number. -/
def numberText (x : Float) : List Char :=
  if x.isFinite then (numberFormat.text x).toList else ['n', 'u', 'l', 'l']

/-- A hexadecimal digit. -/
def hexDigit (n : Nat) : Char := Nat.digitChar n

/-- One character of a string: quotes, backslashes and controls are escaped, all else is kept. -/
def escapedChar (c : Char) : List Char :=
  match c with
  | '"' => ['\\', '"']
  | '\\' => ['\\', '\\']
  | '\x08' => ['\\', 'b']
  | '\x0c' => ['\\', 'f']
  | '\n' => ['\\', 'n']
  | '\r' => ['\\', 'r']
  | '\t' => ['\\', 't']
  | _ =>
    if c.toNat < 32 then
      ['\\', 'u', '0', '0', hexDigit (c.toNat / 16), hexDigit (c.toNat % 16)]
    else [c]

/-- A string between quotes. -/
def textLiteral (text : String) : List Char :=
  '"' :: text.toList.flatMap escapedChar ++ ['"']

/-- The text of a value that holds no others. -/
def scalarText : Json → List Char
  | .boolean true => ['t', 'r', 'u', 'e']
  | .boolean false => ['f', 'a', 'l', 's', 'e']
  | .natural value => Decimal.digitText value
  | .real value => numberText value
  | .string value => textLiteral value
  | _ => ['n', 'u', 'l', 'l']

mutual

/-- The text of a value without any blank. -/
def compactText : Json → List Char
  | .array items => '[' :: compactItems items
  | .object members => '\x7b' :: compactMembers members
  | value => scalarText value

/-- The items of an array and its closing bracket. -/
def compactItems : List Json → List Char
  | [] => [']']
  | [item] => compactText item ++ [']']
  | item :: rest => compactText item ++ ',' :: compactItems rest

/-- The members of an object and its closing brace. -/
def compactMembers : List (String × Json) → List Char
  | [] => ['\x7d']
  | [(key, value)] => textLiteral key ++ ':' :: compactText value ++ ['\x7d']
  | (key, value) :: rest =>
    textLiteral key ++ ':' :: compactText value ++ ',' :: compactMembers rest

end

/-- A new line, indented by two spaces a level. -/
def lineBreak (level : Nat) : List Char := '\n' :: List.replicate (2 * level) ' '

mutual

/-- The indented text of a value; an empty array or object stays on its line. -/
def indentedText (level : Nat) : Json → List Char
  | .array [] => ['[', ']']
  | .array items => '[' :: indentedItems level items
  | .object [] => ['\x7b', '\x7d']
  | .object members => '\x7b' :: indentedMembers level members
  | value => scalarText value

/-- The items of an array, each on lines of its own, and its closing bracket. -/
def indentedItems (level : Nat) : List Json → List Char
  | [] => lineBreak level ++ [']']
  | [item] => lineBreak (level + 1) ++ indentedText (level + 1) item ++ lineBreak level ++ [']']
  | item :: rest =>
    lineBreak (level + 1) ++ indentedText (level + 1) item ++ ',' :: indentedItems level rest

/-- The members of an object, each on lines of its own, and its closing brace. -/
def indentedMembers (level : Nat) : List (String × Json) → List Char
  | [] => lineBreak level ++ ['\x7d']
  | [(key, value)] =>
    lineBreak (level + 1) ++ textLiteral key ++ ':' :: ' ' :: indentedText (level + 1) value ++
      lineBreak level ++ ['\x7d']
  | (key, value) :: rest =>
    lineBreak (level + 1) ++ textLiteral key ++ ':' :: ' ' :: indentedText (level + 1) value ++
      ',' :: indentedMembers level rest

end

/-- The compact layout. -/
def compact (value : Json) : String := String.ofList (compactText value)

/-- The indented layout. -/
def indented (value : Json) : String := String.ofList (indentedText 0 value)

end Json

end LinearAssignment
