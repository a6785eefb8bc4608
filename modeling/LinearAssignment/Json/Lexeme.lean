import LinearAssignment.Decimal.Numeral
import LinearAssignment.Json.ReadError

/-! # The smallest parts of a JSON text

Blanks, literal words, numbers and strings. Each reader takes a text and returns what it read with
the rest of the text, or the first problem it met. A number is read as the float nearest to it,
which not every library promises.
-/

namespace LinearAssignment.Json

/-- A reader returns what it read and the rest of the text. -/
abbrev Reader (α : Type) := List Char → Except ReadError (α × List Char)

/-- The four characters that may stand between the parts of a text. -/
def isBlank (c : Char) : Bool := c = ' ' || c = '\n' || c = '\t' || c = '\r'

/-- Pass over blanks. -/
def skipBlank (text : List Char) : List Char := text.dropWhile isBlank

/-- Pass over the characters of a literal word. -/
def skipWord : List Char → List Char → Except ReadError (List Char)
  | [], text => .ok text
  | _ :: _, [] => .error .truncated
  | expected :: word, c :: text =>
    if c = expected then skipWord word text else .error .malformed

/-- The refusal where something required is missing: the text ends, or goes on differently. -/
def missingAt (text : List Char) : ReadError :=
  match text with
  | [] => .truncated
  | _ :: _ => .malformed

/-! ## Numbers -/

/-- The digits before the point; no zero leads other digits. -/
def wholeDigits (text : List Char) : Except ReadError (List Char × List Char) :=
  match text with
  | [] => .error .truncated
  | '0' :: rest =>
    match rest with
    | c :: _ => if c.isDigit then .error .malformed else .ok (['0'], rest)
    | [] => .ok (['0'], rest)
  | c :: _ => if c.isDigit then .ok (Decimal.spanDigits text) else .error .malformed

/-- At least one digit. -/
def someDigits (text : List Char) : Except ReadError (List Char × List Char) :=
  match Decimal.spanDigits text with
  | ([], rest) => .error (missingAt rest)
  | found => .ok found

/-- The digits behind a point, if there is one. -/
def fractionDigits : List Char → Except ReadError (Option (List Char) × List Char)
  | '.' :: rest => do
    let (digits, rest) ← someDigits rest
    return (some digits, rest)
  | text => .ok (none, text)

/-- A signed power of ten, if one follows. -/
def exponentPart (text : List Char) : Except ReadError (Option Int × List Char) :=
  let signed : List Char → Except ReadError (Option Int × List Char)
    | '-' :: rest => do
      let (digits, rest) ← someDigits rest
      return (some (Decimal.signedPower true digits), rest)
    | '+' :: rest => do
      let (digits, rest) ← someDigits rest
      return (some (Decimal.signedPower false digits), rest)
    | rest => do
      let (digits, rest) ← someDigits rest
      return (some (Decimal.signedPower false digits), rest)
  match text with
  | 'e' :: rest => signed rest
  | 'E' :: rest => signed rest
  | _ => .ok (none, text)

/-- A number as it is written. -/
structure NumberLiteral where
  numeral : Decimal.Numeral
  /-- Whether there is neither a point nor a power of ten. -/
  integral : Bool

/-- Read a number as it is written. -/
def readLiteral : Reader NumberLiteral := fun text => do
  let negative := text.head? = some '-'
  let (whole, rest) ← wholeDigits (if negative then text.drop 1 else text)
  let (fraction, rest) ← fractionDigits rest
  let (power, rest) ← exponentPart rest
  let numeral := ⟨negative, whole, fraction.getD [], power.getD 0⟩
  return (⟨numeral, fraction.isNone && power.isNone⟩, rest)

/-- The value of a number: an integer if it is written as one and fits a 64-bit word. -/
inductive Number where
  | natural (value : Nat)
  | negative (value : Int)
  | real (value : Float)

/-- The value of a written number. Negative zero is no integer; a number beyond the largest finite
one is refused. -/
def NumberLiteral.value (literal : NumberLiteral) : Except ReadError Number :=
  let magnitude := Decimal.ofDigits literal.numeral.whole
  if literal.integral && !literal.numeral.negative && magnitude < UInt64.size then
    .ok (.natural magnitude)
  else if literal.integral && literal.numeral.negative && 0 < magnitude &&
      magnitude ≤ UInt64.size / 2 then
    .ok (.negative (-magnitude))
  else
    let value := literal.numeral.toFloat
    if value.isFinite then .ok (.real value) else .error .malformed

/-- Read the value of a number. -/
def readNumber : Reader Number := fun text => do
  let (literal, rest) ← readLiteral text
  return (← literal.value, rest)

/-- What a number is when something else is expected. -/
def Number.found : Number → Found
  | .natural value => .integer value
  | .negative value => .integer value
  | .real value => .real value

/-- The number nearest to a value. -/
def Number.toFloat : Number → Float
  | .natural value => Float.ofNat value
  | .negative value => Float.ofInt value
  | .real value => value

/-! ## Strings -/

/-- The value of a hexadecimal digit. -/
def hexValue? (c : Char) : Option Nat :=
  if '0' ≤ c && c ≤ '9' then some (c.toNat - 48)
  else if 'a' ≤ c && c ≤ 'f' then some (c.toNat - 87)
  else if 'A' ≤ c && c ≤ 'F' then some (c.toNat - 55)
  else none

/-- How many bytes the UTF-8 form of a text takes. -/
def byteLength (text : List Char) : Nat := text.foldl (fun count c => count + c.utf8Size) 0

/-- Four hexadecimal digits. A text with fewer than four bytes left ends too early, whatever they
are. -/
def readUnit : Reader Nat := fun text =>
  let digits := (text.take 4).map hexValue?
  match digits with
  | [some a, some b, some c, some d] => .ok (((a * 16 + b) * 16 + c) * 16 + d, text.drop 4)
  | _ => if byteLength (text.take 4) < 4 then .error .truncated else .error .malformed

/-- The character of an escape of one letter. -/
def escapeLetter? : Char → Option Char
  | '"' => some '"'
  | '\\' => some '\\'
  | '/' => some '/'
  | 'b' => some '\x08'
  | 'f' => some '\x0c'
  | 'n' => some '\n'
  | 'r' => some '\r'
  | 't' => some '\t'
  | _ => none

/-- Whether a code unit is the first of a surrogate pair. -/
def isLeading (unit : Nat) : Bool := 0xD800 ≤ unit && unit ≤ 0xDBFF

/-- Whether a code unit is the second of a surrogate pair. -/
def isTrailing (unit : Nat) : Bool := 0xDC00 ≤ unit && unit ≤ 0xDFFF

/-- The second half of a surrogate pair, which must follow the first. -/
def readTrailing (leading : Nat) : Reader Char := fun text =>
  match text with
  | [] => .error .truncated
  | ['\\'] => .error .truncated
  | '\\' :: 'u' :: rest => do
    let (unit, rest) ← readUnit rest
    if isTrailing unit then
      return (Char.ofNat ((leading - 0xD800) * 1024 + (unit - 0xDC00) + 0x10000), rest)
    else .error .malformed
  | _ => .error .malformed

/-- What a backslash introduces. Surrogates must come in pairs. -/
def readEscape : Reader Char := fun text =>
  match text with
  | [] => .error .truncated
  | 'u' :: rest => do
    let (unit, rest) ← readUnit rest
    if isTrailing unit then .error .malformed
    else if isLeading unit then readTrailing unit rest
    else return (Char.ofNat unit, rest)
  | c :: rest =>
    match escapeLetter? c with
    | some value => .ok (value, rest)
    | none => .error .malformed

/-- Read a string up to its closing quote. The budget counts characters of the text; `reversed`
holds the characters read so far. -/
def readTextWithin : Nat → List Char → Reader String
  | 0, _, _ => .error .truncated
  | budget + 1, reversed, text =>
    match text with
    | [] => .error .truncated
    | '"' :: rest => .ok (String.ofList reversed.reverse, rest)
    | '\\' :: rest => do
      let (c, rest) ← readEscape rest
      readTextWithin budget (c :: reversed) rest
    | c :: rest =>
      if c.toNat < 32 then .error .malformed else readTextWithin budget (c :: reversed) rest

/-- Read the string that follows an opening quote. -/
def readString : Reader String := fun text => readTextWithin text.length [] text

end LinearAssignment.Json
