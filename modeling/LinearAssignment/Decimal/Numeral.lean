/-! # Reading numbers

A numeral is a sign, decimal digits and a power of ten. Its value is rounded once, to the nearest
number and with ties to even, however many digits it has and however large its power is.
-/

namespace LinearAssignment.Decimal

/-- The natural number that some decimal digits stand for. -/
def ofDigits (digits : List Char) : Nat :=
  digits.foldl (fun value digit => 10 * value + (digit.toNat - 48)) 0

/-- The decimal digits at the front of a text, and what follows them. -/
def spanDigits (text : List Char) : List Char × List Char := text.span Char.isDigit

/-- A decimal numeral: sign, digits before and behind the point, and a power of ten. -/
structure Numeral where
  negative : Bool
  whole : List Char
  fraction : List Char
  power : Int
deriving DecidableEq, Repr

/-- All digits of the numeral as one natural number. -/
def Numeral.significand (numeral : Numeral) : Nat := ofDigits (numeral.whole ++ numeral.fraction)

/-- The number nearest to the numeral; infinite when it lies beyond the largest finite number. -/
def Numeral.toFloat (numeral : Numeral) : Float :=
  let exponent := numeral.power - numeral.fraction.length
  let magnitude := Float.ofScientific numeral.significand (exponent < 0) exponent.natAbs
  if numeral.negative then -magnitude else magnitude

/-- Signed digits of a power of ten. -/
def signedPower (negative : Bool) (digits : List Char) : Int :=
  if negative then -(ofDigits digits : Int) else ofDigits digits

/-! ## Whole texts

A number in a parameter may carry either sign, may lack the digits on one side of its point, and may
be one of the names of infinity and of the undefined number in letters of either case.
-/

/-- A power of ten that takes up the whole rest of a text; none is zero. -/
def trailingPower? (text : List Char) : Option Int :=
  let digitsOnly (negative : Bool) (rest : List Char) : Option Int :=
    if rest.isEmpty || !rest.all Char.isDigit then none else some (signedPower negative rest)
  let signed : List Char → Option Int
    | '-' :: rest => digitsOnly true rest
    | '+' :: rest => digitsOnly false rest
    | rest => digitsOnly false rest
  match text with
  | [] => some 0
  | 'e' :: rest => signed rest
  | 'E' :: rest => signed rest
  | _ => none

/-- The numeral that an unsigned text is. -/
def unsigned? (negative : Bool) (text : List Char) : Option Numeral := do
  let (whole, rest) := spanDigits text
  let (fraction, rest) := match rest with
    | '.' :: rest => spanDigits rest
    | _ => ([], rest)
  if whole.isEmpty && fraction.isEmpty then none
  else return ⟨negative, whole, fraction, ← trailingPower? rest⟩

/-- The number that a name in lower case stands for. -/
def ofName? (name : String) : Option Float :=
  if name = "nan" then some (0 / 0)
  else if name = "inf" ∨ name = "infinity" then some (1 / 0)
  else none

/-- The number that a whole text is. -/
def parse? (text : String) : Option Float :=
  let (negative, body) := match text.toList with
    | '-' :: rest => (true, rest)
    | '+' :: rest => (false, rest)
    | rest => (false, rest)
  match unsigned? negative body with
  | some numeral => some numeral.toFloat
  | none =>
    (ofName? (String.ofList (body.map Char.toLower))).map fun value =>
      if negative then -value else value

end LinearAssignment.Decimal
