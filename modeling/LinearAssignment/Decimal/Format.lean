import LinearAssignment.Decimal.Shortest

/-! # Writing numbers

A text of a number is made of the shortest digits that read back. A `Format` decides the rest:
which numbers are written out in full, what a whole number looks like, and which of two equally
near digit strings is taken.
-/

namespace LinearAssignment.Decimal

/-- The decisions that a text form of numbers makes beyond its digits. -/
structure Format where
  /-- Which of two equally near decimals is written. -/
  tie : TieBreak
  /-- Whether a number whose first digit stands at this power of ten is written out in full. -/
  inFull : Int → Bool
  /-- Whether a whole number that is written out in full ends in `.0`. -/
  wholePoint : Bool

/-- The decimal digits of a natural number, most significant first. -/
def digitText (n : Nat) : List Char := Nat.toDigits 10 n

/-- Digits with the point placed where the exponent asks for it. -/
def writtenOut (wholePoint : Bool) (digits : List Char) (exponent : Int) : List Char :=
  if 0 ≤ exponent then
    digits ++ List.replicate exponent.toNat '0' ++ if wholePoint then ['.', '0'] else []
  else
    let places := (-exponent).toNat
    if places < digits.length then
      let whole := digits.length - places
      digits.take whole ++ '.' :: digits.drop whole
    else
      '0' :: '.' :: (List.replicate (places - digits.length) '0' ++ digits)

/-- One digit, the rest behind a point, and the signed power of ten of the first digit. -/
def scientific (digits : List Char) (power : Int) : List Char :=
  let fraction := match digits.drop 1 with
    | [] => []
    | rest => '.' :: rest
  digits.take 1 ++ fraction ++
    'e' :: (if power < 0 then '-' else '+') :: digitText power.natAbs

/-- The text of a magnitude. -/
def Format.magnitude (format : Format) (m : Magnitude) : List Char :=
  let decimal := shortest format.tie m
  let digits := digitText decimal.digits
  let power := decimal.exponent + digits.length - 1
  if format.inFull power then writtenOut format.wholePoint digits decimal.exponent
  else scientific digits power

/-- The text of a number; the sign of zero is kept. -/
def Format.text (format : Format) (x : Float) : String :=
  let signed (negative : Bool) (text : List Char) : String :=
    String.ofList (if negative then '-' :: text else text)
  match Reading.ofFloat x with
  | .undefined => "NaN"
  | .infinite negative => signed negative ['i', 'n', 'f']
  | .zero negative => signed negative (writtenOut format.wholePoint ['0'] 0)
  | .finite negative m => signed negative (format.magnitude m)

/-- Numbers in messages and parameter values are always written out in full, a whole number
without a point; of two equally near decimals the larger is taken. -/
def messageFormat : Format := ⟨.up, fun _ => true, false⟩

end LinearAssignment.Decimal
