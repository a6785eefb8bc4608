/-! # The exact value of a binary number

A finite 64-bit floating-point number other than zero is, up to its sign,
`significand * 2 ^ exponent` with natural `significand`. This module reads both off the bits,
together with what decides which reals round to the number: its neighbours are one unit of the
significand away, and only half a unit below a power of two.
-/

namespace LinearAssignment.Decimal

/-- The magnitude of a finite number other than zero. -/
structure Magnitude where
  /-- How many units the number counts. -/
  significand : Nat
  /-- The unit is this power of two. -/
  exponent : Int
  /-- Whether the next number below is only half a unit away. -/
  closeBelow : Bool
deriving DecidableEq, Repr

/-- What the bits of a 64-bit floating-point number stand for. -/
inductive Reading where
  | undefined
  | infinite (negative : Bool)
  | zero (negative : Bool)
  | finite (negative : Bool) (magnitude : Magnitude)
deriving DecidableEq, Repr

/-- The leading bit of a significand, which is not stored: 2⁵². -/
def leadingUnit : Nat := 0x10000000000000

/-- Read sign, exponent and fraction off the bits. -/
def Reading.ofFloat (x : Float) : Reading :=
  let bits : Nat := x.toBits.toNat
  let negative := decide (UInt64.size / 2 ≤ bits)
  let scale : Nat := bits / leadingUnit % 2048
  let fraction := bits % leadingUnit
  if scale = 2047 then
    if fraction = 0 then .infinite negative else .undefined
  else if scale = 0 then
    if fraction = 0 then .zero negative else .finite negative ⟨fraction, -1074, false⟩
  else
    .finite negative ⟨leadingUnit + fraction, (scale : Int) - 1075, fraction = 0 && 1 < scale⟩

end LinearAssignment.Decimal
