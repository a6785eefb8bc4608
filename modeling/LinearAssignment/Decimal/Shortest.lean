import LinearAssignment.Decimal.Magnitude

/-! # The fewest decimal digits that read back

All reals close enough to a binary number round to it. The shortest decimal among them lies on the
coarsest grid of multiples of a power of ten that has a point in that interval, and on this grid it
is the point nearest to the number. All comparisons are exact, between natural numbers.
-/

namespace LinearAssignment.Decimal

/-- The decimal number `digits * 10 ^ exponent`. -/
structure ShortForm where
  digits : Nat
  exponent : Int
deriving DecidableEq, Repr

/-- Which of two equally near decimals is taken. -/
inductive TieBreak where
  /-- The larger of the two. -/
  | up
  /-- The one whose last digit is even. -/
  | toEven
deriving DecidableEq, Repr

/-- The points of a grid of powers of ten around a magnitude, on a common integral scale. -/
structure Grid where
  /-- The distance between two points of the grid. -/
  step : Nat
  /-- Where the magnitude lies. -/
  value : Nat
  /-- The lower end of the interval that reads back as the magnitude. -/
  low : Nat
  /-- The upper end. -/
  high : Nat
  /-- Whether the ends themselves read back: they tie, and ties go to even significands. -/
  closed : Bool

/-- Scale magnitude, interval and the grid `10 ^ exponent` to integers, in quarters of a unit. -/
def Grid.around (m : Magnitude) (exponent : Int) : Grid :=
  let unit := Nat.pow 2 (m.exponent - 2).toNat * Nat.pow 10 (-exponent).toNat
  { step := Nat.pow 2 (2 - m.exponent).toNat * Nat.pow 10 exponent.toNat
    value := 4 * m.significand * unit
    low := (4 * m.significand - if m.closeBelow then 1 else 2) * unit
    high := (4 * m.significand + 2) * unit
    closed := m.significand % 2 = 0 }

/-- Whether the grid point with this index reads back. -/
def Grid.holds (g : Grid) (index : Nat) : Bool :=
  let point := index * g.step
  if g.closed then g.low ≤ point && point ≤ g.high else g.low < point && point < g.high

/-- The index of the nearest grid point that reads back, if one of the magnitude's two neighbours
on the grid does. -/
def Grid.nearest? (g : Grid) (tie : TieBreak) : Option Nat :=
  let below := g.value / g.step
  let above := below + 1
  match g.holds below, g.holds above with
  | true, true =>
    let down := g.value - below * g.step
    let up := above * g.step - g.value
    if down < up then some below
    else if up < down then some above
    else match tie with
      | .up => some above
      | .toEven => some (if below % 2 = 0 then below else above)
  | true, false => some below
  | false, true => some above
  | false, false => none

/-- Descend to finer grids until one has a point that reads back. Seventeen digits always read
back, so a budget of twenty grids from the first candidate on is never used up. -/
def coarsest (m : Magnitude) (tie : TieBreak) : Nat → Int → ShortForm
  | 0, exponent => ⟨(Grid.around m exponent).value / (Grid.around m exponent).step, exponent⟩
  | grids + 1, exponent =>
    match (Grid.around m exponent).nearest? tie with
    | some index => ⟨index, exponent⟩
    | none => coarsest m tie grids (exponent - 1)

/-- The shortest decimal that reads back as the magnitude. The first grid is coarser than the
magnitude: `30103 / 100000` bounds the decimal logarithm of two. -/
def shortest (tie : TieBreak) (m : Magnitude) : ShortForm :=
  let bits : Int := m.significand.log2 + m.exponent + 1
  coarsest m tie 20 (bits * 30103 / 100000 + 2)

end LinearAssignment.Decimal
