/-! # Lengths of time

A length of time is kept in normal form, with less than a second in its nanoseconds.
-/

namespace LinearAssignment

/-- A length of time in whole seconds and nanoseconds below one second. -/
structure Duration where
  seconds : Nat
  nanoseconds : Nat
deriving DecidableEq, Repr, Inhabited

namespace Duration

/-- No time at all. -/
def zero : Duration := ⟨0, 0⟩

/-- How many nanoseconds make a second. -/
def nanosecondsPerSecond : Nat := 1000000000

/-- Whole seconds are carried over; a length of 2⁶⁴ seconds or more has no form. -/
def ofParts? (seconds nanoseconds : Nat) : Option Duration :=
  let carried := seconds + nanoseconds / nanosecondsPerSecond
  if carried < UInt64.size then some ⟨carried, nanoseconds % nanosecondsPerSecond⟩ else none

/-- The whole length in nanoseconds. -/
def total (d : Duration) : Nat := d.seconds * nanosecondsPerSecond + d.nanoseconds

/-- The time from one clock reading to a later one; none if the clock went backwards. -/
def between (start stop : Duration) : Duration :=
  let elapsed := stop.total - start.total
  ⟨elapsed / nanosecondsPerSecond, elapsed % nanosecondsPerSecond⟩

end Duration

end LinearAssignment
