/-! # Capacity of scratch memory

Scratch is kept in buffers that only grow. A buffer asks for more memory when a problem needs more
entries than it holds, and the request can fail: because its size has no machine representation, or
because it lies beyond the address space.
-/

namespace LinearAssignment

/-- Indices and counts are 64-bit words. -/
def wordSize : Nat := UInt64.size

/-- Why a request for memory fails. -/
inductive AllocationFailure where
  /-- The request has more bytes than the largest size of an object. -/
  | beyondMaximum
  /-- The request has a size, but there is no memory for it. -/
  | refused
deriving DecidableEq, Repr

/-- The failure in words. -/
def AllocationFailure.message : AllocationFailure → String
  | .beyondMaximum =>
    "memory allocation failed because the computed capacity exceeded the collection's maximum"
  | .refused => "memory allocation failed because the memory allocator returned an error"

/-- The widest entry of a buffer, in bytes. -/
def entryBytes : Nat := 8

/-- The largest size of an object in bytes, rounded down to whole entries. -/
def maximumBytes : Nat := wordSize / 2 - entryBytes

/-- How many bytes can be addressed at all: 2⁴⁷. -/
def addressableBytes : Nat := 0x800000000000

/-- The capacity after room for `entries` has been asked for; it never shrinks. -/
def reserve (capacity entries : Nat) : Except AllocationFailure Nat :=
  if entries ≤ capacity then .ok capacity
  else if maximumBytes < entryBytes * entries then .error .beyondMaximum
  else if addressableBytes < entryBytes * entries then .error .refused
  else .ok entries

end LinearAssignment
