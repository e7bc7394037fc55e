import DwarfScope.Text.Hex

/-!
# Addresses

The debug info gives absolute addresses. A signed offset leads from there to a position in the
memory at hand.
-/

namespace DwarfScope.Address

def describe (address : Nat) : String := Hex.word address

/-- A signed offset is shown by the bits of its word. -/
def describeOffset (offset : Int64) : String := Hex.number offset.toUInt64.toNat

/-- The position `address - offset`, if it is a number of 64 bits. -/
def position? (address : Nat) (offset : Int64) : Option Nat :=
  let position := (address : Int) - offset.toInt
  if 0 ≤ position ∧ position < UInt64.size then some position.toNat else none

end DwarfScope.Address
