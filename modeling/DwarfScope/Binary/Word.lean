/-!
# Words in bytes

Numbers as bytes, and numbers of one to eight bytes at a position in a file.
-/

namespace DwarfScope

inductive ByteOrder where
  | little
  | big
  deriving Repr, DecidableEq

namespace Binary

/-- Signed numbers of 64 bits lie from `-signedLimit` up to but not including `signedLimit`. -/
abbrev signedLimit : Nat := 0x8000000000000000

def value : ByteOrder → List UInt8 → Nat
  | .little, bytes => bytes.foldr (fun b n => b.toNat + 256 * n) 0
  | .big, bytes => bytes.foldl (fun n b => 256 * n + b.toNat) 0

/-- The lowest `length` bytes of a number, the highest of them first. -/
def bigEndianBytes : Nat → Nat → List UInt8
  | 0, _ => []
  | length + 1, n => bigEndianBytes length (n / 256) ++ [UInt8.ofNat n]

def slice? (data : ByteArray) (start length : Nat) : Option ByteArray :=
  if start + length ≤ data.size then some (data.extract start (start + length)) else none

def word? (data : ByteArray) (order : ByteOrder) (start length : Nat) : Option Nat :=
  (slice? data start length).map fun bytes => value order bytes.toList

/-- The bytes from `start` up to the first zero, which has to stand before `stop`. -/
def zeroTerminated? (data : ByteArray) (start stop : Nat) : Option (List UInt8) :=
  (slice? data start (stop - start)).bind fun bytes =>
    let text := bytes.toList.takeWhile (· ≠ 0)
    if start ≤ stop ∧ text.length < bytes.size then some text else none

end Binary
end DwarfScope
