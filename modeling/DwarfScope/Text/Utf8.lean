/-!
# Decoding of damaged text

Bytes that are no UTF-8 are read with a replacement character for each piece that cannot be
continued to a character.
-/

namespace DwarfScope.Utf8

def replacement : Char := '\uFFFD'

/-- A character whose first bytes have been read. The next byte has to lie between `low` and
`high`, and `missing` counts the bytes after that one. -/
structure Pending where
  value : Nat
  missing : Nat
  low : UInt8
  high : UInt8
  deriving Repr, DecidableEq

inductive Begun where
  | char (c : Char)
  | pending (p : Pending)
  | bad
  deriving Repr, DecidableEq

/-- What a byte begins. The bounds on the second byte shut out overlong forms, surrogates and
numbers beyond the last character. -/
def begin (b : UInt8) : Begun :=
  if b < 0x80 then .char (Char.ofNat b.toNat)
  else if b < 0xc2 then .bad
  else if b < 0xe0 then .pending ⟨b.toNat - 0xc0, 0, 0x80, 0xbf⟩
  else if b < 0xf0 then
    .pending ⟨b.toNat - 0xe0, 1, if b = 0xe0 then 0xa0 else 0x80, if b = 0xed then 0x9f else 0xbf⟩
  else if b < 0xf5 then
    .pending ⟨b.toNat - 0xf0, 2, if b = 0xf0 then 0x90 else 0x80, if b = 0xf4 then 0x8f else 0xbf⟩
  else .bad

def decodeFrom : Option Pending → List UInt8 → List Char
  | none, [] => []
  | some _, [] => [replacement]
  | some p, b :: rest =>
    if p.low ≤ b ∧ b ≤ p.high then
      let value := 64 * p.value + (b.toNat - 0x80)
      match p.missing with
      | 0 => Char.ofNat value :: decodeFrom none rest
      | missing + 1 => decodeFrom (some ⟨value, missing, 0x80, 0xbf⟩) rest
    else
      match begin b with
      | .char c => replacement :: c :: decodeFrom none rest
      | .pending q => replacement :: decodeFrom (some q) rest
      | .bad => replacement :: replacement :: decodeFrom none rest
  | none, b :: rest =>
    match begin b with
    | .char c => c :: decodeFrom none rest
    | .pending q => decodeFrom (some q) rest
    | .bad => replacement :: decodeFrom none rest

def decodeLossy (bytes : List UInt8) : String := String.ofList (decodeFrom none bytes)

end DwarfScope.Utf8
