/-!
# Hexadecimal text

Bytes are written as two lower case digits each. Reading takes digits of either case and says
where the first character stands that is no digit.
-/

namespace DwarfScope.Hex

/-! ## Numbers -/

def digits (n : Nat) : List Char := Nat.toDigits 16 n

def number (n : Nat) : String := "0x" ++ String.ofList (digits n)

/-- A number of at most 64 bits at its full width of sixteen digits. -/
def word (n : Nat) : String := "0x" ++ String.ofList ((digits n).leftpad 16 '0')

/-! ## Bytes -/

def digit (n : Nat) : Char := Nat.digitChar n

def encodeByte (b : UInt8) : List Char := [digit (b.toNat / 16), digit (b.toNat % 16)]

def encodeChars (bytes : List UInt8) : List Char := bytes.flatMap encodeByte

def encode (bytes : List UInt8) : String := String.ofList (encodeChars bytes)

def value? (c : Char) : Option Nat :=
  if '0' ≤ c ∧ c ≤ '9' then some (c.toNat - 48)
  else if 'a' ≤ c ∧ c ≤ 'f' then some (c.toNat - 87)
  else if 'A' ≤ c ∧ c ≤ 'F' then some (c.toNat - 55)
  else none

inductive Fault where
  | oddLength
  /-- The byte that is no digit, and how many bytes stand before it. -/
  | badByte (byte : UInt8) (position : Nat)
  deriving Repr, DecidableEq

def byteLength : List Char → Nat
  | [] => 0
  | c :: rest => c.utf8Size + byteLength rest

def leadByte (c : Char) : UInt8 := (String.utf8EncodeChar c).headD 0

/-- Digits are one byte each, so the count of those before a fault is its position in bytes. -/
def decodeFrom (position : Nat) : List Char → Except Fault (List UInt8)
  | [] => .ok []
  | [c] => match value? c with
    | none => .error (.badByte (leadByte c) position)
    | some _ => .error .oddLength
  | c :: d :: rest => match value? c, value? d with
    | none, _ => .error (.badByte (leadByte c) position)
    | some _, none => .error (.badByte (leadByte d) (position + 1))
    | some high, some low =>
      (decodeFrom (position + 2) rest).map (UInt8.ofNat (16 * high + low) :: ·)

def decodeChars (text : List Char) : Except Fault (List UInt8) :=
  if byteLength text % 2 = 1 then .error .oddLength else decodeFrom 0 text

/-- An odd number of bytes is reported before any character that is no digit. -/
def decode (text : String) : Except Fault (List UInt8) := decodeChars text.toList

/-! ## Faults -/

/-- Shows a byte as the character of that number, between quotes. Characters that do not print are
given by number. -/
def quoteByte (b : UInt8) : String :=
  let c := Char.ofNat b.toNat
  let shown :=
    if c = '\x00' then "\\0"
    else if c = '\t' then "\\t"
    else if c = '\n' then "\\n"
    else if c = '\r' then "\\r"
    else if c = '\'' then "\\'"
    else if c = '\\' then "\\\\"
    else if b < 0x20 ∨ (0x7f ≤ b ∧ b ≤ 0xa0) ∨ b = 0xad then
      "\\u\x7b" ++ String.ofList (digits b.toNat) ++ "\x7d"
    else c.toString
  "'" ++ shown ++ "'"

def Fault.message : Fault → String
  | .oddLength => "Odd number of digits"
  | .badByte b position => s!"Invalid character {quoteByte b} at position {position}"

end DwarfScope.Hex
