import DwarfScope.Text.Hex

/-!
# Numerals

Unsigned numbers of 64 bits in base ten or sixteen, and signed decimal numbers.
-/

namespace DwarfScope.Numeral

inductive Fault where
  | empty
  | invalidDigit
  | tooLarge
  deriving Repr, DecidableEq

def Fault.message : Fault → String
  | .empty => "cannot parse integer from empty string"
  | .invalidDigit => "invalid digit found in string"
  | .tooLarge => "number too large to fit in target type"

def digitValue? (base : Nat) (c : Char) : Option Nat := (Hex.value? c).filter (· < base)

/-- Reads digits from the left. The first digit at which something is wrong decides the fault, and
a character that is no digit counts before a value that has grown too large. -/
def readDigits (base acc : Nat) : List Char → Except Fault Nat
  | [] => .ok acc
  | c :: rest => match digitValue? base c with
    | none => .error .invalidDigit
    | some d =>
      if base * acc + d < UInt64.size then readDigits base (base * acc + d) rest
      else .error .tooLarge

/-- One plus sign may stand in front of the digits. -/
def readUnsigned (base : Nat) : List Char → Except Fault Nat
  | [] => .error .empty
  | ['+'] => .error .invalidDigit
  | '+' :: rest => readDigits base 0 rest
  | text => readDigits base 0 text

def readSigned? (low high : Int) (text : List Char) : Option Int := do
  let value ← match text with
    | '-' :: '+' :: _ => none
    | '-' :: rest => (readUnsigned 10 rest).toOption.map fun (n : Nat) => -(n : Int)
    | text => (readUnsigned 10 text).toOption.map fun (n : Nat) => (n : Int)
  if low ≤ value ∧ value ≤ high then some value else none

end DwarfScope.Numeral
