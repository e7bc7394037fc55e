import DwarfScope.Dwarf.Input

/-!
# Location expressions

Programs of a small stack machine that compute an address. Only expressions of one operation are
given a meaning, so the operations need no more than their length.
-/

namespace DwarfScope.Dwarf

inductive Operation where
  | address (a : Nat)
  | addressIndex (i : Nat)
  /-- Adds a constant to the address on the stack. -/
  | plusConstant (n : Nat)
  | other
  deriving Repr, DecidableEq

/-- Registers have numbers of 16 bits. -/
def readRegister : Read Unit := do
  let number ← Read.unsigned
  if number < UInt16.size then return else throw (.badRegister number)

def readUnsigned32 : Read Unit := do
  if (← Read.unsigned) < UInt32.size then return else throw .badNumber

def readVirtualLocation : Read Unit := do
  let kind ← Read.byte
  if kind ≤ 2 then readUnsigned32
  else if kind = 3 then Read.skip 4
  else throw (.unknownOperation 0xed)

def skipOperands (enc : Encoding) (code : Nat) : Read Unit := do
  match code with
  | 0x08 | 0x09 | 0x15 | 0x94 | 0x95 => Read.skip 1
  | 0x0a | 0x0b | 0x28 | 0x2f | 0x98 => Read.skip 2
  | 0x0c | 0x0d | 0x99 | 0xfa => Read.skip 4
  | 0x0e | 0x0f => Read.skip 8
  | 0x9a | 0xfd => Read.skip enc.format.wordSize
  | 0x10 | 0x93 | 0xa2 | 0xa8 | 0xa9 | 0xf7 | 0xf9 | 0xfc => let _ ← Read.unsigned
  | 0x11 | 0x91 => let _ ← Read.signed
  | 0x90 => readRegister
  | 0x92 => readRegister; let _ ← Read.signed
  | 0x9d => let _ ← Read.unsigned; let _ ← Read.unsigned
  | 0x9e | 0xa3 | 0xf3 => Read.skip (← Read.unsigned)
  | 0xa0 | 0xf2 =>
    Read.skip (if enc.version = 2 then enc.addressSize else enc.format.wordSize)
    let _ ← Read.signed
  | 0xa4 | 0xf4 => let _ ← Read.unsigned; Read.skip (← Read.byte)
  | 0xa5 | 0xf5 => readRegister; let _ ← Read.unsigned
  | 0xa6 | 0xa7 | 0xf6 => Read.skip 1; let _ ← Read.unsigned
  | 0xed => readVirtualLocation
  | 0x06 | 0x96 | 0x97 | 0x9b | 0x9c | 0x9f | 0xe0 => return
  | _ =>
    if 0x12 ≤ code ∧ code ≤ 0x2e ∨ 0x30 ≤ code ∧ code ≤ 0x6f then return
    else if 0x70 ≤ code ∧ code ≤ 0x8f then
      let _ ← Read.signed
    else throw (.unknownOperation code)

def readOperation (enc : Encoding) : Read Operation := do
  match ← Read.byte with
  | 0x03 => return .address (← Read.word enc.addressSize)
  | 0x23 => return .plusConstant (← Read.unsigned)
  | 0xa1 | 0xfb => return .addressIndex (← Read.unsigned)
  | code => skipOperands enc code; return .other

def readOperation? (enc : Encoding) : Read (Option Operation) := do
  if (← get).isEmpty then return none else some <$> readOperation enc

/-- The operation of an expression that has no other. The first two operations have to be well
formed. -/
def readOnlyOperation? (enc : Encoding) : Read (Option Operation) := do
  let first ← readOperation? enc
  let second ← readOperation? enc
  return if second.isNone then first else none

end DwarfScope.Dwarf
