import DwarfScope.Dwarf.Abbreviation

/-!
# Forms

A form says how the value of an attribute is written.
-/

namespace DwarfScope.Dwarf

inductive FormValue where
  | address (a : Nat)
  | addressIndex (i : Nat)
  | block (bytes : Input)
  | expression (bytes : Input)
  | unsigned (n : Nat)
  | signed (n : Int)
  | flag (b : Bool)
  | sectionOffset (n : Nat)
  /-- A reference relative to the start of the unit. -/
  | unitReference (n : Nat)
  /-- A reference relative to the start of the section. -/
  | sectionReference (n : Nat)
  | text (bytes : List UInt8)
  | textAt (n : Nat)
  | lineTextAt (n : Nat)
  | textIndex (i : Nat)
  /-- A reference to another file or to another kind of section. -/
  | elsewhere

/-- The attributes for which data of the size of an offset is an offset. For the location of a
member this was so up to version 3. -/
def takesOffset (attr version : Nat) : Bool :=
  [0x02, 0x10, 0x19, 0x2a, 0x2c, 0x40, 0x43, 0x46, 0x48, 0x4a, 0x4d, 0x55, 0x79].contains attr ||
    (attr = 0x38 && version < 4)

def readDirect (enc : Encoding) (d : Declared) (form : Nat) : Read FormValue := do
  match form with
  | 0x01 => return .address (← Read.word enc.addressSize)
  | 0x03 => return .block (← Read.split (← Read.word 2))
  | 0x04 => return .block (← Read.split (← Read.word 4))
  | 0x05 => return .unsigned (← Read.word 2)
  | 0x06 =>
    let n ← Read.word 4
    return if enc.format = .dwarf32 ∧ takesOffset d.attr enc.version then .sectionOffset n
      else .unsigned n
  | 0x07 =>
    let n ← Read.word 8
    return if enc.format = .dwarf64 ∧ takesOffset d.attr enc.version then .sectionOffset n
      else .unsigned n
  | 0x08 => return .text (← Read.zeroTerminated)
  | 0x09 => return .block (← Read.split (← Read.unsigned))
  | 0x0a => return .block (← Read.split (← Read.byte))
  | 0x0b => return .unsigned (← Read.byte)
  | 0x0c => return .flag ((← Read.byte) ≠ 0)
  | 0x0d => return .signed (← Read.signed)
  | 0x0e => return .textAt (← Read.offset enc.format)
  | 0x0f => return .unsigned (← Read.unsigned)
  | 0x10 =>
    let size := if enc.version = 2 then enc.addressSize else enc.format.wordSize
    return .sectionReference (← Read.word size)
  | 0x11 => return .unitReference (← Read.byte)
  | 0x12 => return .unitReference (← Read.word 2)
  | 0x13 => return .unitReference (← Read.word 4)
  | 0x14 => return .unitReference (← Read.word 8)
  | 0x15 => return .unitReference (← Read.unsigned)
  | 0x17 => return .sectionOffset (← Read.offset enc.format)
  | 0x18 => return .expression (← Read.split (← Read.unsigned))
  | 0x19 => return .flag true
  | 0x1a | 0x1f02 => return .textIndex (← Read.unsigned)
  | 0x1b | 0x1f01 => return .addressIndex (← Read.unsigned)
  | 0x1c => Read.skip 4; return .elsewhere
  | 0x1d | 0x1f20 | 0x1f21 => Read.skip enc.format.wordSize; return .elsewhere
  | 0x1e => return .block (← Read.split 16)
  | 0x1f => return .lineTextAt (← Read.offset enc.format)
  | 0x20 | 0x24 => Read.skip 8; return .elsewhere
  | 0x21 => match d.constant with
    | some n => return .signed n
    | none => throw .missingConstant
  | 0x22 | 0x23 => let _ ← Read.unsigned; return .elsewhere
  | 0x25 => return .textIndex (← Read.byte)
  | 0x26 => return .textIndex (← Read.word 2)
  | 0x27 => return .textIndex (← Read.word 3)
  | 0x28 => return .textIndex (← Read.word 4)
  | 0x29 => return .addressIndex (← Read.byte)
  | 0x2a => return .addressIndex (← Read.word 2)
  | 0x2b => return .addressIndex (← Read.word 3)
  | 0x2c => return .addressIndex (← Read.word 4)
  | _ => throw (.unknownForm form)

/-- The form whose data starts with the real form. -/
def indirect : Nat := 0x16

/-- A value. Each indirection takes a byte at least, so `n` need not be larger than the count of
the bytes that remain. -/
def readFormFrom (enc : Encoding) (d : Declared) : Nat → Nat → Read FormValue
  | 0, _ => throw .endOfData
  | n + 1, form =>
    if form = indirect then do readFormFrom enc d n (← Read.unsigned16)
    else readDirect enc d form

def readValue (enc : Encoding) (d : Declared) : Read FormValue := do
  readFormFrom enc d ((← get).remaining + 1) d.form

end DwarfScope.Dwarf
