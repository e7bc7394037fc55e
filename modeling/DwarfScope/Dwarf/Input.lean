import DwarfScope.Binary.Word

/-!
# Reading sections

A section is read from a position towards an end. Every reading step either answers and moves the
position forward, or fails.
-/

namespace DwarfScope.Dwarf

inductive Fault where
  | endOfData
  | badNumber
  | reservedLength (length : Nat)
  | unknownVersion (version : Nat)
  | unknownUnitKind (code : Nat)
  | badAddressSize (size : Nat)
  | zeroTag
  | badChildrenFlag (flag : Nat)
  | zeroForm
  | badTerminator
  | repeatedAbbreviation (code : Nat)
  | unknownAbbreviation (code : Nat)
  | unknownForm (code : Nat)
  | missingConstant
  | missingRoot
  | notText
  | unknownOperation (code : Nat)
  | badRegister (number : Nat)
  | segmentedAddresses
  | zeroField (field : String)
  | missingPath
  deriving Repr, DecidableEq

def Fault.message : Fault → String
  | .endOfData => "the data ends inside a value"
  | .badNumber => "a number is longer than 64 bits"
  | .reservedLength length => s!"the length {length} is reserved"
  | .unknownVersion version => s!"version {version} is unknown"
  | .unknownUnitKind code => s!"unit type {code} is unknown"
  | .badAddressSize size => s!"addresses of {size} bytes are not supported"
  | .zeroTag => "an abbreviation has no tag"
  | .badChildrenFlag flag => s!"an abbreviation has the children flag {flag}"
  | .zeroForm => "an attribute has no form"
  | .badTerminator => "a list of attributes ends in half a terminator"
  | .repeatedAbbreviation code => s!"abbreviation {code} is declared twice"
  | .unknownAbbreviation code => s!"abbreviation {code} is not declared"
  | .unknownForm code => s!"form {code} is unknown"
  | .missingConstant => "an implicit constant is missing"
  | .missingRoot => "a unit has no first entry"
  | .notText => "a text has a form that holds no text"
  | .unknownOperation code => s!"operation {code} is unknown"
  | .badRegister number => s!"register {number} is out of range"
  | .segmentedAddresses => "segmented addresses are not supported"
  | .zeroField field => s!"the {field} is zero"
  | .missingPath => "a table of files has no paths"

inductive Format where
  | dwarf32
  | dwarf64
  deriving Repr, DecidableEq

def Format.wordSize : Format → Nat
  | .dwarf32 => 4
  | .dwarf64 => 8

structure Encoding where
  format : Format
  version : Nat
  addressSize : Nat
  deriving Repr, DecidableEq

/-- The part of a section from `pos` to `stop` is still to be read. -/
structure Input where
  data : ByteArray
  order : ByteOrder
  pos : Nat
  stop : Nat

namespace Input

def ofSection (order : ByteOrder) (data : ByteArray) : Input := ⟨data, order, 0, data.size⟩

def isEmpty (i : Input) : Bool := i.stop ≤ i.pos

def remaining (i : Input) : Nat := i.stop - i.pos

def bytes (i : Input) : List UInt8 := (i.data.extract i.pos i.stop).toList

end Input

/-- A step answers and moves on, or fails. -/
abbrev Read := EStateM Fault Input

namespace Read

/-- Reads all of `inner` with a step of its own, and stays where it is. -/
def within (inner : Input) (step : Read α) : Read α := fun i =>
  match step inner with
  | .ok a _ => .ok a i
  | .error fault _ => .error fault i

def split (n : Nat) : Read Input := fun i =>
  if n ≤ i.remaining then .ok { i with stop := i.pos + n } { i with pos := i.pos + n }
  else .error .endOfData i

def skip (n : Nat) : Read Unit := do
  let _ ← split n

def word (n : Nat) : Read Nat := do
  let part ← split n
  return Binary.value part.order part.bytes

def byte : Read Nat := word 1

def offset (format : Format) : Read Nat := word format.wordSize

def addressSize : Read Nat := do
  let size ← byte
  if size = 1 ∨ size = 2 ∨ size = 4 ∨ size = 8 then return size else throw (.badAddressSize size)

def initialLength : Read (Nat × Format) := do
  let length ← word 4
  if length < 0xfffffff0 then return (length, .dwarf32)
  else if length = 0xffffffff then return (← word 8, .dwarf64)
  else throw (.reservedLength length)

/-! ## Numbers of variable length

Seven bits a byte, the lowest first. Every byte but the last has its high bit set. A number of 64
bits takes ten bytes, and the tenth has a single bit left. -/

/-- Reads a number whose next byte counts `weight` times, in at most `n` bytes. -/
def unsignedFrom (weight : Nat) : Nat → Read Nat
  | 0 => throw .badNumber
  | n + 1 => do
    let b ← byte
    if n = 0 ∧ 1 < b then throw .badNumber
    let low := b % 128 * weight
    if b < 128 then return low else return low + (← unsignedFrom (128 * weight) n)

def unsigned : Read Nat := unsignedFrom 1 10

/-- The last byte gives the sign by its second highest bit. -/
def signedFrom (weight : Nat) : Nat → Read Int
  | 0 => throw .badNumber
  | n + 1 => do
    let b ← byte
    if n = 0 ∧ b ≠ 0 ∧ b ≠ 0x7f then throw .badNumber
    let low : Int := b % 128 * weight
    if b < 64 then return low
    else if b < 128 then return low - 128 * weight
    else return low + (← signedFrom (128 * weight) n)

def signed : Read Int := signedFrom 1 10

/-- A number of 16 bits, in three bytes at most. -/
def unsigned16 : Read Nat := do
  let a ← byte
  if a < 128 then return a
  let b ← byte
  if b < 128 then return a % 128 + b * 128
  let c ← byte
  if 3 < c then throw .badNumber
  return a % 128 + b % 128 * 128 + c * 16384

/-! ## Text -/

def zeroTerminated : Read (List UInt8) := fun i =>
  let text := i.bytes.takeWhile (· ≠ 0)
  if text.length < i.remaining then .ok text { i with pos := i.pos + text.length + 1 }
  else .error .endOfData i

/-! ## Repetition -/

/-- Repeats a step until it answers nothing, at most `n` times. A step that moves on each time
needs no more than the count of the bytes that remain. -/
def collect (step : Read (Option α)) : Nat → Array α → Read (Array α)
  | 0, found => return found
  | n + 1, found => do
    match ← step with
    | none => return found
    | some a => collect step n (found.push a)

def many (step : Read (Option α)) : Read (Array α) := do
  collect step ((← get).remaining + 1) #[]

def times (n : Nat) (step : Read Unit) : Read Unit :=
  match n with
  | 0 => return
  | n + 1 => do
    step
    times n step

end Read
end DwarfScope.Dwarf
