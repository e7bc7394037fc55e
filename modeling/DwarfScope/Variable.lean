import DwarfScope.Layout.Resolve
import DwarfScope.Memory

/-!
# Variables

A variable has a layout and an address. It caches the bytes of its value, gives access to the
fields in them, and moves them from and to memory. Fields are big endian numbers without sign.
-/

namespace DwarfScope

structure Variable where
  name : String
  layout : Layout
  address : Nat
  /-- The cached bytes, none if the variable was never read or set. -/
  value : Option (List UInt8) := none
  client : Option Nat := none
  deriving Repr, Inhabited

namespace Variable

def ofEntry (s : Stream) (e : Entry) : Walk Variable := do
  match e.location? with
  | none => throw (.noLocation e.label)
  | some address => return { name := e.label, layout := ← s.resolve e, address }

/-! ## The cached value -/

def get (v : Variable) : Except Error (List UInt8) :=
  match v.value with
  | some bytes => .ok bytes
  | none => .error (.uninitialized v.name)

/-- Replaces the cached value by one that is not larger than the type. -/
def set (v : Variable) (bytes : List UInt8) : Except Error Variable :=
  if v.layout.bitSize < 8 * bytes.length then
    .error (.sizeMismatch (8 * bytes.length) v.layout.bitSize)
  else .ok { v with value := some bytes }

/-! ## Fields -/

structure Span where
  start : Nat
  length : Nat
  deriving Repr, DecidableEq

/-- Fields have to start at a byte and to be made of whole bytes. -/
def span (v : Variable) (field : String) : Except Error Span := do
  let m ← v.layout.member field
  if m.structOffset % 8 ≠ 0 then throw (.notByteAligned field m.structOffset)
  if m.bitSize % 8 ≠ 0 then throw (.notByteSized field m.bitSize)
  return ⟨m.structOffset / 8, m.bitSize / 8⟩

def slice? (bytes : List UInt8) (s : Span) : Option (List UInt8) :=
  if s.start + s.length ≤ bytes.length then some ((bytes.drop s.start).take s.length) else none

def getField (v : Variable) (field : String) : Except Error UInt64 := do
  let s ← v.span field
  if 8 < s.length then throw (.fieldTooWide field (8 * s.length))
  let bytes ← v.get
  match slice? bytes s with
  | some part => return UInt64.ofNat (Binary.value .big part)
  | none => throw (.fieldOutOfRange field s.start s.length bytes.length)

/-- Puts a number into a field. It loses its high bytes in a field that is too narrow, and gets
leading zeros in one that is wider. -/
def setField (v : Variable) (field : String) (n : UInt64) : Except Error Variable := do
  let s ← v.span field
  let bytes ← v.get
  if s.start + s.length ≤ bytes.length then
    let value := bytes.take s.start ++ Binary.bigEndianBytes s.length n.toNat
      ++ bytes.drop (s.start + s.length)
    return { v with value := some value }
  else throw (.fieldOutOfRange field s.start s.length bytes.length)

/-! ## Memory -/

def clientIn (v : Variable) (m : Memory) : Except Error Client :=
  match m.clientOf? v.client with
  | some c => .ok c
  | none => .error (.noClient v.name)

def read (v : Variable) (m : Memory) : Except Error Variable := do
  let c ← v.clientIn m
  v.set (← m.read c v.address (v.layout.bitSize / 8))

def write (v : Variable) (m : Memory) : Except Error Memory := do
  let c ← v.clientIn m
  m.write c v.address (← v.get)

/-! ## Members -/

/-- A member as a variable of its own, which starts with its part of the cached value. Its address
is a sum without a bound here. That the program gives up on one of more than 64 bits, or starts
again from zero, is left out. -/
def member (v : Variable) (field : String) : Except Error Variable := do
  let s ← v.span field
  return {
    name := field
    layout := ← v.layout.member field
    address := v.address + s.start
    value := v.value.bind (slice? · s)
    client := v.client }

/-! ## Text -/

def describeValue (value : Option String) : String := " = " ++ value.getD "<unread>"

def describe (v : Variable) : String :=
  s!"{v.name} ({v.layout.name}, {v.layout.bitSize} bits) at {Address.describe v.address}"
    ++ describeValue (v.value.map Hex.encode)

end Variable
end DwarfScope
