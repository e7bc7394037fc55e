import DwarfScope.Address
import DwarfScope.Entry.Attribute
import DwarfScope.Entry.Tag

/-!
# Debug entries

One node of the debug info tree. The children of an entry follow it, and a null entry closes
their list.
-/

namespace DwarfScope

structure Entry where
  /-- The position in the debug info, by which other entries refer to this one. -/
  offset : Nat
  tag : Tag
  /-- A list of children follows. -/
  children : Bool
  attrs : List (Attr × AttrValue) := []
  /-- The offset of the unit the entry belongs to. -/
  unit : Nat := 0
  deriving Repr, DecidableEq, Inhabited

namespace Entry

def null : Entry := { offset := 0, tag := .null, children := false }

def isNull (e : Entry) : Bool := e.tag = .null

/-! ## Attributes -/

/-- Replaces the first value of an attribute in its place, or adds the attribute at the end. -/
def setIn (attr : Attr) (value : AttrValue) : List (Attr × AttrValue) → List (Attr × AttrValue)
  | [] => [(attr, value)]
  | (a, v) :: rest => if a = attr then (a, value) :: rest else (a, v) :: setIn attr value rest

def set (e : Entry) (attr : Attr) (value : AttrValue) : Entry :=
  { e with attrs := setIn attr value e.attrs }

def setAll (e : Entry) (attrs : List (Attr × AttrValue)) : Entry :=
  attrs.foldl (fun e (attr, value) => e.set attr value) e

def attr? (e : Entry) (attr : Attr) : Option AttrValue := e.attrs.lookup attr

def name? (e : Entry) : Option String := (e.attr? .name).bind AttrValue.text?

def label (e : Entry) : String :=
  e.name?.getD ("<anonymous " ++ e.tag.describe ++ " at " ++ Hex.number e.offset ++ ">")

def typeRef? (e : Entry) : Option Nat := (e.attr? .type).bind AttrValue.ref?

def byteSize? (e : Entry) : Option Nat := (e.attr? .byteSize).bind AttrValue.unsigned?

def bitSize? (e : Entry) : Option Nat := (e.attr? .bitSize).bind AttrValue.unsigned?

def memberLocation? (e : Entry) : Option Nat :=
  (e.attr? .dataMemberLocation).bind AttrValue.unsigned?

def dataBitOffset? (e : Entry) : Option Nat := (e.attr? .dataBitOffset).bind AttrValue.unsigned?

/-- How far a bit field starts below the most significant bit of its storage unit. -/
def bitOffset? (e : Entry) : Option Nat := (e.attr? .bitOffset).bind AttrValue.unsigned?

def signed64? (n : Int) : Option Int :=
  if -Binary.signedLimit ≤ n ∧ n < Binary.signedLimit then some n else none

/-- The number of elements in one dimension of an array: the count, or else what the bounds span.
An upper bound one below the lower one makes an empty dimension. -/
def elementCount? (e : Entry) : Option Nat :=
  match (e.attr? .count).bind AttrValue.unsigned? with
  | some n => some n
  | none => do
    let upper ← (e.attr? .upperBound).bind AttrValue.signed?
    let lower := ((e.attr? .lowerBound).bind AttrValue.signed?).getD 0
    let span ← signed64? (upper - lower)
    let count ← signed64? (span + 1)
    if 0 ≤ count then some count.toNat else none

def lowPc? (e : Entry) : Option Nat :=
  match e.attr? .lowPc with
  | some (.address a) => some a.toNat
  | some value => value.unsigned?
  | none => none

/-- The address in an expression that consists of the address operation and one to eight bytes. -/
def expressionAddress? : List UInt8 → Option Nat
  | 0x03 :: bytes =>
    if 1 ≤ bytes.length ∧ bytes.length ≤ 8 then some (Binary.value .little bytes) else none
  | _ => none

def location? (e : Entry) : Option Nat :=
  match e.attr? .location with
  | some (.address a) => some a.toNat
  | some (.expr bytes) => expressionAddress? bytes
  | _ => none

/-- Named variables and types are worth stepping into. -/
def isExplorable (e : Entry) : Bool := e.name?.isSome && (e.tag.isVariable || e.tag.isType)

/-! ## Text -/

def describeValue (e : Entry) (attr : Attr) (value : AttrValue) : String :=
  match attr, e.location? with
  | .location, some address => Address.describe address
  | _, _ => value.describe

def describe (e : Entry) : String :=
  "Tag: " ++ e.tag.describe ++ "\n"
    ++ "  Children: " ++ (if e.children then "true" else "false") ++ "\n"
    ++ "  Offset: " ++ Hex.number e.offset ++ "\n"
    ++ String.join (e.attrs.map fun (attr, value) =>
      "  " ++ attr.describe ++ ": " ++ e.describeValue attr value ++ "\n")

end Entry
end DwarfScope
