import DwarfScope.Binary.Word
import DwarfScope.Text.Hex

/-!
# Attributes

What is kept of a debug entry: the attributes that names, layouts and locations are read from.
-/

namespace DwarfScope

inductive Attr where
  | name
  | byteSize
  | bitSize
  | dataMemberLocation
  | dataBitOffset
  | bitOffset
  | type
  | count
  | lowerBound
  | upperBound
  | location
  | lowPc
  | compDir
  deriving Repr, DecidableEq

namespace Attr

def all : List Attr :=
  [name, byteSize, bitSize, dataMemberLocation, dataBitOffset, bitOffset, type, count, lowerBound,
    upperBound, location, lowPc, compDir]

def code : Attr → Nat
  | name => 0x03
  | byteSize => 0x0b
  | bitSize => 0x0d
  | dataMemberLocation => 0x38
  | dataBitOffset => 0x6b
  | bitOffset => 0x0c
  | type => 0x49
  | count => 0x37
  | lowerBound => 0x22
  | upperBound => 0x2f
  | location => 0x02
  | lowPc => 0x11
  | compDir => 0x1b

def ofCode? (code : Nat) : Option Attr := all.find? (·.code = code)

def describe : Attr → String
  | name => "DW_AT_name"
  | byteSize => "DW_AT_byte_size"
  | bitSize => "DW_AT_bit_size"
  | dataMemberLocation => "DW_AT_data_member_location"
  | dataBitOffset => "DW_AT_data_bit_offset"
  | bitOffset => "DW_AT_bit_offset"
  | type => "DW_AT_type"
  | count => "DW_AT_count"
  | lowerBound => "DW_AT_lower_bound"
  | upperBound => "DW_AT_upper_bound"
  | location => "DW_AT_location"
  | lowPc => "DW_AT_low_pc"
  | compDir => "DW_AT_comp_dir"

end Attr

inductive AttrValue where
  | udata (n : UInt64)
  | sdata (n : Int64)
  | text (s : String)
  | ref (target : Nat)
  | address (a : UInt64)
  | flag (b : Bool)
  /-- A location expression that is more than a constant. -/
  | expr (bytes : List UInt8)
  deriving Repr, DecidableEq

namespace AttrValue

def unsigned? : AttrValue → Option Nat
  | udata n => some n.toNat
  | sdata n => if 0 ≤ n.toInt then some n.toInt.toNat else none
  | _ => none

def signed? : AttrValue → Option Int
  | sdata n => some n.toInt
  | udata n => if n.toNat < Binary.signedLimit then some n.toNat else none
  | _ => none

def text? : AttrValue → Option String
  | text s => some s
  | _ => none

def ref? : AttrValue → Option Nat
  | ref target => some target
  | _ => none

def describe : AttrValue → String
  | udata n => toString n.toNat
  | sdata n => toString n.toInt
  | text s => s
  | ref target => "<" ++ Hex.number target ++ ">"
  | address a => Hex.number a.toNat
  | flag b => if b then "true" else "false"
  | expr bytes => "expr " ++ Hex.encode bytes

end AttrValue
end DwarfScope
