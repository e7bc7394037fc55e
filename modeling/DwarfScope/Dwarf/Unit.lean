import DwarfScope.Dwarf.Expression
import DwarfScope.Dwarf.LineHeader
import DwarfScope.Object.Format

/-!
# Units

A unit is a header and the entries of one source file.
-/

namespace DwarfScope.Dwarf

structure Sections where
  order : ByteOrder
  info : ByteArray
  abbreviations : ByteArray
  addr : ByteArray
  line : ByteArray
  lineStr : ByteArray
  str : ByteArray
  strOffsets : ByteArray

namespace Sections

/-- Sections that are not needed for the entries have to be readable as well. -/
def otherNames : List String := ["aranges", "types", "loc", "loclists", "ranges", "rnglists"]

def ofElf (inflate : Elf.Inflate) (file : Elf.File) : Except Elf.Fault Sections := do
  let contents := file.debugContents inflate
  for name in otherNames do
    let _ ← contents name
  return {
    order := file.shape.order
    info := ← contents "info"
    abbreviations := ← contents "abbrev"
    addr := ← contents "addr"
    line := ← contents "line"
    lineStr := ← contents "line_str"
    str := ← contents "str"
    strOffsets := ← contents "str_offsets" }

end Sections

structure UnitHeader where
  start : Nat
  encoding : Encoding
  abbreviations : Nat
  deriving Repr, DecidableEq

def skipKindFields (format : Format) : Nat → Read Unit
  | 0x01 | 0x03 => return
  | 0x02 | 0x06 => Read.skip (8 + format.wordSize)
  | 0x04 | 0x05 => Read.skip 8
  | code => throw (.unknownUnitKind code)

/-- The header after its length. Version 5 has the kind of the unit in it, and the fields in
another order. -/
def readUnitHeader (start : Nat) (format : Format) : Read UnitHeader := do
  let version ← Read.word 2
  if 2 ≤ version ∧ version ≤ 4 then
    let abbreviations ← Read.offset format
    let addressSize ← Read.addressSize
    return { start, encoding := { format, version, addressSize }, abbreviations }
  else if version = 5 then
    let kind ← Read.byte
    let addressSize ← Read.addressSize
    let abbreviations ← Read.offset format
    skipKindFields format kind
    return { start, encoding := { format, version, addressSize }, abbreviations }
  else throw (.unknownVersion version)

/-! ## Raw entries -/

structure RawEntry where
  offset : Nat
  tag : UInt16
  children : Bool
  attrs : List (Nat × FormValue)

/-- The entry at the current position. The code zero stands for a null entry. -/
def readEntry (enc : Encoding) (table : Abbreviations) : Read (Option RawEntry) := do
  let offset := (← get).pos
  let code ← Read.unsigned
  if code = 0 then return none
  match table.find code with
  | .error fault => throw fault
  | .ok a =>
    let attrs ← a.attrs.mapM fun d => do return (d.attr, ← readValue enc d)
    return some { offset, tag := a.tag, children := a.children, attrs }

def readEntries (enc : Encoding) (table : Abbreviations) : Read (Array (Option RawEntry)) :=
  Read.many do
    if (← get).isEmpty then return none else some <$> readEntry enc table

/-- What the root of a unit says about the tables that the whole unit uses. -/
structure Bases where
  strOffsets : Nat
  addr : Nat
  line : Option Nat
  deriving Repr, DecidableEq

def sectionOffset? (root : RawEntry) (codes : List Nat) : Option Nat :=
  root.attrs.foldl
    (fun found (code, value) => match value with
      | .sectionOffset n => if codes.contains code then some n else found
      | _ => found) none

def Bases.ofRoot (root : RawEntry) : Bases :=
  { strOffsets := (sectionOffset? root [0x72]).getD 0
    addr := (sectionOffset? root [0x73, 0x2133]).getD 0
    line := sectionOffset? root [0x10] }

structure RawUnit where
  header : UnitHeader
  bases : Bases
  entries : Array (Option RawEntry)

/-- The root of a unit. Null entries in front of it are passed over. -/
def findRoot? (entries : Array (Option RawEntry)) : Option RawEntry := entries.findSome? id

def RawUnit.root? (u : RawUnit) : Option RawEntry := findRoot? u.entries

def readUnit (s : Sections) : Read RawUnit := do
  let start := (← get).pos
  let (length, format) ← Read.initialLength
  let body ← Read.split length
  Read.within body do
    let header ← readUnitHeader start format
    let table ←
      Read.within (.ofSection s.order s.abbreviations) (readAbbreviations header.abbreviations)
    let entries ← readEntries header.encoding table
    match findRoot? entries with
    | none => throw .missingRoot
    | some root =>
      let bases := Bases.ofRoot root
      if let some line := bases.line then
        Read.within (.ofSection s.order s.line) do
          Read.skip line
          checkLineHeader header.encoding.addressSize
      return { header, bases, entries }

def readUnits (s : Sections) : Read (Array RawUnit) :=
  Read.many do
    if (← get).isEmpty then return none else some <$> readUnit s

end DwarfScope.Dwarf
