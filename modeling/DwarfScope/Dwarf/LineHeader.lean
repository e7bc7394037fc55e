import DwarfScope.Dwarf.Form

/-!
# Headers of line programs

A unit that has a line program is only loaded if the header of that program is well formed.
-/

namespace DwarfScope.Dwarf

/-- One column of a table of directories or files: what it holds, and in which form. -/
structure Column where
  content : Nat
  form : Nat
  deriving Repr, DecidableEq

def pathContent : Nat := 1

def readColumn : Read Column := do
  let content ← Read.unsigned
  let form ← Read.unsigned16
  return { content, form }

/-- The columns of a table, of which exactly one holds paths. -/
def readColumns : Read (Array Column) := do
  let count ← Read.byte
  let columns ← (List.replicate count ()).toArray.mapM fun _ => readColumn
  if (columns.toList.countP (·.content = pathContent)) = 1 then return columns
  else throw .missingPath

def tableForms : List Nat :=
  [0x03, 0x04, 0x05, 0x06, 0x07, 0x08, 0x09, 0x0a, 0x0b, 0x0c, 0x0d, 0x0e, 0x0f, 0x17, 0x1a, 0x1d,
    0x1e, 0x1f, 0x25, 0x26, 0x27, 0x28, 0x1f02, 0x1f21]

def skipCell (enc : Encoding) (column : Column) : Read Unit := do
  if tableForms.contains column.form then
    let _ ← readDirect enc { attr := 0, form := column.form, constant := none } column.form
  else throw (.unknownForm column.form)

def skipRows (enc : Encoding) (columns : Array Column) (n : Nat) : Read Unit :=
  Read.times n (columns.forM (skipCell enc))

def skipTable (enc : Encoding) : Read Unit := do
  let columns ← readColumns
  skipRows enc columns (← Read.unsigned)

/-- A path with `numbers` numbers after it, or nothing at an empty path. -/
def readPath (numbers : Nat) : Read (Option Unit) := do
  let path ← Read.zeroTerminated
  if path.isEmpty then return none
  Read.times numbers do
    let _ ← Read.unsigned
  return some ()

def skipPaths (numbers : Nat) : Read Unit := do
  let _ ← Read.many (readPath numbers)

def checkLineFields (enc : Encoding) : Read Unit := do
  if (← Read.byte) = 0 then throw (.zeroField "instruction length")
  if 4 ≤ enc.version then
    if (← Read.byte) = 0 then throw (.zeroField "operation count")
  Read.skip 2
  if (← Read.byte) = 0 then throw (.zeroField "line range")
  let opcodes ← Read.byte
  if opcodes = 0 then throw (.zeroField "opcode base")
  Read.skip (opcodes - 1)
  if enc.version ≤ 4 then
    skipPaths 0
    skipPaths 3
  else
    skipTable enc
    skipTable enc

/-- The header from the current position on. Its addresses have the size of those of the unit,
unless it says otherwise. -/
def checkLineHeader (addressSize : Nat) : Read Unit := do
  let (length, format) ← Read.initialLength
  let program ← Read.split length
  Read.within program do
    let version ← Read.word 2
    if version < 2 ∨ 5 < version then throw (.unknownVersion version)
    let addressSize ←
      if version = 5 then
        let size ← Read.addressSize
        if (← Read.byte) ≠ 0 then throw .segmentedAddresses
        pure size
      else pure addressSize
    let header ← Read.split (← Read.offset format)
    Read.within header (checkLineFields { format, version, addressSize })

end DwarfScope.Dwarf
