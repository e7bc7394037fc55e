import DwarfScope.Binary.Word

/-!
# ELF files

The header, the table of sections, and the contents of a section found by its name. Relocations
are checked but not applied. Compressed sections are inflated, in the two forms there are: flagged,
with a header in front of the contents, and with a name of their own. How to inflate is taken as
given.
-/

namespace DwarfScope.Elf

inductive Fault where
  | truncatedHeader
  | unsupportedHeader
  | badProgramHeaders
  | badSectionHeaders
  | badNameSection
  | badSymbolTable
  | badRelocations
  | sectionOutsideFile (name : String)
  | unknownCompression (name : String)
  | badCompression (name : String)
  deriving Repr, DecidableEq

def Fault.message : Fault → String
  | .truncatedHeader => "the file ends inside its header"
  | .unsupportedHeader => "the header is of an unsupported kind"
  | .badProgramHeaders => "the program headers cannot be read"
  | .badSectionHeaders => "the section headers cannot be read"
  | .badNameSection => "the section names cannot be found"
  | .badSymbolTable => "a symbol table cannot be read"
  | .badRelocations => "a relocation section applies to no usable section"
  | .sectionOutsideFile name => s!"section {name} lies outside of the file"
  | .unknownCompression name => s!"section {name} is compressed in an unknown way"
  | .badCompression name => s!"section {name} cannot be inflated"

inductive Width where
  | bits32
  | bits64
  deriving Repr, DecidableEq

namespace Width

def wordSize : Width → Nat
  | bits32 => 4
  | bits64 => 8

def headerSize : Width → Nat
  | bits32 => 52
  | bits64 => 64

def programHeaderSize : Width → Nat
  | bits32 => 32
  | bits64 => 56

def sectionHeaderSize : Width → Nat
  | bits32 => 40
  | bits64 => 64

end Width

structure Shape where
  width : Width
  order : ByteOrder
  deriving Repr, DecidableEq

structure Section where
  nameOffset : Nat
  kind : Nat
  flags : Nat
  offset : Nat
  size : Nat
  link : Nat
  info : Nat
  deriving Repr, DecidableEq

structure File where
  data : ByteArray
  shape : Shape
  sections : List Section
  names : Option (Nat × Nat)

/-! ## Kinds of sections -/

def symbolTable : Nat := 2
def stringTable : Nat := 3
def relocationsWithAddend : Nat := 4
def noBits : Nat := 8
def relocations : Nat := 9
def dynamicSymbols : Nat := 11
def extendedIndices : Nat := 18

def Section.isRelocation (s : Section) : Bool :=
  s.kind = relocationsWithAddend || s.kind = relocations

def compressedFlag : Nat := 0x800

def Section.isCompressed (s : Section) : Bool := s.flags &&& compressedFlag ≠ 0

/-- Where a section lies in the file, unless it takes up no room there. -/
def Section.range? (s : Section) : Option (Nat × Nat) :=
  if s.kind = noBits then none else some (s.offset, s.size)

def Section.isReadable (data : ByteArray) (s : Section) : Bool :=
  match s.range? with
  | none => true
  | some (offset, size) => offset + size ≤ data.size

/-! ## The header -/

/-- The identification in front of the header: four magic bytes, width, byte order, version. -/
def readShape (data : ByteArray) : Except Fault Shape :=
  match (data.extract 0 7).toList with
  | [0x7f, 0x45, 0x4c, 0x46, width, order, version] =>
    match width.toNat, order.toNat, version.toNat with
    | 1, 1, 1 => .ok ⟨.bits32, .little⟩
    | 1, 2, 1 => .ok ⟨.bits32, .big⟩
    | 2, 1, 1 => .ok ⟨.bits64, .little⟩
    | 2, 2, 1 => .ok ⟨.bits64, .big⟩
    | _, _, _ => .error .unsupportedHeader
  | _ => .error .unsupportedHeader

structure Header where
  programOffset : Nat
  sectionOffset : Nat
  programEntrySize : Nat
  programCount : Nat
  sectionEntrySize : Nat
  sectionCount : Nat
  nameIndex : Nat
  deriving Repr, DecidableEq

def readHeader (data : ByteArray) (shape : Shape) : Except Fault Header :=
  if data.size < shape.width.headerSize then .error .truncatedHeader
  else
    let word (start length : Nat) : Nat := (Binary.word? data shape.order start length).getD 0
    let w := shape.width.wordSize
    let counts := 30 + 3 * w
    .ok {
      programOffset := word (24 + w) w
      sectionOffset := word (24 + 2 * w) w
      programEntrySize := word counts 2
      programCount := word (counts + 2) 2
      sectionEntrySize := word (counts + 4) 2
      sectionCount := word (counts + 6) 2
      nameIndex := word (counts + 8) 2 }

/-! ## The table of sections -/

def readSection (data : ByteArray) (shape : Shape) (start : Nat) : Option Section :=
  if data.size < start + shape.width.sectionHeaderSize then none
  else
    let word (offset length : Nat) : Nat :=
      (Binary.word? data shape.order (start + offset) length).getD 0
    let w := shape.width.wordSize
    some {
      nameOffset := word 0 4
      kind := word 4 4
      flags := word 8 w
      offset := word (8 + 2 * w) w
      size := word (8 + 3 * w) w
      link := word (8 + 4 * w) 4
      info := word (12 + 4 * w) 4 }

/-- The first section holds the counts that do not fit into the header. -/
def firstSection? (data : ByteArray) (shape : Shape) (h : Header) : Except Fault (Option Section) :=
  if h.sectionOffset = 0 then .ok none
  else if h.sectionEntrySize ≠ shape.width.sectionHeaderSize then .error .badSectionHeaders
  else match readSection data shape h.sectionOffset with
    | none => .error .badSectionHeaders
    | some s => .ok (some s)

def checkProgramHeaders (data : ByteArray) (shape : Shape) (h : Header) : Except Fault Unit := do
  if h.programOffset = 0 then return
  let count ←
    if h.programCount < 0xffff then pure h.programCount
    else match ← firstSection? data shape h with
      | some s => pure s.info
      | none => throw .badProgramHeaders
  if count = 0 then return
  if h.programEntrySize ≠ shape.width.programHeaderSize then throw .badProgramHeaders
  if data.size < h.programOffset + count * shape.width.programHeaderSize then
    throw .badProgramHeaders

def readSections (data : ByteArray) (shape : Shape) (h : Header) : Except Fault (List Section) := do
  if h.sectionOffset = 0 then return []
  let count ←
    if h.sectionCount > 0 then pure h.sectionCount
    else match ← firstSection? data shape h with
      | some s => pure s.size
      | none => pure 0
  if count = 0 then return []
  if h.sectionEntrySize ≠ shape.width.sectionHeaderSize then throw .badSectionHeaders
  if data.size < h.sectionOffset + count * shape.width.sectionHeaderSize then
    throw .badSectionHeaders
  return (List.range count).filterMap fun i =>
    readSection data shape (h.sectionOffset + i * shape.width.sectionHeaderSize)

def readNames (data : ByteArray) (shape : Shape) (h : Header) (sections : List Section) :
    Except Fault (Option (Nat × Nat)) := do
  if sections.isEmpty then return none
  let index ←
    if h.nameIndex < 0xffff then pure h.nameIndex
    else match ← firstSection? data shape h with
      | some s => pure s.link
      | none => throw .badNameSection
  match sections[index]? with
  | none => throw .badNameSection
  | some s => match s.range? with
    | none => return none
    | some (offset, size) =>
      if offset + size < UInt64.size then return some (offset, offset + size)
      else throw .badNameSection

/-! ## Symbols and relocations -/

def findKind (sections : List Section) (kind : Nat) : Option (Nat × Section) :=
  (sections.findIdx? (·.kind = kind)).bind fun i => sections[i]?.map fun s => (i, s)

/-- A symbol table is read together with its names and its extended indices. -/
def checkSymbols (data : ByteArray) (sections : List Section) (kind : Nat) : Except Fault Unit :=
  match findKind sections kind with
  | none => .ok ()
  | some (index, s) =>
    let namesReadable : Bool :=
      s.link = 0 || match sections[s.link]? with
        | some names => names.kind = stringTable && names.offset + names.size < UInt64.size
        | none => false
    let indicesReadable : Bool := sections.all fun x =>
      !(x.kind = extendedIndices && x.link = index) || x.isReadable data
    if s.isReadable data && namesReadable && indicesReadable then .ok () else .error .badSymbolTable

/-- Relocations for the symbol table have to apply to a section that holds no relocations. -/
def checkRelocations (sections : List Section) : Except Fault Unit :=
  let symbols := ((findKind sections symbolTable).map Prod.fst).getD 0
  let usable (s : Section) : Bool :=
    !s.isRelocation || s.link ≠ symbols || s.info = 0 ||
      match sections[s.info]? with
      | some target => !target.isRelocation
      | none => false
  if sections.all usable then .ok () else .error .badRelocations

/-! ## Files -/

def read (data : ByteArray) : Except Fault File := do
  let shape ← readShape data
  let h ← readHeader data shape
  checkProgramHeaders data shape h
  let sections ← readSections data shape h
  let names ← readNames data shape h sections
  checkSymbols data sections symbolTable
  checkSymbols data sections dynamicSymbols
  checkRelocations sections
  return { data, shape, sections, names }

def File.name? (f : File) (s : Section) : Option (List UInt8) := do
  let (start, stop) ← f.names
  Binary.zeroTerminated? f.data (start + s.nameOffset) stop

/-! ## Contents of sections -/

inductive Compression where
  | zlib
  | zstd
  deriving Repr, DecidableEq

/-- Inflates data that is said to have a size, none if the data is malformed. -/
abbrev Inflate := Compression → Nat → ByteArray → Option ByteArray

/-- Where the contents of a section are kept in the file, and if they are compressed there, how and
from what size. -/
structure Extent where
  offset : Nat
  length : Nat
  compression : Option (Compression × Nat)
  deriving Repr, DecidableEq

def Compression.ofCode? : Nat → Option Compression
  | 1 => some .zlib
  | 2 => some .zstd
  | _ => none

/-- The extent behind the header of a section with the flag. The header has three words: the kind of
compression, the size, and an alignment. -/
def File.flaggedExtent? (f : File) (s : Section) : Option Extent := do
  let (offset, size) ← s.range?
  let w := f.shape.width.wordSize
  let header ← Binary.slice? f.data offset (3 * w)
  let compression ← Compression.ofCode? (← Binary.word? header f.shape.order 0 4)
  let inflated ← Binary.word? header f.shape.order w w
  if 3 * w ≤ size then
    some ⟨offset + 3 * w, size - 3 * w, some (compression, inflated)⟩
  else none

/-- The extent in a section with a name of its own, behind the letters `ZLIB` and the size, which
are big endian words in files of any byte order. -/
def File.namedExtent? (f : File) (s : Section) : Option Extent := do
  let (offset, size) ← s.range?
  let magic ← Binary.word? f.data .big offset 8
  let inflated ← Binary.word? f.data .big (offset + 8) 4
  if magic = 0x5a4c494200000000 ∧ 12 ≤ size then
    some ⟨offset + 12, size - 12, some (.zlib, inflated)⟩
  else none

def Section.extent (s : Section) : Extent :=
  match s.range? with
  | none => ⟨0, 0, none⟩
  | some (offset, length) => ⟨offset, length, none⟩

/-- The section of a name, and where its contents are. The name `.debug_info` for one stands for
`.zdebug_info` in a file without it. -/
def File.debugExtent? (f : File) (name : String) : Option (Option Extent) :=
  let named (start : String) : Option Section :=
    f.sections.find? (f.name? · = some (start.toUTF8.toList ++ name.toUTF8.toList))
  match named ".debug_" with
  | some s => some (if s.isCompressed then f.flaggedExtent? s else some s.extent)
  | none => (named ".zdebug_").map fun s =>
    if s.isCompressed then f.flaggedExtent? s else f.namedExtent? s

/-- The contents of a section for debugging, none if there is no such section. -/
def File.debugContents (f : File) (inflate : Inflate) (name : String) : Except Fault ByteArray :=
  match f.debugExtent? name with
  | none => .ok .empty
  | some none => .error (.unknownCompression name)
  | some (some extent) => match Binary.slice? f.data extent.offset extent.length with
    | none => .error (.sectionOutsideFile name)
    | some data => match extent.compression with
      | none => .ok data
      | some (compression, size) => match inflate compression size data with
        | none => .error (.badCompression name)
        | some contents =>
          if contents.size = size then .ok contents else .error (.badCompression name)

end DwarfScope.Elf
