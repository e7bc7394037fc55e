import DwarfScope.Dwarf.Unit
import DwarfScope.Entry.Basic
import DwarfScope.Text.Utf8

/-!
# Loading entries

Raw entries become debug entries: the attributes that are kept get values that no longer depend on
their unit or on other sections.
-/

namespace DwarfScope.Dwarf

/-! ## Tables of other sections -/

def textAt (data : ByteArray) (start : Nat) : Except Fault (List UInt8) :=
  match Binary.zeroTerminated? data start data.size with
  | some text => .ok text
  | none => .error .endOfData

def tableWord (s : Sections) (data : ByteArray) (base index size : Nat) : Except Fault Nat :=
  match Binary.word? data s.order (base + index * size) size with
  | some n => .ok n
  | none => .error .endOfData

def addressAt (s : Sections) (u : RawUnit) (index : Nat) : Except Fault Nat :=
  tableWord s s.addr u.bases.addr index u.header.encoding.addressSize

/-! ## Values -/

def textValue (s : Sections) (u : RawUnit) : FormValue → Except Fault (List UInt8)
  | .text bytes => .ok bytes
  | .textAt n => textAt s.str n
  | .lineTextAt n => textAt s.lineStr n
  | .textIndex i => do
    let n ← tableWord s s.strOffsets u.bases.strOffsets i u.header.encoding.format.wordSize
    textAt s.str n
  | _ => .error .notText

/-- The attributes that hold a size or a place, for which a signed number that is not negative
counts as unsigned. -/
def isMeasure : Attr → Bool
  | .byteSize | .bitSize | .bitOffset | .dataMemberLocation => true
  | _ => false

/-- A constant. Values of other kinds are not kept. -/
def constantValue (attr : Attr) : FormValue → Option AttrValue
  | .unsigned n => some (.udata (UInt64.ofNat n))
  | .signed n =>
    if isMeasure attr ∧ 0 ≤ n then some (.udata (UInt64.ofNat n.toNat))
    else some (.sdata (Int64.ofInt n))
  | .flag b => some (.flag b)
  | _ => none

/-- The value of an expression. A lone address or constant is kept as such, everything else as
bytes. -/
def expressionValue (s : Sections) (u : RawUnit) (bytes : Input) : Except Fault AttrValue :=
  match readOnlyOperation? u.header.encoding bytes with
  | .error fault _ => .error fault
  | .ok (some (.address a)) _ => .ok (.address (UInt64.ofNat a))
  | .ok (some (.addressIndex i)) _ => do return .address (UInt64.ofNat (← addressAt s u i))
  | .ok (some (.plusConstant n)) _ => .ok (.udata (UInt64.ofNat n))
  | .ok _ _ => .ok (.expr bytes.bytes)

def attrValue (s : Sections) (u : RawUnit) (attr : Attr) (value : FormValue) :
    Except Fault (Option AttrValue) :=
  match attr, value with
  | .name, value | .compDir, value => do
    return some (.text (Utf8.decodeLossy (← textValue s u value)))
  | .type, .unitReference n => .ok (some (.ref (u.header.start + n)))
  | .type, .sectionReference n => .ok (some (.ref n))
  | .type, _ => .ok none
  | .lowPc, .address a => .ok (some (.address (UInt64.ofNat a)))
  | .lowPc, .addressIndex i => do return some (.address (UInt64.ofNat (← addressAt s u i)))
  | .lowPc, _ => .ok none
  | .location, .block bytes | .location, .expression bytes
  | .dataMemberLocation, .block bytes | .dataMemberLocation, .expression bytes =>
    some <$> expressionValue s u bytes
  | attr, value => .ok (constantValue attr value)

/-! ## Entries -/

def addAttr (s : Sections) (u : RawUnit) (e : Entry) (raw : Nat × FormValue) : Except Fault Entry :=
  match Attr.ofCode? raw.1 with
  | none => .ok e
  | some attr => do
    match ← attrValue s u attr raw.2 with
    | none => return e
    | some value => return e.set attr value

def loadEntry (s : Sections) (u : RawUnit) (unit : Nat) : Option RawEntry → Except Fault Entry
  | none => .ok .null
  | some raw =>
    let tag := Tag.ofCode raw.tag
    let e : Entry := { offset := raw.offset, tag, children := raw.children, unit }
    raw.attrs.foldlM (addAttr s u) e

/-- A unit is known by the offset of its first entry that is no null entry. -/
def RawUnit.offset (u : RawUnit) : Nat := (u.root?.map RawEntry.offset).getD 0

def loadUnit (s : Sections) (u : RawUnit) : Except Fault (Array Entry) :=
  u.entries.mapM (loadEntry s u u.offset)

def loadEntries (s : Sections) : Except Fault (Array Entry) :=
  match readUnits s (.ofSection s.order s.info) with
  | .error fault _ => .error fault
  | .ok units _ => do return (← units.mapM (loadUnit s)).flatten

end DwarfScope.Dwarf
