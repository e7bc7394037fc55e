import DwarfScope.Layout.Basic
import DwarfScope.Stream.Lookup

/-!
# From entries to layouts

The debug info describes a type, an array of it, its constant form and a second name for it by
separate entries that refer to each other. The layout of an entry is found by following the
references to the entry that has a size:

* an entry without a type reference describes itself,
* an array gives one dimension for each of its subranges,
* below a qualifier two references are followed, and the entry passed on the way gives the name,
* a type definition is followed and its name is kept.

The members of an aggregate are resolved in turn.
-/

namespace DwarfScope.Stream

/-- The entry that an entry refers to as its type, or the entry itself if it has no type. The
cursor is left behind the answer. -/
def typeEntry (s : Stream) (e : Entry) : Walk Entry := do
  let target := e.typeRef?.getD e.offset
  match s.locate? target with
  | none => throw (.layout (.danglingReference target))
  | some position =>
    set ({ position } : Cursor)
    match ← s.next with
    | none => throw (.layout (.danglingReference target))
    | some t => if t.isNull then throw (.layout (.danglingReference target)) else return t

/-! ## Arrays -/

def rangesFrom (s : Stream) (array : Entry) : Nat → Walk (List Nat)
  | 0 => throw (.layout (.truncated array.label))
  | n + 1 => do
    match ← s.next with
    | none => throw (.layout (.truncated array.label))
    | some e =>
      if e.isNull then return []
      else if e.tag = .subrangeType then
        return e.elementCount?.getD 0 :: (← s.rangesFrom array n)
      else
        s.skipChildren
        s.rangesFrom array n

def arrayRanges (s : Stream) (array : Entry) : Walk (List Nat) := do
  let ranges ← if array.children then s.rangesFrom array (s.size + 1) else pure []
  return if ranges.isEmpty then [0] else ranges

/-! ## Layers -/

/-- What is known on the way from an entry to its type. -/
structure Layers where
  name : Option String
  /-- The dimensions met so far, none for what is no array. -/
  ranges : List Nat
  entry : Entry

/-- The first reference. An array is only looked through here, so that it gives no name. -/
def firstLayer (s : Stream) (e : Entry) : Walk Layers := do
  let own := if e.tag.isVariable then none else e.name?
  let first ← s.typeEntry e
  if first.tag = .arrayType then
    let ranges ← s.arrayRanges first
    let entry ← s.typeEntry first
    return { name := own <|> entry.name?, ranges, entry }
  else
    return { name := own <|> first.name?, ranges := [], entry := first }

def nextLayer (s : Stream) (l : Layers) : Walk (Option Layers) := do
  if l.entry.typeRef?.isNone then return none
  else if l.entry.tag.isQualifier then
    let beneath ← s.typeEntry l.entry
    let entry ← s.typeEntry beneath
    return some { l with name := beneath.name? <|> l.name, entry }
  else if l.entry.tag = .typedef then
    return some { l with entry := ← s.typeEntry l.entry }
  else if l.entry.tag = .arrayType then
    let ranges ← s.arrayRanges l.entry
    return some { l with ranges := l.ranges ++ ranges, entry := ← s.typeEntry l.entry }
  else return none

/-- Takes off all layers, of which there are at most `n`. -/
def unwrap (s : Stream) : Nat → Layers → Walk Layers
  | 0, _ => throwThe Failure .endless
  | n + 1, l => do
    match ← s.nextLayer l with
    | none => return l
    | some l => s.unwrap n l

/-! ## Sizes and offsets -/

def word? : Int → Option Nat
  | .ofNat n => if n < UInt64.size then some n else none
  | .negSucc _ => none

def typeBits (name : String) (e : Entry) : Except Error Nat :=
  match e.bitSize?, e.byteSize? with
  | some bits, _ => .ok bits
  | none, some bytes => match word? (8 * bytes) with
    | some bits => .ok bits
    | none => .error (.layout (.overflow name))
  | none, none => .error (.layout (.missingSize name))

/-- Where a member starts. A bit field that is placed from the most significant bit of its
storage unit is counted from the start of the aggregate, for little endian layouts. Every step
has to fit into 64 bits. -/
def structOffset? (e : Entry) (typeBits bitSize : Nat) : Option Nat :=
  match e.dataBitOffset? with
  | some bits => some bits
  | none => do
    let base ← word? (8 * e.memberLocation?.getD 0)
    match e.bitOffset? with
    | none => return base
    | some fromTop =>
      let storage ← match e.byteSize? with
        | some bytes => word? (8 * bytes)
        | none => some typeBits
      let stop ← word? (base + storage)
      let top ← word? (stop - fromTop)
      word? (top - bitSize)

def structOffset (name : String) (e : Entry) (typeBits bitSize : Nat) : Except Error Nat :=
  match structOffset? e typeBits bitSize with
  | some offset => .ok offset
  | none => .error (.layout (.overflow name))

/-! ## Layouts -/

/-- The layouts of the members at the cursor. To resolve a member moves the cursor away, so it is
put back behind the member. -/
def membersFrom (s : Stream) (name : String) (resolve : Entry → Walk Layout) :
    Nat → Walk (List Layout)
  | 0 => throwThe Failure .endless
  | n + 1 => do
    match ← s.next with
    | none => throw (.layout (.truncated name))
    | some e =>
      if e.isNull then return []
      else if e.tag = .member then
        let l ← resolve e
        s.seek e.offset
        let _ ← s.next
        s.skipChildren
        return l :: (← s.membersFrom name resolve n)
      else
        s.skipChildren
        s.membersFrom name resolve n

/-- The layout of an entry, if no chain of layers is longer than `limit`, no aggregate has more
children than `limit`, and aggregates are nested less than `depth` deep. -/
def resolveWithin (s : Stream) (limit : Nat) : Nat → Entry → Walk Layout
  | 0, _ => throwThe Failure .endless
  | depth + 1, e => do
    if e.isNull then throw (.layout (.notAType e.label e.tag))
    let l ← s.unwrap limit (← s.firstLayer e)
    unless l.entry.tag.isType do throw (.layout (.notAType e.label l.entry.tag))
    let name := (l.name <|> e.name?).getD ""
    let typeBits ← ofExcept (typeBits name l.entry)
    let bitSize := if e.tag = .member then e.bitSize?.getD typeBits else typeBits
    let structOffset ← ofExcept (structOffset name e typeBits bitSize)
    let members ←
      if l.entry.tag.isAggregate && l.entry.children then
        s.membersFrom name (s.resolveWithin limit depth) limit
      else pure []
    return {
      name, bitSize, structOffset, members
      arrayRanges := if l.ranges.isEmpty then [0] else l.ranges }

/-- The layout of a variable, a member or a type. The layout is named after the entry, or after
its type for a variable. A chain that passes more entries than there are never ends. Nor does a
list of members that is read from the start a second time, where a member without an offset of its
own leads back to. -/
def resolve (s : Stream) (e : Entry) : Walk Layout :=
  s.resolveWithin (2 * s.size + 2) (s.size + 2) e

end DwarfScope.Stream
