import DwarfScope.Stream.Basic

/-!
# Lookups

Searches by name and by tag. They start at the cursor and leave it where the search ended.
-/

namespace DwarfScope.Stream

def indexOfName? (s : Stream) (name : String) : Nat → Nat → Option Nat
  | 0, _ => none
  | n + 1, position =>
    match s.entries[position]? with
    | none => none
    | some e => if e.name? = some name then some position else s.indexOfName? name n (position + 1)

def findAhead (s : Stream) (name : String) : Walk (Option Entry) := fun c =>
  match s.indexOfName? name (s.ahead c) c.position with
  | some i => .ok s.entries[i]? { position := i + 1, last := some i }
  | none => .ok none { position := max c.position s.size }

/-- The compile unit an entry belongs to. The cursor is left behind the entry, except that it
stays where it is for an entry that is a compile unit itself. -/
def enclosingUnit (s : Stream) (e : Entry) : Walk (Option Entry) := do
  if e.tag = .compileUnit then return some e
  s.seek e.unit
  let unit ← s.next
  s.seek e.offset
  let _ ← s.next
  return unit.filter (·.tag = .compileUnit)

def findEntry (s : Stream) (name : String) : Walk (Entry × Option Entry) := do
  let e ← match ← s.findAhead name with
    | some e => pure e
    | none =>
      rewind
      match ← s.findAhead name with
      | some e => pure e
      | none => throw (.notFound name)
  return (e, ← s.enclosingUnit e)

/-- The compile units among the next `n` entries. What lies inside of a unit is passed over. -/
def unitsFrom (s : Stream) : Nat → Walk (List Entry)
  | 0 => return []
  | n + 1 => do
    match ← s.next with
    | none => return []
    | some e =>
      if e.tag = .compileUnit then
        s.skipChildren
        return e :: (← s.unitsFrom n)
      else s.unitsFrom n

def compileUnits (s : Stream) : Walk (List Entry) := do
  rewind
  s.unitsFrom (s.size + 1)

/-- The children at the cursor that satisfy `p`, up to the end of their list. The stream has to
hold that end. -/
def childrenFrom (s : Stream) (label : String) (p : Entry → Bool) : Nat → Walk (List Entry)
  | 0 => throw (.layout (.truncated label))
  | n + 1 => do
    match ← s.next with
    | none => throw (.layout (.truncated label))
    | some e =>
      if e.isNull then return []
      s.skipChildren
      let others ← s.childrenFrom label p n
      return if p e then e :: others else others

def children (s : Stream) (parent : Entry) (p : Entry → Bool) : Walk (List Entry) := do
  s.seek parent.offset
  let _ ← s.next
  if parent.children then s.childrenFrom parent.label p (s.size + 1) else return []

end DwarfScope.Stream
