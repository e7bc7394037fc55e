import DwarfScope.Error

/-!
# Entry streams

Debug entries in the order in which they stand in the debug info: every entry before its children,
and a null entry after the last child. A cursor walks over the stream. Lookups share it, so each of
them says where it leaves the cursor, also when it fails.
-/

namespace DwarfScope

structure Stream where
  entries : Array Entry
  deriving Repr, DecidableEq, Inhabited

/-- A place between two entries. -/
structure Cursor where
  /-- How many entries stand before the cursor. -/
  position : Nat := 0
  /-- The index of the entry just passed, unless the cursor was put where it is. -/
  last : Option Nat := none
  deriving Repr, DecidableEq, Inhabited

abbrev Walk := EStateM Failure Cursor

namespace Stream

def size (s : Stream) : Nat := s.entries.size

def ahead (s : Stream) (c : Cursor) : Nat := s.size - c.position

/-! ## Moving the cursor -/

def next (s : Stream) : Walk (Option Entry) := fun c =>
  match s.entries[c.position]? with
  | none => .ok none { c with last := none }
  | some e => .ok (some e) { position := c.position + 1, last := some c.position }

def rewind : Walk Unit := fun _ => .ok () {}

/-- The index of the entry with an offset. Null entries have none, and of two entries with one
offset the later counts. -/
def indexOf? (s : Stream) (offset : Nat) : Option Nat :=
  (s.entries.size.fold (fun i h found =>
    let e := s.entries[i]
    if e.offset = offset ∧ !e.isNull then some i else found) none)

/-- The position in front of the entry with an offset. The offset zero is that of the start. -/
def locate? (s : Stream) (offset : Nat) : Option Nat :=
  if offset = 0 then some 0 else s.indexOf? offset

/-- Puts the cursor in front of the entry with an offset. If there is none, the cursor stays. -/
def seek (s : Stream) (offset : Nat) : Walk Unit := fun c =>
  match s.locate? offset with
  | none => .error (.reported (.noSuchOffset offset)) c
  | some position => .ok () { position }

/-- The position behind the null entry that closes the list of children open at `position`, or
the end of the stream. Of the lists inside of it `depth` are open, and `n` entries are ahead. -/
def closing (s : Stream) (depth : Nat) : Nat → Nat → Nat
  | 0, position => position
  | n + 1, position =>
    match s.entries[position]? with
    | none => position
    | some e =>
      if e.isNull then
        match depth with
        | 0 => position + 1
        | depth + 1 => s.closing depth n (position + 1)
      else s.closing (if e.children then depth + 1 else depth) n (position + 1)

def skipChildren (s : Stream) : Walk Unit := fun c =>
  match c.last.bind (s.entries[·]?) with
  | some e =>
    if e.children then .ok () { position := s.closing 0 (s.ahead c) c.position }
    else .ok () { c with last := none }
  | none => .ok () { c with last := none }

def rest (s : Stream) : Walk (List Entry) := fun c =>
  .ok (s.entries.toList.drop c.position) { position := max c.position s.size }

end Stream
end DwarfScope
