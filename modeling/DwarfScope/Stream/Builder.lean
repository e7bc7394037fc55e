import DwarfScope.Stream.Basic

/-!
# Building streams

A stream is put together entry by entry. Offsets are given out in order, and whatever list is
still open at the end is closed.
-/

namespace DwarfScope.Stream

structure Builder where
  entries : Array Entry := #[]
  depth : Nat := 0
  /-- The first offset leaves room for the header of a unit. -/
  nextOffset : Nat := 0xb
  unit : Nat := 0
  deriving Repr, DecidableEq

namespace Builder

def push (b : Builder) (tag : Tag) (children : Bool) (attrs : List (Attr × AttrValue)) : Builder :=
  let unit := if tag = .compileUnit then b.nextOffset else b.unit
  let e : Entry := { offset := b.nextOffset, tag, children, unit }
  { b with entries := b.entries.push (e.setAll attrs), nextOffset := b.nextOffset + 1, unit }

def begin (b : Builder) (tag : Tag) (attrs : List (Attr × AttrValue)) : Builder :=
  { b.push tag true attrs with depth := b.depth + 1 }

def leaf (b : Builder) (tag : Tag) (attrs : List (Attr × AttrValue)) : Builder :=
  b.push tag false attrs

def close (b : Builder) : Builder :=
  match b.depth with
  | 0 => b
  | depth + 1 => { b with entries := b.entries.push .null, depth }

/-- The stream, with a null entry for every list that is still open. -/
def build (b : Builder) : Stream := ⟨b.entries ++ Array.replicate b.depth .null⟩

end Builder
end DwarfScope.Stream
