import DwarfScope.Error

/-!
# Layouts

The memory layout of a type, free of debug entries. Sizes and offsets are in bits.
-/

namespace DwarfScope

structure Layout where
  name : String
  /-- For an array, the size of one element. -/
  bitSize : Nat
  /-- Where the type starts in its aggregate. -/
  structOffset : Nat := 0
  /-- The element count of each dimension, and `[0]` for what is no array. -/
  arrayRanges : List Nat := [0]
  members : List Layout := []
  deriving Repr, Inhabited

namespace Layout

/-- Rounded up to whole bytes. -/
def byteSize (l : Layout) : Nat := (l.bitSize + 7) / 8

def isArray (l : Layout) : Bool := l.arrayRanges ≠ [0]

def member (l : Layout) (name : String) : Except Error Layout :=
  match l.members.find? (·.name = name) with
  | some m => .ok m
  | none => .error (.fieldNotFound name l.name)

def memberNames (l : Layout) : List String := l.members.map (·.name)

/-! ## Text -/

def headline (l : Layout) : String :=
  s!"{l.name}: {l.bitSize} bits at bit {l.structOffset}" ++
    if l.isArray then String.join (l.arrayRanges.map fun range => s!"[{range}]") else ""

mutual

def describeAt (depth : Nat) : Layout → String
  | ⟨name, bitSize, structOffset, arrayRanges, members⟩ =>
    String.ofList (List.replicate (2 * depth) ' ')
      ++ headline ⟨name, bitSize, structOffset, arrayRanges, []⟩ ++ "\n"
      ++ describeAll (depth + 1) members

def describeAll (depth : Nat) : List Layout → String
  | [] => ""
  | l :: rest => describeAt depth l ++ describeAll depth rest

end

def describe (l : Layout) : String := describeAt 0 l

end Layout
end DwarfScope
