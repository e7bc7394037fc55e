import DwarfScope.Error

/-!
# Memory

The memory of the explored program is a file. A client gives access to it: it subtracts its offset
from every address to get a position in the file. At most one client is attached at a time.
-/

namespace DwarfScope

abbrev Contents := Array UInt8

namespace Contents

/-- The place of an address in a file, of which no position behind `last` can be reached. -/
def position (last address : Nat) (offset : Int64) : Except Error Nat :=
  match Address.position? address offset with
  | none => .error (.negativeAddress address offset)
  | some position => if position ≤ last then .ok position else .error (.file .positionTooLarge)

/-- The bytes at a position. The program makes room for `size` bytes before it reads, and ends if
there is not that much memory, which is left out. -/
def read (file : Contents) (position size : Nat) : Except Error (List UInt8) :=
  let bytes := (file.extract position (position + size)).toList
  if bytes.length = size then .ok bytes else .error (.shortRead size bytes.length)

/-- The file with bytes put at a position. A gap behind the end is filled with zeros, but no bytes
need no place. -/
def write (file : Contents) (position : Nat) (bytes : List UInt8) : Contents :=
  if bytes.isEmpty then file
  else
    let padded := file ++ Array.replicate (position - file.size) 0
    padded.extract 0 position ++ bytes.toArray
      ++ padded.extract (position + bytes.length) padded.size

end Contents

structure Client where
  id : Nat
  /-- What is subtracted from addresses. -/
  offset : Int64
  deriving Repr, DecidableEq

structure Memory where
  file : Option Contents := none
  /-- The last position that can be reached in the file, which depends on the system it is on. -/
  lastPosition : Fin Binary.signedLimit := Fin.last _
  client : Option Client := none
  issued : Nat := 0
  deriving Repr, DecidableEq

namespace Memory

def attach (m : Memory) : Except Error Memory :=
  match m.file with
  | none => .error (.file .notFound)
  | some _ => .ok { m with client := some ⟨m.issued, 0⟩, issued := m.issued + 1 }

def create (m : Memory) : Memory :=
  { m with file := some #[], client := some ⟨m.issued, 0⟩, issued := m.issued + 1 }

def detach (m : Memory) : Memory := { m with client := none }

def setOffset (m : Memory) (offset : Int64) : Memory :=
  { m with client := m.client.map fun c => { c with offset } }

def contents (m : Memory) : Contents := m.file.getD #[]

def clientOf? (m : Memory) (id : Option Nat) : Option Client := m.client.filter (some ·.id = id)

def read (m : Memory) (c : Client) (address size : Nat) : Except Error (List UInt8) := do
  m.contents.read (← Contents.position m.lastPosition address c.offset) size

def write (m : Memory) (c : Client) (address : Nat) (bytes : List UInt8) :
    Except Error Memory := do
  let position ← Contents.position m.lastPosition address c.offset
  return { m with file := some (m.contents.write position bytes) }

end Memory
end DwarfScope
