import DwarfScope.Object.Elf

/-!
# Object formats

The format of a file is told by its first bytes. Files of the formats that are not read here are
told apart from files that are no object files at all.
-/

namespace DwarfScope.Object

inductive Format where
  | elf
  | machO
  | coff
  deriving Repr, DecidableEq

def Format.name : Format → String
  | .elf => "Elf"
  | .machO => "MachO"
  | .coff => "Coff"

inductive Fault where
  | tooShort
  | unknownMagic
  | malformed (format : Format)
  | elf (fault : Elf.Fault)
  deriving Repr, DecidableEq

def Fault.message : Fault → String
  | .tooShort => "the file is too short"
  | .unknownMagic => "the first bytes belong to no known format"
  | .malformed format => s!"the {format.name} file is malformed"
  | .elf fault => fault.message

inductive Kind where
  | elf
  | machO (width : Elf.Width) (order : ByteOrder)
  | coff
  deriving Repr, DecidableEq

/-- The machines whose code marks a COFF file. -/
def coffMachines : List Nat := [0x01c4, 0xaa64, 0xa641, 0x014c, 0x8664]

def detect (data : ByteArray) : Except Fault Kind :=
  if data.size < 16 then .error .tooShort
  else match (Binary.word? data .big 0 4).getD 0 with
    | 0x7f454c46 =>
      if data[4]? = some 1 ∨ data[4]? = some 2 then .ok .elf else .error .unknownMagic
    | 0xfeedface => .ok (.machO .bits32 .big)
    | 0xcefaedfe => .ok (.machO .bits32 .little)
    | 0xfeedfacf => .ok (.machO .bits64 .big)
    | 0xcffaedfe => .ok (.machO .bits64 .little)
    | _ =>
      if coffMachines.contains ((Binary.word? data .little 0 2).getD 0) then .ok .coff
      else .error .unknownMagic

/-! ## Mach-O -/

/-- The load commands from `start` on are well formed. The table ends at `stop` or at the first
command that does not fit into it. -/
def loadCommandsOk (data : ByteArray) (width : Elf.Width) (order : ByteOrder) (stop : Nat) :
    Nat → Nat → Bool
  | 0, _ => true
  | count + 1, start =>
    let word (offset : Nat) : Nat := (Binary.word? data order (start + offset) 4).getD 0
    let size := word 4
    if stop < start + 8 ∨ size < 8 ∨ stop < start + size then true
    else
      let (segment, segmentSize, sectionSize, countAt) := match width with
        | .bits32 => (0x1, 56, 68, 48)
        | .bits64 => (0x19, 72, 80, 64)
      let ok :=
        if word 0 = segment then
          segmentSize ≤ size && segmentSize + word countAt * sectionSize ≤ size
        else if word 0 = 0x2 then
          let symbolSize := match width with
            | .bits32 => 12
            | .bits64 => 16
          24 ≤ size && word 8 + word 12 * symbolSize ≤ data.size
        else true
      ok && loadCommandsOk data width order stop count (start + size)

def machOOk (data : ByteArray) (width : Elf.Width) (order : ByteOrder) : Bool :=
  let header := match width with
    | .bits32 => 28
    | .bits64 => 32
  let word (offset : Nat) : Nat := (Binary.word? data order offset 4).getD 0
  let stop := header + word 20
  header ≤ data.size && (data.size < stop || loadCommandsOk data width order stop (word 16) header)

/-! ## COFF -/

def coffOk (data : ByteArray) : Bool :=
  let word (offset length : Nat) : Nat := (Binary.word? data .little offset length).getD 0
  let symbols := word 8 4
  let strings := symbols + word 12 4 * 18
  20 ≤ data.size &&
    20 + word 16 2 + word 2 2 * 40 ≤ data.size &&
    (symbols = 0 || strings + 4 ≤ data.size)

/-! ## Any file -/

/-- An ELF file, or the other format that a well formed file has. -/
def read (data : ByteArray) : Except Fault (Elf.File ⊕ Format) := do
  match ← detect data with
  | .elf => match Elf.read data with
    | .ok file => return .inl file
    | .error fault => throw (.elf fault)
  | .machO width order =>
    if machOOk data width order then return .inr .machO else throw (.malformed .machO)
  | .coff => if coffOk data then return .inr .coff else throw (.malformed .coff)

end DwarfScope.Object
