import DwarfScope.Dwarf.Load
import DwarfScope.Stream.Basic

/-!
# Debug files

From the bytes of an object file to the stream of its debug entries.
-/

namespace DwarfScope.DebugFile

/-- Only ELF files are read. -/
def load (inflate : Elf.Inflate) (data : ByteArray) : Except Error Stream := do
  match Object.read data with
  | .error fault => throw (.object fault)
  | .ok (.inr format) => throw (.unsupportedFormat format)
  | .ok (.inl file) =>
    match Dwarf.Sections.ofElf inflate file with
    | .error fault => throw (.object (.elf fault))
    | .ok sections =>
      match Dwarf.loadEntries sections with
      | .error fault => throw (.dwarf fault)
      | .ok entries => return ⟨entries⟩

end DwarfScope.DebugFile
