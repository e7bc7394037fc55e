import DwarfScope.Dwarf.Input
import DwarfScope.Entry.Basic
import DwarfScope.Json.Reader
import DwarfScope.Object.Format
import DwarfScope.Text.Numeral

/-!
# Errors

Everything that can go wrong, by its cause, and the message for each cause.
-/

namespace DwarfScope

inductive LayoutError where
  | missingSize (name : String)
  /-- The entries end inside a list of children. -/
  | truncated (name : String)
  /-- The references end at an entry that is no type. -/
  | notAType (name : String) (tag : Tag)
  | danglingReference (target : Nat)
  | overflow (name : String)
  deriving Repr, DecidableEq

def LayoutError.message : LayoutError → String
  | .missingSize name => s!"Could not get bit size of {name}"
  | .truncated name => s!"Debug entries ended in the middle of aggregate {name}"
  | .notAType name tag => s!"{name} is a {tag.describe}, which does not describe a type"
  | .danglingReference target =>
    s!"Type reference to offset {Hex.number target} does not point to an entry"
  | .overflow name => s!"Size or offset of {name} does not fit in 64 bits"

inductive FileFault where
  | notFound
  | notAFile
  | positionTooLarge
  | notText
  | system (reason : String)
  deriving Repr, DecidableEq

def FileFault.message : FileFault → String
  | .notFound => "no such file"
  | .notAFile => "not a regular file"
  | .positionTooLarge => "the position is too large"
  | .notText => "the text is not UTF-8"
  | .system reason => reason

inductive InputFault where
  | notANumber (word : String) (fault : Numeral.Fault)
  | outOfRange (word : String)
  | unknownCommand (words : List String)
  deriving Repr, DecidableEq

def InputFault.message : InputFault → String
  | .notANumber word fault => s!"{word} is not a number: {fault.message}"
  | .outOfRange word => s!"{word} is out of range"
  | .unknownCommand words => "unknown command '" ++ " ".intercalate words ++ "', try 'help'"

inductive Error where
  | notFound (name : String)
  | fieldNotFound (field owner : String)
  /-- The cached value ends before the field does. -/
  | fieldOutOfRange (field : String) (start length available : Nat)
  | notByteAligned (field : String) (bitOffset : Nat)
  | notByteSized (field : String) (bits : Nat)
  | fieldTooWide (field : String) (bits : Nat)
  | sizeMismatch (valueBits typeBits : Nat)
  | uninitialized (name : String)
  | noClient (name : String)
  | shortRead (expected got : Nat)
  | negativeAddress (address : Nat) (offset : Int64)
  | noLocation (name : String)
  | noDebugFile
  | noSuchOffset (offset : Nat)
  | unsupportedFormat (found : Object.Format)
  | layout (fault : LayoutError)
  | file (fault : FileFault)
  | dwarf (fault : Dwarf.Fault)
  | object (fault : Object.Fault)
  | noSuchProcess (pid : Int)
  | json (fault : Json.Fault)
  | hex (fault : Hex.Fault)
  | badInput (fault : InputFault)
  | notASubject (name : String)
  deriving Repr, DecidableEq

def Error.message : Error → String
  | .notFound name => s!"Could not find entry {name}"
  | .fieldNotFound field owner => s!"Could not find field {field} in {owner}"
  | .fieldOutOfRange field start length available =>
    s!"Cached value is {available} bytes, too short for field {field} at bytes "
      ++ s!"{start}..{start + length}"
  | .notByteAligned field bitOffset =>
    s!"Field {field} starts at bit {bitOffset}, which is not byte aligned"
  | .notByteSized field bits =>
    s!"Field {field} is {bits} bits wide, which is not a whole number of bytes"
  | .fieldTooWide field bits =>
    s!"Field {field} is {bits} bits wide, wider than the 64 bits a field value can hold"
  | .sizeMismatch valueBits typeBits =>
    s!"Attempted to set a value of {valueBits} bits, larger than the type with {typeBits} bits"
  | .uninitialized name => s!"Variable {name} has no value yet, read or set it first"
  | .noClient name => s!"Cannot access memory for {name}: no memory client is set"
  | .shortRead expected got =>
    s!"Read the incorrect number of bytes, expected {expected} but got {got}"
  | .negativeAddress address offset =>
    "Address " ++ Address.describe address ++ " translated by offset "
      ++ Address.describeOffset offset ++ " is not a valid address"
  | .noLocation name => s!"Variable {name} has no static location"
  | .noDebugFile => "No debug file was loaded"
  | .noSuchOffset offset => s!"No debug entry at offset {Hex.number offset}"
  | .unsupportedFormat found =>
    s!"Unsupported object format: found {found.name}, this host reads {Object.Format.elf.name}"
  | .layout fault => s!"Could not resolve type: {fault.message}"
  | .file fault => s!"Io error: {fault.message}"
  | .dwarf fault => s!"Error while reading DWARF debug info: {fault.message}"
  | .object fault => s!"Error while parsing the object file: {fault.message}"
  | .noSuchProcess pid => s!"Os error: there is no process {pid}"
  | .json fault => s!"Error while working with json: {fault.message}"
  | .hex fault => s!"Could not parse hex bytes: {fault.message}"
  | .badInput fault => s!"Could not parse input: {fault.message}"
  | .notASubject name => s!"{name} is not a variable or type"

/-! ## Failures -/

/-- Why a computation gives no result. An error is reported to whoever asked. A computation without
an end reports nothing, and nobody who waits for it goes on. -/
inductive Failure where
  | reported (e : Error)
  | endless
  deriving Repr, DecidableEq

instance : Coe Error Failure := ⟨.reported⟩

/-- To throw an error is to report it. -/
instance : MonadExceptOf Error (EStateM Failure σ) where
  throw e := throwThe Failure (.reported e)
  tryCatch m handle := tryCatchThe Failure m fun
    | .reported e => handle e
    | .endless => throwThe Failure .endless

end DwarfScope
