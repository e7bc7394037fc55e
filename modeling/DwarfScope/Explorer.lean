import DwarfScope.Command.Basic
import DwarfScope.DebugFile
import DwarfScope.Feedback
import DwarfScope.Navigation

/-!
# The explorer

The entries of one program, the place reached in them, and the memory of the program. The explorer
carries out commands.
-/

namespace DwarfScope

inductive OffsetRule where
  | fixed (offset : Int64)
  /-- The address at which the code of the variable's compile unit starts. -/
  | unitLowPc
  deriving Repr, DecidableEq

/-- The offset for a variable of a compile unit. The address is taken as a signed word, and a unit
without an address has the offset zero. -/
def OffsetRule.offsetFor (r : OffsetRule) (unit : Option Entry) : Int64 :=
  match r with
  | fixed offset => offset
  | unitLowPc => match unit.bind Entry.lowPc? with
    | some pc => (UInt64.ofNat pc).toInt64
    | none => 0

structure Explorer where
  offsetRule : OffsetRule := .fixed 0
  debugFile : Option String := none
  nav : Option Navigation := none
  memory : Memory := {}
  deriving Inhabited

/-- The files that can be read. How compressed contents are inflated, and how far positions in a
file reach, is not up to the explorer either. -/
structure Files where
  read : String → Except FileFault ByteArray
  inflate : Elf.Inflate
  lastPosition : Fin Binary.signedLimit := Fin.last _

abbrev Explore := EStateM Failure Explorer

namespace Explorer

/-! ## Setting up -/

def setEntries (x : Explorer) (stream : Stream) : Explorer :=
  { x with nav := some { stream, client := x.memory.client.map Client.id } }

/-- Makes the attached client that of variables from now on. -/
def setMemory (x : Explorer) (memory : Memory) : Explorer :=
  { x with
    memory
    nav := x.nav.map fun n => { n with client := memory.client.map Client.id } }

def openDebugFile (x : Explorer) (files : Files) (path : String) : Except Error Explorer :=
  match files.read path with
  | .error fault => .error (.file fault)
  | .ok data => do
    let stream ← DebugFile.load files.inflate data
    return { x.setEntries stream with debugFile := some path }

/-! ## Parts of commands -/

def navigate (step : Navigate α) : Explore α := fun x =>
  match x.nav with
  | none => .error (.reported .noDebugFile) x
  | some n => match step n with
    | .ok a n => .ok a { x with nav := some n }
    | .error fault n => .error fault { x with nav := some n }

def walk (step : Stream → Walk α) : Explore α := navigate (Navigation.walk step)

def applyOffset (unit : Option Entry) : Explore Unit :=
  modify fun x => { x with memory := x.memory.setOffset (x.offsetRule.offsetFor unit) }

def variableNamed (name : String) : Explore Variable := do
  let (e, unit) ← walk (·.findEntry name)
  let v ← walk (Variable.ofEntry · e)
  applyOffset unit
  return { v with client := (← get).memory.client.map Client.id }

def currentVariable : Explore Variable := do
  let n ← navigate get
  applyOffset n.currentUnit?
  ofExcept n.currentVariable

def keepVariable (v : Variable) : Explore Unit := navigate (modify (·.setCurrentVariable v))

def writeVariable (v : Variable) : Explore Unit := do
  let memory ← ofExcept (v.write (← get).memory)
  modify fun x => { x with memory }

/-! ## Commands -/

def loadDebugFile (files : Files) (path : String) : Explore Feedback := do
  let x ← get
  set (← ofExcept (x.openDebugFile files path))
  return .ok

def listUnits : Explore Feedback := do return .list ((← walk Stream.compileUnits).map Entry.label)

def move (step : Navigate Unit) : Explore Feedback := do
  navigate step
  return .path (← navigate get).path

def describe : Explore Feedback := do
  match (← navigate get).current with
  | .allUnits => listUnits
  | .entry e => return .text e.describe
  | .subject (.variable v) => return .variable v.view
  | .subject (.type l) => return .type l

def typeOf (name : String) : Explore Feedback := do
  let (e, _) ← walk (·.findEntry name)
  return .type (← walk (·.resolve e))

def entryInfo (name : String) : Explore Feedback := do
  let (e, _) ← walk (·.findEntry name)
  return .text e.describe

def readVariable (name : Option String) : Explore Feedback := do
  match name with
  | some name =>
    let v ← variableNamed name
    return .variable (← ofExcept (v.read (← get).memory)).view
  | none =>
    let v ← currentVariable
    let v ← ofExcept (v.read (← get).memory)
    keepVariable v
    return .variable v.view

/-- The current variable keeps the value even if it cannot be written. -/
def setVariable (name : Option String) (value : List UInt8) : Explore Feedback := do
  match name with
  | some name =>
    let v ← ofExcept ((← variableNamed name).set value)
    writeVariable v
    return .variable v.view
  | none =>
    let v ← ofExcept ((← currentVariable).set value)
    keepVariable v
    writeVariable v
    return .variable v.view

def getField (field : String) : Explore Feedback := do
  let v ← ofExcept (← navigate get).currentVariable
  return .field (← ofExcept (v.getField field))

def setField (field : String) (value : UInt64) : Explore Feedback := do
  let v ← ofExcept ((← currentVariable).setField field value)
  keepVariable v
  writeVariable v
  return .variable v.view

def setOffset (offset : Int64) : Explore Feedback := do
  modify fun x => { x with offsetRule := .fixed offset }
  applyOffset none
  return .ok

def debugFilePath : Explore Feedback := do
  match (← get).debugFile with
  | some path => return .text path
  | none => throw .noDebugFile

/-- Carries out a command. To quit is left to whoever runs the explorer. -/
def execute (files : Files) : Command → Explore Feedback
  | .ping => return .text "pong"
  | .quit => return .ok
  | .loadDebugFile path => loadDebugFile files path
  | .debugFile => debugFilePath
  | .listUnits => listUnits
  | .listChildren => return .list (← navigate Navigation.listChildren)
  | .stepInto name => move (Navigation.stepInto name)
  | .back => move Navigation.back
  | .reset => move Navigation.reset
  | .path => return .path (← navigate get).path
  | .describe => describe
  | .currentType => return .type (← navigate Navigation.stepToType)
  | .typeOf name => typeOf name
  | .entryInfo name => entryInfo name
  | .readVariable name => readVariable name
  | .setVariable name value => setVariable name value
  | .getField field => getField field
  | .setField field value => setField field value
  | .setOffset offset => setOffset offset

/-- What a command answers and the explorer after it, none if the command never comes to an end. -/
def run (files : Files) (c : Command) (x : Explorer) : Option (Feedback × Explorer) :=
  match execute files c x with
  | .ok f x => some (f, x)
  | .error (.reported e) x => some (.error e, x)
  | .error .endless _ => none

end Explorer
end DwarfScope
