import DwarfScope.CommandLine.Arguments
import DwarfScope.Explorer
import DwarfScope.Text.Numeral

/-!
# The programs

The arguments of the prompt and of the server, and what is set up from them before the first
command.
-/

namespace DwarfScope.CommandLine

inductive Request (α : Type) where
  | run (options : α)
  | help
  | version

def helpSwitch : Switch := { long := "help", letter := some 'h', final := true }

def versionSwitch : Switch := { long := "version", letter := some 'V', final := true }

def verboseSwitch : Switch := { long := "verbose", letter := some 'v', repeatable := true }

def memoryFile : String := "memory-file"

/-- Reads arguments, unless help or the version is asked for. -/
def readRequest (switches : List Switch) (check : List Item → Except UsageFault α)
    (arguments : List String) : Except UsageFault (Request α) := do
  let items ← readItems (helpSwitch :: versionSwitch :: switches) none arguments
  checkRepeated items
  if hasFlag items helpSwitch.long then return .help
  if hasFlag items versionSwitch.long then return .version
  return .run (← check items)

def numberOf? (items : List Item) (name : String) (low high : Int) :
    Except UsageFault (Option Int) :=
  match valueOf? items name with
  | none => .ok none
  | some text => match Numeral.readSigned? low high text.toList with
    | some n => .ok (some n)
    | none => .error (.badValue name text)

/-! ## The prompt -/

structure PromptOptions where
  debugFile : Option String := none
  memoryFile : Option String := none
  pid : Option Int := none
  offsetRule : OffsetRule := .fixed 0

def promptSwitches : List Switch :=
  [{ long := memoryFile, letter := some 'm', takesValue := true },
    { long := "pid", letter := some 'p', takesValue := true },
    { long := "offset", letter := some 'o', takesValue := true, dashedValue := true },
    { long := "offset-from-unit" },
    { long := "offset-from-base" },
    verboseSwitch,
    { long := "quiet", letter := some 'q' }]

/-- Pairs of switches that exclude each other. -/
def promptConflicts : List (String × String) :=
  [(memoryFile, "pid"), ("offset", "offset-from-unit"), ("offset-from-base", "offset"),
    ("offset-from-base", "offset-from-unit"), ("quiet", "verbose")]

def isGiven (items : List Item) (name : String) : Bool := items.any fun
  | .positional _ => false
  | item => item.key = name

def checkConflicts (items : List Item) : List (String × String) → Except UsageFault Unit
  | [] => .ok ()
  | (a, b) :: rest =>
    if isGiven items a && isGiven items b then .error (.conflict a b)
    else checkConflicts items rest

def checkPrompt (items : List Item) : Except UsageFault PromptOptions := do
  let debugFile := items.findSome? Item.positional?
  if debugFile = some "" then throw (.emptyValue "debug file")
  let memoryFile ← pathOf? items memoryFile
  let pid ← numberOf? items "pid" (-0x80000000) 0x7fffffff
  let offset ← numberOf? items "offset" (-0x8000000000000000) 0x7fffffffffffffff
  checkConflicts items promptConflicts
  if isGiven items "offset-from-base" && pid.isNone then throw (.missing "offset-from-base" "pid")
  let offsetRule := match offset with
    | some offset => .fixed (Int64.ofInt offset)
    | none => if isGiven items "offset-from-unit" then .unitLowPc else .fixed 0
  return { debugFile, memoryFile, pid, offsetRule }

def PromptOptions.read (arguments : List String) : Except UsageFault (Request PromptOptions) :=
  readRequest promptSwitches checkPrompt arguments

/-! ## The server -/

inductive ServerTask where
  | exampleRequests
  | exampleAnswers
  | serve (memoryFile debugFile : Option String)

def serverSwitches : List Switch :=
  [{ long := "example-statuses" },
    { long := "example-feedbacks" },
    { long := "debug-file", takesValue := true },
    { long := memoryFile, takesValue := true },
    verboseSwitch]

def checkServer (items : List Item) : Except UsageFault ServerTask := do
  if let some text := items.findSome? Item.positional? then throw (.unknown text)
  let debugFile ← pathOf? items "debug-file"
  let memoryFile ← pathOf? items memoryFile
  if hasFlag items "example-statuses" then return .exampleRequests
  if hasFlag items "example-feedbacks" then return .exampleAnswers
  return .serve memoryFile debugFile

def ServerTask.read (arguments : List String) : Except UsageFault (Request ServerTask) :=
  readRequest serverSwitches checkServer arguments

/-! ## Starting -/

def openMemory (files : Files) : Option String → Except Error Memory
  | none => .ok {}
  | some path => match files.read path with
    | .error fault => .error (.file fault)
    | .ok data =>
      ({ file := some data.data, lastPosition := files.lastPosition : Memory }).attach

def openDebugFile (files : Files) (x : Explorer) : Option String → Except Error Explorer
  | none => .ok x
  | some path => x.openDebugFile files path

/-- The memory is opened before the debug file. The memory of running processes cannot be
reached from here. -/
def PromptOptions.start (files : Files) (o : PromptOptions) : Except Error Explorer := do
  let memory ← openMemory files o.memoryFile
  if let some pid := o.pid then throw (.noSuchProcess pid)
  openDebugFile files { offsetRule := o.offsetRule, memory } o.debugFile

def startServer (files : Files) (memoryFile debugFile : Option String) : Except Error Explorer := do
  openDebugFile files { memory := ← openMemory files memoryFile } debugFile

end DwarfScope.CommandLine
