import DwarfScope.CommandLine.Examples
import DwarfScope.CommandLine.Programs
import DwarfScope.Prompt
import DwarfScope.Server

/-!
# The command line

The prompt, or the server if the first argument is `serve`.
-/

namespace DwarfScope.Main

open CommandLine

def fileFault : IO.Error → FileFault
  | .noFileOrDirectory .. => .notFound
  | .inappropriateType .. => .notAFile
  | e => .system e.toString

/-- The files of paths. Compressed sections in them cannot be inflated here. -/
def fetch (paths : List String) : IO Files := do
  let found ← paths.mapM fun (path : String) => do
    match ← (IO.FS.readBinFile path).toBaseIO with
    | .ok data => return (path, Except.ok data)
    | .error e => return (path, Except.error (fileFault e))
  return {
    read := fun path => (found.lookup path).getD (.error .notFound)
    inflate := fun _ _ _ => none }

def filesOf : Command → List String
  | .loadDebugFile path => [path]
  | _ => []

/-- Writes the memory back if it has changed. -/
def keepMemory (path : Option String) (before after : Memory) : IO Unit := do
  match path, after.file with
  | some path, some contents =>
    if before.file ≠ some contents then IO.FS.writeBinFile path ⟨contents⟩
  | _, _ => return

def fail (message : String) (code : UInt32) : IO UInt32 := do
  IO.eprintln s!"error: {message}"
  return code

/-- A resolution that never ends stops the program when its stack is full. -/
def overflow : IO UInt32 := fail "the stack is full" 134

/-! ## The prompt -/

partial def promptLoop (memoryPath : Option String) (p : Prompt) : IO UInt32 := do
  let out ← IO.getStdout
  out.putStr s!"{p.path} > "
  out.flush
  let line ← (← IO.getStdin).getLine
  if line.isEmpty then return 0
  let line := (line.dropEndWhile (· = '\n')).toString
  let paths := match (Words.split line).map Command.ofWords with
    | some (.ok (.command c)) => filesOf c
    | _ => []
  let r := p.enter (← fetch paths) line
  for text in r.printed do IO.println text
  keepMemory memoryPath p.explorer.memory r.prompt.explorer.memory
  match r.next with
  | .goOn => promptLoop memoryPath r.prompt
  | .quit => return 0
  | .endless => overflow

def prompt (arguments : List String) : IO UInt32 := do
  match PromptOptions.read arguments with
  | .error fault => fail fault.message 2
  | .ok .help => IO.println Command.helpText; return 0
  | .ok .version => IO.println "dwarfscope 0.2.0"; return 0
  | .ok (.run o) =>
    match o.start (← fetch (o.memoryFile.toList ++ o.debugFile.toList)) with
    | .error e => fail e.message 1
    | .ok explorer => promptLoop o.memoryFile { explorer }

/-! ## The server -/

def readLine (input : IO.FS.Stream) : IO (List UInt8) := do
  return (← input.getLine).toUTF8.toList

partial def serveLoop (memoryPath : Option String) (x : Explorer) : IO UInt32 := do
  let out ← IO.getStdout
  let line ← readLine (← IO.getStdin)
  if line.isEmpty then return 0
  let paths := match Server.Request.ofLine line with
    | .command c => filesOf c
    | _ => []
  let r := Server.reply (← fetch paths) x line
  for answer in r.answer do
    out.putStrLn answer
    out.flush
  keepMemory memoryPath x.memory r.explorer.memory
  match r.ended with
  | none => serveLoop memoryPath r.explorer
  | some .quit => return 0
  | some (.failed e) => fail e.message 1
  | some .endless => overflow

def serve (arguments : List String) : IO UInt32 := do
  match ServerTask.read arguments with
  | .error fault => fail fault.message 2
  | .ok .help => return 0
  | .ok .version => IO.println "dwarfscope 0.2.0"; return 0
  | .ok (.run .exampleRequests) => exampleRequests.forM IO.println; return 0
  | .ok (.run .exampleAnswers) => exampleAnswers.forM IO.println; return 0
  | .ok (.run (.serve memoryFile debugFile)) =>
    match startServer (← fetch (memoryFile.toList ++ debugFile.toList)) memoryFile debugFile with
    | .error e => fail e.message 1
    | .ok x =>
      IO.println Server.greeting
      serveLoop memoryFile x

end DwarfScope.Main

def main : List String → IO UInt32
  | "serve" :: arguments => DwarfScope.Main.serve arguments
  | arguments => DwarfScope.Main.prompt arguments
