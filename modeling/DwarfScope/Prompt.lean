import DwarfScope.Command.Line
import DwarfScope.Explorer

/-!
# The prompt

Commands are typed as lines. The prompt shows the path that was answered last, and prints every
other answer.
-/

namespace DwarfScope

structure Prompt where
  explorer : Explorer
  path : String := "/"

namespace Prompt

/-- What becomes of the prompt after a line. -/
inductive Next where
  | goOn
  | quit
  /-- The line is a command that never ends. -/
  | endless
  deriving Repr, DecidableEq

structure Reply where
  /-- What is printed, each followed by a line end. -/
  printed : List String
  prompt : Prompt
  next : Next := .goOn

def errorText (message : String) : String := "ERROR " ++ message

/-- An error is printed once, except that a missing debug file is reported where it is missed as
well. -/
def errorTexts : Error → List String
  | .noDebugFile => [errorText Error.noDebugFile.message, errorText Error.noDebugFile.message]
  | e => [errorText e.message]

def present (p : Prompt) : Feedback → Reply
  | .ok => { printed := [], prompt := p }
  | .path levels => { printed := [], prompt := { p with path := describePath levels } }
  | .error e => { printed := errorTexts e, prompt := p }
  | f => { printed := [f.describe], prompt := p }

def enter (files : Files) (p : Prompt) (line : String) : Reply :=
  match Words.split line with
  | none =>
    { printed := [errorText "could not split the input, check the quotes"], prompt := p }
  | some [] => { printed := [], prompt := p }
  | some words => match Command.ofWords words with
    | .error e => { printed := [errorText e.message], prompt := p }
    | .ok .help => { printed := [Command.helpText], prompt := p }
    | .ok (.command .quit) => { printed := [], prompt := p, next := .quit }
    | .ok (.command c) => match p.explorer.run files c with
      | none => { printed := [], prompt := p, next := .endless }
      | some (feedback, x) => present { p with explorer := x } feedback

structure Transcript where
  printed : List String
  paths : List String
  prompt : Prompt
  /-- What was to come after the last line. -/
  next : Next

def session (files : Files) (p : Prompt) : List String → Transcript
  | [] => ⟨[], [], p, .goOn⟩
  | line :: rest =>
    let r := enter files p line
    match r.next with
    | .goOn =>
      let t := session files r.prompt rest
      { t with printed := r.printed ++ t.printed, paths := p.path :: t.paths }
    | next => ⟨r.printed, [p.path], r.prompt, next⟩

end Prompt
end DwarfScope
