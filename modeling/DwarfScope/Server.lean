import DwarfScope.Command.Json
import DwarfScope.Explorer
import DwarfScope.Text.Blank

/-!
# The server

Requests and answers are lines of JSON. The server greets with an answer of its own, and then
answers every line that is not blank, until it is told to quit or the input ends. A command that
never ends is not answered, and no line behind it is looked at.
-/

namespace DwarfScope.Server

abbrev Line := List UInt8

/-- The lines of an input. A line end at the end of the input opens no further line. -/
def lines (input : List UInt8) : List Line :=
  let add (b : UInt8) : List Line → List Line
    | [] => [[b]]
    | line :: rest => if b = 10 then [b] :: line :: rest else (b :: line) :: rest
  input.foldr add []

inductive Request where
  | blank
  | command (c : Command)
  | malformed (fault : Json.Fault)
  | notText
  deriving Repr, DecidableEq

def Request.ofLine (line : Line) : Request :=
  match String.fromUTF8? ⟨line.toArray⟩ with
  | none => notText
  | some text =>
    if Blank.isBlankLine text then blank
    else match Command.ofRequest text with
      | .ok c => command c
      | .error fault => malformed fault

def refusal (fault : Json.Fault) : String := (Feedback.error (.json fault)).answer

structure Awaited where
  answers : List String
  command : Except Error Command
  /-- The lines that were not looked at. -/
  rest : List Line

/-- Waits for the next command. The end of the input counts as the command to quit. -/
def await : List Line → Awaited
  | [] => ⟨[], .ok .quit, []⟩
  | line :: rest => match Request.ofLine line with
    | .blank => await rest
    | .command c => ⟨[], .ok c, rest⟩
    | .notText => ⟨[], .error (.file .notText), rest⟩
    | .malformed fault =>
      let awaited := await rest
      { awaited with answers := refusal fault :: awaited.answers }

def process (feedback : Feedback) (input : List Line) : Awaited :=
  let awaited := await input
  { awaited with answers := feedback.answer :: awaited.answers }

theorem await_rest_lt {input : List Line} {c : Command} (h : (await input).command = .ok c)
    (hc : c ≠ .quit) : (await input).rest.length < input.length := by
  induction input with
  | nil => exact absurd (Except.ok.inj h).symm hc
  | cons line rest ih =>
    cases hline : Request.ofLine line with
    | blank =>
      simp only [await, hline] at h ⊢
      exact Nat.lt_succ_of_lt (ih h)
    | command d =>
      simp only [await, hline]
      exact Nat.lt_succ_self _
    | malformed fault =>
      simp only [await, hline] at h ⊢
      exact Nat.lt_succ_of_lt (ih h)
    | notText =>
      simp only [await, hline] at h
      cases h

/-! ## Sessions -/

inductive Ending where
  | quit
  | failed (e : Error)
  /-- A command was taken up that never ends. -/
  | endless
  deriving Repr, DecidableEq

structure Transcript where
  answers : List String
  explorer : Explorer
  ended : Ending

/-- Carries out commands until one says to quit. A command is answered when the next one is waited
for. -/
def serve (files : Files) (feedback : Feedback) (x : Explorer) (input : List Line) : Transcript :=
  let awaited := process feedback input
  match h : awaited.command with
  | .error e => ⟨awaited.answers, x, .failed e⟩
  | .ok c =>
    if hc : c = .quit then ⟨awaited.answers, x, .quit⟩
    else
      have := await_rest_lt h hc
      match x.run files c with
      | none => ⟨awaited.answers, x, .endless⟩
      | some (feedback, x) =>
        let t := serve files feedback x awaited.rest
        { t with answers := awaited.answers ++ t.answers }
termination_by input.length

def session (files : Files) (x : Explorer) (input : List UInt8) : Transcript :=
  serve files .ok x (lines input)

/-! ## Sessions line by line

Where answers have to be seen as soon as they are known, the greeting goes out first and each line
is answered before the next one is read.
-/

structure Reply where
  answer : Option String
  explorer : Explorer
  /-- Set when the session ends, to how it ends. -/
  ended : Option Ending

def reply (files : Files) (x : Explorer) (line : Line) : Reply :=
  match Request.ofLine line with
  | .blank => ⟨none, x, none⟩
  | .notText => ⟨none, x, some (.failed (.file .notText))⟩
  | .malformed fault => ⟨some (refusal fault), x, none⟩
  | .command .quit => ⟨none, x, some .quit⟩
  | .command c => match x.run files c with
    | none => ⟨none, x, some .endless⟩
    | some (feedback, x) => ⟨some feedback.answer, x, none⟩

def greeting : String := Feedback.ok.answer

def answerAll (files : Files) (x : Explorer) : List Line → Transcript
  | [] => ⟨[], x, .quit⟩
  | line :: rest =>
    let r := reply files x line
    match r.ended with
    | some ended => ⟨r.answer.toList, r.explorer, ended⟩
    | none =>
      let t := answerAll files r.explorer rest
      { t with answers := r.answer.toList ++ t.answers }

end DwarfScope.Server
