/-!
# Arguments

A switch has a long name and perhaps a letter. Letters may be combined behind one dash, the value
of a switch may be attached or be the next argument, and everything behind two dashes is
positional.
-/

namespace DwarfScope.CommandLine

structure Switch where
  long : String
  letter : Option Char := none
  takesValue : Bool := false
  /-- The switch may be given more than once. -/
  repeatable : Bool := false
  /-- The next argument is the value even if it starts with a dash. -/
  dashedValue : Bool := false
  /-- The arguments behind the switch are not looked at. -/
  final : Bool := false
  deriving Repr, DecidableEq

inductive Item where
  | flag (switch : Switch)
  | value (switch : Switch) (text : String)
  | positional (text : String)
  deriving Repr, DecidableEq

inductive UsageFault where
  | unknown (argument : String)
  | missingValue (switch : String)
  | unwantedValue (switch : String)
  | emptyValue (name : String)
  | badValue (switch text : String)
  | repeated (name : String)
  | conflict (first second : String)
  | missing (switch needed : String)
  deriving Repr, DecidableEq

def UsageFault.message : UsageFault → String
  | .unknown argument => s!"unexpected argument '{argument}'"
  | .missingValue name => s!"a value is required for '--{name}'"
  | .unwantedValue name => s!"'--{name}' takes no value"
  | .emptyValue name => s!"the value of '{name}' is empty"
  | .badValue name text => s!"invalid value '{text}' for '--{name}'"
  | .repeated name => s!"'{name}' cannot be used multiple times"
  | .conflict first second => s!"'--{first}' cannot be used with '--{second}'"
  | .missing name needed => s!"'--{name}' needs '--{needed}'"

inductive Dashed where
  | complete (items : List Item)
  /-- The value of the last switch is the next argument. -/
  | awaiting (items : List Item) (switch : Switch)
  deriving Repr, DecidableEq

/-- Letters behind one dash. What follows the letter of a switch with a value is the value. -/
def readLetters (switches : List Switch) (items : List Item) : List Char → Except UsageFault Dashed
  | [] => .ok (.complete items)
  | c :: rest => match switches.find? (·.letter = some c) with
    | none => .error (.unknown ("-" ++ c.toString))
    | some switch =>
      if switch.takesValue then
        match rest with
        | [] => .ok (.awaiting items switch)
        | '=' :: text => .ok (.complete (items ++ [.value switch (String.ofList text)]))
        | text => .ok (.complete (items ++ [.value switch (String.ofList text)]))
      else if switch.final then .ok (.complete (items ++ [.flag switch]))
      else readLetters switches (items ++ [.flag switch]) rest

def readLong (switches : List Switch) (text : List Char) : Except UsageFault Dashed :=
  let name := String.ofList (text.takeWhile (· ≠ '='))
  let attached := match text.dropWhile (· ≠ '=') with
    | [] => none
    | _ :: value => some (String.ofList value)
  match switches.find? (·.long = name), attached with
  | none, _ => .error (.unknown ("--" ++ name))
  | some switch, some value =>
    if switch.takesValue then .ok (.complete [.value switch value])
    else .error (.unwantedValue name)
  | some switch, none =>
    if switch.takesValue then .ok (.awaiting [] switch) else .ok (.complete [.flag switch])

def endsArguments (items : List Item) : Bool := items.any fun
  | .flag switch => switch.final
  | _ => false

/-- Understands arguments from the left. A lone dash is an ordinary argument. -/
def readItems (switches : List Switch) : Option Switch → List String → Except UsageFault (List Item)
  | none, [] => .ok []
  | some switch, [] => .error (.missingValue switch.long)
  | awaiting, argument :: rest =>
    match awaiting, argument.toList with
    | some switch, '-' :: c :: text =>
      if switch.dashedValue then
        (readItems switches none rest).map (.value switch (String.ofList ('-' :: c :: text)) :: ·)
      else .error (.missingValue switch.long)
    | some switch, _ => (readItems switches none rest).map (.value switch argument :: ·)
    | none, ['-', '-'] => .ok (rest.map .positional)
    | none, '-' :: '-' :: text => do
      match ← readLong switches text with
      | .complete items =>
        if endsArguments items then return items
        else return items ++ (← readItems switches none rest)
      | .awaiting items switch => return items ++ (← readItems switches (some switch) rest)
    | none, '-' :: c :: text => do
      match ← readLetters switches [] (c :: text) with
      | .complete items =>
        if endsArguments items then return items
        else return items ++ (← readItems switches none rest)
      | .awaiting items switch => return items ++ (← readItems switches (some switch) rest)
    | none, _ => (readItems switches none rest).map (.positional argument :: ·)

/-! ## What was given -/

namespace Item

def isFlag (name : String) : Item → Bool
  | flag switch => switch.long = name
  | _ => false

def value? (name : String) : Item → Option String
  | value switch text => if switch.long = name then some text else none
  | _ => none

def positional? : Item → Option String
  | positional text => some text
  | _ => none

/-- A name under which an item may be repeated only if it says so. -/
def key : Item → String
  | flag switch => switch.long
  | value switch _ => switch.long
  | positional _ => ""

def isRepeatable : Item → Bool
  | flag switch => switch.repeatable
  | value switch _ => switch.repeatable
  | positional _ => false

end Item

/-- Nothing is given twice that may be given only once. -/
def checkRepeated : List Item → Except UsageFault Unit
  | [] => .ok ()
  | item :: rest =>
    if !item.isRepeatable && rest.any (·.key = item.key) then .error (.repeated item.key)
    else checkRepeated rest

def hasFlag (items : List Item) (name : String) : Bool := items.any (·.isFlag name)

def valueOf? (items : List Item) (name : String) : Option String := items.findSome? (·.value? name)

def pathOf? (items : List Item) (name : String) : Except UsageFault (Option String) :=
  match valueOf? items name with
  | some "" => .error (.emptyValue name)
  | path => .ok path

end DwarfScope.CommandLine
