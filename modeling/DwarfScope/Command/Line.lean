import DwarfScope.Command.Basic
import DwarfScope.Error
import DwarfScope.Text.Words

/-!
# Commands as typed

The words of a command line.
-/

namespace DwarfScope.Command

inductive Line where
  | help
  | command (c : Command)
  deriving Repr, DecidableEq

def helpLines : List String :=
  ["ls                       list what can be stepped into",
    "cd <name> | .. | /       step into a child, back up one level or to the top",
    "pwd                      show the current path",
    "show                     describe the current level",
    "units                    list all compile units",
    "type [name]              type of the current variable or of a named entry",
    "info <name>              raw debug entry",
    "read [name]              read the current or a named variable from memory",
    "set [name] <hex bytes>   set the raw value of a variable and write it",
    "field <name> [value]     get or set a field of the current variable",
    "offset <offset>          subtract this from addresses before accessing memory",
    "file [path]              load or show the debug file",
    "ping                     check if anyone is home",
    "help                     show this text",
    "quit                     leave"]

def helpText : String := "\n".intercalate helpLines

/-! ## Numbers and bytes -/

def afterHexMark? : List Char → Option (List Char)
  | '0' :: 'x' :: rest => some rest
  | _ => none

def readWord (word : List Char) : Except Error Nat :=
  let number := match afterHexMark? word with
    | some digits => Numeral.readUnsigned 16 digits
    | none => Numeral.readUnsigned 10 word
  match number with
  | .ok n => .ok n
  | .error fault => .error (.badInput (.notANumber (String.ofList word) fault))

/-- A number of 63 bits with an optional minus sign in front. -/
def readOffset (word : List Char) : Except Error Int64 := do
  let (negative, magnitude) := match word with
    | '-' :: rest => (true, rest)
    | word => (false, word)
  let n ← readWord magnitude
  if n < Binary.signedLimit then return Int64.ofInt (if negative then -(n : Int) else n)
  else throw (.badInput (.outOfRange (String.ofList word)))

def readBytes (word : List Char) : Except Error (List UInt8) :=
  match Hex.decodeChars ((afterHexMark? word).getD word) with
  | .ok bytes => .ok bytes
  | .error fault => .error (.hex fault)

/-! ## Lines -/

def ofWords (words : List String) : Except Error Line :=
  match words with
  | ["help"] | ["h"] | ["?"] => .ok .help
  | ["quit"] | ["q"] | ["exit"] => .ok (.command quit)
  | ["ping"] => .ok (.command ping)
  | ["ls"] => .ok (.command listChildren)
  | ["cd", ".."] | ["up"] => .ok (.command back)
  | ["cd", "/"] | ["cd"] => .ok (.command reset)
  | ["cd", name] => .ok (.command (stepInto name))
  | ["pwd"] => .ok (.command path)
  | ["show"] => .ok (.command describe)
  | ["units"] | ["cus"] => .ok (.command listUnits)
  | ["type"] => .ok (.command currentType)
  | ["type", name] => .ok (.command (typeOf name))
  | ["info", name] => .ok (.command (entryInfo name))
  | ["read"] => .ok (.command (readVariable none))
  | ["read", name] => .ok (.command (readVariable (some name)))
  | ["set", value] => do return .command (setVariable none (← readBytes value.toList))
  | ["set", name, value] => do return .command (setVariable (some name) (← readBytes value.toList))
  | ["field", name] => .ok (.command (getField name))
  | ["field", name, value] => do
    return .command (setField name (UInt64.ofNat (← readWord value.toList)))
  | ["offset", offset] => do return .command (setOffset (← readOffset offset.toList))
  | ["file"] => .ok (.command debugFile)
  | ["file", file] => .ok (.command (loadDebugFile file))
  | words => .error (.badInput (.unknownCommand words))

end DwarfScope.Command
