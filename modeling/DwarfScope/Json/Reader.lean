import DwarfScope.Json.Basic

/-!
# Reading JSON text

The grammar is strict: no comments, no trailing commas, no leading zeros, no raw control
characters in strings, and nothing but blanks around the value. Half of a surrogate pair is passed
over, and the string it stands in is no text.
-/

namespace DwarfScope.Json

inductive Fault where
  | endOfText
  | unexpected (c : Char)
  | badEscape (c : Char)
  | controlCharacter (c : Char)
  /-- The value is well formed, but another kind of value was due. -/
  | wrongKind (due : String)
  | outOfRange (n : Int)
  | wrongLength (due : Nat)
  | missingField (name : String)
  | repeatedField (name : String)
  | unknownName (name : String)
  deriving Repr, DecidableEq

def Fault.message : Fault → String
  | .endOfText => "the text ends inside a value"
  | .unexpected c => s!"unexpected character {c}"
  | .badEscape c => s!"invalid escape {c}"
  | .controlCharacter c => s!"unescaped control character {Hex.number c.toNat}"
  | .wrongKind due => s!"expected {due}"
  | .outOfRange n => s!"{n} is out of range"
  | .wrongLength due => s!"expected a list of {due}"
  | .missingField name => s!"missing field {name}"
  | .repeatedField name => s!"repeated field {name}"
  | .unknownName name => s!"unknown name {name}"

/-! A reader answers what it read and the text after it. -/

def isBlank (c : Char) : Bool := c = ' ' || c = '\n' || c = '\t' || c = '\r'

def skipBlanks (text : List Char) : List Char := text.dropWhile isBlank

def expect (c : Char) : List Char → Except Fault (List Char)
  | [] => .error .endOfText
  | d :: rest => if d = c then .ok rest else .error (.unexpected d)

def expectAll : List Char → List Char → Except Fault (List Char)
  | [], text => .ok text
  | c :: cs, text => do expectAll cs (← expect c text)

/-! ## Numbers -/

def isDigit (c : Char) : Bool := '0' ≤ c && c ≤ '9'

def digitsValue (digits : List Char) : Nat := digits.foldl (fun n c => 10 * n + (c.toNat - 48)) 0

def readDigits (text : List Char) : Except Fault (List Char × List Char) :=
  match text.takeWhile isDigit, text.dropWhile isDigit with
  | [], [] => .error .endOfText
  | [], c :: _ => .error (.unexpected c)
  | digits, rest => .ok (digits, rest)

/-- The digits before the point. A zero in front stands alone. -/
def readWhole : List Char → Except Fault (List Char × List Char)
  | '0' :: rest => .ok (['0'], rest)
  | text => readDigits text

def readFraction : List Char → Except Fault (List Char × List Char)
  | '.' :: rest => readDigits rest
  | text => .ok ([], text)

def readExponent : List Char → Except Fault (Option Int × List Char)
  | c :: rest =>
    if c = 'e' ∨ c = 'E' then do
      let (negative, rest) := match rest with
        | '-' :: rest => (true, rest)
        | '+' :: rest => (false, rest)
        | rest => (false, rest)
      let (digits, rest) ← readDigits rest
      let n : Int := digitsValue digits
      return (some (if negative then -n else n), rest)
    else .ok (none, c :: rest)
  | [] => .ok (none, [])

/-- A minus sign in front of a lone zero makes a number that is no integer. -/
def numberValue (negative : Bool) (whole fraction : List Char) (exponent : Option Int) : Json :=
  let n : Int := digitsValue (whole ++ fraction)
  let signed := if negative then -n else n
  if fraction.isEmpty ∧ exponent.isNone ∧ ¬(negative ∧ n = 0) then int signed
  else decimal signed (exponent.getD 0 - fraction.length)

def readMagnitude (negative : Bool) (text : List Char) : Except Fault (Json × List Char) := do
  let (whole, text) ← readWhole text
  let (fraction, text) ← readFraction text
  let (exponent, text) ← readExponent text
  return (numberValue negative whole fraction exponent, text)

def readNumber : List Char → Except Fault (Json × List Char)
  | '-' :: rest => readMagnitude true rest
  | text => readMagnitude false text

/-! ## Strings -/

def readUnit : List Char → Except Fault (Nat × List Char)
  | a :: b :: c :: d :: rest =>
    match Hex.value? a, Hex.value? b, Hex.value? c, Hex.value? d with
    | some a, some b, some c, some d => .ok (((16 * a + b) * 16 + c) * 16 + d, rest)
    | _, _, _, _ => .error (.badEscape a)
  | _ => .error .endOfText

def readLowHalf (text : List Char) : Except Fault (Option (Nat × List Char)) :=
  match text with
  | '\\' :: 'u' :: rest => do
    let (low, rest) ← readUnit rest
    return if 0xdc00 ≤ low ∧ low < 0xe000 then some (low, rest) else none
  | _ => .ok none

/-- What follows the letter `u`: one unit, or the two of a pair. One half of a pair is no
character. -/
def readCodePoint (text : List Char) : Except Fault (Option Char × List Char) := do
  let (high, rest) ← readUnit text
  if 0xdc00 ≤ high ∧ high < 0xe000 then return (none, rest)
  else if 0xd800 ≤ high ∧ high < 0xdc00 then
    match ← readLowHalf rest with
    | some (low, rest) =>
      return (some (Char.ofNat (0x10000 + (high - 0xd800) * 0x400 + (low - 0xdc00))), rest)
    | none => return (none, rest)
  else return (some (Char.ofNat high), rest)

def readEscape : List Char → Except Fault (Option Char × List Char)
  | [] => .error .endOfText
  | c :: rest =>
    if c = '"' ∨ c = '\\' ∨ c = '/' then .ok (some c, rest)
    else if c = 'b' then .ok (some '\x08', rest)
    else if c = 'f' then .ok (some '\x0c', rest)
    else if c = 'n' then .ok (some '\n', rest)
    else if c = 'r' then .ok (some '\r', rest)
    else if c = 't' then .ok (some '\t', rest)
    else if c = 'u' then readCodePoint rest
    else .error (.badEscape c)

def cons? (a : Option α) (rest : Option (List α)) : Option (List α) :=
  match a, rest with
  | some a, some rest => some (a :: rest)
  | _, _ => none

/-- Reads to the closing quote. Each step takes a character at least, so `n` need not be larger
than the length of the text. -/
def readStringTail : Nat → List Char → Except Fault (Option (List Char) × List Char)
  | 0, _ => .error .endOfText
  | _ + 1, [] => .error .endOfText
  | n + 1, c :: rest =>
    if c = '"' then .ok (some [], rest)
    else if c = '\\' then do
      let (d, rest) ← readEscape rest
      let (ds, rest) ← readStringTail n rest
      return (cons? d ds, rest)
    else if c.toNat < 0x20 then .error (.controlCharacter c)
    else do
      let (ds, rest) ← readStringTail n rest
      return (cons? (some c) ds, rest)

def readString (text : List Char) : Except Fault (Option String × List Char) := do
  let (cs, rest) ← readStringTail text.length text
  return (cs.map String.ofList, rest)

/-! ## Values -/

mutual

/-- Reads a value. A bracket takes two calls at most and a call on a value one, so `n` need not be
larger than `2 * text.length + 1`. -/
def readValue : Nat → List Char → Except Fault (Json × List Char)
  | 0, _ => .error .endOfText
  | n + 1, text =>
    match skipBlanks text with
    | [] => .error .endOfText
    | c :: rest =>
      if c = 'n' then do
        let rest ← expectAll ['u', 'l', 'l'] rest
        return (null, rest)
      else if c = 't' then do
        let rest ← expectAll ['r', 'u', 'e'] rest
        return (bool true, rest)
      else if c = 'f' then do
        let rest ← expectAll ['a', 'l', 's', 'e'] rest
        return (bool false, rest)
      else if c = '"' then do
        let (s, rest) ← readString rest
        return (s.elim garbled str, rest)
      else if c = '[' then
        match skipBlanks rest with
        | ']' :: rest => .ok (arr [], rest)
        | rest => do
          let (items, rest) ← readItems n rest
          return (arr items, rest)
      else if c = '\x7b' then
        match skipBlanks rest with
        | '\x7d' :: rest => .ok (obj [], rest)
        | rest => do
          let (fields, rest) ← readFields n rest
          return (fields.elim garbled obj, rest)
      else readNumber (c :: rest)

def readItems : Nat → List Char → Except Fault (List Json × List Char)
  | 0, _ => .error .endOfText
  | n + 1, text => do
    let (j, rest) ← readValue n text
    match skipBlanks rest with
    | [] => .error .endOfText
    | c :: rest =>
      if c = ']' then return ([j], rest)
      else if c = ',' then do
        let (js, rest) ← readItems n rest
        return (j :: js, rest)
      else .error (.unexpected c)

/-- Reads one field or more, up to the closing brace. All names have to be texts. -/
def readFields : Nat → List Char → Except Fault (Option (List (String × Json)) × List Char)
  | 0, _ => .error .endOfText
  | n + 1, text => do
    let rest ← expect '"' (skipBlanks text)
    let (name, rest) ← readString rest
    let rest ← expect ':' (skipBlanks rest)
    let (j, rest) ← readValue n rest
    match skipBlanks rest with
    | [] => .error .endOfText
    | c :: rest =>
      let first := name.map fun name => (name, j)
      if c = '\x7d' then return (cons? first (some []), rest)
      else if c = ',' then do
        let (fields, rest) ← readFields n rest
        return (cons? first fields, rest)
      else .error (.unexpected c)

end

def parseChars (text : List Char) : Except Fault Json := do
  let (j, rest) ← readValue (2 * text.length + 1) text
  match skipBlanks rest with
  | [] => return j
  | c :: _ => .error (.unexpected c)

def parse (text : String) : Except Fault Json := parseChars text.toList

end DwarfScope.Json
