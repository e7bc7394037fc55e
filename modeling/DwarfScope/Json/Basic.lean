import DwarfScope.Text.Hex

/-!
# JSON values

Values as written, and their compact text. Objects keep their fields in order, repeated names
included. Whole numbers and numbers with a fraction or an exponent are told apart, because only
the first kind counts as an integer. A string may have half of a surrogate pair in it, which makes
it no text, but the value around it is still well formed.
-/

namespace DwarfScope

inductive Json where
  | null
  | bool (b : Bool)
  | int (n : Int)
  /-- The number `mantissa · 10 ^ exponent`. -/
  | decimal (mantissa exponent : Int)
  | str (s : String)
  /-- A string that is no text, or an object with such a name for a field. -/
  | garbled
  | arr (items : List Json)
  | obj (fields : List (String × Json))
  deriving Repr, Inhabited

namespace Json

/-! ## Text of a value -/

/-- Control characters, quotes and backslashes are escaped, all else stands for itself. -/
def escape (c : Char) : List Char :=
  if c = '"' then ['\\', '"']
  else if c = '\\' then ['\\', '\\']
  else if c = '\x08' then ['\\', 'b']
  else if c = '\x0c' then ['\\', 'f']
  else if c = '\n' then ['\\', 'n']
  else if c = '\r' then ['\\', 'r']
  else if c = '\t' then ['\\', 't']
  else if c.toNat < 0x20 then ['\\', 'u', '0', '0'] ++ Hex.encodeByte (UInt8.ofNat c.toNat)
  else [c]

def renderString (s : String) : List Char := '"' :: s.toList.flatMap escape ++ ['"']

def renderInt : Int → List Char
  | .ofNat n => Nat.toDigits 10 n
  | .negSucc n => '-' :: Nat.toDigits 10 (n + 1)

mutual

def renderChars : Json → List Char
  | null => ['n', 'u', 'l', 'l']
  | bool true => ['t', 'r', 'u', 'e']
  | bool false => ['f', 'a', 'l', 's', 'e']
  | int n => renderInt n
  | decimal m e => renderInt m ++ 'e' :: renderInt e
  | str s => renderString s
  | garbled => ['"', '\\', 'u', 'd', '8', '0', '0', '"']
  | arr items => '[' :: renderItems items
  | obj fields => '\x7b' :: renderFields fields

def renderItems : List Json → List Char
  | [] => [']']
  | [j] => renderChars j ++ [']']
  | j :: rest => renderChars j ++ ',' :: renderItems rest

def renderFields : List (String × Json) → List Char
  | [] => ['\x7d']
  | [(name, j)] => renderString name ++ ':' :: renderChars j ++ ['\x7d']
  | (name, j) :: rest => renderString name ++ ':' :: renderChars j ++ ',' :: renderFields rest

end

def render (j : Json) : String := String.ofList j.renderChars

/-! ## Building values -/

def ofNat (n : Nat) : Json := int n

def single (name : String) (j : Json) : Json := obj [(name, j)]

def ofOption (f : α → Json) : Option α → Json
  | none => null
  | some a => f a

def ofStrings (items : List String) : Json := arr (items.map str)

end Json
end DwarfScope
