import DwarfScope.Json.Reader

/-!
# Decoding JSON values

A record is an object or the list of its fields in order. A choice is the name of an alternative,
or an object whose one field has that name and holds what belongs to the alternative.
-/

namespace DwarfScope.Json

abbrev Decode (α : Type) := Except Fault α

def asString : Json → Decode String
  | str s => .ok s
  | _ => .error (.wrongKind "a string")

def asBool : Json → Decode Bool
  | bool b => .ok b
  | _ => .error (.wrongKind "a boolean")

def asNull : Json → Decode Unit
  | null => .ok ()
  | _ => .error (.wrongKind "null")

def asList : Json → Decode (List Json)
  | arr items => .ok items
  | _ => .error (.wrongKind "a list")

def asInt (low high : Int) : Json → Decode Int
  | int n => if low ≤ n ∧ n ≤ high then .ok n else .error (.outOfRange n)
  | _ => .error (.wrongKind "an integer")

def asUInt8 (j : Json) : Decode UInt8 := (fun n : Int => UInt8.ofNat n.toNat) <$> asInt 0 0xff j

def asUInt16 (j : Json) : Decode UInt16 :=
  (fun n : Int => UInt16.ofNat n.toNat) <$> asInt 0 0xffff j

def asUInt64 (j : Json) : Decode UInt64 :=
  (fun n : Int => UInt64.ofNat n.toNat) <$> asInt 0 0xffffffffffffffff j

def asInt64 (j : Json) : Decode Int64 :=
  Int64.ofInt <$> asInt (-0x8000000000000000) 0x7fffffffffffffff j

def asNat64 (j : Json) : Decode Nat := Int.toNat <$> asInt 0 0xffffffffffffffff j

def asOption (decode : Json → Decode α) : Json → Decode (Option α)
  | null => .ok none
  | j => some <$> decode j

def asListOf (decode : Json → Decode α) (j : Json) : Decode (List α) := do
  let items ← asList j
  items.mapM decode

def asPair (first : Json → Decode α) (second : Json → Decode β) : Json → Decode (α × β)
  | arr [a, b] => do return (← first a, ← second b)
  | arr _ => .error (.wrongLength 2)
  | _ => .error (.wrongKind "a list")

def field (fields : List (String × Json)) (name : String) : Decode Json :=
  match fields.filter (·.1 = name) with
  | [] => .error (.missingField name)
  | [(_, j)] => .ok j
  | _ => .error (.repeatedField name)

/-- The values of a record in the order of `names`. Fields of other names are passed over. -/
def record (names : List String) : Json → Decode (List Json)
  | obj fields => names.mapM (field fields)
  | arr items =>
    if items.length = names.length then .ok items else .error (.wrongLength names.length)
  | _ => .error (.wrongKind "a record")

def choice : Json → Decode (String × Option Json)
  | str name => .ok (name, none)
  | obj [(name, j)] => .ok (name, some j)
  | obj _ => .error (.wrongKind "a single alternative")
  | _ => .error (.wrongKind "an alternative")

def bare (value : α) : Option Json → Decode α
  | none => .ok value
  | some j => (fun _ => value) <$> asNull j

def holding (decode : Json → Decode α) : Option Json → Decode α
  | none => .error (.wrongKind "an alternative with a value")
  | some j => decode j

end DwarfScope.Json
