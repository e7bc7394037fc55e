import DwarfScope.Dwarf.Input

/-!
# Abbreviations

The shapes of entries. An entry names its shape by a code, and the shape gives its tag and the
attributes in order.
-/

namespace DwarfScope.Dwarf

/-- An attribute as declared: its code, its form, and its value if that is part of the
declaration. -/
structure Declared where
  attr : Nat
  form : Nat
  constant : Option Int
  deriving Repr, DecidableEq

structure Abbreviation where
  code : Nat
  tag : UInt16
  children : Bool
  attrs : List Declared
  deriving Repr, DecidableEq

/-- The form of a value that stands in the declaration. -/
def implicitConstant : Nat := 0x21

/-- An attribute, or nothing at the terminator of two zeros. -/
def readDeclared : Read (Option Declared) := do
  let attr ← Read.unsigned16
  let form ← Read.unsigned16
  if attr = 0 then
    if form = 0 then return none else throw .badTerminator
  if form = 0 then throw .zeroForm
  let constant ← if form = implicitConstant then some <$> Read.signed else pure none
  return some { attr, form, constant }

def readAbbreviation : Read (Option Abbreviation) := do
  let code ← Read.unsigned
  if code = 0 then return none
  let tag ← Read.unsigned16
  if tag = 0 then throw .zeroTag
  let flag ← Read.byte
  if 1 < flag then throw (.badChildrenFlag flag)
  let attrs ← Read.many readDeclared
  return some { code, tag := UInt16.ofNat tag, children := flag = 1, attrs := attrs.toList }

abbrev Abbreviations := List Abbreviation

def Abbreviations.check : Abbreviations → Except Fault Unit
  | [] => .ok ()
  | a :: rest =>
    if rest.any (·.code = a.code) then .error (.repeatedAbbreviation a.code)
    else Abbreviations.check rest

def Abbreviations.find (table : Abbreviations) (code : Nat) : Except Fault Abbreviation :=
  match table.find? (·.code = code) with
  | some a => .ok a
  | none => .error (.unknownAbbreviation code)

def readAbbreviations (start : Nat) : Read Abbreviations := do
  Read.skip start
  let table ← Read.many readAbbreviation
  match Abbreviations.check table.toList with
  | .ok _ => return table.toList
  | .error fault => throw fault

end DwarfScope.Dwarf
