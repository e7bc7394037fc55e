/-!
# Commands

What a user can ask for. Commands without a name work on the current level.
-/

namespace DwarfScope

inductive Command where
  | ping
  | loadDebugFile (file : String)
  | debugFile
  | listUnits
  | listChildren
  | stepInto (name : String)
  | back
  | reset
  | path
  | describe
  | currentType
  | typeOf (name : String)
  | entryInfo (name : String)
  | readVariable (name : Option String)
  | setVariable (name : Option String) (value : List UInt8)
  | getField (field : String)
  | setField (field : String) (value : UInt64)
  | setOffset (offset : Int64)
  | quit
  deriving Repr, DecidableEq

end DwarfScope
