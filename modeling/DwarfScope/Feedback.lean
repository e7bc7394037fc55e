import DwarfScope.Json.Basic
import DwarfScope.Variable

/-!
# Feedback

What a command answers, as text and as JSON.
-/

namespace DwarfScope

structure VariableView where
  name : String
  address : Nat
  layout : Layout
  value : Option String
  deriving Repr

def Variable.view (v : Variable) : VariableView :=
  { name := v.name, address := v.address, layout := v.layout, value := v.value.map Hex.encode }

inductive Feedback where
  | ok
  | text (s : String)
  | list (items : List String)
  /-- The names of the levels, from the bottom up. -/
  | path (levels : List String)
  | type (l : Layout)
  | variable (v : VariableView)
  | field (n : UInt64)
  | error (e : Error)
  deriving Repr

/-! ## Text -/

/-- The bottom level is the slash in front. -/
def describePath (levels : List String) : String := "/" ++ "/".intercalate (levels.drop 1)

def VariableView.describe (v : VariableView) : String :=
  s!"{v.name} at {Address.describe v.address}: {v.layout.name}" ++ Variable.describeValue v.value

def Feedback.describe : Feedback → String
  | .ok => "Ok"
  | .text s => s
  | .list items => String.join (items.map (· ++ "\n"))
  | .path levels => describePath levels
  | .type l => l.describe
  | .variable v => v.describe
  | .field n => Hex.number n.toNat ++ s!" ({n.toNat})"
  | .error e => "Error: " ++ e.message

/-! ## JSON

The fields of an object are in alphabetical order. -/

mutual

def Layout.toJson : Layout → Json
  | ⟨name, bitSize, structOffset, arrayRanges, members⟩ =>
    .obj [
      ("array_ranges", .arr (arrayRanges.map Json.ofNat)),
      ("bit_size", .ofNat bitSize),
      ("children", .arr (Layout.allToJson members)),
      ("name", .str name),
      ("struct_offset", .ofNat structOffset)]

def Layout.allToJson : List Layout → List Json
  | [] => []
  | l :: rest => l.toJson :: Layout.allToJson rest

end

def VariableView.toJson (v : VariableView) : Json :=
  .obj [
    ("address", .ofNat v.address),
    ("name", .str v.name),
    ("type", v.layout.toJson),
    ("value", .ofOption .str v.value)]

def Feedback.contentJson : Feedback → Json
  | .ok => .str "Ok"
  | .text s => .single "Text" (.str s)
  | .list items => .single "List" (.ofStrings items)
  | .path levels => .single "Path" (.ofStrings levels)
  | .type l => .single "Type" l.toJson
  | .variable v => .single "Variable" v.toJson
  | .field n => .single "Field" (.ofNat n.toNat)
  | .error e => .single "Error" (.str e.message)

def Feedback.toJson (f : Feedback) : Json := .single "feedback" f.contentJson

def Feedback.answer (f : Feedback) : String := f.toJson.render

end DwarfScope
