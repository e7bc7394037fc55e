import DwarfScope.Command.Basic
import DwarfScope.Json.Decode

/-!
# Commands as JSON

A request is an object whose field `status` holds the command.
-/

namespace DwarfScope.Command

open Json (str arr int ofNat single ofOption)

def toJson : Command → Json
  | ping => str "Ping"
  | loadDebugFile file => single "SetDebugFile" (str file)
  | debugFile => str "GetDebugFile"
  | listUnits => str "ListCompileUnits"
  | listChildren => str "ListChildren"
  | stepInto name => single "StepInto" (str name)
  | back => str "Back"
  | reset => str "Reset"
  | path => str "Where"
  | describe => str "Show"
  | currentType => str "CurrentType"
  | typeOf name => single "GetType" (str name)
  | entryInfo name => single "EntryInfo" (str name)
  | readVariable name => single "ReadVariable" (ofOption str name)
  | setVariable name value =>
    single "SetVariable" (arr [ofOption str name, arr (value.map fun b => ofNat b.toNat)])
  | getField field => single "GetField" (str field)
  | setField field value => single "SetField" (arr [str field, ofNat value.toNat])
  | setOffset offset => single "SetOffset" (int offset.toInt)
  | quit => str "Quit"

def requestJson (c : Command) : Json := single "status" c.toJson

def ofJson (j : Json) : Except Json.Fault Command := do
  let (name, content) ← j.choice
  let name? := Json.asOption Json.asString
  match name with
  | "Ping" => Json.bare ping content
  | "SetDebugFile" => loadDebugFile <$> Json.holding Json.asString content
  | "GetDebugFile" => Json.bare debugFile content
  | "ListCompileUnits" => Json.bare listUnits content
  | "ListChildren" => Json.bare listChildren content
  | "StepInto" => stepInto <$> Json.holding Json.asString content
  | "Back" => Json.bare back content
  | "Reset" => Json.bare reset content
  | "Where" => Json.bare path content
  | "Show" => Json.bare describe content
  | "CurrentType" => Json.bare currentType content
  | "GetType" => typeOf <$> Json.holding Json.asString content
  | "EntryInfo" => entryInfo <$> Json.holding Json.asString content
  | "ReadVariable" => readVariable <$> Json.holding name? content
  | "SetVariable" =>
    let (name, value) ← Json.holding (Json.asPair name? (Json.asListOf Json.asUInt8)) content
    return setVariable name value
  | "GetField" => getField <$> Json.holding Json.asString content
  | "SetField" =>
    let (field, value) ← Json.holding (Json.asPair Json.asString Json.asUInt64) content
    return setField field value
  | "SetOffset" => setOffset <$> Json.holding Json.asInt64 content
  | "Quit" => Json.bare quit content
  | name => throw (.unknownName name)

def ofRequestJson (j : Json) : Except Json.Fault Command := do
  match ← j.record ["status"] with
  | [status] => ofJson status
  | _ => throw (.missingField "status")

def request (c : Command) : String := c.requestJson.render

def ofRequest (text : String) : Except Json.Fault Command := do ofRequestJson (← Json.parse text)

end DwarfScope.Command
