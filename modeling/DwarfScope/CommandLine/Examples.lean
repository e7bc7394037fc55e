import DwarfScope.Command.Json
import DwarfScope.Feedback

/-!
# Examples of the protocol

Requests and answers that show the JSON forms.
-/

namespace DwarfScope.CommandLine

def exampleRequests : List String :=
  [.ping,
    .loadDebugFile "./testcase.dwarf",
    .listUnits,
    .stepInto "main.cpp",
    .listChildren,
    .back,
    .typeOf "Driver",
    .readVariable (some "formula_1_teams"),
    .setVariable none [0xfe, 0xed, 0xbe, 0xef],
    .getField "car_number",
    .setField "car_number" 44,
    .setOffset (-4096),
    .quit].map Command.request

def exampleLayout : Layout :=
  { name := "Driver"
    bitSize := 96
    members := [
      { name := "initials", bitSize := 8, arrayRanges := [2] },
      { name := "car_number", bitSize := 32, structOffset := 32 },
      { name := "has_won_wdc", bitSize := 8, structOffset := 64 }] }

def exampleVariable : VariableView :=
  { name := "hamilton"
    address := 0x4010
    layout := exampleLayout
    value := some "4c48000000002c0001000000" }

def exampleAnswers : List String :=
  [.ok,
    .list ["main.cpp", "other.cpp"],
    .path ["/", "main.cpp"],
    .field 44,
    .variable exampleVariable,
    .type exampleLayout,
    .error (.notFound "mclaren")].map Feedback.answer

end DwarfScope.CommandLine
