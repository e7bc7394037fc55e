import DwarfScope.Main
import DwarfScope.Proofs.Explorer.Failures
import DwarfScope.Proofs.Explorer.Fields
import DwarfScope.Proofs.Explorer.Hidden
import DwarfScope.Proofs.Explorer.Listing
import DwarfScope.Proofs.Explorer.Paths
import DwarfScope.Proofs.Layout.Termination
import DwarfScope.Proofs.Layout.Dimensions
import DwarfScope.Proofs.Layout.Placement
import DwarfScope.Proofs.Layout.MemberNames
import DwarfScope.Proofs.Layout.Dangling
import DwarfScope.Proofs.Layout.Spelling
import DwarfScope.Proofs.Explorer.Cursor
import DwarfScope.Proofs.Explorer.Stack
import DwarfScope.Proofs.Explorer.Access
import DwarfScope.Proofs.Variable.Members
import DwarfScope.Proofs.Calls
import DwarfScope.Proofs.Dwarf.Location
import DwarfScope.Proofs.Dwarf.CompileUnits
import DwarfScope.Proofs.Command.Json
import DwarfScope.Proofs.Command.Printed
import DwarfScope.Proofs.Stream.Cursor
import DwarfScope.Proofs.Stream.Flattening
import DwarfScope.Proofs.Server
