import DwarfScope.Text.Hex

/-!
# Tags

The kinds of debug entries. The kinds that matter here have a name of their own, all others are
kept by their code.
-/

namespace DwarfScope

inductive Tag where
  /-- Closes a list of children. -/
  | null
  | compileUnit
  | var
  | formalParameter
  | member
  | structureType
  | unionType
  | classType
  | arrayType
  | subrangeType
  | constType
  | volatileType
  | typedef
  | baseType
  | pointerType
  | enumerationType
  | enumerator
  | subprogram
  | other (code : UInt16)
  deriving Repr, DecidableEq, Inhabited

namespace Tag

def ofCode (code : UInt16) : Tag :=
  match code.toNat with
  | 0x00 => null
  | 0x01 => arrayType
  | 0x02 => classType
  | 0x04 => enumerationType
  | 0x05 => formalParameter
  | 0x0d => member
  | 0x0f => pointerType
  | 0x11 => compileUnit
  | 0x13 => structureType
  | 0x16 => typedef
  | 0x17 => unionType
  | 0x21 => subrangeType
  | 0x24 => baseType
  | 0x26 => constType
  | 0x28 => enumerator
  | 0x2e => subprogram
  | 0x34 => var
  | 0x35 => volatileType
  | _ => other code

/-! ## Kinds of tags -/

def isType : Tag → Bool
  | structureType | unionType | classType | arrayType | constType | volatileType | typedef
  | baseType | pointerType | enumerationType => true
  | _ => false

def isAggregate : Tag → Bool
  | structureType | unionType | classType => true
  | _ => false

def isQualifier : Tag → Bool
  | constType | volatileType => true
  | _ => false

def isVariable : Tag → Bool
  | var | formalParameter => true
  | _ => false

/-! ## Names -/

/-- The names the DWARF standard and its vendors give to tag codes. -/
def standardNames : List (Nat × String) :=
  [(0x00, "null"), (0x01, "array_type"), (0x02, "class_type"), (0x03, "entry_point"),
    (0x04, "enumeration_type"), (0x05, "formal_parameter"), (0x08, "imported_declaration"),
    (0x0a, "label"), (0x0b, "lexical_block"), (0x0d, "member"), (0x0f, "pointer_type"),
    (0x10, "reference_type"), (0x11, "compile_unit"), (0x12, "string_type"),
    (0x13, "structure_type"), (0x15, "subroutine_type"), (0x16, "typedef"), (0x17, "union_type"),
    (0x18, "unspecified_parameters"), (0x19, "variant"), (0x1a, "common_block"),
    (0x1b, "common_inclusion"), (0x1c, "inheritance"), (0x1d, "inlined_subroutine"),
    (0x1e, "module"), (0x1f, "ptr_to_member_type"), (0x20, "set_type"), (0x21, "subrange_type"),
    (0x22, "with_stmt"), (0x23, "access_declaration"), (0x24, "base_type"), (0x25, "catch_block"),
    (0x26, "const_type"), (0x27, "constant"), (0x28, "enumerator"), (0x29, "file_type"),
    (0x2a, "friend"), (0x2b, "namelist"), (0x2c, "namelist_item"), (0x2d, "packed_type"),
    (0x2e, "subprogram"), (0x2f, "template_type_parameter"), (0x30, "template_value_parameter"),
    (0x31, "thrown_type"), (0x32, "try_block"), (0x33, "variant_part"), (0x34, "variable"),
    (0x35, "volatile_type"), (0x36, "dwarf_procedure"), (0x37, "restrict_type"),
    (0x38, "interface_type"), (0x39, "namespace"), (0x3a, "imported_module"),
    (0x3b, "unspecified_type"), (0x3c, "partial_unit"), (0x3d, "imported_unit"),
    (0x3f, "condition"), (0x40, "shared_type"), (0x41, "type_unit"),
    (0x42, "rvalue_reference_type"), (0x43, "template_alias"), (0x44, "coarray_type"),
    (0x45, "generic_subrange"), (0x46, "dynamic_type"), (0x47, "atomic_type"),
    (0x48, "call_site"), (0x49, "call_site_parameter"), (0x4a, "skeleton_unit"),
    (0x4b, "immutable_type"), (0x4080, "lo_user"), (0xffff, "hi_user"), (0x4081, "MIPS_loop"),
    (0x4090, "HP_array_descriptor"), (0x4091, "HP_Bliss_field"), (0x4092, "HP_Bliss_field_set"),
    (0x4101, "format_label"), (0x4102, "function_template"), (0x4103, "class_template"),
    (0x4104, "GNU_BINCL"), (0x4105, "GNU_EINCL"), (0x4106, "GNU_template_template_param"),
    (0x4107, "GNU_template_parameter_pack"), (0x4108, "GNU_formal_parameter_pack"),
    (0x4109, "GNU_call_site"), (0x410a, "GNU_call_site_parameter"), (0x4200, "APPLE_property"),
    (0x8765, "upc_shared_type")]

def describeCode (code : UInt16) : String :=
  match standardNames.lookup code.toNat with
  | some name => "DW_TAG_" ++ name
  | none => "unknown tag " ++ Hex.number code.toNat

def describe : Tag → String
  | null => "null entry"
  | compileUnit => "compile unit"
  | var => "variable"
  | formalParameter => "formal parameter"
  | member => "member"
  | structureType => "struct type"
  | unionType => "union type"
  | classType => "class type"
  | arrayType => "array type"
  | subrangeType => "subrange type"
  | constType => "const type"
  | volatileType => "volatile type"
  | typedef => "typedef"
  | baseType => "base type"
  | pointerType => "pointer type"
  | enumerationType => "enumeration type"
  | enumerator => "enumerator"
  | subprogram => "subprogram"
  | other code => describeCode code

end Tag
end DwarfScope
