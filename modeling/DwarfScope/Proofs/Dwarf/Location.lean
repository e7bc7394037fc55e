import DwarfScope.Proofs.Dwarf.Loading
import DwarfScope.Proofs.Explorer.Names

/-!
# Locations of loaded entries

A variable has a static address if its location is an expression of a single operation that gives
an address. What is kept of every other expression are its bytes, and these are taken for an address
operation if they start like one and are not longer than one with eight bytes.
-/

namespace DwarfScope

open Effect

namespace Dwarf

/-! ## Operations -/

/-- The operations of an expression, one after the other. -/
inductive Operations (enc : Encoding) : Input → List Operation → Prop where
  | nil {i : Input} (h : i.isEmpty = true) : Operations enc i []
  | cons {i j : Input} {op : Operation} {rest : List Operation}
      (h : readOperation enc i = .ok op j) (hrest : Operations enc j rest) :
      Operations enc i (op :: rest)

section Expressions

variable {enc : Encoding} {i j k : Input} {op : Operation}

theorem not_isEmpty_of_readOperation (h : readOperation enc i = .ok op j) : i.isEmpty = false := by
  obtain ⟨code, k, hcode, -⟩ := bind_eq_ok.mp h
  have hn := (Read.word_eq_ok.mp hcode).1
  unfold Input.remaining at hn
  exact Input.isEmpty_eq_false.mpr (by omega)

theorem operations_singleton (h : readOperation enc i = .ok op j) (op' : Operation) :
    Operations enc i [op'] ↔ op' = op ∧ j.isEmpty = true := by
  constructor
  · rintro (_ | ⟨h', hnil⟩)
    rw [h] at h'
    obtain ⟨rfl, rfl⟩ : op = op' ∧ j = _ := by simpa using h'
    cases hnil with
    | nil hempty => exact ⟨rfl, hempty⟩
  · rintro ⟨rfl, hempty⟩
    exact .cons h (.nil hempty)

theorem not_operations_singleton (hempty : i.isEmpty = true) : ¬ Operations enc i [op] := by
  rintro (_ | ⟨h, -⟩)
  simp [not_isEmpty_of_readOperation h] at hempty

theorem address_of_bytes {operand : List UInt8} (hi : i.Fits) (hbytes : i.bytes = 0x03 :: operand)
    (h : readOperation enc i = .ok op j) :
    ∃ a, op = .address a ∧ j = (i.advance 1).advance enc.addressSize := by
  obtain ⟨code, k, hcode, hop⟩ := bind_eq_ok.mp h
  obtain ⟨b, rest, hcons, rfl, rfl⟩ := (Read.byte_eq_ok hi).mp hcode
  obtain ⟨rfl, rfl⟩ : 0x03 = b ∧ operand = rest := by simpa [hbytes] using hcons
  obtain ⟨a, k, hword, hpure⟩ := bind_eq_ok.mp hop
  obtain ⟨rfl, rfl⟩ := pure_eq_ok.mp hpure
  exact ⟨a, rfl, (Read.word_eq_ok.mp hword).2.2⟩

theorem bytes_of_address {a : Nat} (hi : i.Fits) (h : readOperation enc i = .ok (.address a) j) :
    (∃ operand, i.bytes = 0x03 :: operand) ∧ a < 256 ^ enc.addressSize := by
  unfold readOperation at h
  obtain ⟨code, k, hcode, hop⟩ := bind_eq_ok.mp h
  have hk : k.Fits := (Read.byte_forward i code k hi hcode).1.fits hi
  obtain ⟨b, rest, hbytes, hb, -⟩ := (Read.byte_eq_ok hi).mp hcode
  simp only at hop
  split at hop
  case h_1 =>
    obtain rfl : b = 0x03 := UInt8.toNat_inj.mp hb.symm
    obtain ⟨a', k', hword, hpure⟩ := bind_eq_ok.mp hop
    obtain ⟨⟨⟩, -⟩ := pure_eq_ok.mp hpure
    exact ⟨⟨rest, hbytes⟩, Read.lt_of_word hk hword⟩
  -- Every other code answers an operation of another kind.
  all_goals
    obtain ⟨_, _, -, hpure⟩ := bind_eq_ok.mp hop
    obtain ⟨⟨⟩, -⟩ := pure_eq_ok.mp hpure

theorem readOperation?_eq_ok {found : Option Operation} :
    readOperation? enc i = .ok found j ↔
      (i.isEmpty = true ∧ found = none ∧ j = i) ∨
        (i.isEmpty = false ∧ ∃ op, readOperation enc i = .ok op j ∧ found = some op) := by
  unfold readOperation?
  simp only [bind_eq_ok, get_eq_ok]
  constructor
  · rintro ⟨_, _, ⟨rfl, rfl⟩, h⟩
    split at h
    case isTrue hempty => exact .inl ⟨hempty, pure_eq_ok.mp h⟩
    case isFalse hempty =>
      rw [map_eq_pure_bind] at h
      obtain ⟨op, _, hop, hpure⟩ := bind_eq_ok.mp h
      obtain ⟨rfl, rfl⟩ := pure_eq_ok.mp hpure
      exact .inr ⟨by simpa using hempty, op, hop, rfl⟩
  · rintro (⟨hempty, rfl, rfl⟩ | ⟨hempty, op, hop, rfl⟩)
    · refine ⟨_, _, ⟨rfl, rfl⟩, ?_⟩
      simp [hempty]
    · refine ⟨_, _, ⟨rfl, rfl⟩, ?_⟩
      rw [map_eq_pure_bind]
      simp [hempty, bind_of_ok hop]

theorem readOnlyOperation?_eq_ok {found : Option Operation}
    (h : readOnlyOperation? enc i = .ok found k) :
    (i.isEmpty = true ∧ found = none) ∨
      ∃ op j, readOperation enc i = .ok op j ∧ found = if j.isEmpty then some op else none := by
  unfold readOnlyOperation? at h
  simp only [bind_eq_ok, readOperation?_eq_ok, pure_eq_ok] at h
  obtain ⟨first, j, hfirst, second, _, hsecond, rfl, -⟩ := h
  rcases hfirst with ⟨hempty, rfl, rfl⟩ | ⟨-, op, hop, rfl⟩
  · exact .inl ⟨hempty, by simp⟩
  · refine .inr ⟨op, j, hop, ?_⟩
    rcases hsecond with ⟨hj, rfl, -⟩ | ⟨hj, op', -, rfl⟩
    · simp [hj]
    · simp [hj]

end Expressions

/-! ## Addresses -/

/-- The expression is a single operation, which is the address or gives its place in the table. -/
def IsAddress (s : Sections) (u : RawUnit) (bytes : Input) (a : Nat) : Prop :=
  Operations u.header.encoding bytes [.address a] ∨
    ∃ n, Operations u.header.encoding bytes [.addressIndex n] ∧ addressAt s u n = .ok a

/-- More follows an address operation, but all of it together is not longer than an address of eight
bytes. So the expression is taken for one. -/
def IsMistaken (enc : Encoding) (bytes : Input) (a : Nat) : Prop :=
  ∃ operand, bytes.bytes = 0x03 :: operand ∧ enc.addressSize < operand.length ∧
    operand.length ≤ 8 ∧ a = Binary.value .little operand

theorem IsMistaken.addressSize_lt {enc : Encoding} {bytes : Input} {a : Nat}
    (h : IsMistaken enc bytes a) : enc.addressSize < 8 := by
  obtain ⟨operand, -, hlt, hle, -⟩ := h
  omega

section Addresses

variable {s : Sections} {u : RawUnit} {enc : Encoding} {bytes j : Input} {op : Operation} {a : Nat}

theorem expressionAddress?_eq_some {given : List UInt8} :
    Entry.expressionAddress? given = some a ↔
      ∃ operand, given = 0x03 :: operand ∧ 1 ≤ operand.length ∧ operand.length ≤ 8 ∧
        a = Binary.value .little operand := by
  unfold Entry.expressionAddress?
  split
  case h_1 operand =>
    constructor
    · intro h
      split at h
      case isTrue hlength => exact ⟨operand, rfl, hlength.1, hlength.2, (Option.some.inj h).symm⟩
      case isFalse => cases h
    · rintro ⟨_, ⟨⟩, hpos, hle, rfl⟩
      rw [if_pos ⟨hpos, hle⟩]
  case h_2 hne =>
    constructor
    · intro h
      cases h
    · rintro ⟨operand, rfl, -⟩
      exact absurd rfl (hne operand)

/-- What is taken for an address by its bytes is one, or it goes on after the address. -/
theorem isMistaken_iff (hbytes : bytes.Fits) (hop : readOperation enc bytes = .ok op j) :
    IsMistaken enc bytes a ↔
      j.isEmpty = false ∧ Entry.expressionAddress? bytes.bytes = some a := by
  rw [expressionAddress?_eq_some]
  have hlonger {operand : List UInt8} (hcons : bytes.bytes = 0x03 :: operand) :
      enc.addressSize < operand.length ↔ j.isEmpty = false := by
    obtain ⟨_, -, rfl⟩ := address_of_bytes hbytes hcons hop
    have hlength := hbytes.length_bytes
    rw [hcons, List.length_cons, Input.remaining] at hlength
    rw [Input.isEmpty_eq_false]
    simp only [Input.advance]
    omega
  constructor
  · rintro ⟨operand, hcons, hlt, hle, rfl⟩
    exact ⟨(hlonger hcons).mp hlt, operand, hcons, by omega, hle, rfl⟩
  · rintro ⟨hj, operand, hcons, -, hle, rfl⟩
    exact ⟨operand, hcons, (hlonger hcons).mpr hj, hle, rfl⟩

theorem lt_of_addressAt {n : Nat} (h : addressAt s u n = .ok a) :
    a < 256 ^ u.header.encoding.addressSize := by
  unfold addressAt tableWord at h
  split at h
  case h_1 hword =>
    obtain rfl := Except.ok.inj h
    exact Binary.lt_of_word? hword
  case h_2 => cases h

theorem toNat_ofNat_of_isAddressSize {size : Nat} (hsize : Read.IsAddressSize size)
    (ha : a < 256 ^ size) : (UInt64.ofNat a).toNat = a := by
  apply UInt64.toNat_ofNat_of_lt
  rcases hsize with rfl | rfl | rfl | rfl
  all_goals
    simp only [UInt64.size] at *
    omega

end Addresses
end Dwarf

/-- The address that a value of a location gives. -/
def AttrValue.location? : AttrValue → Option Nat
  | .address a => some a.toNat
  | .expr bytes => Entry.expressionAddress? bytes
  | _ => none

theorem Entry.location?_eq (e : Entry) :
    e.location? = (e.attr? .location).bind AttrValue.location? := by
  unfold Entry.location? AttrValue.location?
  cases e.attr? .location with
  | none => rfl
  | some value => cases value <;> rfl

namespace Dwarf

section Values

variable {s : Sections} {u : RawUnit} {bytes j k : Input} {op : Operation} {value : AttrValue}

theorem location?_of_single (hu : u.Sound) (hbytes : bytes.Fits)
    (hop : readOperation u.header.encoding bytes = .ok op j)
    (honly : readOnlyOperation? u.header.encoding bytes = .ok (some op) k)
    (h : expressionValue s u bytes = .ok value) (a : Nat) :
    value.location? = some a ↔
      op = .address a ∨ ∃ n, op = .addressIndex n ∧ addressAt s u n = .ok a := by
  unfold expressionValue at h
  rw [honly] at h
  cases op with
  | address x =>
    obtain rfl := Except.ok.inj h
    have hlt := (bytes_of_address hbytes hop).2
    simp [AttrValue.location?, toNat_ofNat_of_isAddressSize hu.addressSize hlt]
  | addressIndex n =>
    cases hx : addressAt s u n with
    | error fault => simp [hx, bind, Except.bind] at h
    | ok x =>
      obtain rfl : .address (UInt64.ofNat x) = value := by
        simpa [hx, bind, Except.bind, pure, Except.pure] using h
      have hlt := lt_of_addressAt hx
      simp [AttrValue.location?, toNat_ofNat_of_isAddressSize hu.addressSize hlt, hx]
  | plusConstant n =>
    obtain rfl := Except.ok.inj h
    simp [AttrValue.location?]
  | other =>
    obtain rfl := Except.ok.inj h
    have hnone : Entry.expressionAddress? bytes.bytes ≠ some a := by
      intro h
      obtain ⟨operand, hcons, -⟩ := expressionAddress?_eq_some.mp h
      obtain ⟨_, ⟨⟩, -⟩ := address_of_bytes hbytes hcons hop
    simpa [AttrValue.location?] using hnone

theorem location?_of_bytes (honly : readOnlyOperation? u.header.encoding bytes = .ok none k)
    (h : expressionValue s u bytes = .ok value) :
    value.location? = Entry.expressionAddress? bytes.bytes := by
  unfold expressionValue at h
  rw [honly] at h
  obtain rfl := Except.ok.inj h
  rfl

theorem location?_expressionValue (hu : u.Sound) (hbytes : bytes.Fits)
    (h : expressionValue s u bytes = .ok value) (a : Nat) :
    value.location? = some a ↔
      IsAddress s u bytes a ∨ IsMistaken u.header.encoding bytes a := by
  cases honly : readOnlyOperation? u.header.encoding bytes with
  | error fault k =>
    unfold expressionValue at h
    rw [honly] at h
    cases h
  | ok found k =>
    rcases readOnlyOperation?_eq_ok honly with ⟨hempty, rfl⟩ | ⟨op, j, hop, rfl⟩
    · have hnil : bytes.bytes = [] := by
        have hle := Input.isEmpty_eq_true.mp hempty
        rw [← List.length_eq_zero_iff, hbytes.length_bytes, Input.remaining]
        omega
      simp [location?_of_bytes honly h, Entry.expressionAddress?, IsAddress, IsMistaken,
        not_operations_singleton hempty, hnil]
    · simp only [IsAddress, operations_singleton hop, isMistaken_iff hbytes hop]
      cases hj : j.isEmpty with
      | false =>
        -- More follows, so the value has forgotten how long an address is.
        rw [hj] at honly
        simp [location?_of_bytes honly h]
      | true =>
        rw [hj] at honly
        rw [location?_of_single hu hbytes hop honly h a]
        simp [eq_comm]

end Values

/-! ## Attributes -/

/-- The expression that the location comes from after one more attribute, if it does come from one.
Lists of locations are not kept. -/
def locationAfter (found : Option Input) (attr : Nat × FormValue) : Option Input :=
  if attr.1 = Attr.location.code then
    match attr.2 with
    | .block bytes | .expression bytes => some bytes
    | .unsigned _ | .signed _ | .flag _ => none
    | _ => found
  else found

/-- The expression for the location of an entry. Of several locations the last one counts. -/
def RawEntry.expression? (raw : RawEntry) : Option Input := raw.attrs.foldl locationAfter none

/-- The entry holds the value of the expression as its location, or has no location. -/
def Agrees (s : Sections) (u : RawUnit) (found : Option Input) (e : Entry) : Prop :=
  match found with
  | none => e.location? = none
  | some bytes =>
    bytes.Fits ∧ ∃ value, e.attr? .location = some value ∧ expressionValue s u bytes = .ok value

section Attributes

variable {s : Sections} {u : RawUnit} {e e' : Entry} {found : Option Input}

theorem Agrees.of_attr? (h : Agrees s u found e) (heq : e'.attr? .location = e.attr? .location) :
    Agrees s u found e' := by
  unfold Agrees at h ⊢
  rwa [Entry.location?_eq, heq, ← Entry.location?_eq]

theorem agrees_set_location {given : FormValue} {value? : Option AttrValue} (hfits : given.Fits)
    (h : attrValue s u .location given = .ok value?) (hfound : Agrees s u found e) :
    Agrees s u (locationAfter found (Attr.location.code, given))
      (value?.elim e (e.set .location)) := by
  cases given with
  | block bytes | expression bytes =>
    obtain ⟨value, hvalue, rfl⟩ := map_eq_ok.mp h
    exact ⟨hfits, value, e.attr?_set, hvalue⟩
  | unsigned n | signed n | flag b =>
    obtain rfl := Except.ok.inj h
    simp [Agrees, locationAfter, Entry.location?_eq, AttrValue.location?, constantValue, isMeasure]
  | _ =>
    obtain rfl := Except.ok.inj h
    exact hfound

theorem agrees_addAttr {attr : Nat × FormValue} (hfits : attr.2.Fits)
    (h : addAttr s u e attr = .ok e') (hfound : Agrees s u found e) :
    Agrees s u (locationAfter found attr) e' := by
  obtain ⟨code, given⟩ := attr
  rcases addAttr_cases h .location with ⟨rfl, value?, hvalue, rfl⟩ | ⟨hcode, hkept⟩
  · exact agrees_set_location hfits hvalue hfound
  · have hsame : locationAfter found (code, given) = found := if_neg hcode
    rw [hsame]
    rcases hkept with rfl | ⟨other, value, hne, rfl⟩
    · exact hfound
    · exact hfound.of_attr? (Entry.attr?_set_of_ne hne e)

theorem agrees_foldlM {attrs : List (Nat × FormValue)} (hfits : ∀ attr ∈ attrs, attr.2.Fits)
    (h : attrs.foldlM (addAttr s u) e = .ok e') (hfound : Agrees s u found e) :
    Agrees s u (attrs.foldl locationAfter found) e' :=
  foldl_of_foldlM (fun attr hattr _ _ _ hfound h => agrees_addAttr (hfits attr hattr) h hfound)
    hfound h

theorem location?_of_loads {p : RawUnit × Option RawEntry} (hunit : p.1.Sound)
    (hraw : ∀ raw ∈ p.2, raw.Fits) (h : Loads s p e) (a : Nat) :
    e.location? = some a ↔
      ∃ bytes, p.2.bind RawEntry.expression? = some bytes ∧
        (IsAddress s p.1 bytes a ∨ IsMistaken p.1.header.encoding bytes a) := by
  obtain ⟨u, raw?⟩ := p
  cases raw? with
  | none =>
    obtain rfl := Except.ok.inj h
    simp [Entry.location?, Entry.null, Entry.attr?]
  | some raw =>
    -- An entry starts without attributes, so without a location.
    have hagrees : Agrees s u raw.expression? e := agrees_foldlM (hraw raw rfl) h rfl
    rw [Option.bind_some]
    cases hfound : raw.expression? with
    | none =>
      rw [hfound] at hagrees
      simp [show e.location? = none from hagrees]
    | some bytes =>
      rw [hfound] at hagrees
      obtain ⟨hbytes, value, hattr, hvalue⟩ := hagrees
      rw [Entry.location?_eq, hattr, Option.bind_some,
        location?_expressionValue hunit hbytes hvalue a]
      simp

end Attributes
end Dwarf

/-! ## Variables -/

namespace DebugFile

open Dwarf

/-- What a raw entry comes to. It has a static address if its expression is a single operation that
gives one, or is mistaken for that, which takes addresses of less than eight bytes. A variable is at
the static address, and without one there is no variable. -/
structure Located (s : Sections) (p : RawUnit × Option RawEntry) (e : Entry) : Prop where
  location : ∀ a, e.location? = some a ↔
    ∃ bytes, p.2.bind RawEntry.expression? = some bytes ∧
      (IsAddress s p.1 bytes a ∨ IsMistaken p.1.header.encoding bytes a)
  location_eight : p.1.header.encoding.addressSize = 8 → ∀ a, e.location? = some a →
    ∃ bytes, p.2.bind RawEntry.expression? = some bytes ∧ IsAddress s p.1 bytes a
  noLocation : e.location? = none → ∀ t c, Variable.ofEntry t e c =
    .error (Error.noLocation e.label) c
  address : ∀ t c v d, Variable.ofEntry t e c = .ok v d → e.location? = some v.address

theorem located_of_loads {s : Sections} {p : RawUnit × Option RawEntry} {e : Entry}
    (hunit : p.1.Sound) (hraw : ∀ raw ∈ p.2, raw.Fits) (h : Loads s p e) : Located s p e := by
  have hlocation := location?_of_loads hunit hraw h
  refine ⟨hlocation, ?_, ?_, ?_⟩
  · intro height a ha
    obtain ⟨bytes, hbytes, haddress | hmistaken⟩ := (hlocation a).mp ha
    · exact ⟨bytes, hbytes, haddress⟩
    · have hlt := hmistaken.addressSize_lt
      omega
  · intro hnone t c
    unfold Variable.ofEntry
    rw [hnone]
    rfl
  · intro t c v d hv
    obtain ⟨address, l, haddress, -, rfl⟩ := Stream.ofEntry_eq_ok.mp hv
    exact haddress

/-- Whatever file is loaded, what its entries have for static addresses are the addresses of their
expressions, or the bytes of an expression that is mistaken for an address. -/
theorem located_of_load {inflate : Elf.Inflate} {data : ByteArray} {stream : Stream}
    (h : load inflate data = .ok stream) :
    ∃ s units, units? inflate data = some (s, units) ∧
      List.Forall₂ (Located s) (units.toList.flatMap RawUnit.placed) stream.entries.toList := by
  obtain ⟨s, units, hunits, hloads⟩ := loads_of_load h
  refine ⟨s, units, hunits, ?_⟩
  refine ((List.forall₂_and_left _ _).mpr ⟨sound_of_placed hunits, hloads⟩).imp ?_
  rintro p e ⟨⟨hunit, hraw⟩, he⟩
  exact located_of_loads hunit hraw he

/-- A file for 32 bits with the variables `x`, whose location is the address 0x1000, and `y`, whose
location is the sum of this address and 8. -/
def sums : ByteArray := ⟨#[
  0x7f, 0x45, 0x4c, 0x46, 1, 1, 1, 0, 0, 0, 0, 0, 0, 0, 0, 0,
  1, 0, 3, 0, 1, 0, 0, 0, 0, 0, 0, 0, 0, 0, 0, 0,
  0x9e, 0, 0, 0, 0, 0, 0, 0, 0x34, 0, 0, 0, 0, 0, 0x28, 0,
  4, 0, 3, 0, 0x2f, 0, 0, 0, 4, 0, 0, 0, 0, 0, 4, 1,
  0x61, 0x2e, 0x63, 0, 3, 0x69, 0x6e, 0x74, 0, 4, 2, 0x78, 0, 0x10, 0, 0,
  0, 5, 3, 0, 0x10, 0, 0, 2, 0x79, 0, 0x10, 0, 0, 0, 7, 3,
  0, 0x10, 0, 0, 0x23, 8, 0, 1, 0x11, 1, 3, 8, 0, 0, 2, 0x34,
  0, 3, 8, 0x49, 0x13, 2, 0x18, 0, 0, 3, 0x24, 0, 3, 8, 0x0b, 0x0b,
  0, 0, 0, 0, 0x2e, 0x64, 0x65, 0x62, 0x75, 0x67, 0x5f, 0x69, 0x6e, 0x66, 0x6f, 0,
  0x2e, 0x64, 0x65, 0x62, 0x75, 0x67, 0x5f, 0x61, 0x62, 0x62, 0x72, 0x65, 0x76, 0, 0, 0,
  0, 0, 0, 0, 0, 0, 0, 0, 0, 0, 0, 0, 0, 0, 0, 0,
  0, 0, 0, 0, 0, 0, 0, 0, 0, 0, 0, 0, 0, 0, 0, 0,
  0, 0, 0, 0, 0, 0, 1, 0, 0, 0, 1, 0, 0, 0, 0, 0,
  0, 0, 0, 0, 0, 0, 0x34, 0, 0, 0, 0x33, 0, 0, 0, 0, 0,
  0, 0, 0, 0, 0, 0, 1, 0, 0, 0, 0, 0, 0, 0, 0x0d, 0,
  0, 0, 1, 0, 0, 0, 0, 0, 0, 0, 0, 0, 0, 0, 0x67, 0,
  0, 0, 0x1c, 0, 0, 0, 0, 0, 0, 0, 0, 0, 0, 0, 1, 0,
  0, 0, 0, 0, 0, 0, 0, 0, 0, 0, 3, 0, 0, 0, 0, 0,
  0, 0, 0, 0, 0, 0, 0x83, 0, 0, 0, 0x1b, 0, 0, 0, 0, 0,
  0, 0, 0, 0, 0, 0, 1, 0, 0, 0, 0, 0, 0, 0]⟩

theorem load_sums :
    ∃ stream x y, load inflateStored sums = .ok stream ∧
      stream.entries[2]? = some x ∧ x.location? = some 0x1000 ∧
      stream.entries[3]? = some y ∧ y.location? = some 0x82300001000 := by
  have hentries : ((load inflateStored sums).toOption.bind fun stream =>
      stream.entries[2]?.bind fun x => stream.entries[3]?.map fun y => (x.location?, y.location?)) =
      some (some 0x1000, some 0x82300001000) := by
    decide +kernel
  simp only [Option.bind_eq_some_iff, Option.map_eq_some_iff, Prod.mk.injEq] at hentries
  obtain ⟨stream, hload, x, hx, y, hy, hxat, hyat⟩ := hentries
  exact ⟨stream, x, y, toOption_eq_some.mp hload, hx, hxat, hy, hyat⟩

theorem located_of_load_sums :
    ∃ stream x, load inflateStored sums = .ok stream ∧
      stream.entries[2]? = some x ∧ x.location? = some 0x1000 ∧
      ∃ s units, units? inflateStored sums = some (s, units) ∧
        List.Forall₂ (Located s) (units.toList.flatMap RawUnit.placed) stream.entries.toList := by
  obtain ⟨stream, x, -, hload, hx, hxat, -⟩ := load_sums
  exact ⟨stream, x, hload, hx, hxat, located_of_load hload⟩

/-- The location of `y` is an expression of two operations, and yet the variable has an address: all
that follows the first code is read as if it were the address. -/
theorem location_of_sum :
    ∃ s units stream u raw bytes e,
      units? inflateStored sums = some (s, units) ∧ load inflateStored sums = .ok stream ∧
      (units.toList.flatMap RawUnit.placed)[3]? = some (u, some raw) ∧
      stream.entries[3]? = some e ∧ raw.expression? = some bytes ∧
      Operations u.header.encoding bytes [.address 0x1000, .plusConstant 8] ∧
      e.location? = some 0x82300001000 := by
  have hraw : ((units? inflateStored sums).bind fun p =>
      (p.2.toList.flatMap RawUnit.placed)[3]?.bind fun q =>
      q.2.bind fun raw => raw.expression?.map fun bytes =>
        let step := readOperation q.1.header.encoding
        (result? step bytes, result? step (after step bytes),
          (after step (after step bytes)).isEmpty)) =
      some (some (.address 0x1000), some (.plusConstant 8), true) := by
    decide +kernel
  simp only [Option.bind_eq_some_iff, Option.map_eq_some_iff, Prod.mk.injEq] at hraw
  obtain ⟨⟨s, units⟩, hunits, ⟨u, _⟩, hplaced, raw, rfl, bytes, hbytes, hfirst, hsecond, hend⟩ :=
    hraw
  obtain ⟨stream, -, y, hload, -, -, hy, hyat⟩ := load_sums
  have hops := Operations.cons (ok_of_result? hfirst) (.cons (ok_of_result? hsecond) (.nil hend))
  exact ⟨s, units, stream, u, raw, bytes, y, hunits, hload, hplaced, hy, hbytes, hops, hyat⟩

end DebugFile
end DwarfScope
