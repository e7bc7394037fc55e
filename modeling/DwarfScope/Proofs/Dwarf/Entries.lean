import DwarfScope.Proofs.Dwarf.Positions
import DwarfScope.Proofs.Stream.Revisits

/-!
# Loaded entries

What a loaded stream keeps of the raw entries: where they stand, which unit they belong to, and
what they refer to.
-/

namespace DwarfScope

namespace Entry

variable {attr : Attr} {value : AttrValue} {attrs : List (Attr × AttrValue)}

theorem keys_setIn (attr : Attr) (value : AttrValue) (attrs : List (Attr × AttrValue)) :
    (setIn attr value attrs).map Prod.fst =
      if attr ∈ attrs.map Prod.fst then attrs.map Prod.fst else attrs.map Prod.fst ++ [attr] := by
  induction attrs with
  | nil => rfl
  | cons first rest ih =>
    obtain ⟨a, v⟩ := first
    by_cases ha : a = attr
    · simp [setIn, ha]
    · have hmem : attr ∈ (a :: rest.map Prod.fst) ↔ attr ∈ rest.map Prod.fst := by
        simp [Ne.symm ha]
      simp only [setIn, ha, if_false, List.map_cons, ih, hmem]
      split <;> rfl

theorem nodup_setIn (h : (attrs.map Prod.fst).Nodup) :
    ((setIn attr value attrs).map Prod.fst).Nodup := by
  rw [keys_setIn]
  split
  case isTrue => exact h
  case isFalse hmem => exact List.nodup_append.mpr ⟨h, by simp, by grind⟩

end Entry

theorem Tag.ofCode_ne_null {code : UInt16} (h : code ≠ 0) : ofCode code ≠ .null := by
  have hcode : code.toNat ≠ 0 := fun h' => h (UInt16.toNat_inj.mp h')
  unfold ofCode
  split
  case h_1 heq => exact absurd heq hcode
  all_goals simp

namespace Dwarf

variable {s : Sections} {u : RawUnit} {e e' : Entry} {raw : RawEntry} {found : Option Nat}

/-! ## References -/

/-- The entry that is referred to as the type, by a unit that starts at `start`: a place in the
unit, or one in the section. -/
def referenceAfter (start : Nat) (found : Option Nat) : Nat × FormValue → Option Nat
  | (code, given) =>
    if code = Attr.type.code then
      match given with
      | .unitReference n => some (start + n)
      | .sectionReference n => some n
      | _ => found
    else found

/-- Of several references the last one counts. -/
def RawEntry.reference? (raw : RawEntry) (start : Nat) : Option Nat :=
  raw.attrs.foldl (referenceAfter start) none

/-- What an entry has before and after each of its attributes is added. -/
structure Carries (u : RawUnit) (raw : RawEntry) (found : Option Nat) (e : Entry) : Prop where
  offset : e.offset = raw.offset
  tag : e.tag = Tag.ofCode raw.tag
  unit : e.unit = u.offset
  nodup : (e.attrs.map Prod.fst).Nodup
  type : e.attr? .type = found.map .ref

theorem Carries.set (h : Carries u raw found e) {attr : Attr} {value : AttrValue}
    {found' : Option Nat} (htype : (e.set attr value).attr? .type = found'.map .ref) :
    Carries u raw found' (e.set attr value) :=
  ⟨h.offset, h.tag, h.unit, Entry.nodup_setIn h.nodup, htype⟩

theorem Carries.addAttr {attr : Nat × FormValue} (h : Carries u raw found e)
    (hadd : addAttr s u e attr = .ok e') :
    Carries u raw (referenceAfter u.header.start found attr) e' := by
  obtain ⟨code, given⟩ := attr
  rcases addAttr_cases hadd .type with ⟨hcode, value?, hvalue, rfl⟩ | ⟨hcode, hother⟩
  · obtain rfl : code = Attr.type.code := hcode
    cases given with
    | unitReference n | sectionReference n =>
      obtain rfl := Except.ok.inj hvalue
      exact h.set (Entry.attr?_set e)
    | _ =>
      obtain rfl := Except.ok.inj hvalue
      exact h
  · have hsame : referenceAfter u.header.start found (code, given) = found := if_neg hcode
    rw [hsame]
    rcases hother with rfl | ⟨other, value, hne, rfl⟩
    · exact h
    · exact h.set ((Entry.attr?_set_of_ne hne e).trans h.type)

theorem carries_of_loads (h : Loads s (u, some raw) e) :
    Carries u raw (raw.reference? u.header.start) e := by
  have hstart : Carries u raw none
      { offset := raw.offset, tag := Tag.ofCode raw.tag, children := raw.children,
        unit := u.offset } :=
    ⟨rfl, rfl, rfl, .nil, rfl⟩
  exact Effect.foldl_of_foldlM (fun _ _ _ _ _ hcarries hadd => hcarries.addAttr hadd) hstart h

/-! ## Places -/

/-- What a raw entry of a unit is loaded as. The unit of the entry is known by its first entry, and
a place in the unit is counted from the start of the section. -/
structure Placed (p : RawUnit × Option RawEntry) (e : Entry) : Prop where
  null : e.isNull = true ↔ p.2 = none
  offset : ∀ raw ∈ p.2, e.offset = raw.offset
  unit : ∀ raw ∈ p.2, p.1.raws.head?.map RawEntry.offset = some e.unit
  type : ∀ raw ∈ p.2, e.typeRef? = raw.reference? p.1.header.start
  nodup : (e.attrs.map Prod.fst).Nodup

theorem RawUnit.Spans.exists_root {start stop : Nat} (h : u.Spans start stop) :
    ∃ root nulls rest, u.root? = some root ∧ u.entries.toList = nulls ++ some root :: rest ∧
      (∀ raw? ∈ nulls, raw? = none) ∧ u.offset = root.offset := by
  obtain ⟨root, hroot⟩ := h.root
  have hfound := hroot
  rw [RawUnit.root?, findRoot?, ← Array.findSome?_toList, List.findSome?_eq_some_iff] at hfound
  obtain ⟨nulls, _, rest, hentries, rfl, hnulls⟩ := hfound
  refine ⟨root, nulls, rest, hroot, hentries, hnulls, ?_⟩
  rw [RawUnit.offset, hroot]
  rfl

theorem reduceOption_nulls {nulls : List (Option RawEntry)} (h : ∀ raw? ∈ nulls, raw? = none) :
    nulls.reduceOption = [] :=
  List.filterMap_eq_nil_iff.mpr h

theorem RawUnit.Spans.head_raws {start stop : Nat} (h : u.Spans start stop) :
    u.raws.head?.map RawEntry.offset = some u.offset := by
  obtain ⟨root, nulls, rest, -, hentries, hnulls, hoffset⟩ := h.exists_root
  rw [raws, hentries, List.reduceOption_append, reduceOption_nulls hnulls,
    List.reduceOption_cons_of_some, hoffset]
  rfl

theorem placed_of_loads {start stop : Nat} {p : RawUnit × Option RawEntry}
    (hspans : p.1.Spans start stop) (hp : ∀ raw ∈ p.2, raw ∈ p.1.raws) (h : Loads s p e) :
    Placed p e := by
  obtain ⟨u, raw?⟩ := p
  cases raw? with
  | none =>
    obtain rfl := Except.ok.inj h
    exact ⟨by simp [Entry.isNull, Entry.null], by simp, by simp, by simp, .nil⟩
  | some raw =>
    have hcarries := carries_of_loads h
    have htag := Tag.ofCode_ne_null (hspans.tag_ne raw (hp raw rfl))
    constructor
    · simp [Entry.isNull, hcarries.tag, htag]
    · rintro _ ⟨⟩
      exact hcarries.offset
    · rintro _ ⟨⟩
      rw [hcarries.unit]
      exact hspans.head_raws
    · rintro _ ⟨⟩
      rw [Entry.typeRef?, hcarries.type]
      cases raw.reference? u.header.start <;> rfl
    · exact hcarries.nodup

theorem offsets_of_placed {ps : List (RawUnit × Option RawEntry)} {es : List Entry}
    (h : List.Forall₂ Placed ps es) :
    (es.filter (!·.isNull)).map Entry.offset = (ps.filterMap Prod.snd).map RawEntry.offset := by
  induction h with
  | nil => rfl
  | @cons p e ps es hp _ ih =>
    obtain ⟨u, raw?⟩ := p
    cases raw? with
    | none =>
      have hnull : e.isNull = true := hp.null.mpr rfl
      simp [hnull, ih]
    | some raw =>
      have hnull : e.isNull = false := by
        rw [Bool.eq_false_iff]
        intro h
        cases hp.null.mp h
      simp [hnull, ih, hp.offset raw rfl]

theorem filterMap_placed (us : List RawUnit) :
    (us.flatMap RawUnit.placed).filterMap Prod.snd = us.flatMap RawUnit.raws := by
  induction us with
  | nil => rfl
  | cons u us ih =>
    simp only [List.flatMap_cons, List.filterMap_append, ih, RawUnit.placed, List.filterMap_map,
      RawUnit.raws, List.reduceOption]
    rfl

theorem ordered_of_placed {us : List RawUnit} {start stop : Nat} {stream : Stream}
    (htiled : Tiled start us stop)
    (h : List.Forall₂ Placed (us.flatMap RawUnit.placed) stream.entries.toList) :
    stream.Ordered := by
  have hoffsets := offsets_of_placed h
  rw [filterMap_placed] at hoffsets
  obtain ⟨hinside, hgrowing⟩ := htiled.raws
  constructor
  · intro e he hnull
    have hmem : e.offset ∈ (us.flatMap RawUnit.raws).map RawEntry.offset := by
      rw [← hoffsets]
      exact List.mem_map_of_mem (List.mem_filter.mpr ⟨he, by simp [hnull]⟩)
    obtain ⟨raw, hraw, hoffset⟩ := List.mem_map.mp hmem
    have := (hinside raw hraw).1
    omega
  · have hpairwise := List.pairwise_map.mpr hgrowing
    rw [← hoffsets, List.pairwise_map, List.pairwise_filter] at hpairwise
    refine hpairwise.imp fun {a b} h ha hb => h ?_ ?_
    · simp [ha]
    · simp [hb]

theorem hasOffset_of_placed {us : List RawUnit} {start stop offset : Nat} {stream : Stream}
    (htiled : Tiled start us stop)
    (h : List.Forall₂ Placed (us.flatMap RawUnit.placed) stream.entries.toList) (hu : u ∈ us)
    (hoffset : u.raws.head?.map RawEntry.offset = some offset) : stream.HasOffset offset := by
  obtain ⟨_, _, hspans⟩ := htiled.spans hu
  obtain ⟨root, nulls, rest, -, hentries, -, hroot⟩ := hspans.exists_root
  have hmem : (u, some root) ∈ us.flatMap RawUnit.placed := by
    refine mem_placed.mpr ⟨hu, ?_⟩
    rw [hentries]
    exact List.mem_append_right nulls List.mem_cons_self
  obtain ⟨k, hk, hget⟩ := List.mem_iff_getElem.mp hmem
  have hk' : k < stream.entries.toList.length := h.length_eq ▸ hk
  have hplaced := h.get hk hk'
  rw [List.get_eq_getElem, hget] at hplaced
  have hnull : stream.entries.toList[k].isNull = false := by
    rw [Bool.eq_false_iff]
    intro hnull
    cases hplaced.null.mp hnull
  refine .inr ⟨k, stream.entries.toList[k], ⟨?_, hnull⟩, ?_⟩
  · rw [← Array.getElem?_toList]
    exact List.getElem?_eq_getElem hk'
  · rw [hspans.head_raws, Option.some.injEq, hroot] at hoffset
    exact (hplaced.offset root rfl).trans hoffset

end Dwarf

/-! ## Loaded streams -/

namespace DebugFile

open Dwarf

variable {inflate : Elf.Inflate} {data : ByteArray} {s : Sections} {units : Array RawUnit}
  {stream : Stream}

theorem tiled_of_units? (h : units? inflate data = some (s, units)) :
    Tiled 0 units.toList s.info.size := by
  obtain ⟨i, hunits⟩ := readUnits_of_units? h
  exact readUnits_tiled hunits

theorem placed_of_load (h : load inflate data = .ok stream) :
    ∃ s units, units? inflate data = some (s, units) ∧ Tiled 0 units.toList s.info.size ∧
      List.Forall₂ Placed (units.toList.flatMap RawUnit.placed) stream.entries.toList := by
  obtain ⟨s, units, hunits, hloads⟩ := loads_of_load h
  have htiled := tiled_of_units? hunits
  refine ⟨s, units, hunits, htiled, ?_⟩
  have hspans : ∀ p ∈ units.toList.flatMap RawUnit.placed,
      (∃ start stop, p.1.Spans start stop) ∧ ∀ raw ∈ p.2, raw ∈ p.1.raws := by
    intro p hp
    obtain ⟨hu, hraw⟩ := mem_placed.mp hp
    refine ⟨htiled.spans hu, fun raw h => List.reduceOption_mem_iff.mpr ?_⟩
    exact Option.mem_def.mp h ▸ hraw
  refine ((List.forall₂_and_left _ _).mpr ⟨hspans, hloads⟩).imp ?_
  rintro p e ⟨⟨⟨start, stop, hp⟩, hraws⟩, he⟩
  exact placed_of_loads hp hraws he

theorem ordered_of_load (h : load inflate data = .ok stream) : stream.Ordered := by
  obtain ⟨s, units, -, htiled, hplaced⟩ := placed_of_load h
  exact ordered_of_placed htiled hplaced

/-- Whatever file is loaded, a search comes back to the entry that it has found. -/
theorem revisits_of_load (h : load inflate data = .ok stream) : stream.Revisits := by
  obtain ⟨s, units, hunits, htiled, hplaced⟩ := placed_of_load h
  obtain ⟨_, _, hunits', hloads⟩ := loads_of_load h
  obtain ⟨rfl, rfl⟩ := Prod.mk.inj (Option.some.inj (hunits.symm.trans hunits'))
  apply Stream.revisits_of_belongs (ordered_of_load h).addressed
  intro i e he
  obtain ⟨hi, rfl⟩ := List.getElem?_eq_some_iff.mp (Array.getElem?_toList.trans he)
  have hi' : i < (units.toList.flatMap RawUnit.placed).length := hplaced.length_eq ▸ hi
  have hp := hplaced.get hi' hi
  have hl := hloads.get hi' hi
  obtain ⟨hu, -⟩ := mem_placed.mp (List.get_mem _ ⟨i, hi'⟩)
  generalize (units.toList.flatMap RawUnit.placed).get ⟨i, hi'⟩ = p at hp hl hu
  obtain ⟨u, _ | raw⟩ := p
  · exact .inl (Except.ok.inj hl).symm
  · refine .inr ⟨?_, hasOffset_of_placed htiled hplaced hu (hp.unit raw rfl)⟩
    rw [Bool.eq_false_iff]
    intro hnull
    cases hp.null.mp hnull

/-- Whatever file is loaded, seeking finds its way in the stream: the offsets grow, every entry is
what follows its offset, has one value for an attribute, and knows its unit and what it refers to by
places in the section, which the units share without a gap. -/
theorem entries_of_load (h : load inflate data = .ok stream) :
    stream.Ordered ∧
    (∀ i e c, stream.EntryAt i e →
      (do stream.seek e.offset; stream.next) c = .ok (some e) (.behind i)) ∧
    (∀ e ∈ stream.entries.toList, (e.attrs.map Prod.fst).Nodup) ∧
    ∃ s units, units? inflate data = some (s, units) ∧ Tiled 0 units.toList s.info.size ∧
      List.Forall₂ Placed (units.toList.flatMap RawUnit.placed) stream.entries.toList := by
  have hordered := ordered_of_load h
  obtain ⟨s, units, hunits, htiled, hplaced⟩ := placed_of_load h
  refine ⟨hordered, fun i e c he => ?_, ?_, s, units, hunits, htiled, hplaced⟩
  · apply Walk.outcome_eq_ok.mp
    rw [Walk.outcome_bind_of_ok (Stream.outcome_seek (hordered.addressed i e he))]
    exact Stream.outcome_next_some he.get
  · intro e he
    obtain ⟨i, hi, rfl⟩ := List.mem_iff_getElem.mp he
    exact (hplaced.get (hplaced.length_eq ▸ hi) hi).nodup

/-- A file with two units of one variable each, `x` in the first and `y` in the second. The type of
`y` is the place 17 in its unit, which starts at 31. Each unit starts with a null entry. The entries
are compressed in a section with a name of its own, the abbreviations in one with the flag. -/
def twoUnits : ByteArray := ⟨#[
  0x7f, 0x45, 0x4c, 0x46, 1, 1, 1, 0, 0, 0, 0, 0, 0, 0, 0, 0,
  1, 0, 3, 0, 1, 0, 0, 0, 0, 0, 0, 0, 0, 0, 0, 0,
  0xd8, 0, 0, 0, 0, 0, 0, 0, 0x34, 0, 0, 0, 0, 0, 0x28, 0,
  4, 0, 3, 0, 0x5a, 0x4c, 0x49, 0x42, 0, 0, 0, 0, 0, 0, 0, 0x3f,
  0x78, 1, 1, 0x3f, 0, 0xc0, 0xff, 0x1b, 0, 0, 0, 4, 0, 0, 0, 0,
  0, 4, 0, 1, 0x61, 0x2e, 0x63, 0, 2, 0x69, 0x6e, 0x74, 0, 4, 3, 0x78,
  0, 0x11, 0, 0, 0, 0, 0x1c, 0, 0, 0, 4, 0, 0, 0, 0, 0,
  4, 0, 1, 0x62, 0x2e, 0x63, 0, 2, 0x63, 0x68, 0x61, 0x72, 0, 1, 3, 0x79,
  0, 0x11, 0, 0, 0, 0, 0xb3, 0xad, 6, 0x3a, 1, 0, 0, 0, 0x1a, 0,
  0, 0, 1, 0, 0, 0, 0x78, 1, 1, 0x1a, 0, 0xe5, 0xff, 1, 0x11, 1,
  3, 8, 0, 0, 2, 0x24, 0, 3, 8, 0x0b, 0x0b, 0, 0, 3, 0x34, 0,
  3, 8, 0x49, 0x13, 0, 0, 0, 0x0b, 0x59, 1, 4, 0, 0x2e, 0x7a, 0x64, 0x65,
  0x62, 0x75, 0x67, 0x5f, 0x69, 0x6e, 0x66, 0x6f, 0, 0x2e, 0x64, 0x65, 0x62, 0x75, 0x67, 0x5f,
  0x61, 0x62, 0x62, 0x72, 0x65, 0x76, 0, 0, 0, 0, 0, 0, 0, 0, 0, 0,
  0, 0, 0, 0, 0, 0, 0, 0, 0, 0, 0, 0, 0, 0, 0, 0,
  0, 0, 0, 0, 0, 0, 0, 0, 0, 0, 0, 0, 0, 0, 0, 0,
  1, 0, 0, 0, 1, 0, 0, 0, 0, 0, 0, 0, 0, 0, 0, 0,
  0x34, 0, 0, 0, 0x56, 0, 0, 0, 0, 0, 0, 0, 0, 0, 0, 0,
  1, 0, 0, 0, 0, 0, 0, 0, 0x0e, 0, 0, 0, 1, 0, 0, 0,
  0, 8, 0, 0, 0, 0, 0, 0, 0x8a, 0, 0, 0, 0x31, 0, 0, 0,
  0, 0, 0, 0, 0, 0, 0, 0, 1, 0, 0, 0, 0, 0, 0, 0,
  0, 0, 0, 0, 3, 0, 0, 0, 0, 0, 0, 0, 0, 0, 0, 0,
  0xbb, 0, 0, 0, 0x1c, 0, 0, 0, 0, 0, 0, 0, 0, 0, 0, 0,
  1, 0, 0, 0, 0, 0, 0, 0]⟩

theorem load_twoUnits :
    ∃ stream y, load inflateStored twoUnits = .ok stream ∧ stream.EntryAt 8 y ∧
      y.offset = 55 ∧ y.unit = 43 ∧ y.typeRef? = some 48 := by
  have hentries : ((load inflateStored twoUnits).toOption.bind fun stream =>
      stream.entries[8]?.map fun y => (y.isNull, y.offset, y.unit, y.typeRef?)) =
        some (false, 55, 43, some 48) := by
    decide +kernel
  simp only [Option.bind_eq_some_iff, Option.map_eq_some_iff, Prod.mk.injEq] at hentries
  obtain ⟨stream, hload, y, hy, hnull, hoffset, hunit, htype⟩ := hentries
  exact ⟨stream, y, Effect.toOption_eq_some.mp hload, ⟨hy, hnull⟩, hoffset, hunit, htype⟩

theorem entries_of_load_twoUnits :
    ∃ stream y, load inflateStored twoUnits = .ok stream ∧
      y.offset = 55 ∧ y.unit = 43 ∧ y.typeRef? = some 48 ∧
      (do stream.seek 55; stream.next) {} = .ok (some y) (.behind 8) ∧ stream.Ordered ∧
      ∃ s units, units? inflateStored twoUnits = some (s, units) ∧
        Tiled 0 units.toList s.info.size ∧
        List.Forall₂ Placed (units.toList.flatMap RawUnit.placed) stream.entries.toList := by
  obtain ⟨stream, y, hload, hy, hoffset, hunit, htype⟩ := load_twoUnits
  obtain ⟨hordered, hseek, -, hplaced⟩ := entries_of_load hload
  exact ⟨stream, y, hload, hoffset, hunit, htype, hoffset ▸ hseek 8 y {} hy, hordered, hplaced⟩

end DebugFile
end DwarfScope
