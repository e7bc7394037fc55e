import DwarfScope.DebugFile
import DwarfScope.Proofs.Attributes
import DwarfScope.Proofs.Dwarf.Units
import Mathlib.Data.List.Forall2

/-!
# From raw entries to entries

A loaded stream has an entry for every raw entry of the units in the file, in the same order.
-/

namespace DwarfScope

namespace Effect

variable {ε α β : Type} {f : α → Except ε β}

theorem forall₂_of_mapM {as : List α} {bs : List β} (h : as.mapM f = .ok bs) :
    List.Forall₂ (fun a b => f a = .ok b) as bs := by
  induction as generalizing bs with
  | nil =>
    cases h
    exact .nil
  | cons a as ih =>
    rw [List.mapM_cons] at h
    cases ha : f a with
    | error e => simp [ha, bind, Except.bind] at h
    | ok b =>
      cases has : as.mapM f with
      | error e => simp [ha, has, bind, Except.bind] at h
      | ok rest =>
        obtain rfl : b :: rest = bs := by
          simpa [ha, has, bind, Except.bind, pure, Except.pure] using h
        exact .cons ha (ih has)

theorem forall₂_of_array_mapM {as : Array α} {bs : Array β} (h : as.mapM f = .ok bs) :
    List.Forall₂ (fun a b => f a = .ok b) as.toList bs.toList := by
  apply forall₂_of_mapM
  rw [← Array.toList_mapM, h]
  rfl

theorem foldl_of_foldlM {f : β → α → Except ε β} {γ : Type} {g : γ → α → γ} {I : γ → β → Prop}
    {as : List α} {b b' : β} {c : γ}
    (step : ∀ a ∈ as, ∀ c b b', I c b → f b a = .ok b' → I (g c a) b') (hI : I c b)
    (h : as.foldlM f b = .ok b') : I (as.foldl g c) b' := by
  induction as generalizing b c with
  | nil =>
    obtain rfl := Except.ok.inj h
    exact hI
  | cons a as ih =>
    rw [List.foldlM_cons] at h
    cases ha : f b a with
    | error e =>
      rw [ha] at h
      cases h
    | ok b₁ =>
      rw [ha] at h
      have hfirst := step a List.mem_cons_self c b b₁ hI ha
      exact ih (fun x hx => step x (List.mem_cons_of_mem a hx)) hfirst h

end Effect

open Effect

namespace Dwarf

variable {s : Sections} {u : RawUnit} {e e' : Entry}

/-! ## Attributes -/

theorem ofCode?_eq_some {code : Nat} {attr : Attr} :
    Attr.ofCode? code = some attr ↔ attr.code = code := by
  constructor
  · intro h
    simpa using List.find?_some h
  · rintro rfl
    cases attr <;> rfl

theorem addAttr_eq_ok {raw : Nat × FormValue} :
    addAttr s u e raw = .ok e' ↔
      match Attr.ofCode? raw.1 with
      | none => e' = e
      | some attr => ∃ value?, attrValue s u attr raw.2 = .ok value? ∧
          e' = value?.elim e (e.set attr) := by
  unfold addAttr
  cases Attr.ofCode? raw.1 with
  | none => simp [eq_comm]
  | some attr =>
    cases hvalue : attrValue s u attr raw.2 with
    | error fault => simp [hvalue, bind, Except.bind]
    | ok value? =>
      cases value? <;> simp [hvalue, bind, Except.bind, pure, Except.pure, eq_comm]

theorem addAttr_cases {raw : Nat × FormValue} (h : addAttr s u e raw = .ok e') (attr : Attr) :
    raw.1 = attr.code ∧ (∃ value?, attrValue s u attr raw.2 = .ok value? ∧
      e' = value?.elim e (e.set attr)) ∨
    raw.1 ≠ attr.code ∧ (e' = e ∨ ∃ other value, attr ≠ other ∧ e' = e.set other value) := by
  rw [addAttr_eq_ok] at h
  by_cases hcode : raw.1 = attr.code
  · rw [ofCode?_eq_some.mpr hcode.symm] at h
    exact .inl ⟨hcode, h⟩
  · refine .inr ⟨hcode, ?_⟩
    split at h
    case h_1 => exact .inl h
    case h_2 other hother =>
      have hne : attr ≠ other := by
        rintro rfl
        exact hcode (ofCode?_eq_some.mp hother).symm
      obtain ⟨value?, -, rfl⟩ := h
      cases value? with
      | none => exact .inl rfl
      | some value => exact .inr ⟨other, value, hne, rfl⟩

/-! ## Entries -/

/-- The raw entries of a unit in their order, none for a null entry. -/
def RawUnit.placed (u : RawUnit) : List (RawUnit × Option RawEntry) := u.entries.toList.map (u, ·)

theorem mem_placed {us : List RawUnit} {p : RawUnit × Option RawEntry} :
    p ∈ us.flatMap RawUnit.placed ↔ p.1 ∈ us ∧ p.2 ∈ p.1.entries.toList := by
  obtain ⟨u, raw?⟩ := p
  simp [RawUnit.placed, and_comm]

/-- What becomes of a raw entry of a unit. -/
def Loads (s : Sections) (p : RawUnit × Option RawEntry) (e : Entry) : Prop :=
  loadEntry s p.1 p.1.offset p.2 = .ok e

theorem loads_of_loadUnit {s : Sections} {u : RawUnit} {entries : Array Entry}
    (h : loadUnit s u = .ok entries) : List.Forall₂ (Loads s) u.placed entries.toList :=
  List.forall₂_map_left_iff.mpr (forall₂_of_array_mapM h)

theorem loads_of_loadEntries {s : Sections} {entries : Array Entry}
    (h : loadEntries s = .ok entries) :
    ∃ units i, readUnits s (.ofSection s.order s.info) = .ok units i ∧
      List.Forall₂ (Loads s) (units.toList.flatMap RawUnit.placed) entries.toList := by
  unfold loadEntries at h
  split at h
  · cases h
  case h_2 units i hunits =>
    refine ⟨units, i, hunits, ?_⟩
    cases hloaded : units.mapM (loadUnit s) with
    | error fault =>
      rw [hloaded] at h
      cases h
    | ok loaded =>
      rw [hloaded] at h
      obtain rfl : loaded.flatten = entries := Except.ok.inj h
      rw [Array.toList_flatten, List.flatMap_def]
      apply List.rel_flatten
      rw [List.forall₂_map_left_iff, List.forall₂_map_right_iff]
      exact (forall₂_of_array_mapM hloaded).imp fun _ _ => loads_of_loadUnit

end Dwarf

namespace DebugFile

open Dwarf

variable {inflate : Elf.Inflate} {data : ByteArray}

/-- The sections of an object file and the units in them. -/
def units? (inflate : Elf.Inflate) (data : ByteArray) : Option (Sections × Array RawUnit) :=
  match Object.read data with
  | .ok (.inl file) => match Sections.ofElf inflate file with
    | .ok s => match readUnits s (.ofSection s.order s.info) with
      | .ok units _ => some (s, units)
      | .error .. => none
    | .error _ => none
  | _ => none

theorem loads_of_load {stream : Stream} (h : load inflate data = .ok stream) :
    ∃ s units, units? inflate data = some (s, units) ∧
      List.Forall₂ (Loads s) (units.toList.flatMap RawUnit.placed) stream.entries.toList := by
  unfold load at h
  split at h
  · cases h
  · cases h
  case h_3 file hfile =>
    split at h
    · cases h
    case h_2 s hs =>
      split at h
      · cases h
      case h_2 entries hentries =>
        cases h
        obtain ⟨units, i, hunits, hloads⟩ := loads_of_loadEntries hentries
        refine ⟨s, units, ?_, hloads⟩
        simp only [units?, hfile, hs, hunits]

theorem readUnits_of_units? {s : Sections} {units : Array RawUnit}
    (h : units? inflate data = some (s, units)) :
    ∃ i, readUnits s (.ofSection s.order s.info) = .ok units i := by
  unfold units? at h
  split at h
  case h_2 => cases h
  split at h
  case h_2 => cases h
  split at h
  case h_2 => cases h
  case h_1 i hunits =>
    cases h
    exact ⟨i, hunits⟩

theorem sound_of_units? {s : Sections} {units : Array RawUnit}
    (h : units? inflate data = some (s, units)) : ∀ u ∈ units, u.Sound := by
  obtain ⟨i, hunits⟩ := readUnits_of_units? h
  exact (readUnits_yields s _ _ _ (.ofSection ..) hunits).2

theorem sound_of_placed {s : Sections} {units : Array RawUnit}
    (h : units? inflate data = some (s, units)) :
    ∀ p ∈ units.toList.flatMap RawUnit.placed, p.1.Sound ∧ ∀ raw ∈ p.2, raw.Fits := by
  intro p hp
  obtain ⟨hu, hraw⟩ := mem_placed.mp hp
  have hsound := sound_of_units? h p.1 (Array.mem_def.mpr hu)
  refine ⟨hsound, fun raw h => hsound.fits raw ?_⟩
  exact Array.mem_def.mpr (Option.mem_def.mp h ▸ hraw)

/-- Inflates zlib data that holds its contents as they are: behind two bytes of header a single
block, which starts with a byte of its own and the length, given twice. -/
def inflateStored : Elf.Inflate
  | .zlib, _, data => match data.data.toList with
    | 0x78 :: _ :: 1 :: low :: high :: _ :: _ :: rest =>
      some ⟨(rest.take (low.toNat + 256 * high.toNat)).toArray⟩
    | _ => none
  | .zstd, _, _ => none

end DebugFile
end DwarfScope
