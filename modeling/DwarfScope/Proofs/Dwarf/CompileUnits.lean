import DwarfScope.Proofs.Dwarf.Entries
import DwarfScope.Proofs.Explorer.Moves
import DwarfScope.Proofs.Stream.Units

/-!
# Compile units of a file

Each unit of a file gives a stream its root, by which a compile unit is listed and stepped into. A
loaded stream does not say where a unit ends, so a unit whose children are not closed hides the
units behind it.
-/

namespace DwarfScope

namespace Dwarf

variable {s : Sections} {u : RawUnit} {e r : Entry} {start stop : Nat}

/-- The root of the unit as it is loaded. -/
def RawUnit.LoadsRoot (s : Sections) (u : RawUnit) (r : Entry) : Prop :=
  ∃ root, u.root? = some root ∧ Loads s (u, some root) r

theorem RawUnit.LoadsRoot.offset_eq (h : u.LoadsRoot s r) : r.offset = r.unit := by
  obtain ⟨root, hroot, hload⟩ := h
  have hcarries := carries_of_loads hload
  rw [hcarries.offset, hcarries.unit, RawUnit.offset, hroot]
  rfl

theorem exists_of_forall₂_append {α β : Type} {R : α → β → Prop} {as bs : List α} {cs : List β}
    (h : List.Forall₂ R (as ++ bs) cs) :
    ∃ xs ys, cs = xs ++ ys ∧ List.Forall₂ R as xs ∧ List.Forall₂ R bs ys := by
  refine ⟨cs.take as.length, cs.drop as.length, (List.take_append_drop ..).symm, ?_, ?_⟩
  · simpa using List.forall₂_take as.length h
  · simpa using List.forall₂_drop as.length h

theorem filter_behind_root {raws : List (Option RawEntry)} {es : List Entry}
    (h : List.Forall₂ (fun raw? => Loads s (u, raw?)) raws es)
    (hbehind : ∀ raw ∈ raws.reduceOption, u.offset < raw.offset) :
    es.filter Entry.isUnitRoot = [] := by
  induction h with
  | nil => rfl
  | @cons raw? e raws es hload _ ih =>
    cases raw? with
    | none =>
      obtain rfl := Except.ok.inj hload
      rw [List.reduceOption_cons_of_none] at hbehind
      simp [Entry.isUnitRoot, Entry.null, ih hbehind]
    | some raw =>
      rw [List.reduceOption_cons_of_some, List.forall_mem_cons] at hbehind
      have hcarries := carries_of_loads hload
      -- The unit is known by its root, which stands before this entry.
      have hne : e.offset ≠ e.unit := by
        rw [hcarries.offset, hcarries.unit]
        omega
      simp [Entry.isUnitRoot, hne, ih hbehind.2]

theorem root_of_placed (hspans : u.Spans start stop) {es : List Entry}
    (h : List.Forall₂ (Loads s) u.placed es) :
    ∃ r, u.LoadsRoot s r ∧ es.filter Entry.isUnitRoot = [r].filter (·.tag = .compileUnit) := by
  obtain ⟨root, nulls, raws, hroot, hentries, hnulls, hoffset⟩ := hspans.exists_root
  have hgrowing := hspans.growing
  rw [RawUnit.raws, hentries, List.reduceOption_append, reduceOption_nulls hnulls,
    List.reduceOption_cons_of_some, List.nil_append, List.pairwise_cons] at hgrowing
  rw [RawUnit.placed, List.forall₂_map_left_iff, hentries] at h
  obtain ⟨before, _, rfl, hbefore, hrest⟩ := exists_of_forall₂_append h
  cases hrest with
  | @cons _ r _ rest hfirst hrest =>
    have hload : u.LoadsRoot s r := ⟨root, hroot, hfirst⟩
    have hbefore := filter_behind_root hbefore (by simp [reduceOption_nulls hnulls])
    have hrest := filter_behind_root hrest (by simpa [hoffset] using hgrowing.1)
    have hsame : r.isUnitRoot = decide (r.tag = .compileUnit) := by
      simp [Entry.isUnitRoot, hload.offset_eq]
    refine ⟨r, hload, ?_⟩
    rw [List.filter_append, List.filter_cons, hbefore, hrest, hsame, List.filter_cons]
    rfl

theorem roots_of_loads {us : List RawUnit} {es : List Entry} (htiled : Tiled start us stop)
    (h : List.Forall₂ (Loads s) (us.flatMap RawUnit.placed) es) :
    ∃ roots, List.Forall₂ (RawUnit.LoadsRoot s) us roots ∧
      es.filter Entry.isUnitRoot = roots.filter (·.tag = .compileUnit) := by
  induction htiled generalizing es with
  | nil =>
    obtain rfl := List.forall₂_nil_left_iff.mp h
    exact ⟨[], .nil, rfl⟩
  | @cons start middle stop u us _ hunit _ ih =>
    rw [List.flatMap_cons] at h
    obtain ⟨own, others, rfl, hown, hothers⟩ := exists_of_forall₂_append h
    obtain ⟨r, hroot, hfirst⟩ := root_of_placed hunit hown
    obtain ⟨roots, hroots, hrest⟩ := ih hothers
    refine ⟨r :: roots, .cons hroot hroots, ?_⟩
    rw [List.filter_append, hfirst, hrest]
    exact List.filter_append [r] roots |>.symm

end Dwarf

namespace Navigation

variable {n : Navigation} {c : Cursor} {us : List Entry} {u : Entry} {name : String}

theorem stepInto_listed (ha : n.stream.Addressed) (hn : n.levels = [])
    (hus : n.stream.compileUnits n.cursor = .ok us c) (hu : u ∈ us) (hname : u.name? = some name) :
    ∃ first m, us.find? (·.name? = some name) = some first ∧ stepInto name n = .ok () m ∧
      m.levels = [.entry first] := by
  have hfound : (us.find? (·.name? = some name)).isSome = true := by
    rw [List.find?_isSome]
    exact ⟨u, hu, by simp [hname]⟩
  obtain ⟨first, hfirst⟩ := Option.isSome_iff_exists.mp hfound
  obtain ⟨k, hk, -⟩ := Stream.mem_compileUnits hus (List.mem_of_find?_eq_some hfirst)
  exact ⟨first, _, hfirst, stepInto_found hn hus hfirst hk (ha k first hk), rfl⟩

end Navigation

namespace DebugFile

open Dwarf Effect

variable {inflate : Elf.Inflate} {data : ByteArray} {stream : Stream}

/-- Whatever file is loaded, the compile units that are listed are the roots of the units in it, in
order, exactly if each of these units closes its lists of children itself. What is listed can
be stepped into. -/
theorem compileUnits_of_load (h : load inflate data = .ok stream) :
    ∃ s units roots us, units? inflate data = some (s, units) ∧
      List.Forall₂ (RawUnit.LoadsRoot s) units.toList roots ∧
      (∀ c, ∃ d, stream.compileUnits c = .ok us d) ∧
      (us = roots.filter (·.tag = .compileUnit) ↔ stream.UnitsApart) ∧
      ∀ (n : Navigation) (u : Entry) (name : String), n.stream = stream → n.levels = [] →
        u ∈ us → u.name? = some name →
        ∃ first m, us.find? (·.name? = some name) = some first ∧ n.stepInto name = .ok () m ∧
          m.levels = [.entry first] := by
  obtain ⟨s, units, hunits, hloads⟩ := loads_of_load h
  obtain ⟨roots, hroots, hfilter⟩ := roots_of_loads (tiled_of_units? hunits) hloads
  obtain ⟨js, hjs, hlisted⟩ := stream.exists_visits
  have hordered := ordered_of_load h
  refine ⟨s, units, roots, stream.entriesAt js, hunits, hroots, hlisted, ?_, ?_⟩
  · rw [← hfilter]
    exact Stream.entriesAt_eq_iff hordered hjs
  · rintro n u name rfl hn hu hname
    obtain ⟨d, hd⟩ := hlisted n.cursor
    exact Navigation.stepInto_listed hordered.addressed hn hd hu hname

theorem apart_twoUnits :
    ∃ stream, load inflateStored twoUnits = .ok stream ∧ stream.UnitsApart := by
  have hlisted : ((load inflateStored twoUnits).toOption.bind fun stream =>
      (result? stream.compileUnits {}).map fun us =>
        decide (us = stream.entries.toList.filter Entry.isUnitRoot)) = some true := by
    decide +kernel
  simp only [Option.bind_eq_some_iff, Option.map_eq_some_iff, decide_eq_true_eq] at hlisted
  obtain ⟨stream, hload, us, hus, hroots⟩ := hlisted
  have hload := toOption_eq_some.mp hload
  obtain ⟨js, hjs, hall⟩ := stream.exists_visits
  obtain ⟨d, hd⟩ := hall {}
  obtain ⟨rfl, -⟩ := EStateM.Result.ok.inj ((ok_of_result? hus).symm.trans hd)
  exact ⟨stream, hload, (Stream.entriesAt_eq_iff (ordered_of_load hload) hjs).mp hroots⟩

theorem compileUnits_of_load_twoUnits :
    ∃ stream s units roots us d, load inflateStored twoUnits = .ok stream ∧
      units? inflateStored twoUnits = some (s, units) ∧
      List.Forall₂ (RawUnit.LoadsRoot s) units.toList roots ∧
      stream.compileUnits {} = .ok us d ∧ us = roots.filter (·.tag = .compileUnit) := by
  obtain ⟨stream, hload, hapart⟩ := apart_twoUnits
  obtain ⟨s, units, roots, us, hunits, hroots, hlisted, hiff, -⟩ := compileUnits_of_load hload
  obtain ⟨d, hd⟩ := hlisted {}
  exact ⟨stream, s, units, roots, us, d, hload, hunits, hroots, hd, hiff.mpr hapart⟩

/-- A file with the units `a.c` and `b.c`, whose first entries are said to have children. Neither
list of children is closed, as the bytes of the units end before. -/
def openUnits : ByteArray := ⟨#[
  0x7f, 0x45, 0x4c, 0x46, 1, 1, 1, 0, 0, 0, 0, 0, 0, 0, 0, 0,
  1, 0, 3, 0, 1, 0, 0, 0, 0, 0, 0, 0, 0, 0, 0, 0,
  0x77, 0, 0, 0, 0, 0, 0, 0, 0x34, 0, 0, 0, 0, 0, 0x28, 0,
  4, 0, 3, 0, 0x0c, 0, 0, 0, 4, 0, 0, 0, 0, 0, 4, 1,
  0x61, 0x2e, 0x63, 0, 0x0c, 0, 0, 0, 4, 0, 0, 0, 0, 0, 4, 1,
  0x62, 0x2e, 0x63, 0, 1, 0x11, 1, 3, 8, 0, 0, 0, 0, 0x2e, 0x64, 0x65,
  0x62, 0x75, 0x67, 0x5f, 0x69, 0x6e, 0x66, 0x6f, 0, 0x2e, 0x64, 0x65, 0x62, 0x75, 0x67, 0x5f,
  0x61, 0x62, 0x62, 0x72, 0x65, 0x76, 0, 0, 0, 0, 0, 0, 0, 0, 0, 0,
  0, 0, 0, 0, 0, 0, 0, 0, 0, 0, 0, 0, 0, 0, 0, 0,
  0, 0, 0, 0, 0, 0, 0, 0, 0, 0, 0, 0, 0, 0, 0, 1,
  0, 0, 0, 1, 0, 0, 0, 0, 0, 0, 0, 0, 0, 0, 0, 0x34,
  0, 0, 0, 0x20, 0, 0, 0, 0, 0, 0, 0, 0, 0, 0, 0, 1,
  0, 0, 0, 0, 0, 0, 0, 0x0d, 0, 0, 0, 1, 0, 0, 0, 0,
  0, 0, 0, 0, 0, 0, 0, 0x54, 0, 0, 0, 8, 0, 0, 0, 0,
  0, 0, 0, 0, 0, 0, 0, 1, 0, 0, 0, 0, 0, 0, 0, 0,
  0, 0, 0, 3, 0, 0, 0, 0, 0, 0, 0, 0, 0, 0, 0, 0x5c,
  0, 0, 0, 0x1b, 0, 0, 0, 0, 0, 0, 0, 0, 0, 0, 0, 1,
  0, 0, 0, 0, 0, 0, 0]⟩

/-- The unit `b.c` is lost: it is not listed, and it cannot be stepped into. -/
theorem lost_of_load_openUnits :
    ∃ stream s units u b us d, load inflateStored openUnits = .ok stream ∧
      units? inflateStored openUnits = some (s, units) ∧
      units[1]? = some u ∧ u.LoadsRoot s b ∧ b.tag = .compileUnit ∧ b.name? = some "b.c" ∧
      stream.compileUnits {} = .ok us d ∧ b ∉ us ∧
      ∀ m, Navigation.stepInto "b.c" { stream } ≠ .ok () m := by
  have hfacts : ((load inflateStored openUnits).toOption.bind fun stream =>
      (units? inflateStored openUnits).bind fun p => p.2[1]?.bind fun u => u.root?.bind fun root =>
        (loadEntry p.1 u u.offset (some root)).toOption.bind fun b =>
          (result? stream.compileUnits {}).map fun us =>
            (b.tag, b.name?, decide (b ∈ us),
              (result? (Navigation.stepInto "b.c") { stream }).isNone)) =
      some (.compileUnit, some "b.c", false, true) := by
    decide +kernel
  simp only [Option.bind_eq_some_iff, Option.map_eq_some_iff, Prod.mk.injEq] at hfacts
  obtain ⟨stream, hload, ⟨s, units⟩, hunits, u, hu, root, hroot, b, hb, us, hus, htag, hname, hmem,
    hstep⟩ := hfacts
  have hroot : u.LoadsRoot s b := ⟨root, hroot, toOption_eq_some.mp hb⟩
  refine ⟨stream, s, units, u, b, us, _, toOption_eq_some.mp hload, hunits, hu, hroot, htag, hname,
    ok_of_result? hus, by simpa using hmem, fun m hm => ?_⟩
  rw [result?_of_ok hm] at hstep
  cases hstep

end DebugFile
end DwarfScope
