import DwarfScope.Proofs.Attributes
import DwarfScope.Proofs.Layout.Outline
import DwarfScope.Stream.Builder
import Mathlib.Data.List.Forall2

/-!
# Arrays and type definitions

A chain of references may lead through arrays and type definitions in any order. A type definition
adds nothing to the layout but a name, and an array adds its dimensions behind those met before.
-/

namespace DwarfScope

section

variable {α β : Type} {f : α → Option β} {as : List α} {bs : List β}

theorem mapM_eq_some : as.mapM f = some bs ↔ List.Forall₂ (fun a b => f a = some b) as bs := by
  induction as generalizing bs with
  | nil => simp [eq_comm]
  | cons a as ih =>
    simp only [List.mapM_cons, Option.bind_eq_bind, Option.bind_eq_some_iff, Option.pure_def,
      Option.some.injEq, List.forall₂_cons_left_iff, ih]
    constructor
    · rintro ⟨b, hb, rest, hrest, rfl⟩
      exact ⟨b, rest, hb, hrest, rfl⟩
    · rintro ⟨b, rest, hb, hrest, rfl⟩
      exact ⟨b, hb, rest, hrest, rfl⟩

theorem isSome_mapM : (as.mapM f).isSome = true ↔ ∀ a ∈ as, (f a).isSome = true := by
  induction as with
  | nil => simp
  | cons a as ih =>
    rw [List.forall_mem_cons, ← ih, List.mapM_cons]
    rcases f a with _ | b
    · simp
    · rcases as.mapM f with _ | rest <;> simp

end

/-- Two resolutions find layouts that are the same but for the name, or both find none. -/
def SameButName : EStateM.Result Failure Cursor Layout → EStateM.Result Failure Cursor Layout → Prop
  | .ok l _, .ok m _ =>
    l.bitSize = m.bitSize ∧ l.structOffset = m.structOffset ∧ l.arrayRanges = m.arrayRanges ∧
      l.members = m.members
  | .error _ _, .error _ _ => True
  | _, _ => False

/-- An entry in which a chain of arrays and type definitions ends, as it is none of them and no
qualifier. -/
structure Entry.EndsChain (e : Entry) : Prop where
  notArray : e.tag ≠ .arrayType
  notTypedef : e.tag ≠ .typedef
  notQualifier : e.tag.isQualifier = false

theorem Entry.EndsChain.not_layer {e : Entry} (h : e.EndsChain) : e.isLayer = false := by
  simp [Entry.isLayer, h.notArray, h.notTypedef, h.notQualifier]

namespace Stream

open Effect

variable {s : Stream} {i j k target : Nat} {as : List Nat} {e t : Entry} {c d : Cursor}

/-! ## Chains -/

/-- From the entry at an index on, references lead through the arrays at some indices, and through
any type definitions between them, to the entry in which the chain ends. -/
inductive Through (s : Stream) : Nat → List Nat → Nat → Prop
  | stop {k : Nat} {e : Entry} : s.EntryAt k e → e.EndsChain → Through s k [] k
  | typedef {i j k : Nat} {as : List Nat} {e : Entry} : s.EntryAt i e → e.tag = .typedef →
      e.typeRef?.isSome = true → s.target? i = some j → Through s j as k → Through s i as k
  | array {i j k : Nat} {as : List Nat} {e : Entry} : s.EntryAt i e → e.tag = .arrayType →
      e.typeRef?.isSome = true → s.target? i = some j → Through s j as k → Through s i (i :: as) k

theorem Through.exists_end (h : s.Through i as k) : ∃ e, s.EntryAt k e ∧ e.EndsChain := by
  induction h with
  | stop he hends => exact ⟨_, he, hends⟩
  | typedef _ _ _ _ _ ih => exact ih
  | array _ _ _ _ _ ih => exact ih

theorem Through.not_bare (h : s.Through i as k) : ¬ s.Bare i := by
  rintro ⟨t, ht, hkind, hr⟩
  cases h with
  | stop he hends =>
    obtain rfl := he.unique ht
    exact hends.notArray hkind
  | typedef he hk =>
    obtain rfl := he.unique ht
    rw [hk] at hkind
    cases hkind
  | array he _ hr' =>
    obtain rfl := he.unique ht
    simp [hr] at hr'

theorem Through.ending?_eq (h : s.Through i as k) :
    s.ending? i = (as.mapM s.dimensions?).map fun rs => (rs.flatten, k) := by
  induction h with
  | stop he hends => simp [ending?_bottom he hends.not_layer]
  | @typedef i j k as e he hk hr hj _ ih =>
    have hl : e.isLayer = true := by simp [Entry.isLayer, hr, hk]
    rw [ending?_layer he hl, layer?_typedef he hk, ← target?_eq he, hj]
    simp only [Option.bind_eq_bind, Option.bind_some, Option.pure_def, ih]
    cases as.mapM s.dimensions? <;> rfl
  | @array i j k as e he hk hr hj _ ih =>
    have hl : e.isLayer = true := by simp [Entry.isLayer, hr, hk]
    rw [ending?_layer he hl, layer?_array he hk, ← target?_eq he, hj, List.mapM_cons]
    simp [ih, Option.map_eq_bind, Option.bind_assoc]

theorem Through.reach?_eq (h : s.Through i as k) (hi : s.typeIndex? e = some i) :
    s.reach? e = (as.mapM s.dimensions?).map fun rs => (rs.flatten, k) := by
  rw [reach?_eq_ending? hi h.not_bare, h.ending?_eq]

theorem arrayRanges_eq (array : Entry) :
    s.arrayRanges array =
      (if array.children then s.rangesFrom array (s.size + 1) else pure []) >>= fun ranges =>
        pure (if ranges.isEmpty then [0] else ranges) := by
  unfold arrayRanges
  split <;> rfl

theorem ne_nil_of_dimensions? {r : List Nat} (h : s.dimensions? i = some r) : r ≠ [] := by
  obtain ⟨t, ht, h⟩ := Option.bind_eq_some_iff.mp h
  rcases hok : (s.arrayRanges t).outcome (.behind i) with err | ⟨ranges, d⟩
  · simp [hok] at h
  obtain rfl : ranges = r := by simpa [hok] using h
  rw [arrayRanges_eq] at hok
  obtain ⟨found, d', -, hpure⟩ := bind_eq_ok.mp (Walk.outcome_eq_ok.mp hok)
  obtain ⟨rfl, -⟩ := pure_eq_ok.mp hpure
  cases found <;> simp

/-! ## Another type reference -/

theorem typeIndex?_set_type (hk : s.locate? target = some k) (ht : s.EntryAt k t) :
    s.typeIndex? (e.set .type (.ref target)) = some k := by
  rw [typeIndex?_eq_some_iff]
  exact ⟨by simpa [Entry.typeRef?, AttrValue.ref?] using hk, t, ht⟩

theorem place?_set_type (e t : Entry) (value : AttrValue) :
    place? (e.set .type value) t = place? e t := by
  have hattr : ∀ attr ≠ Attr.type, (e.set .type value).attr? attr = e.attr? attr :=
    fun attr hne => Entry.attr?_set_of_ne hne e
  have htag : (e.set .type value).tag = e.tag := rfl
  have hbits : (e.set .type value).bitSize? = e.bitSize? := by
    simp only [Entry.bitSize?, hattr _ (show Attr.bitSize ≠ .type by decide)]
  have hoffset : ∀ bits width, structOffset? (e.set .type value) bits width =
      structOffset? e bits width := by
    intro bits width
    simp only [structOffset?, Entry.dataBitOffset?, Entry.memberLocation?, Entry.bitOffset?,
      Entry.byteSize?, hattr _ (show Attr.dataBitOffset ≠ .type by decide),
      hattr _ (show Attr.dataMemberLocation ≠ .type by decide),
      hattr _ (show Attr.bitOffset ≠ .type by decide),
      hattr _ (show Attr.byteSize ≠ .type by decide)]
  simp only [place?, htag, hbits, hoffset]

theorem placedAt?_set_type (e : Entry) (value : AttrValue) (ranges : List Nat) (k : Nat) :
    s.placedAt? (e.set .type value) ranges k = s.placedAt? e ranges k := by
  simp only [placedAt?, place?_set_type]

/-! ## Resolutions that go through a chain -/

theorem sameButName_iff {v w : Walk Layout} :
    SameButName (v c) (w d) ↔ unnamedOf? (v.outcome c) = unnamedOf? (w.outcome d) := by
  unfold Walk.outcome
  rcases v c with ⟨l, _⟩ | _ <;> rcases w d with ⟨m, _⟩ | _ <;>
    simp [SameButName, unnamedOf?, Except.toOption, Layout.unnamed]

theorem placedAt?_ranges (e : Entry) (ranges : List Nat) (k : Nat) :
    s.placedAt? e ranges k = (s.placedAt? e [] k).map fun l =>
      { l with arrayRanges := if ranges.isEmpty then [0] else ranges } := by
  unfold placedAt?
  rcases s.entries[k]? with _ | t
  · rfl
  rcases hplace : place? e t with _ | ⟨bitSize, structOffset⟩
  · simp [hplace]
  simp only [hplace, Option.bind_eq_bind, Option.bind_some]
  rcases ((s.members _ _ _ t).outcome (.behind k)).toOption with _ | ⟨ms, d⟩ <;> rfl

theorem Through.unnamed_resolve (h : s.Through i as k) (he : e.isNull = false)
    (hi : s.typeIndex? e = some i) (c : Cursor) :
    unnamedOf? ((s.resolve e).outcome c) =
      (as.mapM s.dimensions?).bind fun rs => s.placedAt? e rs.flatten k := by
  rw [Stream.unnamed_resolve he, h.reach?_eq hi, Option.bind_map]
  rfl

theorem Through.unnamed_resolve_end (h : s.Through i as k) (he : e.isNull = false)
    (hk : s.locate? target = some k) (d : Cursor) :
    unnamedOf? ((s.resolve (e.set .type (.ref target))).outcome d) = s.placedAt? e [] k := by
  obtain ⟨F, hF, hends⟩ := h.exists_end
  rw [(Through.stop hF hends).unnamed_resolve (e := e.set .type (.ref target)) he
    (typeIndex?_set_type hk hF)]
  exact placedAt?_set_type e _ [] k

theorem Through.exists_resolve_iff (h : s.Through i as k) (he : e.isNull = false)
    (hi : s.typeIndex? e = some i) (hk : s.locate? target = some k) :
    (∃ l c', s.resolve e c = .ok l c') ↔
      (∃ m d', s.resolve (e.set .type (.ref target)) d = .ok m d') ∧
        ∀ a ∈ as, (s.dimensions? a).isSome = true := by
  rw [← isSome_unnamedOf?, ← isSome_unnamedOf?, h.unnamed_resolve he hi,
    h.unnamed_resolve_end he hk, ← isSome_mapM]
  rcases as.mapM s.dimensions? with _ | rs
  · simp
  · simp [placedAt?_ranges e rs.flatten]

theorem isEmpty_flatten_dimensions {rs : List (List Nat)}
    (h : List.Forall₂ (fun a r => s.dimensions? a = some r) as rs) :
    rs.flatten.isEmpty = as.isEmpty := by
  cases h with
  | nil => rfl
  | cons hr _ => simp [ne_nil_of_dimensions? hr]

theorem Through.resolve_eq {l m : Layout} {c' d' : Cursor} (h : s.Through i as k)
    (he : e.isNull = false) (hi : s.typeIndex? e = some i) (hk : s.locate? target = some k)
    (hl : s.resolve e c = .ok l c') (hm : s.resolve (e.set .type (.ref target)) d = .ok m d') :
    l.bitSize = m.bitSize ∧ l.structOffset = m.structOffset ∧ l.members = m.members ∧
      ∃ rs, List.Forall₂ (fun a r => s.dimensions? a = some r) as rs ∧
        l.arrayRanges = if as.isEmpty then [0] else rs.flatten := by
  have hm := (h.unnamed_resolve_end he hk d).symm.trans (unnamedOf?_of_ok hm)
  have hl := (h.unnamed_resolve he hi c).symm.trans (unnamedOf?_of_ok hl)
  obtain ⟨rs, hrs, hl⟩ := Option.bind_eq_some_iff.mp hl
  have hrs := mapM_eq_some.mp hrs
  rw [placedAt?_ranges, hm, Option.map_some, isEmpty_flatten_dimensions hrs,
    Option.some.injEq] at hl
  simp only [Layout.unnamed, Layout.mk.injEq, true_and] at hl
  obtain ⟨hbits, hoffset, hranges, hmembers⟩ := hl
  exact ⟨hbits.symm, hoffset.symm, hmembers.symm, rs, hrs, hranges.symm⟩

theorem Through.sameButName {other : Nat} {bs : List Nat} (h : s.Through i as k)
    (he : e.isNull = false) (hi : s.typeIndex? e = some i)
    (hj : s.typeIndex? (e.set .type (.ref other)) = some j) (hother : s.Through j bs k)
    (hsame : bs.map s.dimensions? = as.map s.dimensions?) :
    SameButName (s.resolve e c) (s.resolve (e.set .type (.ref other)) d) := by
  have hmapM : bs.mapM s.dimensions? = as.mapM s.dimensions? := by
    have hid : ∀ is : List Nat, (is.map s.dimensions?).mapM id = is.mapM s.dimensions? := by
      intro is
      rw [List.mapM_map, Function.id_comp]
    rw [← hid, ← hid, hsame]
  rw [sameButName_iff, h.unnamed_resolve he hi,
    hother.unnamed_resolve (e := e.set .type (.ref other)) he hj, hmapM]
  simp only [placedAt?_set_type]

/-- An entry whose type is at the end of a chain has a layout exactly if it has one without the
chain and all arrays of the chain have dimensions. The layout has these dimensions, from the
outermost array on, and is else the same, apart from the name. What type definitions are in the
chain makes no difference. -/
theorem resolve_through (he : e.isNull = false) (hi : s.typeIndex? e = some i)
    (h : s.Through i as k) (hk : s.locate? target = some k) (c d : Cursor) :
    ((∃ l c', s.resolve e c = .ok l c') ↔
      (∃ m d', s.resolve (e.set .type (.ref target)) d = .ok m d') ∧
        ∀ a ∈ as, (s.dimensions? a).isSome = true) ∧
    (∀ l c' m d', s.resolve e c = .ok l c' →
      s.resolve (e.set .type (.ref target)) d = .ok m d' →
        l.bitSize = m.bitSize ∧ l.structOffset = m.structOffset ∧ l.members = m.members ∧
          ∃ rs, List.Forall₂ (fun a r => s.dimensions? a = some r) as rs ∧
            l.arrayRanges = if as.isEmpty then [0] else rs.flatten) ∧
    ∀ other j bs, s.typeIndex? (e.set .type (.ref other)) = some j → s.Through j bs k →
      bs.map s.dimensions? = as.map s.dimensions? →
        SameButName (s.resolve e c) (s.resolve (e.set .type (.ref other)) d) :=
  ⟨h.exists_resolve_iff he hi hk, fun _ _ _ _ hl hm => h.resolve_eq he hi hk hl hm,
    fun _ _ _ hj hother hsame => h.sameButName he hi hj hother hsame⟩

/-- Three rows of five characters, with a second name for a row and for the whole. -/
def grid : Stream :=
  let refersTo : Nat → Attr × AttrValue := fun offset => (.type, .ref offset)
  ((((((((((({} : Builder).begin .compileUnit []).leaf
    .baseType [(.byteSize, .udata 1)]).begin
    .arrayType [refersTo 12]).leaf .subrangeType [(.count, .udata 5)]).close.leaf
    .typedef [refersTo 13]).begin
    .arrayType [refersTo 15]).leaf .subrangeType [(.count, .udata 3)]).close.leaf
    .typedef [(.name, .text "grid"), refersTo 16]).leaf
    .var [refersTo 18])).build

theorem through_grid : grid.Through 9 [6, 2] 1 ∧ grid.Through 6 [6, 2] 1 := by
  have hchar : grid.Through 1 [] 1 := .stop (e := grid.entries[1]!) ⟨rfl, rfl⟩
    ⟨by decide, by decide, rfl⟩
  have hrow : grid.Through 5 [2] 1 :=
    .typedef (e := grid.entries[5]!) (j := 2) ⟨rfl, rfl⟩ rfl rfl (by decide) <|
      .array (e := grid.entries[2]!) ⟨rfl, rfl⟩ rfl rfl (by decide) hchar
  have hrows : grid.Through 6 [6, 2] 1 :=
    .array (e := grid.entries[6]!) ⟨rfl, rfl⟩ rfl rfl (by decide) hrow
  exact ⟨.typedef (e := grid.entries[9]!) ⟨rfl, rfl⟩ rfl rfl (by decide) hrows, hrows⟩

theorem resolve_through_grid :
    let v := grid.entries[10]!
    (∃ l c, grid.resolve v {} = .ok l c ∧ l.bitSize = 8 ∧ l.arrayRanges = [3, 5]) ∧
      SameButName (grid.resolve v {}) (grid.resolve (v.set .type (.ref 16)) {}) := by
  intro v
  obtain ⟨hnamed, hunnamed⟩ := through_grid
  have htype : grid.typeIndex? v = some 9 := by decide
  have hfound : grid.locate? 12 = some 1 := by decide
  obtain ⟨hiff, heq, hsame⟩ := resolve_through rfl htype hnamed hfound {} {}
  have hchar : ∃ m d, grid.resolve (v.set .type (.ref 12)) {} = .ok m d ∧ m.bitSize = 8 :=
    ⟨_, _, rfl, rfl⟩
  obtain ⟨m, d, hm, hbits⟩ := hchar
  obtain ⟨l, c, hl⟩ := hiff.mpr ⟨⟨m, d, hm⟩, by decide⟩
  obtain ⟨hlm, -, -, rs, hrs, hranges⟩ := heq l c m d hl hm
  have hdimensions : [6, 2].mapM grid.dimensions? = some [[3], [5]] := by decide
  obtain rfl : rs = [[3], [5]] := Option.some.inj ((mapM_eq_some.mpr hrs).symm.trans hdimensions)
  exact ⟨⟨l, c, hl, hlm.trans hbits, hranges⟩,
    hsame 16 6 [6, 2] (by decide) hunnamed rfl⟩

end Stream
end DwarfScope
