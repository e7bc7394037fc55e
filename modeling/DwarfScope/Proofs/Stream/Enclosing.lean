import DwarfScope.Proofs.Stream.Listings
import DwarfScope.Proofs.Stream.Revisits
import Mathlib.Logic.Relation

/-!
# Searches in built streams

A search goes round the whole stream, so it finds a name from everywhere. It also answers the
compile unit that began last. If all units are trees of their own, that is the unit in which the
entry stands.
-/

namespace DwarfScope.Stream

open Effect
open Relation (TransGen)

variable {s : Stream} {i j k : Nat} {e u x : Entry} {name : String} {c : Cursor}

/-! ## Entries inside of others -/

/-- The entry at `j` is an immediate child of the entry at `i`. -/
structure ChildOf (s : Stream) (i j : Nat) : Prop where
  parent : ∃ e, s.EntryAt i e ∧ e.children = true
  behind : ∃ js, s.Siblings (i + 1) js j
  child : ∃ e, s.EntryAt j e

/-- The entry at `j` is a child of the entry at `i`, or a child of such a child, and so on. -/
def Inside (s : Stream) (i j : Nat) : Prop := TransGen s.ChildOf i j

theorem afterItem_le_size (he : s.EntryAt i e) : s.afterItem i e ≤ s.size := by
  rcases siblings_afterItem he with h | ⟨-, h⟩
  · exact h.le_size (Nat.le_of_lt he.lt_size)
  · exact Nat.le_of_eq h

theorem ChildOf.afterItem_le (h : s.ChildOf i j) (he : s.EntryAt i e) (hx : s.EntryAt j x) :
    i < j ∧ s.afterItem j x ≤ s.afterItem i e := by
  obtain ⟨e', he', hc⟩ := h.parent
  obtain rfl := he.unique he'
  obtain ⟨js, hjs⟩ := h.behind
  refine ⟨hjs.le, ?_⟩
  by_cases hclosed : s.Closed (i + 1)
  · obtain ⟨ks, m, hks, hm⟩ := hclosed
    have hjm : j < m := hks.mem_lt (hjs.mem_closed hx hks hm)
    rw [afterItem_node hc hks hm]
    exact Nat.le_succ_of_le (hjs.afterItem_le hks hx hjm)
  · rw [afterItem_not_closed he.lt_size hc hclosed]
    exact afterItem_le_size hx

theorem Inside.afterItem_le (h : s.Inside i j) (he : s.EntryAt i e) (hx : s.EntryAt j x) :
    i < j ∧ s.afterItem j x ≤ s.afterItem i e := by
  induction h generalizing x with
  | single h => exact h.afterItem_le he hx
  | tail _ hchild ih =>
    obtain ⟨y, hy, -⟩ := hchild.parent
    obtain ⟨hlt, hle⟩ := ih hy
    obtain ⟨hlt', hle'⟩ := hchild.afterItem_le hy hx
    exact ⟨Nat.lt_trans hlt hlt', Nat.le_trans hle' hle⟩

theorem Inside.exists_entry (h : s.Inside i j) : ∃ x, s.EntryAt j x := by
  cases h with
  | single h => exact h.child
  | tail _ h => exact h.child

/-- The unit in which an entry stands is the one that began last, as no unit is inside of it. -/
theorem Inside.lastUnit (h : s.Inside k i) (htop : s.UnitsOnTop) (hu : s.EntryAt k u)
    (htag : u.tag = .compileUnit) : s.LastUnit i k u := by
  obtain ⟨x, hx⟩ := h.exists_entry
  obtain ⟨hki, hle⟩ := h.afterItem_le hu hx
  have hlt := s.lt_afterItem i x
  refine ⟨Nat.le_of_lt hki, hu, htag, fun j u' hkj hji hu' htag' => ?_⟩
  obtain ⟨_, hroot⟩ := htop k u hu htag
  obtain ⟨_, hroot'⟩ := htop j u' hu' htag'
  have := hroot.afterItem_le hroot' hu hkj
  omega

theorem LastUnit.unique (h : s.LastUnit i j u) (h' : s.LastUnit i k x) : u = x := by
  rcases Nat.lt_trichotomy j k with hlt | rfl | hlt
  · exact absurd h'.tag (h.last k x hlt h'.le h'.entryAt)
  · exact h.entryAt.unique h'.entryAt
  · exact absurd h.tag (h'.last j u hlt h.le h.entryAt)

/-! ## The unit that is answered -/

/-- What is answered for the entry at `i`: the compile unit that began last, if there is one. -/
def UnitOf (s : Stream) (i : Nat) : Option Entry → Prop
  | some u => ∃ j, s.LastUnit i j u
  | none => ∀ j u, j ≤ i → s.EntryAt j u → u.tag ≠ .compileUnit

theorem UnitOf.eq_some {unit : Option Entry} (h : s.UnitOf i unit) (hu : s.LastUnit i j u) :
    unit = some u := by
  cases unit with
  | none => exact absurd hu.tag (h j u hu.le hu.entryAt)
  | some x =>
    obtain ⟨_, hx⟩ := h
    rw [hx.unique hu]

theorem LastUnit.self (hu : s.EntryAt i u) (htag : u.tag = .compileUnit) : s.LastUnit i i u where
  le := Nat.le_refl i
  entryAt := hu
  tag := htag
  last j u' hlt hle := by omega

theorem UnitOf.succ {unit : Option Entry} (h : s.UnitOf i unit)
    (hnext : ∀ u, s.EntryAt (i + 1) u → u.tag ≠ .compileUnit) : s.UnitOf (i + 1) unit := by
  have hbelow : ∀ j u', s.EntryAt j u' → j ≤ i + 1 → u'.tag = .compileUnit → j ≤ i := by
    intro j u' hu' hle htag
    rcases Nat.le_succ_iff.mp hle with hle | rfl
    · exact hle
    · exact absurd htag (hnext u' hu')
  cases unit with
  | none => exact fun j u hle hu htag => h j u (hbelow j u hu hle htag) hu htag
  | some u =>
    obtain ⟨j, hu⟩ := h
    refine ⟨j, Nat.le_succ_of_le hu.le, hu.entryAt, hu.tag, fun k u' hjk hki hu' htag => ?_⟩
    exact hu.last k u' hjk (hbelow k u' hu' hki htag) hu' htag

theorem exists_unitOf (s : Stream) (i : Nat) : ∃ unit, s.UnitOf i unit := by
  by_cases hunit : ∃ u, s.EntryAt i u ∧ u.tag = .compileUnit
  · obtain ⟨u, hu, htag⟩ := hunit
    exact ⟨some u, i, .self hu htag⟩
  have hno : ∀ u, s.EntryAt i u → u.tag ≠ .compileUnit := fun u hu htag => hunit ⟨u, hu, htag⟩
  induction i with
  | zero =>
    refine ⟨none, fun j u hle hu => ?_⟩
    obtain rfl := Nat.le_zero.mp hle
    exact hno u hu
  | succ i ih =>
    by_cases hbefore : ∃ u, s.EntryAt i u ∧ u.tag = .compileUnit
    · obtain ⟨u, hu, htag⟩ := hbefore
      have hself : s.UnitOf i (some u) := ⟨i, .self hu htag⟩
      exact ⟨some u, hself.succ hno⟩
    · obtain ⟨unit, hunit⟩ := ih hbefore fun u hu htag => hbefore ⟨u, hu, htag⟩
      exact ⟨unit, hunit.succ hno⟩

theorem Builder.Built.enclosingUnit {b : Builder} (hb : b.Built) (he : b.build.EntryAt i e) :
    ∃ unit, b.build.UnitOf i unit ∧
      b.build.enclosingUnit e (.behind i) = .ok unit (.behind i) := by
  by_cases htag : e.tag = .compileUnit
  · exact ⟨some e, ⟨i, .self he htag⟩, enclosingUnit_self htag⟩
  have ht := hb.tidy
  have hback : b.build.next { position := i } = .ok b.build.entries[i]? (.behind i) := by
    rw [he.get]
    exact Walk.outcome_eq_ok.mp (outcome_next_some he.get)
  obtain ⟨unit, hunit⟩ := b.build.exists_unitOf i
  refine ⟨unit, hunit, (enclosingUnit_eq_ok htag).mpr ?_⟩
  cases unit with
  | some u =>
    obtain ⟨j, hu⟩ := hunit
    refine ⟨j, i, ?_, ht.addressed i e he, ?_, hback⟩
    · rw [ht.tracked i e j u he hu]
      exact ht.addressed j u hu.entryAt
    · simp [hu.entryAt.get, Option.filter, hu.tag]
  | none =>
    -- No unit has begun, so the entry names the start, where none stands either.
    have hstart : e.unit = 0 := by
      rcases hb.begun he.get with rfl | ⟨-, hstart | ⟨j, u, hj, hu, htag', -⟩⟩
      · rfl
      · exact hstart
      · exact absurd htag' (hunit j u (Nat.le_of_lt_succ hj) hu)
    refine ⟨0, i, by rw [hstart]; rfl, ht.addressed i e he, ?_, hback⟩
    rw [eq_comm, Option.filter_eq_none_iff]
    intro x hx
    rw [decide_eq_true_eq]
    intro htag'
    exact hunit 0 x (Nat.zero_le i) ⟨hx, by simp [Entry.isNull, htag']⟩ htag'

/-! ## The search -/

theorem Builder.Built.entryAt_of_named {b : Builder} (hb : b.Built) (h : b.build.Named name i) :
    ∃ e, b.build.EntryAt i e ∧ e.name? = some name := by
  obtain ⟨e, he, hname⟩ := h
  rcases hb.begun he with rfl | ⟨hnonnull, -⟩
  · cases hname
  · exact ⟨e, ⟨he, hnonnull⟩, hname⟩

/-- A search in a built stream succeeds exactly if there is an entry of the name. It answers the
first one from the cursor on, or else the first one of the stream, with the unit that began last,
and it ends right behind that entry. -/
theorem findEntry_built {b : Builder} (hb : b.Built) (htop : b.build.UnitsOnTop) (name : String)
    (c : Cursor) :
    let s := b.build
    ((∃ i, s.Named name i) → ∃ i e unit, s.Found name c.position i ∧ s.EntryAt i e ∧
      e.name? = some name ∧ s.findEntry name c = .ok (e, unit) (.behind i) ∧ s.UnitOf i unit ∧
      ∀ k u, s.EntryAt k u → u.tag = .compileUnit → s.Inside k i → unit = some u) ∧
    ((∀ i, ¬ s.Named name i) →
      s.findEntry name c = .error (Error.notFound name) { position := s.size }) := by
  intro s
  refine ⟨?_, findEntry_of_none⟩
  rintro ⟨j, hj⟩
  obtain ⟨i, hi⟩ := exists_found hj c.position
  obtain ⟨e, he, hname⟩ := hb.entryAt_of_named hi.named
  obtain ⟨unit, hunit, hok⟩ := hb.enclosingUnit he
  refine ⟨i, e, unit, hi, he, hname, findEntry_eq_ok.mpr ⟨i, hi, he.get, hok⟩, hunit, ?_⟩
  intro k u hu htag hinside
  exact hunit.eq_some (hinside.lastUnit htop hu htag)

/-- A number before all units, and two units with a number of one name each. -/
def Builder.numbers : Builder :=
  let number : List (Attr × AttrValue) := [(.name, .text "n")]
  ((((((({} : Builder).leaf .baseType [(.name, .text "int")]).begin
    .compileUnit []).leaf .var number).close.begin
    .compileUnit []).begin .subprogram []).leaf .var number).close.close

theorem Builder.numbers_built : numbers.Built :=
  .close <| .close <| .leaf _ _ (by decide) <| .begin _ _ (by decide) <|
    .begin _ _ (by decide) <| .close <| .leaf _ _ (by decide) <| .begin _ _ (by decide) <|
    .leaf _ _ (by decide) .empty

theorem Builder.numbers_unitsOnTop : numbers.build.UnitsOnTop := by
  have hunits : ∀ i < 9, numbers.build.entries[i]?.any (·.tag = .compileUnit) = true →
      i = 1 ∨ i = 4 := by decide
  have hint : EntryAt numbers.build 0 numbers.build.entries[0]! := ⟨rfl, rfl⟩
  intro i e he htag
  rcases hunits i he.lt_size (by simp [he.get, htag]) with rfl | rfl
  · exact ⟨_, .leaf hint rfl (.nil 1)⟩
  · have hbelow : numbers.build.Siblings 2 [2] 3 :=
      .leaf (e := numbers.build.entries[2]!) ⟨rfl, rfl⟩ rfl (.nil 3)
    have hunit : EntryAt numbers.build 1 numbers.build.entries[1]! := ⟨rfl, rfl⟩
    exact ⟨_, .leaf hint rfl (.node hunit rfl hbelow ⟨.null, rfl, rfl⟩ (.nil 4))⟩

theorem findEntry_numbers :
    let s := Builder.numbers.build
    (∃ i e unit, s.Found "n" 7 i ∧ s.findEntry "n" { position := 7 } = .ok (e, unit) (.behind i) ∧
      s.UnitOf i unit) ∧
    s.findEntry "m" { position := 7 } = .error (Error.notFound "m") { position := 9 } := by
  intro s
  have hn := findEntry_built Builder.numbers_built Builder.numbers_unitsOnTop "n" { position := 7 }
  have hm := findEntry_built Builder.numbers_built Builder.numbers_unitsOnTop "m" { position := 7 }
  have hnamed : ∀ i < 9, ¬ s.entries[i]?.any (·.name? = some "m") = true := by decide
  constructor
  · obtain ⟨i, e, unit, hi, -, -, hok, hunit, -⟩ := hn.1 ⟨2, s.entries[2]!, rfl, rfl⟩
    exact ⟨i, e, unit, hi, hok, hunit⟩
  · refine hm.2 fun i hi => hnamed i hi.lt_size ?_
    obtain ⟨e, he, hname⟩ := hi
    simp only [s, he, hname, Option.any_some, decide_true]

end DwarfScope.Stream
