import DwarfScope.Proofs.Effect
import DwarfScope.Proofs.Layout.Resolving
import Mathlib.Data.Option.Basic

/-!
# The shape of a layout

The shape is everything but the name and the place. It depends only on where the references of an
entry lead. `declared?` is the shape of what refers to a type first, `outline?` that of what comes
to the type below another reference.
-/

namespace DwarfScope

structure Layout.Shape where
  bitSize : Nat
  arrayRanges : List Nat
  members : List Layout

def Layout.shape (l : Layout) : Shape := ⟨l.bitSize, l.arrayRanges, l.members⟩

def Layout.unnamed (l : Layout) : Layout := { l with name := "" }

/-- Two resolutions find layouts of one shape, or both find none. -/
def SameShape : EStateM.Result Failure Cursor Layout → EStateM.Result Failure Cursor Layout → Prop
  | .ok l _, .ok m _ =>
    l.bitSize = m.bitSize ∧ l.arrayRanges = m.arrayRanges ∧ l.members = m.members
  | .error _ _, .error _ _ => True
  | _, _ => False

/-- The entry does not say where in an aggregate it stands. -/
structure Entry.Unplaced (e : Entry) : Prop where
  location : e.memberLocation? = none
  bits : e.dataBitOffset? = none
  fromTop : e.bitOffset? = none

namespace Stream

open Effect

variable {s : Stream} {i j k n : Nat} {e t : Entry} {c d : Cursor} {w : Walk Layout}

def shapeOf? (r : Except Failure (Layout × Cursor)) : Option Layout.Shape :=
  r.toOption.map fun (l, _) => l.shape

def unnamedOf? (r : Except Failure (Layout × Cursor)) : Option Layout :=
  r.toOption.map fun (l, _) => l.unnamed

theorem isSome_unnamedOf? :
    (unnamedOf? (w.outcome c)).isSome = true ↔ ∃ l d, w c = .ok l d := by
  unfold Walk.outcome
  rcases w c with ⟨l, d⟩ | ⟨err, d⟩ <;> simp [unnamedOf?, Except.toOption]

theorem unnamedOf?_of_ok {l : Layout} (h : w c = .ok l d) :
    unnamedOf? (w.outcome c) = some l.unnamed := by
  rw [Walk.outcome_eq_ok.mpr h]
  rfl

theorem sameShape_iff {v : Walk Layout} :
    SameShape (v c) (w d) ↔ shapeOf? (v.outcome c) = shapeOf? (w.outcome d) := by
  unfold Walk.outcome
  rcases v c with ⟨l, _⟩ | _ <;> rcases w d with ⟨m, _⟩ | _ <;>
    simp [SameShape, shapeOf?, Except.toOption, Layout.shape]

/-! ## Shapes of entries -/

/-- The shape of the type entry at an index, met behind some dimensions. -/
def shapeAt? (s : Stream) (ranges : List Nat) (k : Nat) : Option Layout.Shape := do
  let t ← s.entries[k]?
  if t.tag.isType then
    let bitSize ← (typeBits "" t).toOption
    let (members, _) ← ((s.members (2 * s.size + 2) (s.size + 1) "" t).outcome (.behind k)).toOption
    return { bitSize, arrayRanges := if ranges.isEmpty then [0] else ranges, members }
  else none

/-- The shape that is found from the type entry at an index on. -/
def outline? (s : Stream) (i : Nat) : Option Layout.Shape := do
  let (ranges, k) ← s.ending? i
  s.shapeAt? ranges k

/-- The shape of a variable that is declared with the type entry at an index. -/
def declared? (s : Stream) (i : Nat) : Option Layout.Shape := do
  let (ranges, j) ← s.startAt? i
  let (more, k) ← s.ending? j
  s.shapeAt? (ranges ++ more) k

/-! ## What a resolution finds -/

/-- What is found for an entry, apart from the name, if its references lead past some dimensions to
the type entry at an index. -/
def placedAt? (s : Stream) (e : Entry) (ranges : List Nat) (k : Nat) : Option Layout := do
  let t ← s.entries[k]?
  let (bitSize, structOffset) ← place? e t
  let (members, _) ← ((s.members (2 * s.size + 2) (s.size + 1) "" t).outcome (.behind k)).toOption
  return {
    name := "", bitSize, structOffset, members
    arrayRanges := if ranges.isEmpty then [0] else ranges }

theorem unnamed_resolve (he : e.isNull = false) (c : Cursor) :
    unnamedOf? ((s.resolve e).outcome c) =
      (s.reach? e).bind fun (ranges, k) => s.placedAt? e ranges k := by
  have hreached := reached_arrive (show s.size ≤ 2 * s.size + 2 by omega) e c
  unfold resolve
  rcases hr : s.reach? e with _ | ⟨ranges, k⟩
  · rw [hr] at hreached
    obtain ⟨err, herr⟩ := hreached
    rw [outcome_resolveWithin_lost he herr]
    rfl
  rw [hr] at hreached
  obtain ⟨name, t, ht, hok⟩ := hreached
  have hframe := toOption_frame e { name, ranges := [] ++ ranges, entry := t }
  simp only [Option.bind_some, placedAt?, ht.get, Option.bind_eq_bind]
  dsimp only at hframe
  rcases hplace : place? e t with _ | ⟨bitSize, structOffset⟩
  · rcases hf : frame e { name, ranges := [] ++ ranges, entry := t } with err | f
    · rw [outcome_resolveWithin_misfit he hok hf]
      rfl
    · rw [hplace, hf] at hframe
      cases hframe
  · rw [hplace] at hframe
    rw [outcome_resolveWithin_frame he hok (toOption_eq_some.mp hframe)]
    dsimp only
    rw [Option.bind_some, members_name _ _ "" ((name <|> e.name?).getD "") t]
    rcases (s.members _ _ _ t).outcome (.behind k) with err | ⟨ms, d⟩ <;> rfl

/-! ## The shape of a resolution -/

theorem structOffset?_unplaced (hu : e.Unplaced) (bits bitSize : Nat) :
    structOffset? e bits bitSize = some 0 := by
  have h : word? 0 = some 0 := by decide
  simp [structOffset?, hu.location, hu.bits, hu.fromTop, h]

theorem shape_placedAt? (hm : e.tag ≠ .member) (hu : e.Unplaced) (ranges : List Nat) (k : Nat) :
    (s.placedAt? e ranges k).map Layout.shape = s.shapeAt? ranges k := by
  unfold placedAt? shapeAt?
  rcases s.entries[k]? with _ | t
  · rfl
  simp only [place?, hm, if_false, structOffset?_unplaced hu, Option.bind_eq_bind, Option.bind_some]
  cases t.tag.isType with
  | false => rfl
  | true =>
    rcases (typeBits "" t).toOption with _ | bits
    · rfl
    · rcases ((s.members _ _ _ t).outcome (.behind k)).toOption with _ | ⟨ms, d⟩ <;> rfl

theorem shape_resolve_reached (he : e.isNull = false) (hm : e.tag ≠ .member) (hu : e.Unplaced) :
    shapeOf? ((s.resolve e).outcome c) =
      (s.reach? e).bind fun (ranges, k) => s.shapeAt? ranges k := by
  have hshape : shapeOf? ((s.resolve e).outcome c) =
      (unnamedOf? ((s.resolve e).outcome c)).map Layout.shape := by
    rcases (s.resolve e).outcome c with err | ⟨l, d⟩ <;> rfl
  rw [hshape, unnamed_resolve he, Option.map_bind]
  exact Option.bind_congr fun ⟨ranges, k⟩ _ => shape_placedAt? hm hu ranges k

theorem bind_declared? (e : Entry) :
    (s.typeIndex? e).bind s.declared? =
      (s.reach? e).bind fun (ranges, k) => s.shapeAt? ranges k := by
  simp only [reach?, Option.bind_eq_bind, Option.bind_assoc]
  rfl

theorem shape_resolve (he : e.isNull = false) (hm : e.tag ≠ .member) (hu : e.Unplaced)
    (c : Cursor) : shapeOf? ((s.resolve e).outcome c) = (s.typeIndex? e).bind s.declared? := by
  rw [shape_resolve_reached he hm hu, bind_declared?]

/-! ## Following one reference -/

def target? (s : Stream) (i : Nat) : Option Nat := do s.typeIndex? (← s.entries[i]?)

/-- An array of which the debug info does not give the elements. -/
def Bare (s : Stream) (i : Nat) : Prop :=
  ∃ t, s.EntryAt i t ∧ t.tag = .arrayType ∧ t.typeRef? = none

theorem target?_eq (ht : s.EntryAt i t) : s.target? i = s.typeIndex? t := by
  simp [target?, ht.get]

theorem exists_of_target? (h : s.target? i = some j) : ∃ t, s.EntryAt j t := by
  obtain ⟨t, -, ht⟩ := Option.bind_eq_some_iff.mp h
  exact exists_of_typeIndex? ht

theorem outline?_typedef (ht : s.EntryAt i t) (hk : t.tag = .typedef)
    (hr : t.typeRef?.isSome = true) : s.outline? i = (s.target? i).bind s.outline? := by
  have hl : t.isLayer = true := by simp [Entry.isLayer, hr, hk]
  simp only [outline?, ending?_layer ht hl, layer?_typedef ht hk, target?_eq ht,
    Option.bind_eq_bind, Option.bind_assoc, Option.pure_def, Option.bind_some, List.nil_append]
  rfl

theorem outline?_qualifier (ht : s.EntryAt i t) (hq : t.tag.isQualifier = true)
    (hr : t.typeRef?.isSome = true) :
    s.outline? i = (s.target? i).bind fun j => (s.target? j).bind s.outline? := by
  have hl : t.isLayer = true := by simp [Entry.isLayer, hr, hq]
  simp only [outline?, ending?_layer ht hl, layer?_qualifier ht hq, target?, ht.get,
    Option.bind_eq_bind, Option.bind_assoc, Option.pure_def, Option.bind_some, List.nil_append]
  rfl

theorem startAt?_bind_ending? (ht : s.EntryAt i t) (h : ¬ s.Bare i) :
    ((s.startAt? i).bind fun (ranges, j) =>
      (s.ending? j).map fun (more, k) => (ranges ++ more, k)) = s.ending? i := by
  by_cases ha : t.tag = .arrayType
  · have hr : t.typeRef?.isSome = true := by
      rw [Option.isSome_iff_ne_none]
      exact fun hnone => h ⟨t, ht, ha, hnone⟩
    have hl : t.isLayer = true := by simp [Entry.isLayer, hr, ha]
    simp [startAt?, ht.get, ha, ending?_layer ht hl, layer?_array ht ha, Option.bind_assoc,
      Option.map_eq_bind]
  · simp [startAt?, ht.get, ha]

theorem declared?_eq_outline? (ht : s.EntryAt i t) (h : ¬ s.Bare i) :
    s.declared? i = s.outline? i := by
  rw [outline?, ← startAt?_bind_ending? ht h]
  simp [declared?, Option.bind_assoc, Option.map_eq_bind]

theorem reach?_eq_ending? (hi : s.typeIndex? e = some i) (h : ¬ s.Bare i) :
    s.reach? e = s.ending? i := by
  obtain ⟨t, ht⟩ := exists_of_typeIndex? hi
  rw [← startAt?_bind_ending? ht h]
  simp [reach?, hi, Option.map_eq_bind]

end Stream
end DwarfScope
