import DwarfScope.Proofs.Attributes
import DwarfScope.Proofs.Stream.Children
import Mathlib.Data.List.Forall2

/-!
# Trees as streams

What a builder is told makes a list of trees, and the stream is this list written down: each entry
with children is followed by them and by a null entry of its own. The offsets that are given out
lead back to the entries, and to skip the children of an entry is to leave out its tree.
-/

namespace DwarfScope.Stream

variable {s : Stream} {p q k m offset : Nat} {js : List Nat} {e : Entry} {c : Cursor}

/-! ## Trees -/

inductive Forest where
  | nil
  | leaf (e : Entry) (childless : e.isNull = false ∧ e.children = false) (rest : Forest)
  | node (e : Entry) (parent : e.isNull = false ∧ e.children = true) (below rest : Forest)

/-- The entries in the order of a stream. -/
def Forest.flatten : Forest → List Entry
  | nil => []
  | leaf e _ rest => e :: rest.flatten
  | node e _ below rest => e :: (below.flatten ++ .null :: rest.flatten)

theorem drop_of_get (he : s.entries[p]? = some e) :
    s.entries.toList.drop p = e :: s.entries.toList.drop (p + 1) := by
  rw [← Array.getElem?_toList] at he
  obtain ⟨hlt, rfl⟩ := List.getElem?_eq_some_iff.mp he
  exact List.drop_eq_getElem_cons hlt

theorem Siblings.exists_forest (hnull : ∀ i, s.NullAt i → s.entries[i]? = some .null)
    (h : s.Siblings p js q) :
    ∃ f : Forest, s.entries.toList.drop p = f.flatten ++ s.entries.toList.drop q := by
  induction h with
  | nil p => exact ⟨.nil, rfl⟩
  | leaf he hc _ ih =>
    obtain ⟨rest, hrest⟩ := ih
    refine ⟨.leaf _ ⟨he.nonnull, hc⟩ rest, ?_⟩
    rw [drop_of_get he.get, hrest]
    rfl
  | node he hc _ hm _ ihbelow ih =>
    obtain ⟨below, hbelow⟩ := ihbelow
    obtain ⟨rest, hrest⟩ := ih
    refine ⟨.node _ ⟨he.nonnull, hc⟩ below rest, ?_⟩
    rw [drop_of_get he.get, hbelow, drop_of_get (hnull _ hm), hrest]
    simp [Forest.flatten]

/-! ## Null entries -/

/-- The null entry at `m` closes the list of children of the entry at `k`. -/
structure Closes (s : Stream) (k m : Nat) : Prop where
  parent : ∃ e, s.EntryAt k e ∧ e.children = true
  between : ∃ js, s.Siblings (k + 1) js m
  null : s.NullAt m

theorem Closes.unique {m' : Nat} (h : s.Closes k m) (h' : s.Closes k m') : m = m' := by
  obtain ⟨js, hjs⟩ := h.between
  obtain ⟨js', hjs'⟩ := h'.between
  exact hjs.end_unique h.null hjs' h'.null

/-- A null entry closes one list only, as what begins inside of a list ends before it does. -/
theorem Closes.parent_unique {k' : Nat} (h : s.Closes k m) (h' : s.Closes k' m) : k = k' := by
  have hnot : ∀ {a b}, s.Closes a m → s.Closes b m → ¬ a < b := by
    intro a b ha hb hab
    obtain ⟨js, hjs⟩ := ha.between
    obtain ⟨ks, hks⟩ := hb.between
    obtain ⟨e, he, hc⟩ := hb.parent
    have hbm := hks.le
    have hend := hjs.afterItem_le_end hab hbm he
    rw [afterItem_node hc hks hb.null] at hend
    omega
  have := hnot h h'
  have := hnot h' h
  omega

theorem Siblings.exists_closes (h : s.Siblings p js q) (hm : s.NullAt m) (hpm : p ≤ m)
    (hmq : m < q) : ∃ k, s.Closes k m := by
  induction h with
  | nil => omega
  | leaf he _ _ ih =>
    rcases Nat.eq_or_lt_of_le hpm with rfl | hlt
    · exact absurd hm he.not_null
    · exact ih hlt hmq
  | @node p r q ks js e he hc hbelow hr _ ihbelow ih =>
    rcases Nat.eq_or_lt_of_le hpm with rfl | hlt
    · exact absurd hm he.not_null
    rcases Nat.lt_trichotomy m r with hmr | rfl | hrm
    · exact ihbelow hlt hmr
    · exact ⟨p, ⟨e, he, hc⟩, ⟨ks, hbelow⟩, hm⟩
    · exact ih hrm hmq

/-! ## Skipping -/

/-- Where the cursor goes from the entry at an index: behind the children, and then no further. -/
structure SkipsAt (s : Stream) (k : Nat) (e : Entry) : Prop where
  next : ∀ c : Cursor, c.position = k → s.next c = .ok (some e) (.behind k)
  skip : ∃ q, s.skipChildren (.behind k) = .ok () { position := q } ∧
    s.skipChildren { position := q } = .ok () { position := q } ∧
    (e.children = false → q = k + 1) ∧ (e.children = true → ∃ m, s.Closes k m ∧ q = m + 1)

theorem skipsAt (he : s.entries[k]? = some e)
    (hclosed : e.children = true → ∃ m, s.Closes k m) : s.SkipsAt k e where
  next c hc := by
    subst hc
    exact Walk.outcome_eq_ok.mp (outcome_next_some he)
  skip := by
    refine ⟨s.afterItem k e, Walk.outcome_eq_ok.mp (outcome_skipChildren he), rfl, afterItem_leaf,
      fun hc => ?_⟩
    obtain ⟨m, hm⟩ := hclosed hc
    obtain ⟨js, hjs⟩ := hm.between
    exact ⟨m, hm, afterItem_node hc hjs hm.null⟩

/-! ## What a builder is told -/

namespace Builder

inductive Instruction where
  | begin (tag : Tag) (attrs : List (Attr × AttrValue))
  | leaf (tag : Tag) (attrs : List (Attr × AttrValue))
  | close
  deriving Repr, DecidableEq

/-- The entry has the tag and the flag, and of each attribute the value that was given last. -/
structure Made (tag : Tag) (children : Bool) (attrs : List (Attr × AttrValue)) (e : Entry) :
    Prop where
  tag_eq : e.tag = tag
  children_eq : e.children = children
  attr?_eq : ∀ attr, e.attr? attr = attrs.reverse.lookup attr

namespace Instruction

def perform (b : Builder) : Instruction → Builder
  | begin tag attrs => b.begin tag attrs
  | leaf tag attrs => b.leaf tag attrs
  | close => b.close

/-- The offset that is given out for the new entry. -/
def offset? (b : Builder) : Instruction → Option Nat
  | begin .. | leaf .. => some b.nextOffset
  | close => none

def tag? : Instruction → Option Tag
  | begin tag _ | leaf tag _ => some tag
  | close => none

/-- The entry is what the instruction says. -/
def Adds : Instruction → Entry → Prop
  | begin tag attrs, e => Made tag true attrs e
  | leaf tag attrs, e => Made tag false attrs e
  | close, e => e = .null

end Instruction

variable {b : Builder} {i : Instruction} {is : List Instruction}

def performAll (is : List Instruction) (b : Builder) : Builder := is.foldl Instruction.perform b

/-- The instructions without those that close nothing, and with those that are missing at the
end. -/
def balanced : Nat → List Instruction → List Instruction
  | depth, [] => List.replicate depth .close
  | depth, .begin tag attrs :: is => .begin tag attrs :: balanced (depth + 1) is
  | depth, .leaf tag attrs :: is => .leaf tag attrs :: balanced depth is
  | 0, .close :: is => balanced 0 is
  | depth + 1, .close :: is => .close :: balanced depth is

theorem exists_made (b : Builder) (tag : Tag) (children : Bool) (attrs : List (Attr × AttrValue)) :
    ∃ e, (b.push tag children attrs).entries = b.entries.push e ∧ Made tag children attrs e ∧
      e.offset = b.nextOffset := by
  let bare : Entry := {
    offset := b.nextOffset, tag, children
    unit := if tag = .compileUnit then b.nextOffset else b.unit }
  refine ⟨bare.setAll attrs, rfl, ?_, setAll_offset _ _⟩
  have hattr (attr : Attr) : (bare.setAll attrs).attr? attr = attrs.reverse.lookup attr := by
    rw [Entry.attr?_setAll]
    exact Option.or_none
  obtain ⟨attrs', hset⟩ := bare.setAll_eq attrs
  refine ⟨?_, ?_, hattr⟩ <;> rw [hset]

theorem close_of_depth_zero (h : b.depth = 0) : b.close = b := by
  unfold Builder.close
  rw [h]

theorem close_of_depth_succ {depth : Nat} (h : b.depth = depth + 1) :
    b.close = { b with entries := b.entries.push .null, depth } := by
  unfold Builder.close
  rw [h]

theorem perform_cases (b : Builder) (i : Instruction) :
    i.perform b = b ∧ (∀ is, balanced b.depth (i :: is) = balanced b.depth is) ∨
    ∃ e, (i.perform b).entries = b.entries.push e ∧ i.Adds e ∧
      ∀ is, balanced b.depth (i :: is) = i :: balanced (i.perform b).depth is := by
  cases i with
  | begin tag attrs =>
    obtain ⟨e, hentries, hmade, -⟩ := b.exists_made tag true attrs
    exact .inr ⟨e, hentries, hmade, fun _ => rfl⟩
  | leaf tag attrs =>
    obtain ⟨e, hentries, hmade, -⟩ := b.exists_made tag false attrs
    exact .inr ⟨e, hentries, hmade, fun _ => rfl⟩
  | close =>
    cases hdepth : b.depth with
    | zero => exact .inl ⟨close_of_depth_zero hdepth, fun _ => rfl⟩
    | succ depth =>
      right
      rw [Instruction.perform, close_of_depth_succ hdepth]
      exact ⟨.null, rfl, rfl, fun _ => rfl⟩

theorem adds_nulls (n : Nat) :
    List.Forall₂ Instruction.Adds (balanced n []) (List.replicate n .null) := by
  induction n with
  | zero => exact .nil
  | succ n ih => exact .cons rfl ih

theorem exists_added (is : List Instruction) (b : Builder) :
    ∃ es, (performAll is b).build.entries.toList = b.entries.toList ++ es ∧
      List.Forall₂ Instruction.Adds (balanced b.depth is) es := by
  induction is generalizing b with
  | nil => exact ⟨List.replicate b.depth .null, by simp [performAll, build], adds_nulls b.depth⟩
  | cons i is ih =>
    obtain ⟨es, hes, hadds⟩ := ih (i.perform b)
    rcases b.perform_cases i with ⟨hsame, hbalanced⟩ | ⟨e, hentries, he, hbalanced⟩
    · rw [hsame] at hes hadds
      rw [hbalanced]
      refine ⟨es, ?_, hadds⟩
      show (performAll is (i.perform b)).build.entries.toList = _
      rw [hsame, hes]
    · rw [hbalanced]
      refine ⟨e :: es, ?_, .cons he hadds⟩
      show (performAll is (i.perform b)).build.entries.toList = _
      rw [hes, hentries, Array.toList_push, List.append_assoc, List.singleton_append]

/-! ## Builders that are told -/

theorem Built.perform (h : b.Built) (htag : i.tag? ≠ some .null) : (i.perform b).Built := by
  cases i with
  | begin tag attrs => exact .begin tag attrs (fun hnull => htag (congrArg some hnull)) h
  | leaf tag attrs => exact .leaf tag attrs (fun hnull => htag (congrArg some hnull)) h
  | close => exact .close h

theorem Built.performAll (h : b.Built) (htags : ∀ i ∈ is, i.tag? ≠ some .null) :
    (performAll is b).Built := by
  induction is generalizing b with
  | nil => exact h
  | cons i is ih =>
    have hperform := h.perform (htags i List.mem_cons_self)
    exact ih hperform fun j hj => htags j (List.mem_cons_of_mem i hj)

theorem perform_continues (b : Builder) (i : Instruction) :
    Continues ⟨b.entries⟩ ⟨(i.perform b).entries⟩ := by
  rcases b.perform_cases i with ⟨hsame, -⟩ | ⟨e, hentries, -⟩
  · rw [hsame]
    exact fun _ _ => id
  · rw [hentries]
    exact continues_push b.entries e

theorem performAll_continues (is : List Instruction) (b : Builder) :
    Continues ⟨b.entries⟩ ⟨(performAll is b).entries⟩ := by
  induction is generalizing b with
  | nil => exact fun _ _ => id
  | cons i is ih => exact fun k e he => ih (i.perform b) k e (b.perform_continues i k e he)

theorem performAll_append (is js : List Instruction) (b : Builder) :
    performAll (is ++ js) b = performAll js (performAll is b) := List.foldl_append

/-! ## Offsets that are given out -/

theorem nextOffset_le_perform (b : Builder) (i : Instruction) :
    b.nextOffset ≤ (i.perform b).nextOffset := by
  cases i with
  | begin => exact Nat.le_succ _
  | leaf => exact Nat.le_succ _
  | close =>
    show b.nextOffset ≤ b.close.nextOffset
    unfold Builder.close
    split <;> exact Nat.le_refl _

theorem nextOffset_le_performAll (is : List Instruction) (b : Builder) :
    b.nextOffset ≤ (performAll is b).nextOffset := by
  induction is generalizing b with
  | nil => exact Nat.le_refl _
  | cons i is ih => exact Nat.le_trans (b.nextOffset_le_perform i) (ih (i.perform b))

theorem nextOffset_perform (h : i.offset? b = some offset) :
    b.nextOffset = offset ∧ (i.perform b).nextOffset = offset + 1 := by
  cases i with
  | begin =>
    obtain rfl := Option.some.inj h
    exact ⟨rfl, rfl⟩
  | leaf =>
    obtain rfl := Option.some.inj h
    exact ⟨rfl, rfl⟩
  | close => cases h

theorem Made.nonnull {tag : Tag} {children : Bool} {attrs : List (Attr × AttrValue)}
    (h : Made tag children attrs e) (htag : tag ≠ .null) : e.isNull = false := by
  simp [Entry.isNull, h.tag_eq, htag]

theorem exists_perform (h : i.offset? b = some offset) (htag : i.tag? ≠ some .null) :
    ∃ e, (i.perform b).entries = b.entries.push e ∧ i.Adds e ∧ e.offset = offset ∧
      e.isNull = false := by
  cases i with
  | begin tag attrs =>
    obtain rfl := Option.some.inj h
    obtain ⟨e, hentries, hmade, hoffset⟩ := b.exists_made tag true attrs
    exact ⟨e, hentries, hmade, hoffset, hmade.nonnull fun hnull => htag (congrArg some hnull)⟩
  | leaf tag attrs =>
    obtain rfl := Option.some.inj h
    obtain ⟨e, hentries, hmade, hoffset⟩ := b.exists_made tag false attrs
    exact ⟨e, hentries, hmade, hoffset, hmade.nonnull fun hnull => htag (congrArg some hnull)⟩
  | close => cases h

def offsetAt? (is : List Instruction) (k : Nat) : Option Nat :=
  is[k]?.bind fun i => i.offset? (performAll (is.take k) {})

theorem offsetAt?_eq_some :
    offsetAt? is k = some offset ↔
      ∃ i, is[k]? = some i ∧ i.offset? (performAll (is.take k) {}) = some offset :=
  Option.bind_eq_some_iff

theorem performAll_take_succ (h : is[k]? = some i) :
    performAll (is.take (k + 1)) {} = i.perform (performAll (is.take k) {}) := by
  rw [List.take_add_one, h, performAll_append]
  rfl

theorem offsetAt?_lt {k' offset' : Nat} (h : offsetAt? is k = some offset)
    (h' : offsetAt? is k' = some offset') (hlt : k < k') : offset < offset' := by
  obtain ⟨i, hi, hoffset⟩ := offsetAt?_eq_some.mp h
  obtain ⟨i', -, hoffset'⟩ := offsetAt?_eq_some.mp h'
  have hnext := (nextOffset_perform hoffset).2
  have hnext' := (nextOffset_perform hoffset').1
  obtain ⟨n, rfl⟩ := Nat.exists_eq_add_of_le (Nat.succ_le_of_lt hlt)
  rw [List.take_add, performAll_append, performAll_take_succ hi] at hnext'
  calc offset < (i.perform (performAll (is.take k) {})).nextOffset := by omega
    _ ≤ (performAll _ (i.perform (performAll (is.take k) {}))).nextOffset :=
      nextOffset_le_performAll _ _
    _ = offset' := hnext'

/-- The offset is that of no other instruction, and it leads from everywhere to the entry that this
instruction has added. -/
structure LeadsBack (s : Stream) (is : List Instruction) (k offset : Nat) : Prop where
  ne_zero : offset ≠ 0
  unique : ∀ k', offsetAt? is k' = some offset → k' = k
  found : ∃ i e, is[k]? = some i ∧ i.Adds e ∧ e.offset = offset ∧ ∀ c,
    (do s.seek offset; s.next) c = .ok (some e) (.behind (performAll (is.take k) {}).entries.size)

theorem offset_ne_zero (h : offsetAt? is k = some offset) : offset ≠ 0 := by
  obtain ⟨i, -, hoffset⟩ := offsetAt?_eq_some.mp h
  have hnext := (nextOffset_perform hoffset).1
  have hle : 11 ≤ (performAll (is.take k) {}).nextOffset := nextOffset_le_performAll (is.take k) {}
  omega

theorem offsetAt?_unique {k' : Nat} (h : offsetAt? is k = some offset)
    (h' : offsetAt? is k' = some offset) : k' = k := by
  rcases Nat.lt_trichotomy k k' with hlt | rfl | hlt
  · exact absurd (offsetAt?_lt h h' hlt) (Nat.lt_irrefl _)
  · rfl
  · exact absurd (offsetAt?_lt h' h hlt) (Nat.lt_irrefl _)

theorem leadsBack (htags : ∀ i ∈ is, i.tag? ≠ some .null) (h : offsetAt? is k = some offset) :
    LeadsBack (performAll is {}).build is k offset where
  ne_zero := offset_ne_zero h
  unique _ h' := offsetAt?_unique h h'
  found := by
    obtain ⟨i, hi, hoffset⟩ := offsetAt?_eq_some.mp h
    obtain ⟨e, hentries, hadds, rfl, hnull⟩ :=
      exists_perform hoffset (htags i (List.mem_of_getElem? hi))
    -- The entry is added at the end, and stays where it is.
    have hsplit : is = is.take (k + 1) ++ is.drop (k + 1) := (List.take_append_drop ..).symm
    have hwhole : performAll is {} =
        performAll (is.drop (k + 1)) (i.perform (performAll (is.take k) {})) := by
      rw [← performAll_take_succ hi, ← performAll_append, ← hsplit]
    have hadded := entryAt_push_self (performAll (is.take k) {}).entries hnull
    rw [← hentries] at hadded
    have hentry : (performAll is {}).build.EntryAt (performAll (is.take k) {}).entries.size e := by
      rw [hwhole]
      exact (hadded.continues (performAll_continues _ _)).continues (continues_append _ _)
    have hbuilt : (performAll is {}).Built := Built.empty.performAll htags
    have hlocate := hbuilt.tidy.addressed _ e hentry
    refine ⟨i, e, hi, hadds, rfl, fun c => ?_⟩
    exact Effect.bind_of_ok (Walk.outcome_eq_ok.mp (outcome_seek hlocate)) |>.trans
      (Walk.outcome_eq_ok.mp (outcome_next_some hentry.get))

/-! ## Units -/

theorem Built.unit_eq (h : b.Built) (he : b.build.EntryAt k e) :
    ∃ unit, b.build.UnitOf k unit ∧ e.unit = (unit.map Entry.offset).getD 0 := by
  obtain ⟨unit, hunit⟩ := b.build.exists_unitOf k
  refine ⟨unit, hunit, ?_⟩
  cases unit with
  | some u =>
    obtain ⟨j, hu⟩ := hunit
    exact h.tidy.tracked k e j u he hu
  | none =>
    rcases h.begun he.get with rfl | ⟨-, hzero | ⟨j, u, hj, hu, htag, -⟩⟩
    · cases he.nonnull
    · exact hzero
    · exact absurd htag (hunit j u (Nat.le_of_lt_succ hj) hu)

/-! ## The whole stream -/

/-- The stream is the list of trees that the instructions describe. -/
structure Lists (s : Stream) (is : List Instruction) : Prop where
  forest : ∃ f : Forest, s.entries.toList = f.flatten
  /-- Apart from instructions that close nothing, and with those that are missing at the end, there
  is one entry for each. -/
  added : List.Forall₂ Instruction.Adds (balanced 0 is) s.entries.toList
  closed : ∀ k e, s.entries[k]? = some e → e.children = true → ∃! m, s.Closes k m
  closing : ∀ m, s.NullAt m → ∃! k, s.Closes k m
  offset : ∀ k offset, offsetAt? is k = some offset → LeadsBack s is k offset
  /-- The unit is that of the compile unit that began last, or zero if there is none. -/
  unit : ∀ k e, s.EntryAt k e → ∃ unit, s.UnitOf k unit ∧ e.unit = (unit.map Entry.offset).getD 0
  /-- A null entry is of no unit. -/
  null : ∀ k, s.NullAt k → s.entries[k]? = some .null
  skip : ∀ k e, s.entries[k]? = some e → s.SkipsAt k e

theorem Built.existsUnique_closes (h : b.Built) (he : b.build.entries[k]? = some e)
    (hc : e.children = true) : ∃! m, b.build.Closes k m := by
  rcases h.begun he with rfl | ⟨hnonnull, -⟩
  · cases hc
  · have hentry : b.build.EntryAt k e := ⟨he, hnonnull⟩
    obtain ⟨js, m, hjs, hm⟩ := h.tidy.closed hentry hc
    have hcloses : b.build.Closes k m := ⟨⟨e, hentry, hc⟩, ⟨js, hjs⟩, hm⟩
    exact ⟨m, hcloses, fun m' hm' => hm'.unique hcloses⟩

theorem Built.null_of_nullAt (h : b.Built) (hm : b.build.NullAt m) :
    b.build.entries[m]? = some .null := by
  obtain ⟨e, he, hn⟩ := hm
  rcases h.begun he with rfl | ⟨hnonnull, -⟩
  · exact he
  · rw [hn] at hnonnull
    cases hnonnull

/-- Whatever a builder is told, it makes the stream of a list of trees. -/
theorem build_lists (is : List Instruction) (htags : ∀ i ∈ is, i.tag? ≠ some .null) :
    Lists (performAll is {}).build is := by
  have hbuilt : (performAll is {}).Built := Built.empty.performAll htags
  obtain ⟨js, hjs⟩ := hbuilt.forest
  constructor
  case forest =>
    obtain ⟨f, hf⟩ := hjs.exists_forest fun _ => hbuilt.null_of_nullAt
    have hend : (performAll is {}).build.entries.toList.drop (performAll is {}).build.size = [] :=
      List.drop_eq_nil_of_le (Nat.le_refl _)
    rw [hend, List.append_nil] at hf
    exact ⟨f, hf⟩
  case added =>
    obtain ⟨es, hes, hadds⟩ := exists_added is {}
    have hes : (performAll is {}).build.entries.toList = es := hes
    rw [hes]
    exact hadds
  case closed => exact fun k e he hc => hbuilt.existsUnique_closes he hc
  case closing =>
    intro m hm
    obtain ⟨k, hk⟩ := hjs.exists_closes hm (Nat.zero_le m) hm.lt_size
    exact ⟨k, hk, fun k' hk' => hk'.parent_unique hk⟩
  case offset => exact fun k offset h => leadsBack htags h
  case unit => exact fun k e he => hbuilt.unit_eq he
  case null => exact fun k hk => hbuilt.null_of_nullAt hk
  case skip => exact fun k e he => skipsAt he fun hc => (hbuilt.existsUnique_closes he hc).exists

/-- A unit that is named twice and not closed, behind an instruction that closes nothing. -/
theorem build_lists_point :
    let is : List Instruction := [
      .close,
      .begin .compileUnit [(.name, .text "a.c"), (.name, .text "main.c")],
      .begin .structureType [(.name, .text "point")],
      .leaf .member [(.name, .text "x")],
      .close]
    let s := (performAll is {}).build
    (∀ i ∈ is, i.tag? ≠ some .null) ∧ s.size = 5 ∧
      (∃ e, e.attr? .name = some (.text "main.c") ∧
        ∀ c, (do s.seek 11; s.next) c = .ok (some e) (.behind 0)) ∧
      (∃! m, s.Closes 0 m) ∧
      ∃ e, s.next { position := 1 } = .ok (some e) (.behind 1) ∧
        ∃ m, s.Closes 1 m ∧ s.skipChildren (.behind 1) = .ok () { position := m + 1 } := by
  intro is s
  have htags : ∀ i ∈ is, i.tag? ≠ some .null := by decide
  have hlists : Lists s is := build_lists is htags
  refine ⟨htags, rfl, ?_, hlists.closed 0 _ rfl rfl, ?_⟩
  · obtain ⟨i, e, hi, hadds, -, hfound⟩ := (hlists.offset 1 11 rfl).found
    obtain rfl := Option.some.inj hi
    exact ⟨e, hadds.attr?_eq .name, hfound⟩
  · have hskips := hlists.skip 1 _ rfl
    obtain ⟨q, hskip, -, -, hclosed⟩ := hskips.skip
    obtain ⟨m, hm, rfl⟩ := hclosed rfl
    exact ⟨_, hskips.next _ rfl, m, hm, hskip⟩

/-- The null entry of a unit is of no unit, though the unit has begun before it. -/
theorem build_unit_null :
    let s := (performAll [.begin .compileUnit [], .close] {}).build
    ∃ u e, s.UnitOf 1 (some u) ∧ u.offset = 11 ∧ s.entries[1]? = some e ∧ e.unit = 0 := by
  intro s
  let u : Entry := { offset := 11, tag := .compileUnit, children := true, unit := 11 }
  have hu : s.EntryAt 0 u := ⟨rfl, rfl⟩
  refine ⟨u, .null, ⟨0, Nat.zero_le 1, hu, rfl, fun j v h0 h1 hv _ => ?_⟩, rfl, rfl, rfl⟩
  obtain rfl : j = 1 := by omega
  exact absurd ⟨.null, rfl, rfl⟩ hv.not_null

end Builder
end DwarfScope.Stream
