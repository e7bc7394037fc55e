import DwarfScope.Proofs.Layout.Faults
import DwarfScope.Proofs.Layout.Steps

/-!
# References to nowhere

If a resolution comes to a reference and there is no entry at its offset, it fails with this offset.
The offset zero is an exception. To seek it leads to the start, and the first entry is taken for the
type.
-/

namespace DwarfScope.Stream

open Effect (FailsWith)
open Relation (ReflTransGen)

variable {s : Stream} {i j k n limit depth target : Nat} {js : List Nat} {e t u m : Entry}
  {c d : Cursor} {p q : Stage} {err : Error} {ranges : List Nat}

/-! ## Offsets without an entry -/

/-- No two entries have the same offset, and none has that of the start. -/
structure DistinctOffsets (s : Stream) : Prop where
  ne_zero : ∀ i e, s.EntryAt i e → e.offset ≠ 0
  index_eq : ∀ i j e e', s.EntryAt i e → s.EntryAt j e' → e.offset = e'.offset → i = j

def Nowhere (s : Stream) (target : Nat) : Prop := ∀ i t, s.EntryAt i t → t.offset ≠ target

/-- There is no entry at the offset of the type. -/
structure RefersNowhere (s : Stream) (e : Entry) (target : Nat) : Prop where
  typeRef : e.typeRef? = some target
  nowhere : s.Nowhere target

theorem DistinctOffsets.addressed (h : s.DistinctOffsets) : s.Addressed := by
  intro i e he
  rw [locate?, if_neg (h.ne_zero i e he), indexOf?_eq_some_iff]
  exact ⟨⟨e, he, rfl⟩, fun k e' he' hoffset => Nat.le_of_eq (h.index_eq k i e' e he' he hoffset)⟩

theorem Ordered.distinctOffsets (h : s.Ordered) : s.DistinctOffsets where
  ne_zero i e he := Nat.ne_of_gt (h.pos e (by simpa using Array.mem_of_getElem? he.get) he.nonnull)
  index_eq i j e e' he he' hoffset := by
    rcases Nat.lt_trichotomy i j with hij | hij | hij
    · exact absurd hoffset (Nat.ne_of_lt (h.offset_lt he he' hij))
    · exact hij
    · exact absurd hoffset (Nat.ne_of_gt (h.offset_lt he' he hij))

theorem Builder.Built.distinctOffsets {b : Builder} (h : b.Built) : b.build.DistinctOffsets :=
  (h.ordered List.prefix_rfl).distinctOffsets

/-- Only the offset zero leads to an entry although there is none. -/
theorem Nowhere.missing_iff (h : s.Nowhere target) :
    s.Missing target ↔ target ≠ 0 ∨ ∀ t, ¬ s.EntryAt 0 t := by
  unfold Missing locate?
  by_cases h0 : target = 0
  · subst h0
    simp only [if_true, Option.some.injEq, ne_eq, not_true_eq_false, false_or]
    exact ⟨fun h t => h 0 t rfl, by rintro h _ t rfl; exact h t⟩
  · simp only [h0, if_false, ne_eq, not_false_eq_true, true_or, iff_true]
    intro i t hi
    obtain ⟨⟨e, he, hoffset⟩, -⟩ := indexOf?_eq_some_iff.mp hi
    exact absurd hoffset (h i e he)

theorem RefersNowhere.typeIndex? (h : s.RefersNowhere e target) (hm : s.Missing target) :
    s.typeIndex? e = none := by
  rw [typeIndex?_eq_none_iff, h.typeRef]
  exact hm

theorem RefersNowhere.outcome_typeEntry (h : s.RefersNowhere e target) (hm : s.Missing target)
    (c : Cursor) :
    (s.typeEntry e).outcome c = .error (Error.layout (.danglingReference target)) := by
  rw [outcome_typeEntry_none (h.typeIndex? hm), h.typeRef]
  rfl

theorem offset_typeEntry_iff (hd : s.DistinctOffsets) (h : s.typeEntry e c = .ok t d) :
    t.offset = e.typeRef?.getD e.offset ↔ e.typeRef?.getD e.offset ≠ 0 := by
  obtain ⟨i, hi, ht, -⟩ := typeEntry_eq_ok.mp h
  obtain ⟨hlocate, -⟩ := typeIndex?_eq_some_iff.mp hi
  constructor
  · intro heq hzero
    exact hd.ne_zero i t ht (heq.trans hzero)
  · intro hne
    rw [locate?, if_neg hne] at hlocate
    obtain ⟨⟨t', ht', hoffset⟩, -⟩ := indexOf?_eq_some_iff.mp hlocate
    rw [ht.unique ht', hoffset]

/-! ## Where a reference to nowhere is met -/

/-- The reference is met before the first layer is taken off. -/
inductive StartsNowhere (s : Stream) : Entry → Nat → Prop
  | first {e : Entry} {target : Nat} : s.RefersNowhere e target → StartsNowhere s e target
  | array {e a : Entry} {i target : Nat} {ranges : List Nat} : s.typeIndex? e = some i →
      s.EntryAt i a → a.tag = .arrayType → s.dimensions? i = some ranges →
      s.RefersNowhere a target → StartsNowhere s e target

/-- The next reference from a stage on leads nowhere: that of a layer, that of the entry beneath a
qualifier, or one where a member begins. -/
inductive StopsAt (s : Stream) : Stage → Nat → Prop
  | layer {e t : Entry} {i target : Nat} {ranges : List Nat} : s.EntryAt i t → t.isLayer = true →
      s.layerRanges? i = some ranges → s.RefersNowhere t target → StopsAt s (e, i) target
  | beneath {e t u : Entry} {i j target : Nat} : s.EntryAt i t → t.isLayer = true →
      t.tag.isQualifier = true → s.typeIndex? t = some j → s.EntryAt j u →
      s.RefersNowhere u target → StopsAt s (e, i) target
  | member {e t m : Entry} {j k target : Nat} : s.EntryAt k t → t.isLayer = false → Fits e t →
      t.tag.isAggregate = true → s.Asked k t j m → s.StartsNowhere m target →
      StopsAt s (e, k) target

/-- A resolution comes to a reference to nowhere, and to no other failure before. -/
def MeetsNowhere (s : Stream) (e : Entry) (target : Nat) : Prop :=
  s.StartsNowhere e target ∨
    ∃ i p, s.Begins e i ∧ ReflTransGen s.Step (e, i) p ∧ s.StopsAt p target

theorem StartsNowhere.nowhere (h : s.StartsNowhere e target) : s.Nowhere target := by
  cases h with
  | first h => exact h.nowhere
  | array _ _ _ _ h => exact h.nowhere

theorem StopsAt.nowhere (h : s.StopsAt p target) : s.Nowhere target := by
  cases h with
  | layer _ _ _ h => exact h.nowhere
  | beneath _ _ _ _ _ h => exact h.nowhere
  | member _ _ _ _ _ h => exact h.nowhere

theorem MeetsNowhere.nowhere (h : s.MeetsNowhere e target) : s.Nowhere target := by
  rcases h with h | ⟨_, _, -, -, h⟩
  · exact h.nowhere
  · exact h.nowhere

theorem StartsNowhere.outcome_firstLayer (h : s.StartsNowhere e target) (hm : s.Missing target)
    (c : Cursor) :
    (s.firstLayer e).outcome c = .error (Error.layout (.danglingReference target)) := by
  unfold firstLayer
  cases h with
  | first h => exact Walk.outcome_bind_of_error (h.outcome_typeEntry hm c)
  | array hi ha harray hranges h =>
    have hdims := outcome_arrayRanges ha
    rw [hranges] at hdims
    obtain ⟨d, hok⟩ := hdims
    rw [Walk.outcome_bind_of_ok (Stream.outcome_typeEntry hi ha), if_pos harray,
      Walk.outcome_bind_of_ok hok]
    exact Walk.outcome_bind_of_error (h.outcome_typeEntry hm d)

/-! ## With enough room -/

def finish (s : Stream) (limit depth : Nat) (e : Entry) (l : Layers) : Walk Layout := do
  let f ← ofExcept (frame e l)
  return { f with members := ← s.members limit depth f.name l.entry }

theorem resolveWithin_finish (he : e.isNull = false) :
    s.resolveWithin limit (depth + 1) e = s.arrive limit e >>= s.finish limit depth e :=
  resolveWithin_succ he

/-- From a stage on, a resolution with enough room fails. -/
def FailsFrom (s : Stream) (p : Stage) (err : Error) : Prop :=
  ∃ N, ∀ limit depth n (l : Layers), N ≤ limit → N ≤ depth → N ≤ n → s.EntryAt p.2 l.entry →
    (s.unwrap n l >>= s.finish limit depth p.1).outcome (.behind p.2) = .error err

/-- With enough room, the resolution of an entry fails. -/
def Fails (s : Stream) (e : Entry) (err : Error) : Prop :=
  ∃ N, ∀ limit depth c, N ≤ limit → N ≤ depth →
    (s.resolveWithin limit depth e).outcome c = .error err

theorem Fails.of_firstLayer (he : e.isNull = false)
    (h : ∀ c, (s.firstLayer e).outcome c = .error err) : s.Fails e err := by
  refine ⟨1, fun limit depth c _ hdepth => ?_⟩
  obtain ⟨depth, rfl⟩ : ∃ m, depth = m + 1 := ⟨depth - 1, by omega⟩
  exact outcome_resolveWithin_lost he (Walk.outcome_bind_of_error (h c))

theorem FailsFrom.fails (he : e.isNull = false) (hi : s.Begins e i) (h : s.FailsFrom (e, i) err) :
    s.Fails e err := by
  obtain ⟨N, h⟩ := h
  refine ⟨N + 1, fun limit depth c hlimit hdepth => ?_⟩
  obtain ⟨depth, rfl⟩ : ∃ m, depth = m + 1 := ⟨depth - 1, by omega⟩
  obtain ⟨l, hl, harrive⟩ := hi.outcome_arrive limit c
  rw [resolveWithin_finish he, Walk.outcome_bind, harrive, ← Walk.outcome_bind]
  exact h limit depth limit l (by omega) (by omega) (by omega) hl

theorem FailsFrom.of_unwrap (ht : s.EntryAt i t)
    (h : ∀ (l : Layers) n, l.entry = t →
      (s.unwrap (n + 1) l).outcome (.behind i) = .error err) : s.FailsFrom (e, i) err := by
  refine ⟨1, fun limit depth n l _ _ hn hl => ?_⟩
  obtain ⟨n, rfl⟩ : ∃ m, n = m + 1 := ⟨n - 1, by omega⟩
  exact Walk.outcome_bind_of_error (h l n (hl.unique ht))

theorem FailsFrom.of_layer (ht : s.EntryAt i t) (hl : t.isLayer = true)
    (hj : s.layer? i = some (ranges, j)) (h : s.FailsFrom (e, j) err) : s.FailsFrom (e, i) err := by
  obtain ⟨N, h⟩ := h
  refine ⟨N + 1, fun limit depth n l hlimit hdepth hn hat => ?_⟩
  obtain ⟨n, rfl⟩ : ∃ m, n = m + 1 := ⟨n - 1, by omega⟩
  obtain rfl := ht.unique hat
  rcases outcome_unwrap_succ n hat with
    ⟨hbottom, -⟩ | ⟨-, hnone, -⟩ | ⟨ranges', j', l', -, hsome, hl', -, heq⟩
  · simp [hl] at hbottom
  · simp [hj] at hnone
  · obtain ⟨rfl, rfl⟩ : ranges = ranges' ∧ j = j' := by simpa [hj] using hsome
    rw [Walk.outcome_bind, heq, ← Walk.outcome_bind]
    exact h limit depth n l' (by omega) (by omega) (by omega) hl'

/-! ### Members -/

theorem outcome_membersFrom_item {name : String} {resolve : Entry → Walk Layout} (ha : s.Addressed)
    (he : s.EntryAt c.position e)
    (hres : e.tag = .member → ∃ l d, (resolve e).outcome (.behind c.position) = .ok (l, d))
    (hrest : (s.membersFrom name resolve n).outcome { position := s.afterItem c.position e } =
      .error err) : (s.membersFrom name resolve (n + 1)).outcome c = .error err := by
  by_cases ht : e.tag = .member
  · obtain ⟨l, d, hok⟩ := hres ht
    rw [outcome_membersFrom_member (ha _ _ he) he ht hok, hrest]
    rfl
  · rw [outcome_membersFrom_other he ht, hrest]

theorem outcome_membersFrom_fails {name : String} {resolve : Entry → Walk Layout} {p : Nat}
    (ha : s.Addressed) (h : s.Siblings p js j) (hm : s.EntryAt j m) (ht : m.tag = .member)
    (hearlier : ∀ x ∈ js, ∀ e c, s.EntryAt x e → e.tag = .member →
      ∃ l d, (resolve e).outcome c = .ok (l, d))
    (hfails : ∀ c, (resolve m).outcome c = .error err) (hc : c.position = p) (hn : js.length < n) :
    (s.membersFrom name resolve n).outcome c = .error err := by
  induction h generalizing n c with
  | nil p =>
    subst hc
    obtain ⟨n, rfl⟩ : ∃ n', n = n' + 1 := ⟨n - 1, by omega⟩
    exact outcome_membersFrom_error hm ht (hfails _)
  | leaf he hchildren _ ih =>
    subst hc
    obtain ⟨n, rfl⟩ : ∃ n', n = n' + 1 := ⟨n - 1, by omega⟩
    refine outcome_membersFrom_item ha he (hearlier _ List.mem_cons_self _ _ he) ?_
    exact ih hm (fun x hx => hearlier x (List.mem_cons_of_mem _ hx)) (afterItem_leaf hchildren)
      (by simpa using hn)
  | node he hchildren hbelow hnull _ _ ih =>
    subst hc
    obtain ⟨n, rfl⟩ : ∃ n', n = n' + 1 := ⟨n - 1, by omega⟩
    refine outcome_membersFrom_item ha he (hearlier _ List.mem_cons_self _ _ he) ?_
    exact ih hm (fun x hx => hearlier x (List.mem_cons_of_mem _ hx))
      (afterItem_node hchildren hbelow hnull) (by simpa using hn)

theorem FailsFrom.of_member (ha : s.Addressed) (ht : s.EntryAt k t) (hbottom : t.isLayer = false)
    (hfits : Fits e t) (hagg : t.tag.isAggregate = true) (hasked : s.Asked k t j m)
    (h : s.Fails m err) : s.FailsFrom (e, k) err := by
  obtain ⟨N, h⟩ := h
  obtain ⟨js, hjs, hearlier⟩ := hasked.earlier
  refine ⟨max N (2 * s.size + 2) + 1, fun limit depth n l hlimit hdepth hn hat => ?_⟩
  obtain ⟨n, rfl⟩ : ∃ m, n = m + 1 := ⟨n - 1, by omega⟩
  obtain rfl := ht.unique hat
  have hunwrap : (s.unwrap (n + 1) l).outcome (.behind k) = .ok (l, .behind k) :=
    Walk.outcome_bind_of_ok (outcome_nextLayer_bottom hbottom)
  obtain ⟨f, hf⟩ := frame_of_fits hfits
  rw [Walk.outcome_bind_of_ok hunwrap, finish, hf,
    Walk.outcome_bind_of_ok (Walk.outcome_ofExcept _ _)]
  refine Walk.outcome_bind_of_error ?_
  rw [members, if_pos (by simp [hagg, hasked.children])]
  have hlength : js.length ≤ s.size := by
    have := hjs.length_le
    have := hasked.entryAt.lt_size
    omega
  refine outcome_membersFrom_fails ha hjs hasked.entryAt hasked.tag ?_
    (fun c => h limit depth c (by omega) (by omega)) rfl (by omega)
  intro x hx e' c' he' hm'
  obtain ⟨l', e'', he'', hok⟩ := hearlier x hx (by simp [memberAt_of_entryAt he', hm'])
  obtain rfl := he'.unique he''
  obtain ⟨d, hok⟩ := hok c'
  exact ⟨l', d, (resolveWithin_extendedBy (by omega) (by omega) e').ok (Walk.outcome_eq_ok.mpr hok)⟩

/-! ### Along a path -/

theorem outcome_nextLayer_layer {l : Layers} (ht : s.EntryAt i l.entry)
    (hl : l.entry.isLayer = true)
    (hranges : s.layerRanges? i = some ranges) (h : s.RefersNowhere l.entry target)
    (hm : s.Missing target) :
    (s.nextLayer l).outcome (.behind i) = .error (Error.layout (.danglingReference target)) := by
  obtain ⟨-, hkind⟩ := Entry.kind_of_isLayer hl
  have hlost := h.outcome_typeEntry hm
  unfold nextLayer
  rw [if_neg (by simp [h.typeRef])]
  split
  · exact Walk.outcome_bind_of_error (hlost _)
  split
  · exact Walk.outcome_bind_of_error (hlost _)
  split
  · rename_i harray
    have hdims := outcome_arrayRanges ht
    rw [layerRanges?, ht.get, Option.bind_eq_bind, Option.bind_some, if_pos harray] at hranges
    rw [hranges] at hdims
    obtain ⟨d, hok⟩ := hdims
    rw [Walk.outcome_bind_of_ok hok]
    exact Walk.outcome_bind_of_error (hlost d)
  · rename_i hq ht' ha
    rcases hkind with (hk | hk) | hk
    · exact absurd hk hq
    · exact absurd hk ht'
    · exact absurd hk ha

theorem outcome_nextLayer_beneath {l : Layers} (hl : l.entry.isLayer = true)
    (hq : l.entry.tag.isQualifier = true) (hj : s.typeIndex? l.entry = some j)
    (hu : s.EntryAt j u) (h : s.RefersNowhere u target) (hm : s.Missing target) (c : Cursor) :
    (s.nextLayer l).outcome c = .error (Error.layout (.danglingReference target)) := by
  obtain ⟨hr, -⟩ := Entry.kind_of_isLayer hl
  unfold nextLayer
  rw [if_neg (by simpa [Option.isSome_iff_ne_none] using hr), if_pos hq,
    Walk.outcome_bind_of_ok (outcome_typeEntry hj hu)]
  exact Walk.outcome_bind_of_error (h.outcome_typeEntry hm _)

theorem failsFrom_of_stopsAt (ha : s.Addressed) (h : s.StopsAt p target) (hm : s.Missing target) :
    s.FailsFrom p (.layout (.danglingReference target)) := by
  cases h with
  | layer ht hl hranges hnowhere =>
    refine .of_unwrap ht fun l n heq => Walk.outcome_bind_of_error ?_
    subst heq
    exact outcome_nextLayer_layer ht hl hranges hnowhere hm
  | beneath ht hl hq hj hu hnowhere =>
    refine .of_unwrap ht fun l n heq => Walk.outcome_bind_of_error ?_
    subst heq
    exact outcome_nextLayer_beneath hl hq hj hu hnowhere hm _
  | member ht hbottom hfits hagg hasked hstarts =>
    exact .of_member ha ht hbottom hfits hagg hasked
      (.of_firstLayer hasked.entryAt.nonnull (hstarts.outcome_firstLayer hm))

theorem failsFrom_of_path (ha : s.Addressed) (hpath : ReflTransGen s.Step p q)
    (h : s.FailsFrom q err) : s.FailsFrom p err := by
  -- From the last stage back to the first one, each step asks for a little more room.
  induction hpath using ReflTransGen.head_induction_on with
  | refl => exact h
  | head hstep _ ih =>
    cases hstep with
    | layer ht hl hj => exact .of_layer ht hl hj ih
    | member ht hbottom hfits hagg hasked hbegins =>
      exact .of_member ha ht hbottom hfits hagg hasked (ih.fails hasked.entryAt.nonnull hbegins)

theorem fails_of_meetsNowhere (ha : s.Addressed) (he : e.isNull = false)
    (h : s.MeetsNowhere e target) (hm : s.Missing target) :
    s.Fails e (.layout (.danglingReference target)) := by
  rcases h with hstarts | ⟨i, p, hi, hpath, hstops⟩
  · exact .of_firstLayer he (hstarts.outcome_firstLayer hm)
  · exact (failsFrom_of_path ha hpath (failsFrom_of_stopsAt ha hstops hm)).fails he hi

theorem Fails.outcome_resolve (ha : s.Addressed) (he : e.isNull = false) (h : s.Fails e err)
    (c : Cursor) : (s.resolve e).outcome c = .error err := by
  obtain ⟨N, h⟩ := h
  have hmax := fun c => h (max N (2 * s.size + 2)) (max N (s.size + 2)) c (by omega) (by omega)
  -- What ends with more room comes to no cycle, and then there is room enough.
  have hends : (s.resolve e).Ends := by
    have hroom : (s.resolveWithin (max N (2 * s.size + 2)) (max N (s.size + 2)) e).Ends := by
      intro c hend
      cases (hmax c).symm.trans hend
    exact ends_of_acyclic ha fun i hi => acyclic_of_ends ha he hroom hi
  rcases resolveWithin_extendedBy (s := s) (show 2 * s.size + 2 ≤ max N (2 * s.size + 2) by omega)
    (show s.size + 2 ≤ max N (s.size + 2) by omega) e c with hendless | heq
  · exact absurd hendless (hends c)
  · exact heq.trans (hmax c)

/-! ## Errors name what is missing -/

/-- If the error is that a reference leads nowhere, then seeking it leads to no entry. -/
def Truthful (s : Stream) (fault : Failure) : Prop :=
  ∀ target, fault = Error.layout (.danglingReference target) → s.Missing target

theorem ResolveError.truthful {fault : Failure} (h : s.ResolveError fault) :
    s.Truthful fault := by
  rintro target rfl
  cases h
  assumption

theorem resolveWithin_truthful (limit depth : Nat) (e : Entry) :
    FailsWith s.Truthful (s.resolveWithin limit depth e) :=
  fun c err d herr => (ResolveError.resolveWithin limit depth e c err d herr).truthful

/-! ## References to nowhere are reported -/

/-- If a resolution meets a reference to nowhere before anything else fails, it fails with the
offset, unless that is zero and the first entry is not null. An entry that is gone on with has the
offset that was referred to, unless that is zero. -/
theorem resolve_nowhere (hd : s.DistinctOffsets) (he : e.isNull = false)
    (h : s.MeetsNowhere e target) (c : Cursor) :
    ((∃ d, s.resolve e c = .error (Error.layout (.danglingReference target)) d) ↔
      target ≠ 0 ∨ ∀ t, ¬ s.EntryAt 0 t) ∧
    ∀ m t c d, s.typeEntry m c = .ok t d →
      (t.offset = m.typeRef?.getD m.offset ↔ m.typeRef?.getD m.offset ≠ 0) := by
  refine ⟨?_, fun m t c d hok => offset_typeEntry_iff hd hok⟩
  rw [← h.nowhere.missing_iff, ← Walk.outcome_eq_error]
  constructor
  · intro herr
    exact Walk.failsWith_iff.mp (resolveWithin_truthful _ _ _) c _ herr target rfl
  · intro hm
    exact (fails_of_meetsNowhere hd.addressed he h hm).outcome_resolve hd.addressed he c

/-- A number, and a record of two. The type of the second one is at an offset. -/
def Builder.record (target : Nat) : Builder :=
  ((((((({} : Builder).leaf
    .baseType [(.name, .text "int"), (.byteSize, .udata 4)]).begin
    .structureType [(.name, .text "Record"), (.byteSize, .udata 8)]).leaf
    .member [(.name, .text "a"), (.type, .ref 11)]).leaf
    .member [(.name, .text "b"), (.type, .ref target), (.dataMemberLocation, .udata 4)]).close).leaf
    .var [(.name, .text "x"), (.type, .ref 12)])

theorem Builder.record_built (target : Nat) : (record target).Built :=
  .leaf _ _ (by decide) <| .close <| .leaf _ _ (by decide) <| .leaf _ _ (by decide) <|
    .begin _ _ (by decide) <| .leaf _ _ (by decide) .empty

theorem Builder.record_meetsNowhere (h : (record target).build.Nowhere target) :
    (record target).build.MeetsNowhere (record target).build.entries[5]! target := by
  have hfirst : (record target).build.ResolvesTo 2 _ :=
    resolvesTo_of_within (e := (record target).build.entries[2]!) (c := {}) ⟨rfl, rfl⟩
      (Nat.le_refl _) (Nat.le_refl _) rfl
  have hasked : (record target).build.Asked 1 (record target).build.entries[1]! 3
      (record target).build.entries[3]! := by
    refine ⟨rfl, ⟨[2], .leaf (e := (record target).build.entries[2]!) ⟨rfl, rfl⟩ rfl (.nil 3), ?_⟩,
      ⟨rfl, rfl⟩, rfl⟩
    simpa using fun _ => ⟨_, hfirst⟩
  exact .inr ⟨1, _, ⟨[], rfl⟩, .refl,
    .member ⟨rfl, rfl⟩ rfl ⟨_, rfl⟩ rfl hasked (.first ⟨rfl, h⟩)⟩

theorem resolve_nowhere_record :
    let s := (Builder.record 99).build
    ∃ d, s.resolve s.entries[5]! {} = .error (Error.layout (.danglingReference 99)) d := by
  have hnowhere : ∀ i < 6, ((Builder.record 99).build.entries[i]?.map Entry.offset) ≠ some 99 := by
    decide
  intro s
  have hd : s.DistinctOffsets := (Builder.record_built 99).distinctOffsets
  have hmeets : s.MeetsNowhere s.entries[5]! 99 := by
    refine Builder.record_meetsNowhere fun i t ht hoffset => hnowhere i ht.lt_size ?_
    rw [ht.get, Option.map_some, hoffset]
  exact (resolve_nowhere hd rfl hmeets {}).1.mpr (.inl (by decide))

/-- At the offset zero, the member is a number. -/
theorem resolve_nowhere_zero :
    let s := (Builder.record 0).build
    s.DistinctOffsets ∧ s.MeetsNowhere s.entries[5]! 0 ∧
      ∃ l d, s.resolve s.entries[5]! {} = .ok l d ∧
        l.members.map (fun m => (m.name, m.bitSize)) = [("a", 32), ("b", 32)] := by
  intro s
  have hd : s.DistinctOffsets := (Builder.record_built 0).distinctOffsets
  exact ⟨hd, Builder.record_meetsNowhere fun i t ht => hd.ne_zero i t ht, _, _, rfl, rfl⟩

end DwarfScope.Stream
