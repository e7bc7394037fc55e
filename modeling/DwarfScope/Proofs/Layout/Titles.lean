import DwarfScope.Proofs.Layout.Names
import DwarfScope.Proofs.Layout.Termination

/-!
# What variables are named after

A variable is described by the name of its type, that is, of one of its layers. Not every
layer is looked at: only the first one below a leading array, and those directly beneath a qualifier
that is taken off. If none of these has a name, the variable keeps its own.
-/

namespace DwarfScope

/-! ## The layers of a type -/

def belowArray : List Entry → List Entry
  | a :: t :: ts => if a.tag = .arrayType then t :: ts else a :: t :: ts
  | ts => ts

/-- The layers directly beneath the qualifiers that are taken off. Each is passed together with its
qualifier. -/
def beneathQualifiers : List Entry → List Entry
  | t :: u :: ts =>
    if t.tag.isQualifier then u :: beneathQualifiers ts else beneathQualifiers (u :: ts)
  | _ => []

/-- The last layer, if it is passed together with a qualifier. -/
def passed? : List Entry → Option Entry
  | t :: u :: ts =>
    if t.tag.isQualifier then if ts.isEmpty then some u else passed? ts else passed? (u :: ts)
  | _ => none

def noticed (ts : List Entry) : List Entry :=
  (belowArray ts).head?.toList ++ beneathQualifiers (belowArray ts)

def lastName? (ts : List Entry) : Option String := ts.reverse.findSome? Entry.name?

/-- If any layer has a name, this is the name of one of them, and that of the first of them that has
a name if there is no qualifier. -/
def NamedAfter (ts : List Entry) (name : String) : Prop :=
  (∃ t ∈ ts, t.name?.isSome = true) → (∃ t ∈ ts, t.name? = some name) ∧
    ((∀ t ∈ ts, t.tag.isQualifier = false) → ts.findSome? Entry.name? = some name)

/-- A layer that may give its name has one. If there is no qualifier, an array that is looked
through has none. -/
structure ShowsName (ts : List Entry) : Prop where
  noticed : ∃ t ∈ noticed ts, t.name?.isSome = true
  leading : (∀ t ∈ ts, t.tag.isQualifier = false) → ∀ a t rest, ts = a :: t :: rest →
    a.tag = .arrayType → a.name? = none

variable {ts us : List Entry} {t u : Entry} {name : String}

theorem lastName?_cons : lastName? (t :: ts) = (lastName? ts <|> t.name?) := by
  simp [lastName?, List.findSome?_append]

theorem lastName?_eq_none : lastName? ts = none ↔ ∀ t ∈ ts, t.name? = none := by
  simp [lastName?]

theorem exists_of_lastName? (h : lastName? ts = some name) : ∃ t ∈ ts, t.name? = some name := by
  obtain ⟨before, t, after, heq, ht, -⟩ := List.findSome?_eq_some_iff.mp h
  refine ⟨t, ?_, ht⟩
  rw [← List.mem_reverse, heq]
  simp

theorem belowArray_of_ne (h : t.tag ≠ .arrayType) : belowArray (t :: ts) = t :: ts := by
  cases ts with
  | nil => rfl
  | cons u ts => simp [belowArray, h]

theorem belowArray_array (h : t.tag = .arrayType) : belowArray (t :: u :: ts) = u :: ts := by
  simp [belowArray, h]

theorem belowArray_subset (ts : List Entry) : belowArray ts ⊆ ts := by
  unfold belowArray
  split
  · split
    · exact List.subset_cons_self _ _
    · exact List.Subset.refl _
  · exact List.Subset.refl _

theorem beneathQualifiers_subset (ts : List Entry) : beneathQualifiers ts ⊆ ts := by
  fun_induction beneathQualifiers ts with
  | case1 t u ts _ ih =>
    exact List.subset_cons_of_subset _ (List.cons_subset_cons _ ih)
  | case2 t u ts _ ih => exact List.subset_cons_of_subset _ ih
  | case3 => exact List.nil_subset _

theorem beneathQualifiers_of_not_qualifier (h : t.tag.isQualifier = false) :
    beneathQualifiers (t :: ts) = beneathQualifiers ts := by
  cases ts with
  | nil => rfl
  | cons u ts => simp [beneathQualifiers, h]

theorem passed?_of_not_qualifier (h : t.tag.isQualifier = false) :
    passed? (t :: ts) = passed? ts := by
  cases ts with
  | nil => rfl
  | cons u ts => simp [passed?, h]

theorem beneathQualifiers_of_unqualified (h : ∀ t ∈ ts, t.tag.isQualifier = false) :
    beneathQualifiers ts = [] := by
  induction ts with
  | nil => rfl
  | cons t ts ih =>
    rw [List.forall_mem_cons] at h
    rw [beneathQualifiers_of_not_qualifier h.1, ih h.2]

theorem noticed_subset (ts : List Entry) : noticed ts ⊆ ts := by
  refine List.append_subset.mpr ⟨fun t ht => ?_, ?_⟩
  · exact belowArray_subset ts (List.mem_of_mem_head? (by simpa using ht))
  · exact List.Subset.trans (beneathQualifiers_subset _) (belowArray_subset ts)

theorem lastName?_noticed : lastName? (noticed ts) =
    (lastName? (beneathQualifiers (belowArray ts)) <|> (belowArray ts).head?.bind Entry.name?) := by
  unfold noticed
  cases (belowArray ts).head? with
  | none => simp
  | some t => exact lastName?_cons

theorem noticed_of_unqualified (h : ∀ t ∈ ts, t.tag.isQualifier = false) :
    noticed ts = (belowArray ts).head?.toList := by
  unfold noticed
  rw [beneathQualifiers_of_unqualified fun t ht => h t (belowArray_subset ts ht), List.append_nil]

/-! ## Whether the name is that of a layer -/

theorem namedAfter_of_showsName (h : ShowsName ts) (hname : lastName? (noticed ts) = some name) :
    NamedAfter ts name := by
  intro _
  obtain ⟨t, ht, htname⟩ := exists_of_lastName? hname
  refine ⟨⟨t, noticed_subset ts ht, htname⟩, fun hplain => ?_⟩
  rw [noticed_of_unqualified hplain] at ht
  match ts, h with
  | [], _ => simp [belowArray] at ht
  | [a], _ =>
    obtain rfl : t = a := by simpa [belowArray] using ht
    simp [htname]
  | a :: u :: rest, h =>
    by_cases ha : a.tag = .arrayType
    · obtain rfl : t = u := by simpa [belowArray_array ha] using ht
      simp [h.leading hplain a t rest rfl ha, htname]
    · obtain rfl : t = a := by simpa [belowArray_of_ne ha] using ht
      simp [htname]

theorem showsName_of_namedAfter (hdiffer : (ts.filterMap Entry.name?).Nodup)
    (hname : lastName? (noticed ts) = some name) (h : NamedAfter ts name) : ShowsName ts := by
  obtain ⟨t, ht, htname⟩ := exists_of_lastName? hname
  have htsome : t.name?.isSome = true := by simp [htname]
  refine ⟨⟨t, ht, htsome⟩, ?_⟩
  rintro hplain a u rest rfl harray
  have hfirst := (h ⟨t, noticed_subset _ ht, htsome⟩).2 hplain
  rw [noticed_of_unqualified hplain, belowArray_array harray] at ht
  obtain rfl : t = u := by simpa using ht
  rcases ha : a.name? with _ | own
  · rfl
  · obtain rfl : own = name := by simpa [ha] using hfirst
    simp [ha, htname] at hdiffer

namespace Stream

variable {s : Stream} {i j k n m : Nat} {e : Entry} {c d : Cursor} {r : List Nat × Nat}

/-! ## Following the references -/

/-- The entries visited from the one at an index on, down to the first that is no layer. -/
inductive LayersFrom (s : Stream) : Nat → List Entry → Prop
  | bottom {i : Nat} {t : Entry} : s.EntryAt i t → t.isLayer = false → LayersFrom s i [t]
  | layer {i j : Nat} {t : Entry} {ts : List Entry} : s.EntryAt i t → t.isLayer = true →
      s.typeIndex? t = some j → LayersFrom s j ts → LayersFrom s i (t :: ts)

def LayersOf (s : Stream) (e : Entry) (ts : List Entry) : Prop :=
  ∃ i, s.typeIndex? e = some i ∧ s.LayersFrom i ts

/-- The name that is given beyond the last layer. That is only gone to if the last layer is passed
together with a qualifier. -/
def beyond? (s : Stream) (ts : List Entry) : Option String := do
  s.given? (← s.typeIndex? (← passed? ts))

theorem LayersFrom.unique (h : s.LayersFrom i ts) (h' : s.LayersFrom i us) : ts = us := by
  induction h generalizing us with
  | bottom ht hl =>
    cases h' with
    | bottom ht' => rw [ht.unique ht']
    | layer ht' hl' => simp [ht.unique ht', hl'] at hl
  | layer ht hl hj _ ih =>
    cases h' with
    | bottom ht' hl' => simp [ht.unique ht', hl'] at hl
    | layer ht' _ hj' hrest =>
      obtain rfl := ht.unique ht'
      obtain rfl := Option.some.inj (hj.symm.trans hj')
      rw [ih hrest]

theorem LayersFrom.head (h : s.LayersFrom i ts) : ∃ t rest, ts = t :: rest ∧ s.EntryAt i t := by
  cases h with
  | bottom ht => exact ⟨_, _, rfl, ht⟩
  | layer ht => exact ⟨_, _, rfl, ht⟩

theorem LayersOf.unique (h : s.LayersOf e ts) (h' : s.LayersOf e us) : ts = us := by
  obtain ⟨i, hi, h⟩ := h
  obtain ⟨j, hj, h'⟩ := h'
  obtain rfl := Option.some.inj (hi.symm.trans hj)
  exact h.unique h'

theorem givenWithin?_mono (h : s.endingWithin n i = some r) (hm : n ≤ m) :
    s.givenWithin? m i = s.givenWithin? n i := by
  induction n generalizing i m r with
  | zero => cases h
  | succ n ih =>
    obtain ⟨m, rfl⟩ : ∃ m', m = m' + 1 := ⟨m - 1, by omega⟩
    rcases endingWithin_cases h with ⟨t, ht, hl, -⟩ | ⟨_, j, _, _, ⟨t, ht, hl, hj⟩, -, hend, -⟩
    · simp [givenWithin?, ht, hl]
    · rw [givenWithin?_layer ht hl hj, givenWithin?_layer ht hl hj, ih hend (by omega)]

theorem given?_bottom (ht : s.EntryAt i t) (h : t.isLayer = false) : s.given? i = none :=
  givenWithin?_bottom ht h

theorem given?_layer (ht : s.EntryAt i t) (h : t.isLayer = true) (hj : s.beneath? i = some j)
    (hend : s.ending? j = some r) : s.given? i = (s.given? j <|> s.beneathName? i) := by
  unfold given?
  rw [givenWithin?_layer ht h hj, givenWithin?_mono hend (show s.size ≤ 2 * s.size + 1 by omega),
    givenWithin?_mono hend (show s.size ≤ 2 * s.size + 2 by omega)]

theorem beneath?_qualifier (ht : s.EntryAt i t) (hq : t.tag.isQualifier = true)
    (h : s.beneath? i = some j) :
    ∃ x u, s.typeIndex? t = some x ∧ s.EntryAt x u ∧ s.typeIndex? u = some j := by
  simp only [beneath?, ht.get, hq, if_true, Option.bind_eq_bind, Option.bind_some,
    Option.bind_eq_some_iff] at h
  obtain ⟨x, hx, u, hu, hj⟩ := h
  obtain ⟨u', hu'⟩ := exists_of_typeIndex? hx
  obtain rfl : u' = u := Option.some.inj (hu'.get.symm.trans hu)
  exact ⟨x, u', hx, hu', hj⟩

/-- Layers that come to an end are finitely many. The last name given on the way comes from beyond
them, or it is that of the last one that stands beneath a qualifier and has a name. -/
theorem exists_layersFrom (h : s.endingWithin n i = some r) (hi : ∃ t, s.EntryAt i t) :
    ∃ ts, s.LayersFrom i ts ∧
      s.given? i = (s.beyond? ts <|> lastName? (beneathQualifiers ts)) := by
  induction n generalizing i r with
  | zero => cases h
  | succ n ih =>
    rcases endingWithin_cases h with ⟨t, ht, hl, -⟩ | ⟨_, j, _, _, ⟨t, ht, hl, hj⟩, -, hend, -⟩
    · obtain ⟨t', hat⟩ := hi
      obtain rfl : t = t' := Option.some.inj (ht.symm.trans hat.get)
      exact ⟨[t], .bottom hat hl, given?_bottom hat hl⟩
    have hgiven := given?_layer ht hl hj (endingWithin_size hend)
    cases hq : t.tag.isQualifier with
    | false =>
      have hnext : s.typeIndex? t = some j := by simpa [beneath?, ht.get, hq] using hj
      obtain ⟨ts, hts, hrest⟩ := ih hend (exists_of_typeIndex? hnext)
      refine ⟨t :: ts, .layer ht hl hnext hts, ?_⟩
      have hname : s.beneathName? i = none := by simp [beneathName?, ht.get, hq]
      rw [hgiven, hrest, hname, beneathQualifiers_of_not_qualifier hq, beyond?, beyond?,
        passed?_of_not_qualifier hq]
      simp
    | true =>
      -- Two layers come off at once, unless the one beneath the qualifier is the last.
      obtain ⟨x, u, hx, hu, hj⟩ := beneath?_qualifier ht hq hj
      have hname : s.beneathName? i = u.name? := by
        simp [beneathName?, ht.get, hq, hx, nameAt?_eq hu]
      cases hul : u.isLayer with
      | false =>
        refine ⟨[t, u], .layer ht hl hx (.bottom hu hul), ?_⟩
        rw [hgiven, hname]
        simp [beyond?, passed?, beneathQualifiers, lastName?, hq, hj]
      | true =>
        obtain ⟨ts, hts, hrest⟩ := ih hend (exists_of_typeIndex? hj)
        refine ⟨t :: u :: ts, .layer ht hl hx (.layer hu hul hj hts), ?_⟩
        obtain ⟨v, vs, rfl, -⟩ := hts.head
        rw [hgiven, hrest, hname]
        simp [beyond?, passed?, beneathQualifiers, lastName?_cons, hq, Option.or_assoc]

/-! ## The name of a variable -/

theorem exists_layersOf (ha : s.Addressed) (h : s.EndsAt e k) :
    ∃ i ts, s.Begins e i ∧ s.LayersOf e ts ∧ s.LayersFrom i (belowArray ts) ∧
      s.nameAt? i = (belowArray ts).head?.bind Entry.name? ∧
      s.given? i =
        (s.beyond? (belowArray ts) <|> lastName? (beneathQualifiers (belowArray ts))) := by
  obtain ⟨ranges, h⟩ := h
  simp only [reach?, Option.bind_eq_bind, Option.pure_def, Option.bind_eq_some_iff] at h
  obtain ⟨x, hx, ⟨before, i⟩, hstart, ⟨more, k'⟩, hend, -⟩ := h
  have hbegins : s.Begins e i := ⟨before, by simp [hx, hstart]⟩
  obtain ⟨u, hu⟩ := exists_of_typeIndex? hx
  simp only [startAt?, hu.get, Option.bind_eq_bind, Option.bind_some, Option.pure_def] at hstart
  -- What the resolution begins with are the layers below a leading array.
  obtain ⟨ts, hlayers, hbelow, hgiven⟩ : ∃ ts, s.LayersFrom x ts ∧ s.LayersFrom i (belowArray ts) ∧
      s.given? i =
        (s.beyond? (belowArray ts) <|> lastName? (beneathQualifiers (belowArray ts))) := by
    split at hstart
    · rename_i harray
      simp only [Option.bind_eq_some_iff, Option.some.injEq, Prod.mk.injEq] at hstart
      obtain ⟨_, -, _, hi, -, rfl⟩ := hstart
      obtain ⟨ts, hts, hgiven⟩ := exists_layersFrom hend (exists_of_typeIndex? hi)
      rcases hr : u.typeRef? with _ | target
      · obtain rfl := Option.some.inj (hi.symm.trans (typeIndex?_self ha hu hr))
        obtain rfl := hts.unique (.bottom hu (by simp [Entry.isLayer, hr]))
        exact ⟨[u], hts, hts, hgiven⟩
      · obtain ⟨t, rest, rfl, -⟩ := hts.head
        refine ⟨u :: t :: rest, .layer hu (by simp [Entry.isLayer, hr, harray]) hi hts, ?_⟩
        rw [belowArray_array harray]
        exact ⟨hts, hgiven⟩
    · rename_i hne
      cases hstart
      obtain ⟨ts, hts, hgiven⟩ := exists_layersFrom hend ⟨u, hu⟩
      obtain ⟨t, rest, rfl, ht⟩ := hts.head
      obtain rfl := hu.unique ht
      refine ⟨u :: rest, hts, ?_⟩
      rw [belowArray_of_ne hne]
      exact ⟨hts, hgiven⟩
  refine ⟨i, ts, hbegins, ⟨x, hx, hlayers⟩, hbelow, ?_, hgiven⟩
  obtain ⟨t, rest, heq, ht⟩ := hbelow.head
  rw [nameAt?_eq ht, heq]
  rfl

theorem endsAt_of_ok {l : Layout} (h : s.resolve e c = .ok l d) : ∃ k, s.EndsAt e k := by
  obtain ⟨-, layers, c', -, harrive, -⟩ :=
    outcome_resolveWithin_eq_ok.mp (Walk.outcome_eq_ok.mpr h)
  have hreached := reached_arrive (show s.size ≤ 2 * s.size + 2 by omega) e c
  rcases hk : s.reach? e with _ | ⟨ranges, k⟩
  · rw [hk, harrive] at hreached
    obtain ⟨err, ⟨⟩⟩ := hreached
  · exact ⟨k, ranges, hk⟩

/-- The names that may be taken for each other differ. -/
structure NamesDiffer (s : Stream) (e : Entry) (ts : List Entry) : Prop where
  layers : (ts.filterMap Entry.name?).Nodup
  own : e.name?.getD "" ∉ ts.filterMap Entry.name?
  beyond : ∀ name, s.beyond? (belowArray ts) = some name → name ∉ ts.filterMap Entry.name?

/-- A variable takes its name from the last layer that is looked at and has one, unless there is a
name beyond the layers, and keeps its own name if there is none. So it is named after its type if a
layer that is looked at has a name. If no two names are the same, it is only then, or if no layer
has a name. -/
theorem resolve_title {l : Layout} (ha : s.Addressed) (he : e.tag.isVariable = true)
    (hl : s.resolve e c = .ok l d) :
    ∃ ts, (∀ us, s.LayersOf e us ↔ us = ts) ∧
      l.name = ((s.beyond? (belowArray ts) <|> lastName? (noticed ts)) <|> e.name?).getD "" ∧
      (s.beyond? (belowArray ts) = none ∧ ShowsName ts → NamedAfter ts l.name) ∧
      (s.NamesDiffer e ts → NamedAfter ts l.name →
        (∀ t ∈ ts, t.name? = none) ∨ s.beyond? (belowArray ts) = none ∧ ShowsName ts) := by
  obtain ⟨k, hk⟩ := endsAt_of_ok hl
  obtain ⟨i, ts, hi, hts, -, hhead, hgiven⟩ := exists_layersOf ha hk
  obtain ⟨i', hi', hname⟩ := resolve_name hl
  obtain rfl := hi.unique hi'
  have htitle : l.name =
      ((s.beyond? (belowArray ts) <|> lastName? (noticed ts)) <|> e.name?).getD "" := by
    rw [hname, hgiven, hhead, if_pos he, lastName?_noticed]
    simp [Option.or_assoc]
  refine ⟨ts, fun us => ⟨fun hus => hus.unique hts, ?_⟩, htitle, ?_, ?_⟩
  · rintro rfl
    exact hts
  · rintro ⟨hbeyond, hshows⟩
    rcases hlast : lastName? (noticed ts) with _ | name
    · obtain ⟨t, ht, hsome⟩ := hshows.noticed
      simp [lastName?_eq_none.mp hlast t ht] at hsome
    · rw [htitle, hbeyond, hlast]
      exact namedAfter_of_showsName hshows hlast
  · intro hdiffer hafter
    by_cases hnone : ∀ t ∈ ts, t.name? = none
    · exact .inl hnone
    have hsome : ∃ t ∈ ts, t.name?.isSome = true := by
      simpa [Option.isSome_iff_ne_none] using hnone
    obtain ⟨t, ht, htname⟩ := (hafter hsome).1
    have hmem : l.name ∈ ts.filterMap Entry.name? := List.mem_filterMap.mpr ⟨t, ht, htname⟩
    rcases hbeyond : s.beyond? (belowArray ts) with _ | name
    · rcases hlast : lastName? (noticed ts) with _ | name
      · rw [htitle, hbeyond, hlast] at hmem
        exact absurd hmem hdiffer.own
      · rw [htitle, hbeyond, hlast] at hafter
        exact .inr ⟨rfl, showsName_of_namedAfter hdiffer.layers hlast hafter⟩
    · rw [htitle, hbeyond] at hmem
      exact absurd hmem (hdiffer.beyond name hbeyond)

/-- A volatile number, and a variable of it below one more layer. -/
def Builder.layered (tag : Tag) : Builder :=
  ((((({} : Builder).begin .compileUnit []).leaf
    .baseType [(.name, .text "int"), (.byteSize, .udata 4)]).leaf
    .volatileType [(.type, .ref 12)]).leaf
    tag [(.type, .ref 13)]).leaf
    .var [(.name, .text "x"), (.type, .ref 14)]

theorem Builder.layered_built {tag : Tag} (h : tag ≠ .null) : (layered tag).Built :=
  .leaf _ _ (by decide) <| .leaf _ _ h <| .leaf _ _ (by decide) <| .leaf _ _ (by decide) <|
    .begin _ _ (by decide) .empty

theorem Builder.layered_layers {tag : Tag} (h : tag = .arrayType ∨ tag = .constType) :
    let s := (layered tag).build
    s.LayersOf s.entries[4]! [s.entries[3]!, s.entries[2]!, s.entries[1]!] := by
  rcases h with rfl | rfl <;>
  exact ⟨3, rfl, .layer ⟨rfl, rfl⟩ rfl rfl (.layer ⟨rfl, rfl⟩ rfl rfl (.bottom ⟨rfl, rfl⟩ rfl))⟩

theorem resolve_title_array :
    let s := (Builder.layered .arrayType).build
    ∃ l d, s.resolve s.entries[4]! {} = .ok l d ∧ l.name = "int" ∧
      NamedAfter [s.entries[3]!, s.entries[2]!, s.entries[1]!] l.name := by
  intro s
  have hok : ∃ l d, s.resolve s.entries[4]! {} = .ok l d := ⟨_, _, rfl⟩
  obtain ⟨l, d, hl⟩ := hok
  have ha : s.Addressed := (Builder.layered_built (by decide)).addressed List.prefix_rfl
  obtain ⟨ts, hts, hname, hafter, -⟩ := resolve_title ha rfl hl
  obtain rfl := (hts _).mp (Builder.layered_layers (.inl rfl))
  refine ⟨l, d, hl, hname, hafter ⟨rfl, ⟨s.entries[1]!, .tail _ (.head _), rfl⟩, fun hplain => ?_⟩⟩
  exact absurd (hplain s.entries[2]! (.tail _ (.head _))) (by decide)

/-- If it is a constant of the volatile number, the volatile layer is passed together with the
constant one, and what is beneath it is not looked at. The variable keeps its own name, although the
type has one. -/
theorem resolve_title_qualifiers :
    let s := (Builder.layered .constType).build
    s.LayersOf s.entries[4]! [s.entries[3]!, s.entries[2]!, s.entries[1]!] ∧
      ∃ l d, s.resolve s.entries[4]! {} = .ok l d ∧ l.name = "x" ∧
        ¬ NamedAfter [s.entries[3]!, s.entries[2]!, s.entries[1]!] l.name := by
  intro s
  refine ⟨Builder.layered_layers (.inr rfl), _, _, rfl, rfl, fun h => ?_⟩
  obtain ⟨t, ht, hname⟩ := (h ⟨s.entries[1]!, by simp, rfl⟩).1
  have hnames : ∀ t ∈ [s.entries[3]!, s.entries[2]!, s.entries[1]!], t.name? ≠ some "x" := by decide
  exact hnames t ht hname

end Stream
end DwarfScope
