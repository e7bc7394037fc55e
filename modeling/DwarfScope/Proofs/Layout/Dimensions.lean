import DwarfScope.Proofs.Layout.Chains
import DwarfScope.Proofs.Layout.Members
import DwarfScope.Proofs.Stream.Listings

/-!
# The dimensions of an array

An array has a child for each of its dimensions. The entries below another child are skipped, but
those below a subrange are not: the null entry behind them is taken for the end of the array.
-/

namespace DwarfScope

namespace Entry

def IsSigned64 (n : Int) : Prop := -Binary.signedLimit ≤ n ∧ n < Binary.signedLimit

instance (n : Int) : Decidable (IsSigned64 n) := inferInstanceAs (Decidable (_ ∧ _))

/-- The number of elements in one dimension: the count, or else one more than the distance of the
bounds, if both numbers fit into 64 bits and there are not less than no elements. -/
def extent (e : Entry) : Nat :=
  match (e.attr? .count).bind AttrValue.unsigned?, (e.attr? .upperBound).bind AttrValue.signed? with
  | some n, _ => n
  | none, some upper =>
    let lower := ((e.attr? .lowerBound).bind AttrValue.signed?).getD 0
    if IsSigned64 (upper - lower) ∧ IsSigned64 (upper - lower + 1) ∧ 0 ≤ upper - lower + 1 then
      (upper - lower + 1).toNat
    else 0
  | none, none => 0

theorem signed64?_eq (n : Int) : signed64? n = if IsSigned64 n then some n else none := rfl

theorem elementCount?_getD (e : Entry) : e.elementCount?.getD 0 = e.extent := by
  unfold elementCount? extent
  rcases (e.attr? .count).bind AttrValue.unsigned? with _ | n
  · rcases (e.attr? .upperBound).bind AttrValue.signed? with _ | upper
    · rfl
    simp only [signed64?_eq, Option.bind_eq_bind, Option.bind_some]
    by_cases hspan : IsSigned64 (upper - ((e.attr? .lowerBound).bind AttrValue.signed?).getD 0)
    · by_cases hcount :
          IsSigned64 (upper - ((e.attr? .lowerBound).bind AttrValue.signed?).getD 0 + 1)
      · simp only [hspan, hcount, if_true, Option.bind_some, true_and]
        split <;> rfl
      · simp [hspan, hcount]
    · simp [hspan]
  · rfl

end Entry

namespace Stream

variable {s : Stream} {a j k p q r n : Nat} {js ks us ws inner : List Nat} {e A F : Entry}
  {c : Cursor}

def subrangeAt (s : Stream) (j : Nat) : Bool := s.entries[j]?.any fun e => e.tag = .subrangeType

def openSubrangeAt (s : Stream) (j : Nat) : Bool :=
  s.entries[j]?.any fun e => e.tag = .subrangeType && e.children

def extentAt (s : Stream) (j : Nat) : Nat := (s.entries[j]?.map Entry.extent).getD 0

/-- The dimensions of an array that has these subranges. -/
def extents (s : Stream) (js : List Nat) : List Nat := if js.isEmpty then [0] else js.map s.extentAt

/-! ## What is read -/

/-- The subranges whose dimensions are read from an index on. All children are skipped but those
of a subrange. -/
inductive Reads (s : Stream) : Nat → List Nat → Prop
  | done {p : Nat} : s.NullAt p → Reads s p []
  | subrange {p : Nat} {js : List Nat} {e : Entry} : s.EntryAt p e → e.tag = .subrangeType →
      Reads s (p + 1) js → Reads s p (p :: js)
  | other {p : Nat} {js : List Nat} {e : Entry} : s.EntryAt p e → e.tag ≠ .subrangeType →
      Reads s (s.afterItem p e) js → Reads s p js

theorem Reads.unique (h : s.Reads p js) (h' : s.Reads p ks) : js = ks := by
  induction h generalizing ks with
  | done hp =>
    cases h' with
    | done => rfl
    | subrange he => exact absurd hp he.not_null
    | other he => exact absurd hp he.not_null
  | subrange he ht _ ih =>
    cases h' with
    | done hp => exact absurd hp he.not_null
    | subrange _ _ hrest => rw [ih hrest]
    | other he' ht' => exact absurd (he.unique he' ▸ ht) ht'
  | other he ht _ ih =>
    cases h' with
    | done hp => exact absurd hp he.not_null
    | subrange he' ht' => exact absurd (he.unique he' ▸ ht') ht
    | other he' _ hrest =>
      obtain rfl := he.unique he'
      exact ih hrest

theorem Reads.outcome_rangesFrom (array : Entry) (h : s.Reads p ks) (hc : c.position = p)
    (hn : s.size < p + n) :
    ∃ d, (s.rangesFrom array n).outcome c = .ok (ks.map s.extentAt, d) := by
  induction h generalizing n c with
  | done hp =>
    subst hc
    have := hp.lt_size
    obtain ⟨e, he, hnull⟩ := hp
    obtain ⟨n, rfl⟩ : ∃ m, n = m + 1 := ⟨n - 1, by omega⟩
    rw [rangesFrom, Walk.outcome_bind_of_ok (outcome_next_some he)]
    exact ⟨.behind c.position, by simp [hnull]⟩
  | subrange he ht _ ih =>
    subst hc
    have := he.lt_size
    obtain ⟨n, rfl⟩ : ∃ m, n = m + 1 := ⟨n - 1, by omega⟩
    obtain ⟨d, hd⟩ := ih (c := .behind c.position) (n := n) rfl (by omega)
    rw [rangesFrom, Walk.outcome_bind_of_ok (outcome_next_some he.get)]
    simp only [he.nonnull, ht, if_true, if_false, Bool.false_eq_true]
    rw [Walk.outcome_bind_of_ok hd]
    exact ⟨d, by simp [extentAt, he.get, Entry.elementCount?_getD]⟩
  | @other p ks e he ht _ ih =>
    subst hc
    have := he.lt_size
    have := s.lt_afterItem c.position e
    obtain ⟨n, rfl⟩ : ∃ m, n = m + 1 := ⟨n - 1, by omega⟩
    rw [rangesFrom, Walk.outcome_bind_of_ok (outcome_next_some he.get)]
    simp only [he.nonnull, ht, if_false, Bool.false_eq_true]
    rw [Walk.outcome_bind_of_ok (outcome_skipChildren he.get)]
    exact ih rfl (by omega)

/-- The subranges whose dimensions an array gets. -/
def ReadsOff (s : Stream) (a : Nat) (A : Entry) (ks : List Nat) : Prop :=
  if A.children then s.Reads (a + 1) ks else ks = []

theorem ReadsOff.dimensions? (h : s.ReadsOff a A ks) (hA : s.EntryAt a A) :
    s.dimensions? a = some (s.extents ks) := by
  simp only [Stream.dimensions?, hA.get, Option.bind_eq_bind, Option.bind_some, arrayRanges_eq]
  unfold ReadsOff at h
  cases hc : A.children with
  | false =>
    obtain rfl : ks = [] := by simpa [hc] using h
    simp [extents]
  | true =>
    rw [if_pos hc] at h
    obtain ⟨d, hd⟩ := h.outcome_rangesFrom A (c := .behind a) (n := s.size + 1) rfl (by omega)
    simp only [if_true]
    rw [Walk.outcome_bind_of_ok hd]
    simp [extents]

/-! ## What should be read -/

theorem subrangeAt_of_entryAt (he : s.EntryAt j e) :
    s.subrangeAt j = decide (e.tag = .subrangeType) := by
  simp [subrangeAt, he.get]

theorem openSubrangeAt_of_entryAt (he : s.EntryAt j e) :
    s.openSubrangeAt j = (decide (e.tag = .subrangeType) && e.children) := by
  simp [openSubrangeAt, he.get]

theorem Siblings.reads (h : s.Siblings p us q) (hus : ∀ j ∈ us, s.openSubrangeAt j = false)
    (hrest : s.Reads q ks) : s.Reads p (us.filter s.subrangeAt ++ ks) := by
  induction h with
  | nil => exact hrest
  | @leaf p q us e he hc _ ih =>
    have ih := ih (fun j hj => hus j (List.mem_cons_of_mem p hj)) hrest
    by_cases ht : e.tag = .subrangeType
    · rw [List.filter_cons_of_pos (by simp [subrangeAt_of_entryAt he, ht])]
      exact .subrange he ht ih
    · rw [List.filter_cons_of_neg (by simp [subrangeAt_of_entryAt he, ht])]
      rw [← afterItem_leaf hc] at ih
      exact .other he ht ih
  | @node p m q below us e he hc hbelow hm _ _ ih =>
    have ih := ih (fun j hj => hus j (List.mem_cons_of_mem p hj)) hrest
    -- A child that has children is no subrange, so all that is below it is skipped.
    have ht : e.tag ≠ .subrangeType := by
      have hclosed := hus p List.mem_cons_self
      rw [openSubrangeAt_of_entryAt he, hc] at hclosed
      simpa using hclosed
    rw [List.filter_cons_of_neg (by simp [subrangeAt_of_entryAt he, ht])]
    rw [← afterItem_node hc hbelow hm] at ih
    exact .other he ht ih

theorem Siblings.exists_reads (h : s.Siblings p js q) (hq : s.NullAt q) : ∃ ks, s.Reads p ks := by
  induction h with
  | nil => exact ⟨[], .done hq⟩
  | @leaf p q js e he hc _ ih =>
    obtain ⟨ks, hks⟩ := ih hq
    by_cases ht : e.tag = .subrangeType
    · exact ⟨p :: ks, .subrange he ht hks⟩
    · exact ⟨ks, .other he ht (by rwa [afterItem_leaf hc])⟩
  | @node p m q below js e he hc hbelow hm _ ih ih' =>
    by_cases ht : e.tag = .subrangeType
    · -- The reading goes on below the subrange and stops where that list is closed.
      obtain ⟨ks, hks⟩ := ih hm
      exact ⟨p :: ks, .subrange he ht hks⟩
    · obtain ⟨ks, hks⟩ := ih' hq
      exact ⟨ks, .other he ht (by rwa [afterItem_node hc hbelow hm])⟩

/-- What is read from the first subrange with children on is what is read below it, instead of the
subranges that stand behind it. -/
theorem extents_eq_iff_of_open (h : s.Siblings p (us ++ q :: ws) r)
    (hus : ∀ j ∈ us, s.openSubrangeAt j = false) (hq : s.openSubrangeAt q = true)
    (hinner : s.Reads (q + 1) inner) (hks : s.Reads p ks) :
    s.extents ks = s.extents ((us ++ q :: ws).filter s.subrangeAt) ↔
      inner.map s.extentAt = (ws.filter s.subrangeAt).map s.extentAt := by
  obtain ⟨m, hsiblings, hrest⟩ := h.cut
  obtain ⟨rfl, e, he⟩ := hrest.head
  obtain ⟨htag, -⟩ : e.tag = .subrangeType ∧ e.children = true := by
    simpa [openSubrangeAt_of_entryAt he] using hq
  obtain rfl := hks.unique (hsiblings.reads hus (.subrange he htag hinner))
  rw [List.filter_append, List.filter_cons_of_pos (by simp [subrangeAt_of_entryAt he, htag])]
  simp [extents]

theorem Siblings.exists_reads_open (h : s.Siblings p (us ++ q :: ws) r)
    (hq : s.openSubrangeAt q = true) : ∃ inner, s.Reads (q + 1) inner := by
  obtain ⟨m, -, hrest⟩ := h.cut
  cases hrest with
  | leaf he hc => simp [openSubrangeAt_of_entryAt he, hc] at hq
  | node _ _ hbelow hm => exact hbelow.exists_reads hm

/-- In the list of children of an array, from the first subrange on that has children itself, the
dimensions below it are those of the subranges behind it. -/
def Undisturbed (s : Stream) (js : List Nat) : Prop :=
  ∀ us q ws inner, js = us ++ q :: ws → (∀ j ∈ us, s.openSubrangeAt j = false) →
    s.openSubrangeAt q = true → s.Reads (q + 1) inner →
      inner.map s.extentAt = (ws.filter s.subrangeAt).map s.extentAt

theorem extents_eq_iff (h : s.Siblings p js r) (hr : s.NullAt r) (hks : s.Reads p ks) :
    s.extents ks = s.extents (js.filter s.subrangeAt) ↔ s.Undisturbed js := by
  constructor
  · rintro heq us q ws inner rfl hus hq hinner
    exact (extents_eq_iff_of_open h hus hq hinner hks).mp heq
  · intro hall
    rcases hfind : js.find? s.openSubrangeAt with _ | q
    · have hnone : ∀ j ∈ js, s.openSubrangeAt j = false := by simpa using hfind
      rw [hks.unique (h.reads hnone (.done hr)), List.append_nil]
    · obtain ⟨hq, us, ws, rfl, hus⟩ := List.find?_eq_some_iff_append.mp hfind
      have hus : ∀ j ∈ us, s.openSubrangeAt j = false := by simpa using hus
      obtain ⟨inner, hinner⟩ := h.exists_reads_open hq
      exact (extents_eq_iff_of_open h hus hq hinner hks).mpr (hall us q ws inner rfl hus hq hinner)

/-! ## Variables of array types -/

/-- The type of an entry is an array, and the type of its elements is no array, no second name and
no qualifier. -/
structure IsArray (s : Stream) (e : Entry) (a : Nat) (A : Entry) (k : Nat) (F : Entry) : Prop where
  typeIndex : s.typeIndex? e = some a
  arrayAt : s.EntryAt a A
  tag : A.tag = .arrayType
  ref : A.typeRef?.isSome = true
  target : s.target? a = some k
  elementAt : s.EntryAt k F
  ends : F.EndsChain

theorem IsArray.through (h : s.IsArray e a A k F) : s.Through a [a] k :=
  .array h.arrayAt h.tag h.ref h.target (.stop h.elementAt h.ends)

theorem Tidy.exists_readsOff (ht : s.Tidy) (hA : s.EntryAt a A) :
    ∃ js ks, s.ChildrenAt a A js ∧ s.ReadsOff a A ks ∧
      (s.extents ks = s.extents (js.filter s.subrangeAt) ↔ s.Undisturbed js) := by
  unfold ChildrenAt ReadsOff
  cases hc : A.children with
  | false =>
    refine ⟨[], [], rfl, rfl, fun _ us q ws inner hjs => ?_, fun _ => rfl⟩
    simp at hjs
  | true =>
    obtain ⟨js, r, hjs, hr⟩ := ht.closed hA hc
    obtain ⟨ks, hks⟩ := hjs.exists_reads hr
    exact ⟨js, ks, ⟨r, hjs, hr⟩, hks, extents_eq_iff hjs hr hks⟩

/-- An array in a built stream has a layout if its elements have one. It has one dimension for each
immediate subrange exactly if no subrange that has children disturbs the reading. -/
theorem resolve_dimensions {b : Builder} (hb : b.Built) (he : e.isNull = false)
    (h : b.build.IsArray e a A k F) (c : Cursor)
    (helement : ∃ m d, b.build.resolve (e.set .type (.ref F.offset)) c = .ok m d) :
    let s := b.build
    ∃ l d js ks, s.resolve e c = .ok l d ∧ s.ChildrenAt a A js ∧ s.ReadsOff a A ks ∧
      l.arrayRanges = s.extents ks ∧
      (l.arrayRanges = s.extents (js.filter s.subrangeAt) ↔ s.Undisturbed js) := by
  intro s
  have hk : s.locate? F.offset = some k := hb.tidy.addressed k F h.elementAt
  obtain ⟨js, ks, hjs, hks, hiff⟩ := hb.tidy.exists_readsOff h.arrayAt
  have hdimensions := hks.dimensions? h.arrayAt
  obtain ⟨m, d, hm⟩ := helement
  obtain ⟨l, d', hl⟩ := (h.through.exists_resolve_iff (c := c) he h.typeIndex hk).mpr
    ⟨⟨m, d, hm⟩, by simp [hdimensions]⟩
  obtain ⟨-, -, -, rs, hrs, hranges⟩ := h.through.resolve_eq he h.typeIndex hk hl hm
  obtain rfl : [s.extents ks] = rs := by
    simpa [hdimensions] using mapM_eq_some.mpr hrs
  have hranges : l.arrayRanges = s.extents ks := by simpa using hranges
  exact ⟨l, d', js, ks, hl, hjs, hks, hranges, by rw [hranges]; exact hiff⟩

/-- A table of numbers. Its entry has a child that may have children, and a subrange behind it. -/
def Builder.table (tag : Tag) : Builder :=
  let int : Attr × AttrValue := (.type, .ref 12)
  (((((((({} : Builder).begin .compileUnit []).leaf
    .baseType [(.byteSize, .udata 4)]).begin
    .arrayType [int]).begin tag [(.count, .udata 3)]).close.leaf
    .subrangeType [(.count, .udata 5)]).close.leaf
    .var [(.type, .ref 13)]))

theorem Builder.table_built {tag : Tag} (h : tag ≠ .null) : (table tag).Built :=
  .leaf _ _ (by decide) <| .close <| .leaf _ _ (by decide) <| .close <| .begin _ _ h <|
    .begin _ _ (by decide) <| .leaf _ _ (by decide) <| .begin _ _ (by decide) .empty

theorem resolve_dimensions_table :
    let s := (Builder.table .enumerationType).build
    ∃ l d js, s.resolve s.entries[7]! {} = .ok l d ∧ s.ChildrenAt 2 s.entries[2]! js ∧
      l.arrayRanges = s.extents (js.filter s.subrangeAt) := by
  intro s
  have harray : s.IsArray s.entries[7]! 2 s.entries[2]! 1 s.entries[1]! := {
    typeIndex := by decide
    arrayAt := ⟨rfl, rfl⟩
    tag := rfl
    ref := rfl
    target := by decide
    elementAt := ⟨rfl, rfl⟩
    ends := ⟨by decide, by decide, rfl⟩ }
  obtain ⟨l, d, js, -, hl, hjs, -, -, hiff⟩ :=
    resolve_dimensions (Builder.table_built (by decide)) rfl harray {} ⟨_, _, rfl⟩
  refine ⟨l, d, js, hl, hjs, hiff.mpr ?_⟩
  have hclosed : ∀ j < 9, s.openSubrangeAt j = false := by decide
  intro us q ws inner _ _ hq
  obtain ⟨e, he, -⟩ := (Option.any_eq_true ..).mp hq
  have hlt : q < 9 := (Array.getElem?_eq_some_iff.mp he).1
  rw [hclosed q hlt] at hq
  cases hq

/-- A subrange that has a list of children hides the subranges behind it. -/
theorem resolve_dimensions_hidden :
    let s := (Builder.table .subrangeType).build
    ∃ l d js, s.resolve s.entries[7]! {} = .ok l d ∧ s.ChildrenAt 2 s.entries[2]! js ∧
      l.arrayRanges = [3] ∧ s.extents (js.filter s.subrangeAt) = [3, 5] := by
  intro s
  have hrows : EntryAt s 3 s.entries[3]! := ⟨rfl, rfl⟩
  have hcolumns : EntryAt s 5 s.entries[5]! := ⟨rfl, rfl⟩
  have hchildren : s.Siblings 3 [3, 5] 6 :=
    .node hrows rfl (.nil 4) ⟨.null, rfl, rfl⟩ (.leaf hcolumns rfl (.nil 6))
  exact ⟨_, _, [3, 5], rfl, ⟨6, hchildren, .null, rfl, rfl⟩, rfl, rfl⟩

end Stream
end DwarfScope
