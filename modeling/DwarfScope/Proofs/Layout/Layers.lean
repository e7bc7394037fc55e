import DwarfScope.Layout.Resolve
import DwarfScope.Proofs.Stream.Siblings
import Mathlib.Data.List.Chain
import Mathlib.Data.List.Perm.Subperm
import Mathlib.Logic.Relation

/-!
# Taking off layers

Where the references of an entry lead, without a cursor and without names. `start?` is the first
reference and `ending` what is left when all layers are off. A walk that resolves an entry does the
same from every cursor.
-/

namespace DwarfScope

open Effect (FailsWith)

/-- A layer is taken off when it is met below the first reference. -/
def Entry.isLayer (e : Entry) : Bool :=
  e.typeRef?.isSome && (e.tag.isQualifier || e.tag = .typedef || e.tag = .arrayType)

theorem Entry.kind_of_isLayer {e : Entry} (h : e.isLayer = true) : e.typeRef?.isSome = true ∧
    ((e.tag.isQualifier = true ∨ e.tag = .typedef) ∨ e.tag = .arrayType) := by
  simpa [isLayer] using h

theorem chain_length_le {r : Nat → Nat → Prop} {N : Nat} {l : List Nat} (hl : l.IsChain r)
    (hlt : ∀ x ∈ l, x < N) (hback : ∀ x ∈ l, ¬ Relation.TransGen r x x) : l.length ≤ N := by
  have hpair : l.Pairwise (Relation.TransGen r) :=
    List.isChain_iff_pairwise.mp (hl.imp fun _ _ h => .single h)
  have hnodup : l.Nodup := by
    refine hpair.imp_of_mem fun {a b} ha _ hab => ?_
    rintro rfl
    exact hback a ha hab
  have hsub : l.Subperm (List.range N) :=
    hnodup.subperm fun x hx => List.mem_range.mpr (hlt x hx)
  simpa using hsub.length_le

namespace Stream

variable {s : Stream} {i j k n : Nat} {e t : Entry} {c d : Cursor}

/-! ## One reference -/

/-- The index of the entry that an entry refers to as its type, or of the entry itself. -/
def typeIndex? (s : Stream) (e : Entry) : Option Nat :=
  (s.locate? (e.typeRef?.getD e.offset)).filter fun i => s.entries[i]?.any fun t => !t.isNull

theorem typeIndex?_eq_some_iff :
    s.typeIndex? e = some i ↔
      s.locate? (e.typeRef?.getD e.offset) = some i ∧ ∃ t, s.EntryAt i t := by
  simp only [typeIndex?, Option.filter_eq_some_iff, Option.any_eq_true, Bool.not_eq_true']
  constructor
  · rintro ⟨h, t, ht, hn⟩
    exact ⟨h, t, ht, hn⟩
  · rintro ⟨h, t, ht⟩
    exact ⟨h, t, ht.get, ht.nonnull⟩

theorem exists_of_typeIndex? (h : s.typeIndex? e = some i) : ∃ t, s.EntryAt i t :=
  (typeIndex?_eq_some_iff.mp h).2

/-- To seek the offset leads to no entry. -/
def Missing (s : Stream) (target : Nat) : Prop :=
  ∀ i t, s.locate? target = some i → ¬ s.EntryAt i t

theorem typeIndex?_eq_none_iff :
    s.typeIndex? e = none ↔ s.Missing (e.typeRef?.getD e.offset) := by
  rw [Option.eq_none_iff_forall_ne_some]
  simp only [ne_eq, typeIndex?_eq_some_iff, not_and, not_exists, Missing]
  exact forall_congr' fun i => ⟨fun h t hi => h hi t, fun h hi t => h t hi⟩

theorem outcome_typeEntry (h : s.typeIndex? e = some i) (ht : s.EntryAt i t) :
    (s.typeEntry e).outcome c = .ok (t, .behind i) := by
  unfold typeEntry
  simp only [(typeIndex?_eq_some_iff.mp h).1]
  rw [Walk.outcome_bind_of_ok (Walk.outcome_set _ _),
    Walk.outcome_bind_of_ok (outcome_next_some ht.get)]
  simp [ht.nonnull]

theorem outcome_typeEntry_none (h : s.typeIndex? e = none) :
    (s.typeEntry e).outcome c =
      .error (Error.layout (.danglingReference (e.typeRef?.getD e.offset))) := by
  unfold typeEntry
  rcases hp : s.locate? (e.typeRef?.getD e.offset) with _ | p
  · simp only [hp, Walk.outcome_throw]
  simp only [hp]
  rw [Walk.outcome_bind_of_ok (Walk.outcome_set _ _)]
  rcases ht : s.entries[p]? with _ | t
  · rw [Walk.outcome_bind_of_ok (outcome_next_none ht)]
    rfl
  · rw [Walk.outcome_bind_of_ok (outcome_next_some ht)]
    cases hn : t.isNull with
    | true => simp [hn]
    | false =>
      have hsome : s.typeIndex? e = some p := typeIndex?_eq_some_iff.mpr ⟨hp, t, ht, hn⟩
      rw [h] at hsome
      cases hsome

theorem typeEntry_eq_ok :
    s.typeEntry e c = .ok t d ↔ ∃ i, s.typeIndex? e = some i ∧ s.EntryAt i t ∧ d = .behind i := by
  rw [← Walk.outcome_eq_ok]
  rcases hi : s.typeIndex? e with _ | i
  · simp [outcome_typeEntry_none hi]
  · obtain ⟨u, hu⟩ := exists_of_typeIndex? hi
    rw [outcome_typeEntry hi hu]
    constructor
    · intro h
      cases h
      exact ⟨i, rfl, hu, rfl⟩
    · rintro ⟨_, ⟨⟩, ht, rfl⟩
      rw [hu.unique ht]

theorem outcome_typeEntry_cursor (c d : Cursor) :
    (s.typeEntry e).outcome c = (s.typeEntry e).outcome d := by
  rcases h : s.typeIndex? e with _ | i
  · rw [outcome_typeEntry_none h, outcome_typeEntry_none h]
  · obtain ⟨t, ht⟩ := exists_of_typeIndex? h
    rw [outcome_typeEntry h ht, outcome_typeEntry h ht]

/-! ## One layer -/

def dimensions? (s : Stream) (i : Nat) : Option (List Nat) := do
  let t ← s.entries[i]?
  match (s.arrayRanges t).outcome (.behind i) with
  | .ok (ranges, _) => some ranges
  | .error _ => none

def layerRanges? (s : Stream) (i : Nat) : Option (List Nat) := do
  let t ← s.entries[i]?
  if t.tag = .arrayType then s.dimensions? i else some []

def beneath? (s : Stream) (i : Nat) : Option Nat := do
  let t ← s.entries[i]?
  let j ← s.typeIndex? t
  if t.tag.isQualifier then s.typeIndex? (← s.entries[j]?) else some j

/-- The dimensions a layer adds and the entry beneath it. -/
def layer? (s : Stream) (i : Nat) : Option (List Nat × Nat) := do
  return (← s.layerRanges? i, ← s.beneath? i)

/-- A walk to a type entry reaches what is expected: its index, with the dimensions met on the way
behind those known before. -/
def Reached (s : Stream) (before : List Nat) (expected : Option (List Nat × Nat))
    (found : Except Failure (Layers × Cursor)) : Prop :=
  match expected with
  | some (ranges, j) => ∃ name t, s.EntryAt j t ∧
      found = .ok ({ name, ranges := before ++ ranges, entry := t }, .behind j)
  | none => ∃ err, found = .error err

theorem outcome_arrayRanges (ht : s.EntryAt i t) :
    match s.dimensions? i with
    | some ranges => ∃ d, (s.arrayRanges t).outcome (.behind i) = .ok (ranges, d)
    | none => ∃ err, (s.arrayRanges t).outcome (.behind i) = .error err := by
  simp only [dimensions?, ht.get, Option.bind_eq_bind, Option.bind_some]
  rcases (s.arrayRanges t).outcome (.behind i) with err | ⟨ranges, d⟩
  · exact ⟨err, rfl⟩
  · exact ⟨d, rfl⟩

theorem outcome_nextLayer_bottom {l : Layers} (h : l.entry.isLayer = false) :
    (s.nextLayer l).outcome c = .ok (none, c) := by
  unfold nextLayer
  cases hr : l.entry.typeRef? with
  | none => simp
  | some r =>
    have hkind : (l.entry.tag.isQualifier = false ∧ ¬ l.entry.tag = .typedef) ∧
        ¬ l.entry.tag = .arrayType := by simpa [Entry.isLayer, hr] using h
    simp [hkind]

theorem not_array_of_isQualifier (h : t.tag.isQualifier = true) : t.tag ≠ .arrayType := by
  intro ha
  simp [ha, Tag.isQualifier] at h

theorem layer?_qualifier (ht : s.EntryAt i t) (hq : t.tag.isQualifier = true) :
    s.layer? i = do
      let u ← s.entries[← s.typeIndex? t]?
      return ([], ← s.typeIndex? u) := by
  simp [layer?, layerRanges?, beneath?, ht.get, hq, not_array_of_isQualifier hq, Option.bind_assoc]

theorem layer?_typedef (ht : s.EntryAt i t) (hk : t.tag = .typedef) :
    s.layer? i = do return ([], ← s.typeIndex? t) := by
  simp [layer?, layerRanges?, beneath?, ht.get, hk, Tag.isQualifier]

theorem layer?_array (ht : s.EntryAt i t) (hk : t.tag = .arrayType) :
    s.layer? i = do return (← s.dimensions? i, ← s.typeIndex? t) := by
  simp [layer?, layerRanges?, beneath?, ht.get, hk, Tag.isQualifier]

theorem outcome_nextLayer {l : Layers} (hl : s.EntryAt i l.entry) (h : l.entry.isLayer = true) :
    match s.layer? i with
    | some (ranges, j) => ∃ name t, s.EntryAt j t ∧ (s.nextLayer l).outcome (.behind i) =
        .ok (some { name, ranges := l.ranges ++ ranges, entry := t }, .behind j)
    | none => ∃ err, (s.nextLayer l).outcome (.behind i) = .error err := by
  obtain ⟨hr, hkind⟩ := Entry.kind_of_isLayer h
  unfold nextLayer
  rw [if_neg (by simpa [Option.isSome_iff_ne_none] using hr)]
  rcases hkind with (hq | hk) | hk
  · rw [if_pos hq, layer?_qualifier hl hq]
    rcases hj : s.typeIndex? l.entry with _ | j
    · exact ⟨_, Walk.outcome_bind_of_error (outcome_typeEntry_none hj)⟩
    obtain ⟨u, hu⟩ := exists_of_typeIndex? hj
    rw [Walk.outcome_bind_of_ok (outcome_typeEntry hj hu)]
    rcases hk : s.typeIndex? u with _ | k
    · simp only [hu.get, hk, Option.bind_eq_bind, Option.bind_some, Option.bind_none]
      exact ⟨_, Walk.outcome_bind_of_error (outcome_typeEntry_none hk)⟩
    · obtain ⟨t, ht⟩ := exists_of_typeIndex? hk
      simp only [hu.get, hk, Option.bind_eq_bind, Option.bind_some, Option.pure_def]
      rw [Walk.outcome_bind_of_ok (outcome_typeEntry hk ht)]
      exact ⟨_, t, ht, by simp; rfl⟩
  · rw [if_neg (by simp [hk, Tag.isQualifier]), if_pos hk, layer?_typedef hl hk]
    rcases hj : s.typeIndex? l.entry with _ | j
    · exact ⟨_, Walk.outcome_bind_of_error (outcome_typeEntry_none hj)⟩
    · obtain ⟨t, ht⟩ := exists_of_typeIndex? hj
      rw [Walk.outcome_bind_of_ok (outcome_typeEntry hj ht)]
      exact ⟨_, t, ht, by simp; rfl⟩
  · rw [if_neg (by simp [hk, Tag.isQualifier]), if_neg (by simp [hk]), if_pos hk,
      layer?_array hl hk]
    have harray := outcome_arrayRanges hl
    rcases hd : s.dimensions? i with _ | ranges
    · rw [hd] at harray
      obtain ⟨err, herr⟩ := harray
      exact ⟨err, Walk.outcome_bind_of_error herr⟩
    rw [hd] at harray
    obtain ⟨d, hok⟩ := harray
    rw [Walk.outcome_bind_of_ok hok]
    rcases hj : s.typeIndex? l.entry with _ | j
    · exact ⟨_, Walk.outcome_bind_of_error (outcome_typeEntry_none hj)⟩
    · obtain ⟨t, ht⟩ := exists_of_typeIndex? hj
      rw [Walk.outcome_bind_of_ok (outcome_typeEntry hj ht)]
      exact ⟨_, t, ht, rfl⟩

/-! ## What can go wrong -/

/-- The property holds of the errors that there are where a reference is followed. -/
structure CoversErrors (s : Stream) (P : Failure → Prop) : Prop where
  truncated : ∀ name, P (Error.layout (.truncated name))
  dangling : ∀ target, s.Missing target → P (Error.layout (.danglingReference target))

variable {P : Failure → Prop}

theorem typeEntry_failsWith (h : s.CoversErrors P) (e : Entry) : FailsWith P (s.typeEntry e) := by
  refine Walk.failsWith_iff.mpr fun c err herr => ?_
  rcases hi : s.typeIndex? e with _ | i
  · rw [outcome_typeEntry_none hi] at herr
    cases herr
    exact h.dangling _ (typeIndex?_eq_none_iff.mp hi)
  · obtain ⟨t, ht⟩ := exists_of_typeIndex? hi
    rw [outcome_typeEntry hi ht] at herr
    cases herr

theorem rangesFrom_failsWith (h : s.CoversErrors P) (array : Entry) (n : Nat) :
    FailsWith P (s.rangesFrom array n) := by
  induction n with
  | zero => exact .throw (h.truncated _)
  | succ n ih =>
    refine .bind next_failsWith fun e? => ?_
    rcases e? with _ | e
    · exact .throw (h.truncated _)
    · dsimp only
      split
      · exact .pure _
      · split
        · exact .bind ih fun _ => .pure _
        · exact .bind skipChildren_failsWith fun _ => ih

theorem arrayRanges_failsWith (h : s.CoversErrors P) (array : Entry) :
    FailsWith P (s.arrayRanges array) := by
  unfold arrayRanges
  split
  · exact .bind (rangesFrom_failsWith h _ _) fun _ => .pure _
  · exact .bind (.pure _) fun _ => .pure _

theorem nextLayer_failsWith (h : s.CoversErrors P) (l : Layers) : FailsWith P (s.nextLayer l) := by
  have hentry := typeEntry_failsWith h
  unfold nextLayer
  split
  · exact .pure _
  split
  · exact .bind (hentry _) fun _ => .bind (hentry _) fun _ => .pure _
  split
  · exact .bind (hentry _) fun _ => .pure _
  split
  · exact .bind (arrayRanges_failsWith h _) fun _ => .bind (hentry _) fun _ => .pure _
  · exact .pure _

theorem firstLayer_failsWith (h : s.CoversErrors P) (e : Entry) : FailsWith P (s.firstLayer e) := by
  have hentry := typeEntry_failsWith h
  refine .bind (hentry e) fun t => ?_
  split
  · exact .bind (arrayRanges_failsWith h _) fun _ => .bind (hentry _) fun _ => .pure _
  · exact .pure _

theorem coversErrors_ends : s.CoversErrors (· ≠ .endless) := ⟨by simp, by simp⟩

theorem nextLayer_ends (l : Layers) : (s.nextLayer l).Ends :=
  .of_failsWith (nextLayer_failsWith coversErrors_ends l)

theorem firstLayer_ends (e : Entry) : (s.firstLayer e).Ends :=
  .of_failsWith (firstLayer_failsWith coversErrors_ends e)

/-! ## All layers -/

/-- The dimensions met from the type entry at an index on, and the index of the entry that is left
when the layers are off. There are fewer than `n` layers. -/
def endingWithin (s : Stream) : Nat → Nat → Option (List Nat × Nat)
  | 0, _ => none
  | n + 1, i => do
    let t ← s.entries[i]?
    if t.isLayer then
      let (ranges, j) ← s.layer? i
      let (more, k) ← s.endingWithin n j
      return (ranges ++ more, k)
    else return ([], i)

theorem endingWithin_bottom (ht : s.EntryAt i t) (h : t.isLayer = false) :
    s.endingWithin (n + 1) i = some ([], i) := by
  simp [endingWithin, ht.get, h]

theorem endingWithin_layer (ht : s.EntryAt i t) (h : t.isLayer = true) :
    s.endingWithin (n + 1) i = do
      let (ranges, j) ← s.layer? i
      let (more, k) ← s.endingWithin n j
      return (ranges ++ more, k) := by
  simp [endingWithin, ht.get, h]

theorem outcome_unwrap_succ (n : Nat) {l : Layers} (hl : s.EntryAt i l.entry) :
    (l.entry.isLayer = false ∧
        (s.unwrap (n + 1) l).outcome (.behind i) = .ok (l, .behind i)) ∨
      (l.entry.isLayer = true ∧ s.layer? i = none ∧ ∃ err, err ≠ .endless ∧
        (s.unwrap (n + 1) l).outcome (.behind i) = .error err) ∨
      ∃ ranges j l', l.entry.isLayer = true ∧ s.layer? i = some (ranges, j) ∧
        s.EntryAt j l'.entry ∧ l'.ranges = l.ranges ++ ranges ∧
        (s.unwrap (n + 1) l).outcome (.behind i) =
          (s.unwrap n l').outcome (.behind j) := by
  cases h : l.entry.isLayer with
  | false => exact .inl ⟨rfl, Walk.outcome_bind_of_ok (outcome_nextLayer_bottom h)⟩
  | true =>
    have hnext := outcome_nextLayer hl h
    rcases hlayer : s.layer? i with _ | ⟨ranges, j⟩
    · rw [hlayer] at hnext
      obtain ⟨err, herr⟩ := hnext
      have hend : err ≠ .endless := fun hend => nextLayer_ends l _ (hend ▸ herr)
      exact .inr (.inl ⟨rfl, rfl, err, hend, Walk.outcome_bind_of_error herr⟩)
    · rw [hlayer] at hnext
      obtain ⟨name, t, ht, hok⟩ := hnext
      exact .inr (.inr ⟨ranges, j, _, rfl, rfl, ht, rfl, Walk.outcome_bind_of_ok hok⟩)

theorem reached_unwrap (n : Nat) (l : Layers) (i : Nat) (hl : s.EntryAt i l.entry) :
    s.Reached l.ranges (s.endingWithin n i) ((s.unwrap n l).outcome (.behind i)) := by
  induction n generalizing l i with
  | zero => exact ⟨_, rfl⟩
  | succ n ih =>
    rcases outcome_unwrap_succ n hl with
      ⟨h, hok⟩ | ⟨h, hlayer, err, -, herr⟩ | ⟨ranges, j, l', h, hlayer, hl', hranges, heq⟩
    · rw [endingWithin_bottom hl h]
      exact ⟨l.name, l.entry, hl, by simpa using hok⟩
    · rw [endingWithin_layer hl h, hlayer]
      exact ⟨err, herr⟩
    · have hrest := ih l' j hl'
      rw [endingWithin_layer hl h, hlayer, heq]
      simp only [Option.bind_eq_bind, Option.bind_some]
      rcases hk : s.endingWithin n j with _ | ⟨more, k⟩
      · rw [hk] at hrest
        exact hrest
      · rw [hk, hranges] at hrest
        simpa [Reached, List.append_assoc] using hrest

/-! ## How many layers there are -/

/-- Taking off the layer at `i` leads to `j`. -/
def Under (s : Stream) (i j : Nat) : Prop :=
  ∃ t, s.EntryAt i t ∧ t.isLayer = true ∧ s.beneath? i = some j

theorem nonnull_of_isLayer (h : t.isLayer = true) : t.isNull = false := by
  cases hn : t.isNull with
  | false => rfl
  | true =>
    have : t.tag = .null := by simpa [Entry.isNull] using hn
    simp [Entry.isLayer, this, Tag.isQualifier] at h

theorem endingWithin_cases {r : List Nat × Nat} (h : s.endingWithin (n + 1) i = some r) :
    (∃ t, s.entries[i]? = some t ∧ t.isLayer = false ∧ r = ([], i)) ∨
      ∃ ranges j more k, s.Under i j ∧ s.layer? i = some (ranges, j) ∧
        s.endingWithin n j = some (more, k) ∧ r = (ranges ++ more, k) := by
  rcases ht : s.entries[i]? with _ | t
  · simp [endingWithin, ht] at h
  cases hl : t.isLayer with
  | false =>
    obtain rfl : ([], i) = r := by simpa [endingWithin, ht, hl] using h
    exact .inl ⟨t, rfl, hl, rfl⟩
  | true =>
    have hat : s.EntryAt i t := ⟨ht, nonnull_of_isLayer hl⟩
    rw [endingWithin_layer hat hl] at h
    simp only [Option.bind_eq_bind, Option.pure_def, Option.bind_eq_some_iff, Option.some.injEq,
      Prod.exists] at h
    obtain ⟨ranges, j, hlayer, more, k, hend, rfl⟩ := h
    refine .inr ⟨ranges, j, more, k, ⟨t, hat, hl, ?_⟩, hlayer, hend, rfl⟩
    simp only [layer?, Option.bind_eq_bind, Option.pure_def, Option.bind_eq_some_iff,
      Option.some.injEq, Prod.mk.injEq] at hlayer
    obtain ⟨_, -, _, hj, -, rfl⟩ := hlayer
    exact hj

theorem endingWithin_mono {m : Nat} {r : List Nat × Nat} (h : s.endingWithin n i = some r)
    (hm : n ≤ m) : s.endingWithin m i = some r := by
  induction n generalizing i m r with
  | zero => cases h
  | succ n ih =>
    obtain ⟨m, rfl⟩ : ∃ m', m = m' + 1 := ⟨m - 1, by omega⟩
    rcases endingWithin_cases h with ⟨t, ht, hl, rfl⟩ | ⟨ranges, j, more, k, hu, hlayer, hend, rfl⟩
    · simp [endingWithin, ht, hl]
    · obtain ⟨t, ht, hl, -⟩ := hu
      rw [endingWithin_layer ht hl]
      simp [hlayer, ih hend (show n ≤ m by omega)]

theorem Under.unique {j' : Nat} (h : s.Under i j) (h' : s.Under i j') : j = j' := by
  obtain ⟨_, -, -, h⟩ := h
  obtain ⟨_, -, -, h'⟩ := h'
  exact Option.some.inj (h.symm.trans h')

theorem endingWithin_below {r : List Nat × Nat} (hij : Relation.TransGen s.Under i j)
    (h : s.endingWithin n i = some r) : ∃ m r', m < n ∧ s.endingWithin m j = some r' := by
  have hstep : ∀ {i j n r}, s.Under i j → s.endingWithin n i = some r →
      ∃ m r', m < n ∧ s.endingWithin m j = some r' := by
    intro i j n r hij h
    cases n with
    | zero => cases h
    | succ n =>
      rcases endingWithin_cases h with ⟨t, ht, hl, -⟩ | ⟨ranges, j', more, k, hu, -, hend, -⟩
      · obtain ⟨t', ht', hl', -⟩ := hij
        obtain rfl : t = t' := Option.some.inj (ht.symm.trans ht'.get)
        rw [hl] at hl'
        cases hl'
      · obtain rfl := hij.unique hu
        exact ⟨n, _, by omega, hend⟩
  induction hij with
  | single hij => exact hstep hij h
  | tail _ hjk ih =>
    obtain ⟨m, r', hm, hend⟩ := ih
    obtain ⟨m', r'', hm', hend'⟩ := hstep hjk hend
    exact ⟨m', r'', by omega, hend'⟩

theorem not_under_self {r : List Nat × Nat} (h : s.endingWithin n i = some r) :
    ¬ Relation.TransGen s.Under i i := by
  intro hii
  induction n using Nat.strongRecOn generalizing r with
  | ind n ih =>
    obtain ⟨m, r', hm, hend⟩ := endingWithin_below hii h
    exact ih m hm hend

theorem endingWithin_chain {r : List Nat × Nat} (h : s.endingWithin n i = some r) :
    ∃ l, (i :: l).IsChain s.Under ∧ (∀ x ∈ i :: l, ∃ m r', s.endingWithin m x = some r') ∧
      s.endingWithin (l.length + 1) i = some r := by
  induction n generalizing i r with
  | zero => cases h
  | succ n ih =>
    rcases endingWithin_cases h with ⟨t, ht, hl, rfl⟩ | ⟨ranges, j, more, k, hu, hlayer, hend, rfl⟩
    · refine ⟨[], .singleton i, ?_, by simp [endingWithin, ht, hl]⟩
      rintro x hx
      obtain rfl : x = i := by simpa using hx
      exact ⟨_, _, h⟩
    · obtain ⟨l, hchain, hall, hlen⟩ := ih hend
      refine ⟨j :: l, hchain.cons_cons hu, ?_, ?_⟩
      · rintro x hx
        rcases List.mem_cons.mp hx with rfl | hx
        · exact ⟨_, _, h⟩
        · exact hall x hx
      · obtain ⟨t, ht, hl, -⟩ := hu
        rw [List.length_cons, endingWithin_layer ht hl]
        simp [hlayer, hlen]

theorem endingWithin_size {r : List Nat × Nat} (h : s.endingWithin n i = some r) :
    s.endingWithin s.size i = some r := by
  obtain ⟨l, hchain, hall, hlen⟩ := endingWithin_chain h
  refine endingWithin_mono hlen (chain_length_le hchain (fun x hx => ?_) fun x hx => ?_)
  · obtain ⟨m, r', hx⟩ := hall x hx
    cases m with
    | zero => cases hx
    | succ m =>
      rcases endingWithin_cases hx with ⟨t, ht, -⟩ | ⟨_, _, _, _, ⟨t, ht, -⟩, -⟩
      · exact (Array.getElem?_eq_some_iff.mp ht).1
      · exact ht.lt_size
  · obtain ⟨m, r', hx⟩ := hall x hx
    exact not_under_self hx

/-- The dimensions met from the type entry at an index on, and the index of the entry that is left
when the layers are off. -/
def ending? (s : Stream) (i : Nat) : Option (List Nat × Nat) := s.endingWithin s.size i

/-- It does not matter for how many layers there is room, if there is enough. -/
theorem endingWithin_eq (hn : s.size ≤ n) (i : Nat) : s.endingWithin n i = s.ending? i := by
  ext r
  constructor
  · exact endingWithin_size
  · intro h
    exact endingWithin_mono h hn

theorem ending?_bottom (ht : s.EntryAt i t) (h : t.isLayer = false) :
    s.ending? i = some ([], i) := by
  rw [← endingWithin_eq (Nat.le_succ s.size), endingWithin_bottom ht h]

theorem ending?_layer (ht : s.EntryAt i t) (h : t.isLayer = true) :
    s.ending? i = do
      let (ranges, j) ← s.layer? i
      let (more, k) ← s.ending? j
      return (ranges ++ more, k) := by
  rw [← endingWithin_eq (Nat.le_succ s.size), endingWithin_layer ht h]
  rfl

/-! ## The first reference -/

/-- The dimensions and the type entry that the first reference to an index gives. An array is
looked through at once. -/
def startAt? (s : Stream) (i : Nat) : Option (List Nat × Nat) := do
  let t ← s.entries[i]?
  if t.tag = .arrayType then return (← s.dimensions? i, ← s.typeIndex? t)
  else return ([], i)

theorem reached_firstLayer (e : Entry) (c : Cursor) :
    s.Reached [] ((s.typeIndex? e).bind s.startAt?) ((s.firstLayer e).outcome c) := by
  unfold firstLayer
  rcases hi : s.typeIndex? e with _ | i
  · exact ⟨_, Walk.outcome_bind_of_error (outcome_typeEntry_none hi)⟩
  obtain ⟨t, ht⟩ := exists_of_typeIndex? hi
  rw [Walk.outcome_bind_of_ok (outcome_typeEntry hi ht)]
  simp only [startAt?, ht.get, Option.bind_eq_bind, Option.bind_some]
  split
  · have harray := outcome_arrayRanges ht
    rcases hd : s.dimensions? i with _ | ranges
    · rw [hd] at harray
      obtain ⟨err, herr⟩ := harray
      exact ⟨err, Walk.outcome_bind_of_error herr⟩
    rw [hd] at harray
    obtain ⟨d, hok⟩ := harray
    rw [Walk.outcome_bind_of_ok hok]
    rcases hj : s.typeIndex? t with _ | j
    · exact ⟨_, Walk.outcome_bind_of_error (outcome_typeEntry_none hj)⟩
    · obtain ⟨u, hu⟩ := exists_of_typeIndex? hj
      rw [Walk.outcome_bind_of_ok (outcome_typeEntry hj hu)]
      exact ⟨_, u, hu, rfl⟩
  · exact ⟨_, t, ht, rfl⟩

theorem outcome_firstLayer_cursor (e : Entry) (c d : Cursor) :
    (s.firstLayer e).outcome c = (s.firstLayer e).outcome d := by
  unfold firstLayer
  rw [Walk.outcome_bind, Walk.outcome_bind, outcome_typeEntry_cursor c d]

end Stream
end DwarfScope
