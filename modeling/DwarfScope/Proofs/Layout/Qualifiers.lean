import DwarfScope.Proofs.Layout.Outline
import DwarfScope.Stream.Builder

/-!
# What a qualifier changes

Below a qualifier two references are followed. The second one leaves the entry beneath out, and that
changes nothing only if the entry has the same outline as what it refers to. Of stacked qualifiers
every second one is left out, so that it is the first entry below all of them that counts.
-/

namespace DwarfScope.Stream

variable {s : Stream} {i j f n t : Nat} {e T : Entry} {c d : Cursor}

def QualifierAt (s : Stream) (i : Nat) : Prop :=
  ∃ t, s.EntryAt i t ∧ t.tag.isQualifier = true ∧ t.typeRef?.isSome = true

/-- Below the qualifiers that are stacked from `i` on, `f` is the first entry. -/
inductive Unqualified (s : Stream) : Nat → Nat → Prop
  | stop {i : Nat} {t : Entry} : s.EntryAt i t → ¬ s.QualifierAt i → Unqualified s i i
  | step {i j f : Nat} : s.QualifierAt i → s.target? i = some j → Unqualified s j f →
      Unqualified s i f

/-- The entry at an index may be left out for what it refers to. -/
def Idle (s : Stream) (i : Nat) : Prop := s.outline? i = (s.target? i).bind s.outline?

/-! ## Entries that may be left out -/

theorem idle_typedef (he : s.EntryAt i e) (hk : e.tag = .typedef) (hr : e.typeRef?.isSome = true) :
    s.Idle i :=
  outline?_typedef he hk hr

theorem idle_self (h : s.target? i = some i) : s.Idle i := by
  rw [Idle, h, Option.bind_some]

theorem idle_qualifier (hq : s.QualifierAt i) (hj : s.target? i = some j) :
    s.Idle i ↔ s.Idle j := by
  obtain ⟨t, ht, hq, hr⟩ := hq
  unfold Idle
  rw [outline?_qualifier ht hq hr, hj, Option.bind_some, Option.bind_some]
  exact eq_comm

theorem Unqualified.idle_iff (h : s.Unqualified i f) : s.Idle i ↔ s.Idle f := by
  induction h with
  | stop => rfl
  | step hq hj _ ih => rw [idle_qualifier hq hj, ih]

theorem exists_unqualified {r : List Nat × Nat} (he : s.EntryAt i e)
    (h : s.endingWithin n i = some r) : ∃ f, s.Unqualified i f := by
  induction n using Nat.strongRecOn generalizing i e r with
  | ind n ih =>
    by_cases hq : s.QualifierAt i
    · obtain ⟨q, hat, hk, hr⟩ := hq
      obtain rfl := he.unique hat
      have hl : e.isLayer = true := by simp [Entry.isLayer, hr, hk]
      cases n with
      | zero => cases h
      | succ n =>
        rw [endingWithin_layer he hl, layer?_qualifier he hk] at h
        simp only [Option.bind_eq_bind, Option.pure_def, Option.bind_eq_some_iff] at h
        obtain ⟨_, ⟨j, hj, u, hu, k, hk', ⟨⟩⟩, _, hend, -⟩ := h
        obtain ⟨u', hu'⟩ := exists_of_typeIndex? hj
        obtain rfl : u' = u := Option.some.inj (hu'.get.symm.trans hu)
        have htarget : s.target? i = some j := (target?_eq he).trans hj
        obtain ⟨v, hv⟩ := exists_of_typeIndex? hk'
        obtain ⟨f, hf⟩ := ih n (by omega) hv hend
        by_cases hqj : s.QualifierAt j
        · have hnext : s.target? j = some k := (target?_eq hu').trans hk'
          exact ⟨f, .step ⟨e, he, hk, hr⟩ htarget (.step hqj hnext hf)⟩
        · exact ⟨j, .step ⟨e, he, hk, hr⟩ htarget (.stop hu' hqj)⟩
    · exact ⟨i, .stop he hq⟩

theorem exists_unqualified_of_outline? {shape : Layout.Shape} (he : s.EntryAt i e)
    (h : s.outline? i = some shape) : ∃ f, s.Unqualified i f := by
  obtain ⟨r, hr, -⟩ := Option.bind_eq_some_iff.mp h
  exact exists_unqualified he hr

/-- An entry may be left out if the first one below the qualifiers may. -/
theorem idle_iff_unqualified (he : s.EntryAt i e) :
    s.Idle i ↔ ∀ f, s.Unqualified i f → s.Idle f := by
  constructor
  · intro h f hf
    exact hf.idle_iff.mp h
  · intro h
    by_cases hu : ∃ f, s.Unqualified i f
    · obtain ⟨f, hf⟩ := hu
      exact hf.idle_iff.mpr (h f hf)
    · -- The qualifiers come back, so there is no layout either way.
      have hi : s.outline? i = none := by
        rw [Option.eq_none_iff_forall_not_mem]
        intro shape hs
        exact hu (exists_unqualified_of_outline? he hs)
      have hj : (s.target? i).bind s.outline? = none := by
        rw [Option.bind_eq_none_iff]
        intro j hj
        rw [Option.eq_none_iff_forall_not_mem]
        intro shape hs
        obtain ⟨u, hu'⟩ := exists_of_target? hj
        obtain ⟨f, hf⟩ := exists_unqualified_of_outline? hu' hs
        by_cases hq : s.QualifierAt i
        · exact hu ⟨f, .step hq hj hf⟩
        · exact hu ⟨i, .stop he hq⟩
      rw [Idle, hi, hj]

theorem unqualified_typedef (he : s.EntryAt i e) (hk : e.tag = .typedef)
    (hr : e.typeRef?.isSome = true) : ∀ f, s.Unqualified i f → s.Idle f := by
  rw [← idle_iff_unqualified he]
  exact idle_typedef he hk hr

/-! ## Variables of a qualified type -/

/-- The type reference of an entry is the offset of the entry at an index. -/
structure Refers (s : Stream) (e : Entry) (i : Nat) (t : Entry) : Prop where
  ref : e.typeRef? = some t.offset
  found : s.locate? t.offset = some i
  entryAt : s.EntryAt i t

theorem Refers.typeIndex?_eq (h : s.Refers e i T) : s.typeIndex? e = some i := by
  rw [typeIndex?_eq_some_iff, h.ref]
  exact ⟨h.found, T, h.entryAt⟩

theorem Refers.target?_self (h : s.Refers e i T) (hr : T.typeRef? = none) :
    s.target? i = some i := by
  rw [target?_eq h.entryAt, typeIndex?_eq_some_iff, hr]
  exact ⟨h.found, T, h.entryAt⟩

theorem not_null_of_isVariable (h : e.tag.isVariable = true) : e.isNull = false := by
  unfold Entry.isNull
  cases he : e.tag <;> simp_all [Tag.isVariable]

theorem not_member_of_isVariable (h : e.tag.isVariable = true) : e.tag ≠ .member := by
  intro hm
  simp [hm, Tag.isVariable] at h

/-- Two variables, one of a type and one of the qualified type, have one layout exactly if the
first entry below all qualifiers of the type may be left out. Of an array that is given without its
elements the dimensions must not matter either. -/
theorem resolve_qualified_iff {v w q : Entry} (hqT : s.Refers q t T)
    (hq : q.tag.isQualifier = true) (hvq : s.Refers v i q) (hwT : s.Refers w t T)
    (hv : v.tag.isVariable = true) (hw : w.tag.isVariable = true) (huv : v.Unplaced)
    (huw : w.Unplaced) (c d : Cursor) :
    SameShape (s.resolve v c) (s.resolve w d) ↔
      (s.Bare t → s.declared? t = s.outline? t) ∧ ∀ f, s.Unqualified t f → s.Idle f := by
  have hqr : q.typeRef?.isSome = true := by simp [hqT.ref]
  have hqi : ¬ s.Bare i := by
    rintro ⟨q', hq', ha, -⟩
    obtain rfl := hvq.entryAt.unique hq'
    exact not_array_of_isQualifier hq ha
  have htarget : s.target? i = some t := (target?_eq hvq.entryAt).trans hqT.typeIndex?_eq
  rw [sameShape_iff, shape_resolve (not_null_of_isVariable hv) (not_member_of_isVariable hv) huv,
    shape_resolve (not_null_of_isVariable hw) (not_member_of_isVariable hw) huw,
    hvq.typeIndex?_eq, hwT.typeIndex?_eq, Option.bind_some, Option.bind_some,
    declared?_eq_outline? hvq.entryAt hqi, outline?_qualifier hvq.entryAt hq hqr, htarget,
    Option.bind_some, ← idle_iff_unqualified hqT.entryAt]
  by_cases hb : s.Bare t
  · obtain ⟨T', hT', -, hr⟩ := id hb
    obtain rfl := hqT.entryAt.unique hT'
    have hself := hqT.target?_self hr
    simp only [idle_self hself, and_true, hb, true_implies]
    rw [hself, Option.bind_some]
    exact eq_comm
  · rw [declared?_eq_outline? hqT.entryAt hb, Idle, eq_comm]
    simp [hb]

/-- A constant and a variable of a type of eight bytes, which refers to a type of one byte. -/
def constantOf (tag : Tag) : Stream :=
  let refersTo : Nat → Attr × AttrValue := fun offset => (.type, .ref offset)
  (((((({} : Builder).begin .compileUnit []).leaf
    .baseType [(.byteSize, .udata 1)]).leaf
    tag [(.byteSize, .udata 8), refersTo 12]).leaf
    .constType [refersTo 13]).leaf
    .var [refersTo 14]).leaf
    .var [refersTo 13] |>.build

theorem resolve_qualified_typedef :
    let s := constantOf .typedef
    SameShape (s.resolve s.entries[4]! {}) (s.resolve s.entries[5]! {}) := by
  intro s
  refine (resolve_qualified_iff (q := s.entries[3]!) (T := s.entries[2]!) (i := 3) (t := 2)
    ⟨rfl, by decide, rfl, rfl⟩ rfl ⟨rfl, by decide, rfl, rfl⟩ ⟨rfl, by decide, rfl, rfl⟩ rfl rfl
    ⟨rfl, rfl, rfl⟩ ⟨rfl, rfl, rfl⟩ {} {}).mpr ⟨?_, ?_⟩
  · rintro ⟨T, ⟨⟨⟩, -⟩, ha, -⟩
    cases ha
  · exact unqualified_typedef (e := s.entries[2]!) ⟨rfl, rfl⟩ rfl rfl

/-- A constant pointer has the layout of what it points to. -/
theorem resolve_qualified_pointer :
    let s := constantOf .pointerType
    ¬ SameShape (s.resolve s.entries[4]! {}) (s.resolve s.entries[5]! {}) := by
  rintro s ⟨h, -⟩
  exact absurd h (by decide)

/-! ## Types by themselves -/

theorem not_null_of_isType (h : e.tag.isType = true) : e.isNull = false := by
  unfold Entry.isNull
  cases he : e.tag <;> simp_all [Tag.isType]

theorem not_member_of_isType (h : e.tag.isType = true) : e.tag ≠ .member := by
  intro hm
  simp [hm, Tag.isType] at h

/-- A type that refers to another one is left out when it is resolved by itself. Its layout is that
of a variable exactly if the first entry below its qualifiers may be left out. If it refers to an
array that is given without its elements, the dimensions of that array are taken in only when the
type is resolved by itself. -/
theorem resolve_type_iff {v : Entry} (hvT : s.Refers v t T) (hT : T.tag.isType = true)
    (hv : v.tag.isVariable = true) (huT : T.Unplaced) (huv : v.Unplaced) (c d : Cursor) :
    SameShape (s.resolve T c) (s.resolve v d) ↔ (T.typeRef?.isSome = true →
      (∀ u, s.target? t = some u → s.Bare u → s.declared? u = s.outline? t) ∧
      ((∀ u, s.target? t = some u → ¬ s.Bare u) → ∀ f, s.Unqualified t f → s.Idle f)) := by
  rw [sameShape_iff, shape_resolve (not_null_of_isType hT) (not_member_of_isType hT) huT,
    shape_resolve (not_null_of_isVariable hv) (not_member_of_isVariable hv) huv,
    hvT.typeIndex?_eq, Option.bind_some, ← target?_eq hvT.entryAt,
    ← idle_iff_unqualified hvT.entryAt]
  cases hr : T.typeRef?.isSome with
  | false =>
    have hself := hvT.target?_self (by simpa using hr)
    rw [hself, Option.bind_some]
    simp
  | true =>
    have hb : ¬ s.Bare t := by
      rintro ⟨T', hT', -, hnone⟩
      obtain rfl := hvT.entryAt.unique hT'
      simp [hnone] at hr
    rw [declared?_eq_outline? hvT.entryAt hb, Idle]
    rcases hu : s.target? t with _ | u
    · simp [eq_comm]
    by_cases hbu : s.Bare u
    · simp [hbu]
    · obtain ⟨U, hU⟩ := exists_of_target? hu
      simp [hbu, declared?_eq_outline? hU hbu, eq_comm]

theorem resolve_type_typedef :
    let s := constantOf .typedef
    SameShape (s.resolve s.entries[2]! {}) (s.resolve s.entries[5]! {}) := by
  intro s
  refine (resolve_type_iff (T := s.entries[2]!) (t := 2) ⟨rfl, by decide, rfl, rfl⟩ rfl rfl
    ⟨rfl, rfl, rfl⟩ ⟨rfl, rfl, rfl⟩ {} {}).mpr fun _ => ⟨fun u hu hb => ?_, fun _ => ?_⟩
  · obtain rfl : 1 = u := Option.some.inj (Eq.trans (by decide) hu)
    obtain ⟨U, ⟨⟨⟩, -⟩, ha, -⟩ := hb
    cases ha
  · exact unqualified_typedef (e := s.entries[2]!) ⟨rfl, rfl⟩ rfl rfl

/-- A pointer type by itself has the layout of what it points to. -/
theorem resolve_type_pointer :
    let s := constantOf .pointerType
    ¬ SameShape (s.resolve s.entries[2]! {}) (s.resolve s.entries[5]! {}) := by
  rintro s ⟨h, -⟩
  exact absurd h (by decide)

end DwarfScope.Stream
