import DwarfScope.Proofs.Layout.Qualifiers
import DwarfScope.Proofs.Layout.Steps

/-!
# Self-referential types

A list node refers to itself through a pointer. A pointer gives its own size and is not followed, so
that the resolution of the node ends. A qualified pointer is the exception: the pointer is left out.
-/

namespace DwarfScope.Stream

open Relation (ReflTransGen TransGen)

variable {s : Stream} {i j k n limit depth : Nat} {e t m : Entry} {p q : Stage}

/-! ## Cycles of the debug info -/

/-- An entry refers to its type, and an aggregate has its members. -/
inductive Leads (s : Stream) : Nat → Nat → Prop
  | type {i j : Nat} {e : Entry} : s.EntryAt i e → e.typeRef?.isSome = true →
      s.typeIndex? e = some j → Leads s i j
  | member {k j : Nat} {t m : Entry} : s.EntryAt k t → t.tag.isAggregate = true →
      s.MemberOf k t j m → Leads s k j

def PointerAt (s : Stream) (i : Nat) : Prop := ∃ e, s.EntryAt i e ∧ e.tag = .pointerType

/-- Leads on from an entry that is no pointer. -/
def LeadsPast (s : Stream) (i j : Nat) : Prop := s.Leads i j ∧ ¬ s.PointerAt i

/-- Every cycle of the debug info passes a pointer. -/
def PointersBreakCycles (s : Stream) : Prop := ∀ i, ¬ TransGen s.LeadsPast i i

/-- A qualifier stands directly above a pointer. -/
def QualifiedPointerAt (s : Stream) (i : Nat) : Prop :=
  s.QualifierAt i ∧ ∃ j e, s.target? i = some j ∧ s.EntryAt j e ∧ e.tag = .pointerType ∧
    e.typeRef?.isSome = true

/-! ## Steps along the debug info -/

theorem not_pointerAt (he : s.EntryAt i e) (h : e.tag ≠ .pointerType) : ¬ s.PointerAt i := by
  rintro ⟨e', he', ht⟩
  obtain rfl := he.unique he'
  exact h ht

theorem typeIndex?_self (ha : s.Addressed) (he : s.EntryAt i e) (hr : e.typeRef? = none) :
    s.typeIndex? e = some i := by
  rw [typeIndex?_eq_some_iff, hr]
  exact ⟨ha i e he, e, he⟩

theorem leadsPast_type (he : s.EntryAt i e) (hr : e.typeRef?.isSome = true)
    (ht : e.tag ≠ .pointerType) (hj : s.typeIndex? e = some j) : s.LeadsPast i j :=
  ⟨.type he hr hj, not_pointerAt he ht⟩

theorem leadsPast_of_typeIndex? (ha : s.Addressed) (he : s.EntryAt i e)
    (ht : e.tag = .pointerType → e.typeRef? = none) (hj : s.typeIndex? e = some j) :
    ReflTransGen s.LeadsPast i j := by
  rcases hr : e.typeRef? with _ | r
  · rw [typeIndex?_self ha he hr] at hj
    cases hj
    exact .refl
  · refine .single (leadsPast_type he (by simp [hr]) (fun hp => ?_) hj)
    rw [ht hp] at hr
    cases hr

theorem leadsPast_of_begins (ha : s.Addressed) (hm : s.EntryAt j m) (ht : m.tag = .member)
    (h : s.Begins m i) : ReflTransGen s.LeadsPast j i := by
  obtain ⟨ranges, h⟩ := h
  obtain ⟨k, hk, hstart⟩ := Option.bind_eq_some_iff.mp h
  obtain ⟨u, hu⟩ := exists_of_typeIndex? hk
  refine (leadsPast_of_typeIndex? ha hm (by simp [ht]) hk).trans ?_
  simp only [startAt?, hu.get, Option.bind_eq_bind, Option.bind_some] at hstart
  split at hstart
  · rename_i harray
    simp only [Option.pure_def, Option.bind_eq_some_iff, Option.some.injEq, Prod.mk.injEq] at hstart
    obtain ⟨_, -, _, hi, -, rfl⟩ := hstart
    exact leadsPast_of_typeIndex? ha hu (by simp [harray]) hi
  · cases hstart
    exact .refl

theorem leadsPast_of_layer {ranges : List Nat} (ha : s.Addressed) (ht : s.EntryAt i t)
    (hl : t.isLayer = true) (h : s.layer? i = some (ranges, j)) (hq : ¬ s.QualifiedPointerAt i) :
    TransGen s.LeadsPast i j := by
  obtain ⟨hr, hkind⟩ := Entry.kind_of_isLayer hl
  rcases hkind with (hk | hk) | hk
  · rw [layer?_qualifier ht hk] at h
    simp only [Option.bind_eq_bind, Option.pure_def, Option.bind_eq_some_iff, Option.some.injEq,
      Prod.mk.injEq] at h
    obtain ⟨x, hx, u, hu, _, hj, -, rfl⟩ := h
    obtain ⟨u', hu'⟩ := exists_of_typeIndex? hx
    obtain rfl : u' = u := Option.some.inj (hu'.get.symm.trans hu)
    have hnp : t.tag ≠ .pointerType := by
      intro hp
      simp [hp, Tag.isQualifier] at hk
    refine .head' (leadsPast_type ht hr hnp hx) (leadsPast_of_typeIndex? ha hu' (fun hp => ?_) hj)
    by_contra hne
    exact hq ⟨⟨t, ht, hk, hr⟩, x, u', (target?_eq ht).trans hx, hu', hp,
      Option.isSome_iff_ne_none.mpr hne⟩
  · rw [layer?_typedef ht hk] at h
    simp only [Option.bind_eq_bind, Option.pure_def, Option.bind_eq_some_iff, Option.some.injEq,
      Prod.mk.injEq] at h
    obtain ⟨_, hj, -, rfl⟩ := h
    exact .single (leadsPast_type ht hr (by simp [hk]) hj)
  · rw [layer?_array ht hk] at h
    simp only [Option.bind_eq_bind, Option.pure_def, Option.bind_eq_some_iff, Option.some.injEq,
      Prod.mk.injEq] at h
    obtain ⟨_, -, _, hj, -, rfl⟩ := h
    exact .single (leadsPast_type ht hr (by simp [hk]) hj)

/-- A step follows the debug info past no pointer, except at a qualified pointer. -/
theorem leadsPast_of_step (ha : s.Addressed) (h : s.Step p q) (hq : ¬ s.QualifiedPointerAt p.2) :
    TransGen s.LeadsPast p.2 q.2 := by
  cases h with
  | layer ht hl hlayer => exact leadsPast_of_layer ha ht hl hlayer hq
  | member hk _ _ hagg hasked hbegins =>
    obtain ⟨js, hjs, -⟩ := hasked.earlier
    have hmember := Leads.member hk hagg ⟨hasked.children, ⟨js, hjs⟩, hasked.entryAt, hasked.tag⟩
    refine .head' ⟨hmember, not_pointerAt hk fun hp => ?_⟩
      (leadsPast_of_begins ha hasked.entryAt hasked.tag hbegins)
    simp [hp, Tag.isAggregate] at hagg

/-! ## Where resolutions do not end -/

theorem qualifiedPointer_of_cycle (ha : s.Addressed) (hp : s.PointersBreakCycles)
    (h : TransGen s.Step p p) :
    ∃ q, ReflTransGen s.Step p q ∧ TransGen s.Step q q ∧ s.QualifiedPointerAt q.2 := by
  by_contra hno
  have hpast : ∀ q, TransGen s.Step p q → ReflTransGen s.Step q p →
      TransGen s.LeadsPast p.2 q.2 := by
    intro q hpq
    induction hpq with
    | single hstep =>
      intro _
      exact leadsPast_of_step ha hstep fun hq => hno ⟨p, .refl, h, hq⟩
    | @tail q r hpq hstep ih =>
      intro hrp
      have hqp : ReflTransGen s.Step q p := .head hstep hrp
      have hqq : TransGen s.Step q q := .trans_right hqp hpq
      exact (ih hqp).trans (leadsPast_of_step ha hstep fun hq =>
        hno ⟨q, hpq.to_reflTransGen, hqq, hq⟩)
  exact hp p.2 (hpast p h .refl)

/-- The resolution of an entry comes to a qualified pointer, and from there to it again. -/
def ComesRound (s : Stream) (e : Entry) : Prop :=
  ∃ i q, s.Begins e i ∧ ReflTransGen s.Step (e, i) q ∧ TransGen s.Step q q ∧
    s.QualifiedPointerAt q.2

/-- If every cycle of the debug info passes a pointer, a resolution ends unless it comes to a
qualified pointer again and again. In that case no room is enough for it. -/
theorem resolve_ends_iff (ha : s.Addressed) (hp : s.PointersBreakCycles) (he : e.isNull = false) :
    ((s.resolve e).Ends ↔ ¬ s.ComesRound e) ∧
      (s.ComesRound e → ∀ limit depth, ¬ (s.resolveWithin limit depth e).Ends) := by
  have hround : s.ComesRound e → ∀ limit depth, ¬ (s.resolveWithin limit depth e).Ends := by
    rintro ⟨i, q, hi, hreach, hcycle, -⟩ limit depth h
    exact acyclic_of_ends ha he h hi q hreach hcycle
  refine ⟨⟨fun h hcomes => hround hcomes _ _ h, fun h => ends_of_acyclic ha fun i hi => ?_⟩, hround⟩
  intro q hreach hcycle
  obtain ⟨r, hqr, hrr, hr⟩ := qualifiedPointer_of_cycle ha hp hcycle
  exact h ⟨i, r, hi, hreach.trans hqr, hrr, hr⟩

/-- A list node. Its link refers to an entry with a tag, which refers to a pointer to the node. -/
def Builder.listNode (tag : Tag) : Builder :=
  (((((({} : Builder).begin .compileUnit []).leaf
    .pointerType [(.byteSize, .udata 8), (.type, .ref 14)]).leaf
    tag [(.type, .ref 12)]).begin
    .structureType [(.byteSize, .udata 8)]).leaf
    .member [(.name, .text "next"), (.type, .ref 13), (.dataMemberLocation, .udata 0)]).close

theorem Builder.listNode_built {tag : Tag} (h : tag ≠ .null) : (listNode tag).Built :=
  .close <| .leaf _ _ (by decide) <| .begin _ _ (by decide) <| .leaf _ _ h <|
    .leaf _ _ (by decide) <| .begin _ _ (by decide) .empty

theorem pointersBreakCycles_of_rank (rank : Nat → Nat)
    (h : ∀ i j, s.LeadsPast i j → rank i < rank j) : s.PointersBreakCycles := by
  have hlt : ∀ i j, TransGen s.LeadsPast i j → rank i < rank j := by
    intro i j hij
    induction hij with
    | single hij => exact h _ _ hij
    | tail _ hjk ih => exact ih.trans (h _ _ hjk)
  intro i hi
  exact Nat.lt_irrefl _ (hlt i i hi)

theorem Builder.listNode_pointersBreakCycles {tag : Tag} (h : tag = .typedef ∨ tag = .constType) :
    (listNode tag).build.PointersBreakCycles := by
  have htypes : ∀ i < 7, ((listNode tag).build.entries[i]?.any fun e =>
      e.typeRef?.isSome && e.tag != .pointerType) = true →
      ((listNode tag).build.target? i).all (fun j =>
        decide ([0, 4, 3, 1, 2].getD i 0 < [0, 4, 3, 1, 2].getD j 0)) = true := by
    rcases h with rfl | rfl <;> decide
  have haggregates : ∀ i < 7, ((listNode tag).build.entries[i]?.map
      fun e => e.tag.isAggregate) = some true → i = 3 := by
    rcases h with rfl | rfl <;> decide
  refine pointersBreakCycles_of_rank (fun i => [0, 4, 3, 1, 2].getD i 0) fun i j hij => ?_
  obtain ⟨hij, hpast⟩ := hij
  cases hij with
  | type he hr hj =>
    have ht := htypes i he.lt_size (by simpa [he.get, hr] using fun hp => hpast ⟨_, he, hp⟩)
    rw [target?_eq he, hj] at ht
    simpa using ht
  | member hk hagg hm =>
    obtain rfl := haggregates i hk.lt_size (by simp [hk.get, hagg])
    obtain ⟨js, hjs⟩ := hm.behind
    have hm := hm.entryAt
    have hnull : (listNode tag).build.NullAt 5 := ⟨.null, rfl, rfl⟩
    cases hjs with
    | nil => decide
    | leaf _ _ hrest =>
      cases hrest with
      | nil => exact absurd hnull hm.not_null
      | leaf he => exact absurd hnull he.not_null
      | node he => exact absurd hnull he.not_null
    | node he hc =>
      obtain ⟨⟨⟩, -⟩ := he
      cases hc

theorem resolve_ends_list :
    let s := (Builder.listNode .typedef).build
    (s.resolve s.entries[3]!).Ends := by
  have hqualifiers : ∀ i < 7, ((Builder.listNode .typedef).build.entries[i]?.map
      fun e => e.tag.isQualifier) ≠ some true := by decide
  intro s
  have ha : s.Addressed := (Builder.listNode_built (by decide)).addressed List.prefix_rfl
  have hp : s.PointersBreakCycles := Builder.listNode_pointersBreakCycles (.inl rfl)
  refine (resolve_ends_iff ha hp rfl).1.mpr ?_
  rintro ⟨i, q, -, -, -, ⟨t, ht, hq, -⟩, -⟩
  exact hqualifiers q.2 ht.lt_size (by rw [ht.get]; simp [hq])

/-- If the link is constant, it does not end with any room, although the pointer breaks the
cycle. -/
theorem resolve_endless_list :
    let s := (Builder.listNode .constType).build
    s.PointersBreakCycles ∧
      ∀ limit depth, ¬ (s.resolveWithin limit depth s.entries[3]!).Ends := by
  intro s
  have ha : s.Addressed := (Builder.listNode_built (by decide)).addressed List.prefix_rfl
  refine ⟨Builder.listNode_pointersBreakCycles (.inr rfl), fun limit depth h => ?_⟩
  have hends : (s.resolve s.entries[3]!).Ends :=
    ends_of_acyclic ha fun i hi => acyclic_of_ends ha rfl h hi
  exact hends {} rfl

end DwarfScope.Stream
