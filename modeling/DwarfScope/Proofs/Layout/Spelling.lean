import DwarfScope.Proofs.Layout.Steps
import DwarfScope.Proofs.Stream.Spelling

/-!
# Layouts do not depend on the spelling

A resolution in a stream goes the same way in any other spelling of the stream, so the layouts and
the errors are equal.
-/

namespace DwarfScope

open Walk

/-- The same is known, up to the spelling of the type entry. -/
structure Stream.Layers.Respelled (l l' : Stream.Layers) : Prop where
  name : l'.name = l.name
  ranges : l'.ranges = l.ranges
  entry : l.entry.Respelled l'.entry

theorem Entry.Respelled.isLayer {e e' : Entry} (h : e.Respelled e') : e'.isLayer = e.isLayer := by
  unfold Entry.isLayer
  rw [h.typeRef?, h.tag]

namespace Stream

open Relation (ReflTransGen)

/-- The resolution of an entry comes to an index. -/
def Passes (s : Stream) (e : Entry) (k : Nat) : Prop :=
  ∃ i m, s.Begins e i ∧ ReflTransGen s.Step (e, i) (m, k)

variable {s s' : Stream} {i j k n limit depth : Nat} {e e' t t' : Entry} {l l' : Layers}

theorem typeBits_respelled (h : t.Respelled t') (name : String) :
    typeBits name t' = typeBits name t := by
  unfold typeBits
  rw [h.bitSize?, h.byteSize?]

theorem structOffset_respelled (h : e.Respelled e') (name : String) (bits bitSize : Nat) :
    structOffset name e' bits bitSize = structOffset name e bits bitSize := by
  unfold structOffset structOffset?
  rw [h.dataBitOffset?, h.memberLocation?, h.bitOffset?, h.byteSize?]

theorem frame_respelled (he : e.Respelled e') (hl : l.Respelled l') : frame e' l' = frame e l := by
  unfold frame
  simp only [hl.name, hl.ranges, hl.entry.tag, he.name?, he.tag, he.bitSize?, he.label,
    typeBits_respelled hl.entry, structOffset_respelled he]

namespace Respelled

/-! ## Layers -/

theorem typeEntry (h : s.Respelled s') (he : e.Respelled e') :
    Mirrors Entry.Respelled (s.typeEntry e) (s'.typeEntry e') := by
  unfold Stream.typeEntry
  simp only [he.typeRef?, he.offset, h.locate?_eq]
  rcases s.locate? (e.typeRef?.getD e.offset) with _ | p
  · exact .throw _
  refine .after _ fun _ => .bind h.next fun found found' hfound => ?_
  cases hfound with
  | none => exact .throw _
  | some ht =>
    dsimp only
    rw [ht.isNull]
    split
    · exact .throw _
    · exact .pure ht

theorem rangesFrom (h : s.Respelled s') (ht : t.Respelled t') (n : Nat) :
    Mirrors Eq (s.rangesFrom t n) (s'.rangesFrom t' n) := by
  induction n with
  | zero =>
    unfold Stream.rangesFrom
    rw [ht.label]
    exact .throw _
  | succ n ih =>
    unfold Stream.rangesFrom
    rw [ht.label, h.skipChildren_eq]
    refine .bind h.next fun found found' hfound => ?_
    cases hfound with
    | none => exact .throw _
    | some he =>
      dsimp only
      rw [he.isNull, he.tag, he.elementCount?]
      split
      · exact .pure rfl
      split
      · exact .map ih fun _ _ hrest => by rw [hrest]
      · exact .after _ fun _ => ih

theorem arrayRanges (h : s.Respelled s') (ht : t.Respelled t') :
    Mirrors Eq (s.arrayRanges t) (s'.arrayRanges t') := by
  unfold Stream.arrayRanges
  rw [ht.children, h.size_eq]
  split
  · exact .map (h.rangesFrom ht _) fun _ _ hranges => by rw [hranges]
  · exact .refl _

theorem firstLayer (h : s.Respelled s') (he : e.Respelled e') :
    Mirrors Layers.Respelled (s.firstLayer e) (s'.firstLayer e') := by
  unfold Stream.firstLayer
  rw [he.tag, he.name?]
  refine .bind (h.typeEntry he) fun first first' hfirst => ?_
  rw [hfirst.tag, hfirst.name?]
  split
  · refine .bind (h.arrayRanges hfirst) fun ranges ranges' hranges => ?_
    exact .map (h.typeEntry hfirst) fun t t' ht => ⟨by rw [ht.name?], hranges.symm, ht⟩
  · exact .pure ⟨rfl, rfl, hfirst⟩

theorem nextLayer (h : s.Respelled s') (hl : l.Respelled l') :
    Mirrors (Option.Rel Layers.Respelled) (s.nextLayer l) (s'.nextLayer l') := by
  unfold Stream.nextLayer
  rw [hl.entry.typeRef?, hl.entry.tag]
  split
  · exact .pure .none
  split
  · refine .bind (h.typeEntry hl.entry) fun u u' hu => ?_
    exact .map (h.typeEntry hu) fun t t' ht =>
      .some ⟨by rw [hu.name?, hl.name], hl.ranges, ht⟩
  split
  · exact .map (h.typeEntry hl.entry) fun t t' ht => .some ⟨hl.name, hl.ranges, ht⟩
  split
  · refine .bind (h.arrayRanges hl.entry) fun ranges ranges' hranges => ?_
    exact .map (h.typeEntry hl.entry) fun t t' ht =>
      .some ⟨hl.name, by rw [hl.ranges, hranges], ht⟩
  · exact .pure .none

theorem unwrap (h : s.Respelled s') (hl : l.Respelled l') (n : Nat) :
    Mirrors Layers.Respelled (s.unwrap n l) (s'.unwrap n l') := by
  induction n generalizing l l' with
  | zero => exact .diverge
  | succ n ih =>
    refine .bind (h.nextLayer hl) fun next next' hnext => ?_
    cases hnext with
    | none => exact .pure hl
    | some hl => exact ih hl

/-! ## Layouts -/

theorem membersFrom (h : s.Respelled s') {resolve resolve' : Entry → Walk Layout}
    (hres : ∀ e e', e.Respelled e' → Mirrors Eq (resolve e) (resolve' e'))
    (name : String) (n : Nat) :
    Mirrors Eq (s.membersFrom name resolve n) (s'.membersFrom name resolve' n) := by
  induction n with
  | zero => exact .diverge
  | succ n ih =>
    refine .bind h.next fun found found' hfound => ?_
    cases hfound with
    | none => exact .throw _
    | some he =>
      dsimp only
      rw [he.isNull, he.tag, h.skipChildren_eq, he.offset, h.seek_eq]
      split
      · exact .pure rfl
      split
      · refine .bind (hres _ _ he) fun l l' hl => .after _ fun _ => .bind h.next fun _ _ _ => ?_
        exact .after _ fun _ => .map ih fun ls ls' hls => by rw [hl, hls]
      · exact .after _ fun _ => ih

theorem resolveWithin (h : s.Respelled s') (he : e.Respelled e') (limit depth : Nat) :
    Mirrors Eq (s.resolveWithin limit depth e) (s'.resolveWithin limit depth e') := by
  induction depth generalizing e e' with
  | zero => exact .diverge
  | succ depth ih =>
    cases hn : e.isNull with
    | true =>
      rw [Stream.resolveWithin, Stream.resolveWithin, if_pos hn, if_pos (he.isNull.trans hn),
        he.label, he.tag]
      exact .throw _
    | false =>
      rw [resolveWithin_succ hn, resolveWithin_succ (he.isNull.trans hn), arrive, arrive]
      refine .bind (.bind (h.firstLayer he) fun l l' hl => h.unwrap hl _) fun l l' hl => ?_
      rw [frame_respelled he hl]
      refine .after _ fun f => .map (Q := Eq) ?_ fun ms ms' hms => by rw [hms]
      unfold Stream.members
      rw [hl.entry.tag, hl.entry.children]
      split
      · exact h.membersFrom (fun _ _ he => ih he) f.name limit
      · exact .pure rfl

theorem resolve (h : s.Respelled s') (he : e.Respelled e') :
    Mirrors Eq (s.resolve e) (s'.resolve e') := by
  unfold Stream.resolve
  rw [h.size_eq]
  exact h.resolveWithin he _ _

/-! ## Stages -/

theorem typeIndex?_eq (h : s.Respelled s') (he : e.Respelled e') :
    s'.typeIndex? e' = s.typeIndex? e := by
  ext i
  rw [typeIndex?_eq_some_iff, typeIndex?_eq_some_iff, he.typeRef?, he.offset, h.locate?_eq]
  refine and_congr_right fun _ => ⟨fun ⟨t, ht⟩ => ?_, fun ⟨t, ht⟩ => ?_⟩
  · obtain ⟨u, hu, -⟩ := h.symm.entryAt ht
    exact ⟨u, hu⟩
  · obtain ⟨u, hu, -⟩ := h.entryAt ht
    exact ⟨u, hu⟩

theorem dimensions?_eq (h : s.Respelled s') (i : Nat) : s'.dimensions? i = s.dimensions? i :=
  h.read i fun _ _ ht => by rw [(h.arrayRanges ht).eq]

theorem layerRanges?_eq (h : s.Respelled s') (i : Nat) : s'.layerRanges? i = s.layerRanges? i :=
  h.read i fun _ _ ht => by rw [ht.tag, h.dimensions?_eq]

theorem beneath?_eq (h : s.Respelled s') (i : Nat) : s'.beneath? i = s.beneath? i := by
  refine h.read i fun _ _ ht => ?_
  rw [h.typeIndex?_eq ht, ht.tag]
  refine Option.bind_congr fun j _ => ?_
  split
  · exact h.read j fun _ _ hu => h.typeIndex?_eq hu
  · rfl

theorem layer?_eq (h : s.Respelled s') (i : Nat) : s'.layer? i = s.layer? i := by
  unfold layer?
  rw [h.layerRanges?_eq, h.beneath?_eq]

theorem startAt?_eq (h : s.Respelled s') (i : Nat) : s'.startAt? i = s.startAt? i :=
  h.read i fun _ _ ht => by rw [ht.tag, h.dimensions?_eq, h.typeIndex?_eq ht]

theorem begins (h : s.Respelled s') (he : e.Respelled e') (hi : s.Begins e i) : s'.Begins e' i := by
  obtain ⟨ranges, hi⟩ := hi
  refine ⟨ranges, ?_⟩
  rw [h.typeIndex?_eq he, ← hi]
  exact Option.bind_congr fun j _ => h.startAt?_eq j

theorem nullAt (h : s.Respelled s') (hi : s.NullAt i) : s'.NullAt i := by
  obtain ⟨e, he, hn⟩ := hi
  obtain ⟨e', he', hre⟩ := h.exists_get he
  exact ⟨e', he', hre.isNull.trans hn⟩

theorem siblings (h : s.Respelled s') {p q : Nat} {js : List Nat} (hjs : s.Siblings p js q) :
    s'.Siblings p js q := by
  induction hjs with
  | nil => exact .nil _
  | leaf he hc _ ih =>
    obtain ⟨e', he', hre⟩ := h.entryAt he
    exact .leaf he' (hre.children.trans hc) ih
  | node he hc _ hm _ hbelow hrest =>
    obtain ⟨e', he', hre⟩ := h.entryAt he
    exact .node he' (hre.children.trans hc) hbelow (h.nullAt hm) hrest

theorem resolvesTo (h : s.Respelled s') {x : Nat} {l : Layout} (hl : s.ResolvesTo x l) :
    s'.ResolvesTo x l := by
  obtain ⟨m, hm, hok⟩ := hl
  obtain ⟨m', hm', hre⟩ := h.entryAt hm
  exact ⟨m', hm', by rwa [(h.resolve hre).eq]⟩

theorem memberAt_eq (h : s.Respelled s') (x : Nat) : s'.memberAt x = s.memberAt x := by
  unfold memberAt
  rcases rel_cases (h.get x) with ⟨hx, hx'⟩ | ⟨e, e', hx, hx', hre⟩
  · rw [hx, hx']
  · simp [hx, hx', hre.tag]

theorem asked (h : s.Respelled s') {m : Entry} (ht : t.Respelled t') (hasked : s.Asked k t j m) :
    ∃ m', m.Respelled m' ∧ s'.Asked k t' j m' := by
  obtain ⟨m', hm', hre⟩ := h.entryAt hasked.entryAt
  obtain ⟨js, hjs, hearlier⟩ := hasked.earlier
  refine ⟨m', hre, ht.children.trans hasked.children, ⟨js, h.siblings hjs, fun x hx hmember => ?_⟩,
    hm', hre.tag.trans hasked.tag⟩
  obtain ⟨l, hl⟩ := hearlier x hx ((h.memberAt_eq x).symm.trans hmember)
  exact ⟨l, h.resolvesTo hl⟩

theorem step (h : s.Respelled s') {p q : Stage} (he : p.1.Respelled e') (hstep : s.Step p q) :
    ∃ m', q.1.Respelled m' ∧ s'.Step (e', p.2) (m', q.2) := by
  cases hstep with
  | layer ht hl hj =>
    obtain ⟨t', ht', hre⟩ := h.entryAt ht
    exact ⟨e', he, .layer ht' (hre.isLayer.trans hl) ((h.layer?_eq _).trans hj)⟩
  | member ht hl hfits hagg hasked hbegins =>
    obtain ⟨t', ht', hre⟩ := h.entryAt ht
    obtain ⟨m', hm, hasked'⟩ := h.asked hre hasked
    obtain ⟨f, hf⟩ := hfits
    refine ⟨m', hm, .member ht' (hre.isLayer.trans hl) ⟨f, ?_⟩ (hre.tag ▸ hagg) hasked'
      (h.begins hm hbegins)⟩
    rw [← hf]
    exact frame_respelled he ⟨rfl, rfl, hre⟩

theorem path (h : s.Respelled s') {p q : Stage} (he : p.1.Respelled e')
    (hpath : ReflTransGen s.Step p q) :
    ∃ m', q.1.Respelled m' ∧ ReflTransGen s'.Step (e', p.2) (m', q.2) := by
  induction hpath with
  | refl => exact ⟨e', he, .refl⟩
  | tail _ hstep ih =>
    obtain ⟨m, hm, hpath⟩ := ih
    obtain ⟨m', hm', hstep'⟩ := h.step hm hstep
    exact ⟨m', hm', hpath.tail hstep'⟩

theorem passes (h : s.Respelled s') (he : e.Respelled e') (hk : s.Passes e k) : s'.Passes e' k := by
  obtain ⟨i, m, hi, hpath⟩ := hk
  obtain ⟨m', -, hpath'⟩ := h.path he hpath
  exact ⟨i, m', h.begins he hi, hpath'⟩

end Respelled

/-- No walk sees the spelling of a stream. Resolutions come to the same entries and end in the same
way. A search finds the same entry in the same unit, the lists of children and of units are the
same, and each time the cursor ends at the same place. Nor do the addresses of an entry depend on
its spelling. -/
theorem spelling_unseen (h : s.Respelled s') (he : e.Respelled e') :
    (s'.resolve e' = s.resolve e ∧ ∀ k, s'.Passes e' k ↔ s.Passes e k) ∧
    (∀ name, Mirrors (fun r r' => r.1.Respelled r'.1 ∧ Option.Rel Entry.Respelled r.2 r'.2)
      (s.findEntry name) (s'.findEntry name)) ∧
    (∀ p : Entry → Bool, (∀ m m', m.Respelled m' → p m' = p m) →
      Mirrors (List.Forall₂ Entry.Respelled) (s.children e p) (s'.children e' p)) ∧
    Mirrors (List.Forall₂ Entry.Respelled) s.compileUnits s'.compileUnits ∧
    e'.lowPc? = e.lowPc? ∧ e'.location? = e.location? :=
  ⟨⟨(h.resolve he).eq, fun _ => ⟨h.symm.passes he.symm, h.passes he⟩⟩, h.findEntry,
    fun _ hp => h.children he hp, h.compileUnits, he.lowPc?, he.location?⟩

/-- A number with some attributes, and a variable of it. -/
def Builder.spelled (attrs : List (Attr × AttrValue)) : Builder :=
  (((({} : Builder).begin .compileUnit []).leaf
    .baseType attrs).leaf
    .var [(.name, .text "x"), (.type, .ref 12)])

theorem Builder.spelled_respelled :
    (spelled [(.name, .text "int"), (.byteSize, .udata 4)]).build.Respelled
      (spelled [(.byteSize, .sdata 4), (.name, .text "int")]).build := by
  have hint : ((spelled [(.name, .text "int"), (.byteSize, .udata 4)]).build.entries[1]!).Respelled
      (spelled [(.byteSize, .sdata 4), (.name, .text "int")]).build.entries[1]! :=
    ⟨rfl, rfl, rfl, rfl, by decide, _, .swap _ _ _,
      .cons ⟨rfl, .signed (by decide)⟩ (.cons ⟨rfl, .refl _⟩ .nil)⟩
  exact .cons (.refl (by decide)) <| .cons hint <| .cons (.refl (by decide)) <|
    .cons (.refl (by decide)) .nil

theorem spelling_unseen_int :
    let s := (Builder.spelled [(.name, .text "int"), (.byteSize, .udata 4)]).build
    let s' := (Builder.spelled [(.byteSize, .sdata 4), (.name, .text "int")]).build
    (∃ l d, s.resolve s.entries[2]! {} = .ok l d ∧ s'.resolve s'.entries[2]! {} = .ok l d ∧
      l.name = "int" ∧ l.bitSize = 32) ∧
    ∃ es es' d, s.children s.entries[0]! Entry.isExplorable {} = .ok es d ∧
      s'.children s'.entries[0]! Entry.isExplorable {} = .ok es' d ∧
      es.map Entry.offset = [12, 13] ∧ es'.map Entry.offset = [12, 13] := by
  intro s s'
  have h : s.Respelled s' := Builder.spelled_respelled
  have hx : (s.entries[2]!).Respelled s'.entries[2]! := .refl (by decide)
  have hunit : (s.entries[0]!).Respelled s'.entries[0]! := .refl (by decide)
  obtain ⟨⟨heq, -⟩, -⟩ := spelling_unseen h hx
  obtain ⟨-, -, hlist, -⟩ := spelling_unseen h hunit
  have hok : ∃ l d, s.resolve s.entries[2]! {} = .ok l d ∧ l.name = "int" ∧ l.bitSize = 32 :=
    ⟨_, _, rfl, rfl, rfl⟩
  have hchildren : ∃ es d, s.children s.entries[0]! Entry.isExplorable {} = .ok es d ∧
      es.map Entry.offset = [12, 13] := ⟨_, _, rfl, rfl⟩
  obtain ⟨l, d, hl, hname, hbits⟩ := hok
  obtain ⟨es, d', hes, hoffsets⟩ := hchildren
  refine ⟨⟨l, d, hl, (congrFun heq {}).trans hl, hname, hbits⟩, es, ?_⟩
  have hagree := hlist Entry.isExplorable (fun _ _ hm => hm.isExplorable) {}
  rw [hes] at hagree
  generalize hes' : s'.children s'.entries[0]! Entry.isExplorable {} = r at hagree
  cases hagree with
  | @ok _ es' _ hsame =>
    refine ⟨es', d', hes, rfl, hoffsets, ?_⟩
    rw [Entry.map_eq_of_forall₂ hsame fun _ _ he => he.offset, hoffsets]

end Stream
end DwarfScope
