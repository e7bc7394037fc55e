import DwarfScope.Proofs.Layout.Resolving
import DwarfScope.Proofs.Stream.Offsets

/-!
# The members of a layout

Every member is resolved somewhere else in the stream, and the list goes on behind it. The layouts
found are those of the immediate members, one for each, in order.
-/

namespace DwarfScope.Stream

variable {s : Stream} {i j k n : Nat} {js : List Nat} {e t : Entry} {c d : Cursor}

def memberAt (s : Stream) (j : Nat) : Bool := s.entries[j]?.any fun e => e.tag = .member

/-- The entry at an index has a layout, from every cursor. -/
def ResolvesTo (s : Stream) (j : Nat) (l : Layout) : Prop :=
  ∃ m, s.EntryAt j m ∧ ∀ c, ∃ d, s.resolve m c = .ok l d

/-- The references of an entry lead to the index of an entry below all layers. -/
def EndsAt (s : Stream) (e : Entry) (k : Nat) : Prop := ∃ ranges, s.reach? e = some (ranges, k)

/-- The immediate children of the entry at an index, up to the null entry that closes them. -/
def ChildrenAt (s : Stream) (k : Nat) (t : Entry) (js : List Nat) : Prop :=
  if t.children then ∃ r, s.Siblings (k + 1) js r ∧ s.NullAt r else js = []

/-- An immediate member of the entry at `k` stands at an index. The list of children need not be
closed. -/
structure MemberOf (s : Stream) (k : Nat) (t : Entry) (j : Nat) (m : Entry) : Prop where
  children : t.children = true
  behind : ∃ js, s.Siblings (k + 1) js j
  entryAt : s.EntryAt j m
  tag : m.tag = .member

/-! ## The list of members -/

theorem memberAt_of_entryAt (he : s.EntryAt j e) : s.memberAt j = decide (e.tag = .member) := by
  simp [memberAt, he.get]

theorem membersFrom_ok {name : String} {resolve : Entry → Walk Layout} {ls : List Layout}
    (ha : s.Addressed) (h : (s.membersFrom name resolve n).outcome c = .ok (ls, d)) :
    ∃ js r, s.Siblings c.position js r ∧ s.NullAt r ∧
      List.Forall₂ (fun j l => ∃ m, s.EntryAt j m ∧ ∃ c d, (resolve m).outcome c = .ok (l, d))
        (js.filter s.memberAt) ls := by
  induction n generalizing c ls d with
  | zero => cases h
  | succ n ih =>
    rcases he : s.entries[c.position]? with _ | e
    · rw [outcome_membersFrom_end he] at h
      cases h
    cases hn : e.isNull with
    | true =>
      have hnull : s.NullAt c.position := ⟨e, he, hn⟩
      rw [outcome_membersFrom_null hnull] at h
      obtain ⟨rfl, -⟩ : [] = ls ∧ _ := by simpa using h
      exact ⟨[], _, .nil _, hnull, .nil⟩
    | false =>
      have he : s.EntryAt c.position e := ⟨he, hn⟩
      -- Behind an item that is not closed there is no null entry.
      have hitem : ∀ {m ks}, (s.membersFrom name resolve n).outcome
          { position := s.afterItem c.position e } = .ok (ks, m) →
          s.Siblings c.position [c.position] (s.afterItem c.position e) := by
        intro m ks hrest
        rcases siblings_afterItem he with hitem | ⟨-, hsize⟩
        · exact hitem
        · obtain ⟨js, r, hjs, hr, -⟩ := ih hrest
          have hle : s.afterItem c.position e ≤ r := hjs.le
          have := hr.lt_size
          omega
      by_cases ht : e.tag = .member
      · rcases hr : (resolve e).outcome (.behind c.position) with err | ⟨l, d'⟩
        · rw [outcome_membersFrom_error he ht hr] at h
          cases h
        rw [outcome_membersFrom_member (ha _ _ he) he ht hr] at h
        rcases hrest : (s.membersFrom name resolve n).outcome
            { position := s.afterItem c.position e } with err | ⟨ks, d''⟩
        · rw [hrest] at h
          cases h
        rw [hrest] at h
        obtain ⟨rfl, -⟩ : l :: ks = ls ∧ _ := by simpa [Except.map] using h
        obtain ⟨js, r, hjs, hnull, hall⟩ := ih hrest
        refine ⟨c.position :: js, r, (hitem hrest).trans hjs, hnull, ?_⟩
        rw [List.filter_cons_of_pos (by simp [memberAt_of_entryAt he, ht])]
        exact .cons ⟨e, he, _, _, hr⟩ hall
      · rw [outcome_membersFrom_other he ht] at h
        obtain ⟨js, r, hjs, hnull, hall⟩ := ih h
        refine ⟨c.position :: js, r, (hitem h).trans hjs, hnull, ?_⟩
        rwa [List.filter_cons_of_neg (by simp [memberAt_of_entryAt he, ht])]

/-! ## The members of an aggregate -/

theorem resolvesTo_of_within {limit depth : Nat} {l : Layout} (he : s.EntryAt j e)
    (hl : limit ≤ 2 * s.size + 2) (hd : depth ≤ s.size + 2)
    (h : (s.resolveWithin limit depth e).outcome c = .ok (l, d)) : s.ResolvesTo j l := by
  refine ⟨e, he, fun c' => ⟨d, Walk.outcome_eq_ok.mp ?_⟩⟩
  rw [outcome_resolveWithin_cursor e c c'] at h
  exact (resolveWithin_extendedBy hl hd e).ok h

theorem childrenAt_of_ok {l : Layout} (ha : s.Addressed) (hk : s.EndsAt e k) (ht : s.EntryAt k t)
    (hagg : t.tag.isAggregate = true) (h : (s.resolve e).outcome c = .ok (l, d)) :
    ∃ js, s.ChildrenAt k t js ∧ List.Forall₂ s.ResolvesTo (js.filter s.memberAt) l.members := by
  obtain ⟨he, layers, d', f, harrive, -, hmembers, -⟩ := outcome_resolveWithin_eq_ok.mp h
  obtain ⟨ranges, hk⟩ := hk
  have hreached := reached_arrive (show s.size ≤ 2 * s.size + 2 by omega) e c
  rw [hk] at hreached
  obtain ⟨name, t', ht', harrive'⟩ := hreached
  obtain rfl := ht.unique ht'
  obtain ⟨rfl, rfl⟩ : layers = _ ∧ d' = _ := by simpa [harrive] using harrive'
  unfold members at hmembers
  unfold ChildrenAt
  cases hc : t.children with
  | false =>
    obtain ⟨hnil, -⟩ : [] = l.members ∧ _ := by simpa [hc] using hmembers
    exact ⟨[], by simp, by rw [← hnil]; exact .nil⟩
  | true =>
    rw [if_pos (by simp [hagg, hc])] at hmembers
    obtain ⟨js, r, hjs, hr, hall⟩ := membersFrom_ok ha hmembers
    refine ⟨js, by simpa using ⟨r, hjs, hr⟩, hall.imp ?_⟩
    rintro j m ⟨member, hm, c', d', hok⟩
    exact resolvesTo_of_within hm (by omega) (by omega) hok

/-- In a built stream, or the start of one, the members of the layout of an aggregate are the
layouts of its immediate members, each once and in order. If the list of children is cut off or one
of the members has no layout, neither has the aggregate. -/
theorem resolve_members {b : Builder} (hb : b.Built)
    (hp : s.entries.toList <+: b.build.entries.toList) (hk : s.EndsAt e k) (ht : s.EntryAt k t)
    (hagg : t.tag.isAggregate = true) (c : Cursor) :
    (∀ l d, s.resolve e c = .ok l d → ∃ js, s.ChildrenAt k t js ∧
      List.Forall₂ s.ResolvesTo (js.filter s.memberAt) l.members) ∧
    ((∀ js, ¬ s.ChildrenAt k t js) ∨
        (∃ j m c' err d, s.MemberOf k t j m ∧ s.resolve m c' = .error err d) →
      ∃ err d, s.resolve e c = .error err d) := by
  have hok : ∀ l d, s.resolve e c = .ok l d → ∃ js, s.ChildrenAt k t js ∧
      List.Forall₂ s.ResolvesTo (js.filter s.memberAt) l.members := fun l d h =>
    childrenAt_of_ok (hb.addressed hp) hk ht hagg (Walk.outcome_eq_ok.mpr h)
  refine ⟨hok, fun hbad => ?_⟩
  rcases hres : s.resolve e c with ⟨l, d⟩ | ⟨err, d⟩
  · obtain ⟨js, hjs, hall⟩ := hok l d hres
    rcases hbad with hopen | ⟨j, m, c', err, d', ⟨hc, ⟨ks, hks⟩, hat, hm⟩, herr⟩
    · exact absurd hjs (hopen js)
    · -- The member is in the closed list, so it was resolved.
      obtain ⟨r', hjs, hnull⟩ : ∃ r, s.Siblings (k + 1) js r ∧ s.NullAt r := by
        simpa [ChildrenAt, hc] using hjs
      have hmem : j ∈ js.filter s.memberAt :=
        List.mem_filter.mpr ⟨hks.mem_closed hat hjs hnull, by simp [memberAt_of_entryAt hat, hm]⟩
      obtain ⟨i, hi, rfl⟩ := List.getElem_of_mem hmem
      obtain ⟨m', hat', hfrom⟩ := hall.get hi (by rwa [← hall.length_eq])
      obtain rfl := hat.unique hat'
      obtain ⟨d'', hok'⟩ := hfrom c'
      rw [hok'] at herr
      cases herr
  · exact ⟨err, d, rfl⟩

/-- A structure of two numbers, with a function between them. -/
def Builder.pair : Builder :=
  let int : Attr × AttrValue := (.type, .ref 12)
  ((((((({} : Builder).begin .compileUnit []).leaf .baseType [(.byteSize, .udata 4)]).begin
    .structureType [(.byteSize, .udata 8)]).leaf
    .member [(.name, .text "a"), int]).begin
    .subprogram []).leaf .formalParameter [int]).close.leaf
    .member [(.name, .text "b"), int, (.dataMemberLocation, .udata 4)]

theorem resolve_members_pair :
    let pair := Builder.pair.build
    let cut : Stream := ⟨(pair.entries.toList.take 3).toArray⟩
    (∃ l d, pair.resolve pair.entries[2]! {} = .ok l d ∧
      ∃ js, pair.ChildrenAt 2 pair.entries[2]! js ∧
        List.Forall₂ pair.ResolvesTo (js.filter pair.memberAt) l.members) ∧
    ∃ err d, cut.resolve pair.entries[2]! {} = .error err d := by
  have hok : ∃ l d, Builder.pair.build.resolve Builder.pair.build.entries[2]! {} = .ok l d :=
    ⟨_, _, rfl⟩
  intro pair cut
  have hb : Builder.pair.Built :=
    .leaf _ _ (by decide) <| .close <| .leaf _ _ (by decide) <| .begin _ _ (by decide) <|
      .leaf _ _ (by decide) <| .begin _ _ (by decide) <| .leaf _ _ (by decide) <|
      .begin _ _ (by decide) .empty
  have hpair : pair.EndsAt pair.entries[2]! 2 := ⟨[], by decide⟩
  have hcut : cut.EndsAt pair.entries[2]! 2 := ⟨[], by decide⟩
  constructor
  · obtain ⟨l, d, hok⟩ := hok
    exact ⟨l, d, hok, (resolve_members hb List.prefix_rfl hpair ⟨rfl, rfl⟩ rfl {}).1 l d hok⟩
  · refine (resolve_members hb (List.take_prefix 3 _) hcut ⟨rfl, rfl⟩ rfl {}).2 (.inl ?_)
    rintro js ⟨r, hjs, hr⟩
    have := hjs.le
    have hlt : r < 3 := hr.lt_size
    omega

end DwarfScope.Stream
