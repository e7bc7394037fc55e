import DwarfScope.Proofs.Stream.Enclosing

/-!
# Children

The listing of an entry has all of its immediate children and nothing from below them. If the
stream ends inside of the list, there is no listing at all.
-/

namespace DwarfScope.Stream

variable {s t : Stream} {i j k m p q : Nat} {js : List Nat} {e u v : Entry} {c : Cursor}

/-! ## Parents -/

theorem mem_iff_childOf (hu : s.EntryAt k u) (hc : u.children = true)
    (h : s.Siblings (k + 1) js m) (hm : s.NullAt m) : j ∈ js ↔ s.ChildOf k j := by
  constructor
  · intro hj
    obtain ⟨us, ws, rfl⟩ := List.append_of_mem hj
    obtain ⟨r, hus, hws⟩ := h.cut
    obtain ⟨rfl, hentry⟩ := hws.head
    exact ⟨⟨u, hu, hc⟩, ⟨us, hus⟩, hentry⟩
  · rintro ⟨-, ⟨us, hus⟩, x, hx⟩
    exact hus.mem_closed hx h hm

theorem Siblings.afterItem_le_end (h : s.Siblings p js q) (hpi : p ≤ i) (hiq : i < q)
    (he : s.EntryAt i e) : s.afterItem i e ≤ q := by
  induction h with
  | nil => omega
  | leaf he' hc hrest ih =>
    rcases Nat.eq_or_lt_of_le hpi with rfl | hlt
    · rw [he.unique he', afterItem_leaf hc]
      exact hrest.le
    · exact ih hlt hiq
  | @node p m q ks js e' he' hc hbelow hm hrest ihbelow ih =>
    have hmq := hrest.le
    rcases Nat.eq_or_lt_of_le hpi with rfl | hlt
    · rw [he.unique he', afterItem_node hc hbelow hm]
      exact hmq
    rcases Nat.lt_trichotomy i m with him | rfl | hmi
    · have := ihbelow hlt him
      omega
    · exact absurd hm he.not_null
    · exact ih hmi hiq

theorem ChildOf.parent_unique (h : s.ChildOf i k) (h' : s.ChildOf j k) : i = j := by
  have hnot : ∀ {a b}, s.ChildOf a k → s.ChildOf b k → ¬ a < b := by
    intro a b ha hb hab
    -- The entry at `b` ends behind `k`, but what begins before `k` below `a` ends before it.
    obtain ⟨js, hjs⟩ := ha.behind
    obtain ⟨y, hy, -⟩ := hb.parent
    obtain ⟨x, hx⟩ := ha.child
    obtain ⟨hbk, hle⟩ := hb.afterItem_le hy hx
    have := hjs.afterItem_le_end hab hbk hy
    have := s.lt_afterItem k x
    omega
  have := hnot h h'
  have := hnot h' h
  omega

theorem Siblings.mem_or_child (h : s.Siblings p js q) (hpi : p ≤ i) (hiq : i < q)
    (he : s.EntryAt i e) : i ∈ js ∨ ∃ j, s.ChildOf j i := by
  induction h with
  | nil => omega
  | leaf _ _ _ ih =>
    rcases Nat.eq_or_lt_of_le hpi with rfl | hlt
    · exact .inl List.mem_cons_self
    · exact (ih hlt hiq).imp_left (List.mem_cons_of_mem _)
  | @node p m q ks js _ he' hc hbelow hm _ ihbelow ih =>
    rcases Nat.eq_or_lt_of_le hpi with rfl | hlt
    · exact .inl List.mem_cons_self
    rcases Nat.lt_trichotomy i m with him | rfl | hmi
    · rcases ihbelow hlt him with hi | hi
      · exact .inr ⟨p, (mem_iff_childOf he' hc hbelow hm).mp hi⟩
      · exact .inr hi
    · exact absurd hm he.not_null
    · exact (ih hmi hiq).imp_left (List.mem_cons_of_mem _)

theorem afterItem_le_of_no_parent (hv : s.EntryAt j v)
    (hclosed : v.children = true → s.Closed (j + 1)) (hu : s.EntryAt k u)
    (hroot : ∀ i, ¬ s.ChildOf i k) (hjk : j < k) : s.afterItem j v ≤ k := by
  cases hc : v.children with
  | false =>
    rw [afterItem_leaf hc]
    exact hjk
  | true =>
    obtain ⟨ks, m, hks, hm⟩ := hclosed hc
    rw [afterItem_node hc hks hm]
    rcases Nat.lt_trichotomy k m with hkm | rfl | hmk
    · rcases hks.mem_or_child hjk hkm hu with hk | ⟨i, hi⟩
      · exact absurd ((mem_iff_childOf hv hc hks hm).mp hk) (hroot j)
      · exact absurd hi (hroot i)
    · exact absurd hm hu.not_null
    · exact hmk

/-! ## The start of a stream -/

theorem continues_of_prefix (h : s.entries.toList <+: t.entries.toList) : s.Continues t := by
  intro i e he
  rw [← Array.getElem?_toList] at he ⊢
  obtain ⟨hi, rfl⟩ := List.getElem?_eq_some_iff.mp he
  rw [List.getElem?_eq_getElem (Nat.lt_of_lt_of_le hi h.length_le), h.getElem hi]

theorem Continues.getElem? (h : s.Continues t) (hi : i < s.size) :
    s.entries[i]? = t.entries[i]? := by
  have hget : s.entries[i]? = some s.entries[i] := Array.getElem?_eq_getElem hi
  rw [hget, h i _ hget]

theorem EntryAt.cut (h : t.EntryAt i e) (ht : s.Continues t) (hi : i < s.size) : s.EntryAt i e :=
  ⟨(ht.getElem? hi).trans h.get, h.nonnull⟩

theorem NullAt.cut (h : t.NullAt i) (ht : s.Continues t) (hi : i < s.size) : s.NullAt i := by
  obtain ⟨e, he, hn⟩ := h
  exact ⟨e, (ht.getElem? hi).trans he, hn⟩

theorem Siblings.of_continues (h : t.Siblings p js q) (ht : s.Continues t) (hq : q ≤ s.size) :
    s.Siblings p js q := by
  induction h with
  | nil => exact .nil _
  | leaf he hc hrest ih =>
    have := hrest.le
    exact .leaf (he.cut ht (by omega)) hc (ih hq)
  | node he hc hbelow hm hrest ihbelow ih =>
    have := hbelow.le
    have := hrest.le
    exact .node (he.cut ht (by omega)) hc (ihbelow (by omega)) (hm.cut ht (by omega)) (ih hq)

/-! ## Listings that are cut off -/

theorem not_closed_afterItem (he : s.EntryAt p e) (h : ¬ s.Closed p) :
    ¬ s.Closed (s.afterItem p e) := by
  rintro ⟨js, r, hjs, hr⟩
  rcases siblings_afterItem he with hitem | ⟨-, hsize⟩
  · exact h ⟨_, r, hitem.trans hjs, hr⟩
  · have := hjs.le
    have := hr.lt_size
    omega

theorem outcome_childrenFrom_open (label : String) (p : Entry → Bool) (n : Nat)
    (h : ¬ s.Closed c.position) :
    (s.childrenFrom label p n).outcome c = .error (Error.layout (.truncated label)) := by
  induction n generalizing c with
  | zero => rfl
  | succ n ih =>
    unfold childrenFrom
    rcases he : s.entries[c.position]? with _ | e
    · rw [Walk.outcome_bind_of_ok (outcome_next_none he)]
      rfl
    rw [Walk.outcome_bind_of_ok (outcome_next_some he)]
    cases hn : e.isNull with
    | true => exact absurd ⟨[], c.position, .nil _, e, he, hn⟩ h
    | false =>
      have hrest := ih (c := { position := s.afterItem c.position e })
        (not_closed_afterItem ⟨he, hn⟩ h)
      simp only [hn, Bool.false_eq_true, if_false]
      rw [Walk.outcome_bind_of_ok (outcome_skipChildren he), Walk.outcome_bind_of_error hrest]

theorem children_of_not_closed (ha : s.Addressed) (hu : s.EntryAt k u) (hc : u.children = true)
    (h : ¬ s.Closed (k + 1)) (p : Entry → Bool) (c : Cursor) :
    ∃ d, s.children u p c = .error (Error.layout (.truncated u.label)) d := by
  rw [← Walk.outcome_eq_error, outcome_children ha hu, if_pos hc]
  exact outcome_childrenFrom_open (c := .behind k) u.label p (s.size + 1) h

/-! ## Listings in the start of a built stream -/

/-- The list of children that an entry has in the whole stream. -/
structure ListAt (s : Stream) (k : Nat) (js : List Nat) (m : Nat) : Prop where
  children : ∀ j, j ∈ js ↔ s.ChildOf k j
  notBelow : ∀ j ∈ js, ∀ i, s.ChildOf i j → i = k
  inOrder : js.Pairwise (· < ·)
  /-- Behind the children, and all that is below them, is the null entry that closes the list. -/
  siblings : s.Siblings (k + 1) js m
  closing : s.NullAt m

theorem Builder.Built.exists_listAt {b : Builder} (hb : b.Built) (hu : b.build.EntryAt k u)
    (hc : u.children = true) : ∃ js m, b.build.ListAt k js m := by
  obtain ⟨js, m, hjs, hm⟩ := hb.tidy.closed hu hc
  have hmem : ∀ j, j ∈ js ↔ b.build.ChildOf k j := fun j => mem_iff_childOf hu hc hjs hm
  have hnot : ∀ j ∈ js, ∀ i, b.build.ChildOf i j → i = k :=
    fun j hj i hi => hi.parent_unique ((hmem j).mp hj)
  exact ⟨js, m, hmem, hnot, hjs.pairwise_lt.2, hjs, hm⟩

/-- In a built stream, or the start of one, the listing of an entry has exactly those of its
immediate children that satisfy the predicate, each once and in order, and the cursor has just
passed the null entry behind them. If this null entry has been cut off, there is no listing. -/
theorem children_exact {b : Builder} (hb : b.Built)
    (hp : s.entries.toList <+: b.build.entries.toList) (hu : s.EntryAt k u) (p : Entry → Bool)
    (c : Cursor) :
    (u.children = false → s.children u p c = .ok [] (.behind k)) ∧
    (u.children = true → ∃ js m, b.build.ListAt k js m ∧
      (m < s.size → s.children u p c = .ok ((s.entriesAt js).filter p) (.behind m)) ∧
      (s.size ≤ m → ∃ d, s.children u p c = .error (Error.layout (.truncated u.label)) d)) := by
  have ha := hb.addressed hp
  have hcontinues := continues_of_prefix hp
  constructor
  · intro hc
    rw [← Walk.outcome_eq_ok, outcome_children ha hu, hc]
    rfl
  · intro hc
    obtain ⟨js, m, hlist⟩ := hb.exists_listAt (hu.continues hcontinues) hc
    refine ⟨js, m, hlist, fun hm => ?_, fun hm => ?_⟩
    · have hjs := hlist.siblings.of_continues hcontinues (Nat.le_of_lt hm)
      exact children_of_closed ha hu hc hjs (hlist.closing.cut hcontinues hm) p c
    · apply children_of_not_closed ha hu hc
      rintro ⟨ks, r, hks, hr⟩
      -- A list that is closed in the start is the one of the whole stream.
      have hend := (hks.continues hcontinues).end_unique (hr.continues hcontinues)
        hlist.siblings hlist.closing
      have := hr.lt_size
      omega

/-- In the stream of numbers the second unit has one child. If the last null entry is cut off, the
null entry before it closes the list of the child, and that of the unit stays open. -/
theorem children_exact_numbers :
    let s := Builder.numbers.build
    let cut : Stream := ⟨(s.entries.toList.take 8).toArray⟩
    let u := s.entries[4]!
    s.children u (fun _ => true) {} = .ok [s.entries[5]!] (.behind 8) ∧
    ∃ d, cut.children u (fun _ => true) {} = .error (Error.layout (.truncated u.label)) d := by
  intro s cut u
  have hb := Builder.numbers_built
  have hbelow : s.Siblings 6 [6] 7 := .leaf (e := s.entries[6]!) ⟨rfl, rfl⟩ rfl (.nil 7)
  have hsub : s.EntryAt 5 s.entries[5]! := ⟨rfl, rfl⟩
  have hchildren : s.Siblings 5 [5] 8 := .node hsub rfl hbelow ⟨.null, rfl, rfl⟩ (.nil 8)
  have hclosing : s.NullAt 8 := ⟨.null, rfl, rfl⟩
  constructor
  · obtain ⟨js, m, hlist, hok, -⟩ :=
      (children_exact hb List.prefix_rfl (k := 4) (u := u) ⟨rfl, rfl⟩
        (fun _ => true) {}).2 rfl
    obtain rfl := hlist.siblings.end_unique hlist.closing hchildren hclosing
    obtain rfl := hlist.siblings.unique hlist.closing hchildren hclosing
    exact hok (by decide)
  · obtain ⟨js, m, hlist, -, hopen⟩ :=
      (children_exact (s := cut) hb (List.take_prefix 8 _) (k := 4) (u := u) ⟨rfl, rfl⟩
        (fun _ => true) {}).2 rfl
    obtain rfl := hlist.siblings.end_unique hlist.closing hchildren hclosing
    exact hopen (by decide)

end DwarfScope.Stream
