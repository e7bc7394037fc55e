import DwarfScope.Proofs.Walk

/-!
# Lists of children

A stream is a tree in preorder. `Siblings` reads the tree off the entries: an entry without
children stands alone, any other is followed by the list of its children and the null entry that
closes it. `skipChildren` follows this tree, also where the stream ends inside of a list.
-/

namespace DwarfScope.Stream

/-- An entry that is not null stands at an index. -/
structure EntryAt (s : Stream) (i : Nat) (e : Entry) : Prop where
  get : s.entries[i]? = some e
  nonnull : e.isNull = false

def NullAt (s : Stream) (i : Nat) : Prop := ∃ e, s.entries[i]? = some e ∧ e.isNull = true

/-- The entries at the indices, each with everything below it, are what stands from `p` up to
`q`. -/
inductive Siblings (s : Stream) : Nat → List Nat → Nat → Prop
  | nil (p : Nat) : Siblings s p [] p
  | leaf {p q : Nat} {js : List Nat} {e : Entry} : s.EntryAt p e → e.children = false →
      Siblings s (p + 1) js q → Siblings s p (p :: js) q
  | node {p m q : Nat} {ks js : List Nat} {e : Entry} : s.EntryAt p e → e.children = true →
      Siblings s (p + 1) ks m → s.NullAt m → Siblings s (m + 1) js q → Siblings s p (p :: js) q

def Closed (s : Stream) (p : Nat) : Prop := ∃ js r, s.Siblings p js r ∧ s.NullAt r

variable {s : Stream} {p q i : Nat} {js : List Nat} {e : Entry}

theorem NullAt.lt_size (h : s.NullAt i) : i < s.size := by
  obtain ⟨e, he, -⟩ := h
  exact (Array.getElem?_eq_some_iff.mp he).1

theorem EntryAt.lt_size (h : s.EntryAt i e) : i < s.size :=
  (Array.getElem?_eq_some_iff.mp h.get).1

theorem EntryAt.unique {e' : Entry} (h : s.EntryAt i e) (h' : s.EntryAt i e') : e = e' :=
  Option.some.inj (h.get.symm.trans h'.get)

theorem Siblings.le (h : s.Siblings p js q) : p ≤ q := by
  induction h with
  | nil => exact Nat.le_refl _
  | leaf => omega
  | node => omega

theorem Siblings.length_le (h : s.Siblings p js q) : js.length ≤ q - p := by
  induction h with
  | nil => simp
  | leaf _ _ hrest ih =>
    have := hrest.le
    simp only [List.length_cons]
    omega
  | node _ _ hbelow _ hrest _ ih =>
    have := hbelow.le
    have := hrest.le
    simp only [List.length_cons]
    omega

theorem Siblings.le_size (h : s.Siblings p js q) (hp : p ≤ s.size) : q ≤ s.size := by
  induction h with
  | nil => exact hp
  | leaf he _ _ ih => exact ih he.lt_size
  | node _ _ _ hnull _ _ ih => exact ih hnull.lt_size

theorem Siblings.trans {ks : List Nat} {r : Nat} (h : s.Siblings p js q)
    (h' : s.Siblings q ks r) : s.Siblings p (js ++ ks) r := by
  induction h with
  | nil => exact h'
  | leaf he hc _ ih => exact .leaf he hc (ih h')
  | node he hc hbelow hnull _ _ ih => exact .node he hc hbelow hnull (ih h')

theorem Siblings.head {j : Nat} (h : s.Siblings p (j :: js) q) : p = j ∧ ∃ e, s.EntryAt j e := by
  cases h with
  | leaf he => exact ⟨rfl, _, he⟩
  | node he => exact ⟨rfl, _, he⟩

theorem Siblings.cut {us ws : List Nat} (h : s.Siblings p (us ++ ws) q) :
    ∃ m, s.Siblings p us m ∧ s.Siblings m ws q := by
  induction us generalizing p with
  | nil => exact ⟨p, .nil p, h⟩
  | cons u us ih =>
    cases h with
    | leaf he hc hrest =>
      obtain ⟨m, hus, hws⟩ := ih hrest
      exact ⟨m, .leaf he hc hus, hws⟩
    | node he hc hbelow hnull hrest =>
      obtain ⟨m, hus, hws⟩ := ih hrest
      exact ⟨m, .node he hc hbelow hnull hus, hws⟩

/-! ## Skipping -/

theorem closing_entry {depth n : Nat} (he : s.EntryAt p e) :
    s.closing depth (n + 1) p =
      s.closing (if e.children then depth + 1 else depth) n (p + 1) := by
  simp [closing, he.get, he.nonnull]

theorem closing_null {depth n : Nat} (h : s.NullAt p) :
    s.closing (depth + 1) (n + 1) p = s.closing depth n (p + 1) := by
  obtain ⟨e, he, hn⟩ := h
  simp [closing, he, hn]

theorem closing_null_zero {n : Nat} (h : s.NullAt p) : s.closing 0 (n + 1) p = p + 1 := by
  obtain ⟨e, he, hn⟩ := h
  simp [closing, he, hn]

theorem Siblings.closing_eq (h : s.Siblings p js q) :
    ∀ depth n, s.closing depth (n + (q - p)) p = s.closing depth n q := by
  induction h with
  | nil => simp
  | @leaf p q js e he hc hrest ih =>
    intro depth n
    have := hrest.le
    rw [show n + (q - p) = n + (q - (p + 1)) + 1 by omega, closing_entry he,
      if_neg (by simp [hc]), ih]
  | @node p m q ks js e he hc hbelow hnull hrest ihbelow ih =>
    intro depth n
    have := hbelow.le
    have := hrest.le
    rw [show n + (q - p) = n + (q - m) + (m - (p + 1)) + 1 by omega, closing_entry he,
      if_pos hc, ihbelow, show n + (q - m) = n + (q - (m + 1)) + 1 by omega, closing_null hnull, ih]

theorem closing_of_not_closed (depth : Nat) (hp : p ≤ s.size) (h : ¬ s.Closed p) :
    s.closing depth (s.size - p) p = s.size := by
  induction hm : s.size - p using Nat.strongRecOn generalizing p depth with
  | ind m ih =>
    subst hm
    rcases he : s.entries[p]? with _ | e
    · have : s.size ≤ p := Array.getElem?_eq_none_iff.mp he
      rw [show s.size - p = 0 by omega]
      simp only [closing]
      omega
    cases hn : e.isNull with
    | true => exact absurd ⟨[], p, .nil p, e, he, hn⟩ h
    | false =>
      have he : s.EntryAt p e := ⟨he, hn⟩
      have hlt := he.lt_size
      rw [show s.size - p = s.size - (p + 1) + 1 by omega, closing_entry he]
      cases hc : e.children with
      | false =>
        have hrest : ¬ s.Closed (p + 1) := fun ⟨js, r, hjs, hr⟩ =>
          h ⟨p :: js, r, .leaf he hc hjs, hr⟩
        exact ih _ (by omega) depth (by omega) hrest rfl
      | true =>
        by_cases hbelow : s.Closed (p + 1)
        · -- The children are closed, so it is the list behind them that is not.
          obtain ⟨ks, m, hks, hm⟩ := hbelow
          have := hks.le
          have hms := hm.lt_size
          have hrest : ¬ s.Closed (m + 1) := fun ⟨js, r, hjs, hr⟩ =>
            h ⟨p :: js, r, .node he hc hks hm hjs, hr⟩
          rw [if_pos rfl, show s.size - (p + 1) = s.size - m + (m - (p + 1)) by omega,
            hks.closing_eq, show s.size - m = s.size - (m + 1) + 1 by omega, closing_null hm]
          exact ih _ (by omega) depth (by omega) hrest rfl
        · -- They are not closed either, and one more list is open in front of them.
          exact ih _ (by omega) (depth + 1) (by omega) hbelow rfl

/-! ## There is one way to read a list -/

theorem Siblings.end_unique {ks : List Nat} {r : Nat} (h : s.Siblings p js q) (hq : s.NullAt q)
    (h' : s.Siblings p ks r) (hr : s.NullAt r) : q = r := by
  have hlt := hq.lt_size
  have hlt' := hr.lt_size
  have := h.le
  have := h'.le
  have hq' : s.closing 0 (s.size - p) p = q + 1 := by
    rw [show s.size - p = s.size - (q + 1) + 1 + (q - p) by omega, h.closing_eq,
      closing_null_zero hq]
  have hr' : s.closing 0 (s.size - p) p = r + 1 := by
    rw [show s.size - p = s.size - (r + 1) + 1 + (r - p) by omega, h'.closing_eq,
      closing_null_zero hr]
  omega

theorem EntryAt.not_null (h : s.EntryAt i e) : ¬ s.NullAt i := by
  rintro ⟨e', he', hn⟩
  obtain rfl : e = e' := Option.some.inj (h.get.symm.trans he')
  simp [h.nonnull] at hn

theorem Siblings.unique {r : Nat} {is : List Nat} (h : s.Siblings p js q) (hq : s.NullAt q)
    (h' : s.Siblings p is r) (hr : s.NullAt r) : js = is := by
  induction h generalizing is with
  | nil =>
    cases h' with
    | nil => rfl
    | leaf he => exact absurd hq he.not_null
    | node he => exact absurd hq he.not_null
  | leaf he hc _ ih =>
    cases h' with
    | nil => exact absurd hr he.not_null
    | leaf _ _ hrest' => rw [ih hq hrest']
    | node he' hc' => simp [he.unique he', hc'] at hc
  | node he hc hbelow hm _ _ ih =>
    cases h' with
    | nil => exact absurd hr he.not_null
    | leaf he' hc' => simp [he.unique he', hc'] at hc
    | node _ _ hbelow' hm' hrest' =>
      obtain rfl := hbelow.end_unique hm hbelow' hm'
      rw [ih hq hrest']

theorem Siblings.pairwise_lt (h : s.Siblings p js q) :
    (∀ j ∈ js, p ≤ j) ∧ js.Pairwise (· < ·) := by
  induction h with
  | nil => simp
  | leaf _ _ _ ih =>
    obtain ⟨hle, hlt⟩ := ih
    refine ⟨fun j hj => ?_, List.pairwise_cons.mpr ⟨hle, hlt⟩⟩
    rcases List.mem_cons.mp hj with rfl | hj
    · exact Nat.le_refl _
    · exact Nat.le_of_succ_le (hle j hj)
  | node _ _ hbelow _ _ _ ih =>
    obtain ⟨hle, hlt⟩ := ih
    have hpm := hbelow.le
    refine ⟨fun j hj => ?_, List.pairwise_cons.mpr ⟨fun j hj => ?_, hlt⟩⟩
    · rcases List.mem_cons.mp hj with rfl | hj
      · exact Nat.le_refl _
      · have := hle j hj
        omega
    · have := hle j hj
      omega

theorem Siblings.mem_closed {ks : List Nat} {j r : Nat} (h : s.Siblings p js j)
    (hj : s.EntryAt j e) (h' : s.Siblings p ks r) (hr : s.NullAt r) : j ∈ ks := by
  induction h generalizing ks with
  | nil =>
    cases h' with
    | nil => exact absurd hr hj.not_null
    | leaf => exact List.mem_cons_self
    | node => exact List.mem_cons_self
  | leaf he hc _ ih =>
    cases h' with
    | nil => exact absurd hr he.not_null
    | leaf _ _ hrest' => exact List.mem_cons_of_mem _ (ih hj hrest')
    | node he' hc' => simp [he.unique he', hc'] at hc
  | node he hc hbelow hm _ _ ih =>
    cases h' with
    | nil => exact absurd hr he.not_null
    | leaf he' hc' => simp [he.unique he', hc'] at hc
    | node _ _ hbelow' hm' hrest' =>
      obtain rfl := hbelow.end_unique hm hbelow' hm'
      exact List.mem_cons_of_mem _ (ih hj hrest')

/-! ## Where an item ends -/

theorem afterItem_leaf (hc : e.children = false) : s.afterItem i e = i + 1 := by
  simp [afterItem, hc]

theorem afterItem_node {m : Nat} (hc : e.children = true) (h : s.Siblings (i + 1) js m)
    (hm : s.NullAt m) : s.afterItem i e = m + 1 := by
  have := h.le
  have := hm.lt_size
  simp only [afterItem, hc, if_true]
  rw [show s.size - (i + 1) = s.size - (m + 1) + 1 + (m - (i + 1)) by omega, h.closing_eq,
    closing_null_zero hm]

theorem afterItem_not_closed (hi : i < s.size) (hc : e.children = true)
    (h : ¬ s.Closed (i + 1)) : s.afterItem i e = s.size := by
  simp only [afterItem, hc, if_true]
  exact closing_of_not_closed 0 hi h

theorem siblings_afterItem (he : s.EntryAt p e) :
    s.Siblings p [p] (s.afterItem p e) ∨ e.children = true ∧ s.afterItem p e = s.size := by
  cases hc : e.children with
  | false =>
    left
    rw [afterItem_leaf hc]
    exact .leaf he hc (.nil _)
  | true =>
    by_cases h : s.Closed (p + 1)
    · obtain ⟨ks, m, hks, hm⟩ := h
      left
      rw [afterItem_node hc hks hm]
      exact .node he hc hks hm (.nil _)
    · right
      exact ⟨rfl, afterItem_not_closed he.lt_size hc h⟩

end DwarfScope.Stream
