import DwarfScope.Proofs.Stream.Forest
import DwarfScope.Proofs.Stream.Search

/-!
# Listings

Which entries the listings of compile units and of children go through, from every cursor.
-/

namespace DwarfScope.Stream

open Effect

variable {s : Stream} {i k n q : Nat} {js : List Nat} {e u : Entry} {us : List Entry}
  {c d : Cursor}

/-! ## Children -/

def entriesAt (s : Stream) (js : List Nat) : List Entry := js.filterMap (s.entries[·]?)

theorem mem_entriesAt : e ∈ s.entriesAt js ↔ ∃ j ∈ js, s.entries[j]? = some e := by
  simp [entriesAt]

theorem entriesAt_cons (he : s.EntryAt i e) : s.entriesAt (i :: js) = e :: s.entriesAt js := by
  simp [entriesAt, he.get]

theorem outcome_childrenFrom_null {label : String} {p : Entry → Bool} (h : s.NullAt c.position) :
    (s.childrenFrom label p (n + 1)).outcome c = .ok ([], .behind c.position) := by
  obtain ⟨e, he, hnull⟩ := h
  unfold childrenFrom
  rw [Walk.outcome_bind_of_ok (outcome_next_some he)]
  simp only [hnull, if_true]
  rfl

theorem outcome_childrenFrom_entry {label : String} {p : Entry → Bool} {es : List Entry}
    {d : Cursor} (he : s.EntryAt c.position e)
    (hrest : (s.childrenFrom label p n).outcome { position := s.afterItem c.position e } =
      .ok (es.filter p, d)) :
    (s.childrenFrom label p (n + 1)).outcome c = .ok ((e :: es).filter p, d) := by
  unfold childrenFrom
  rw [Walk.outcome_bind_of_ok (outcome_next_some he.get)]
  simp only [he.nonnull, Bool.false_eq_true, if_false]
  rw [Walk.outcome_bind_of_ok (outcome_skipChildren he.get), Walk.outcome_bind_of_ok hrest,
    List.filter_cons]
  rfl

theorem outcome_childrenFrom (label : String) (p : Entry → Bool) (h : s.Siblings c.position js q)
    (hq : s.NullAt q) (hn : js.length < n) :
    (s.childrenFrom label p n).outcome c = .ok ((s.entriesAt js).filter p, .behind q) := by
  obtain ⟨n, rfl⟩ : ∃ m, n = m + 1 := ⟨n - 1, by omega⟩
  generalize hposition : c.position = i at h
  induction h generalizing c n with
  | nil =>
    subst hposition
    exact outcome_childrenFrom_null hq
  | leaf he hc _ ih =>
    subst hposition
    rw [List.length_cons] at hn
    obtain ⟨n, rfl⟩ : ∃ m, n = m + 1 := ⟨n - 1, by omega⟩
    have hrest := ih (c := { position := c.position + 1 }) hq n (by omega) rfl
    rw [entriesAt_cons he]
    apply outcome_childrenFrom_entry he
    rw [afterItem_leaf hc]
    exact hrest
  | @node _ m _ _ _ _ he hc hbelow hm _ _ ih =>
    subst hposition
    rw [List.length_cons] at hn
    obtain ⟨n, rfl⟩ : ∃ m, n = m + 1 := ⟨n - 1, by omega⟩
    have hrest := ih (c := { position := m + 1 }) hq n (by omega) rfl
    rw [entriesAt_cons he]
    apply outcome_childrenFrom_entry he
    rw [afterItem_node hc hbelow hm]
    exact hrest

theorem outcome_children (ha : s.Addressed) (hu : s.EntryAt k u) (p : Entry → Bool) (c : Cursor) :
    (s.children u p).outcome c =
      if u.children then (s.childrenFrom u.label p (s.size + 1)).outcome (.behind k)
      else .ok ([], .behind k) := by
  unfold children
  rw [Walk.outcome_bind_of_ok (outcome_seek (ha k u hu)),
    Walk.outcome_bind_of_ok (outcome_next_some hu.get)]
  split
  · rfl
  · rfl

/-- The listing of an entry has exactly those of its immediate children that satisfy `p`, in
order. -/
theorem children_of_closed (ha : s.Addressed) (hu : s.EntryAt k u) (hc : u.children = true)
    (h : s.Siblings (k + 1) js q) (hq : s.NullAt q) (p : Entry → Bool) (c : Cursor) :
    s.children u p c = .ok ((s.entriesAt js).filter p) (.behind q) := by
  have hlength : js.length < s.size + 1 := by
    have := h.length_le
    have := hq.lt_size
    omega
  rw [← Walk.outcome_eq_ok, outcome_children ha hu, if_pos hc]
  exact outcome_childrenFrom (c := .behind k) u.label p h hq hlength

theorem of_mem_childrenFrom {label : String} {p : Entry → Bool} {es : List Entry}
    (h : s.childrenFrom label p n c = .ok es d) (he : e ∈ es) : p e = true := by
  induction n generalizing c d es with
  | zero => cases h
  | succ n ih =>
    simp only [childrenFrom, bind_eq_ok] at h
    obtain ⟨x?, c', -, h⟩ := h
    rcases x? with _ | x
    · cases h
    dsimp only at h
    split at h
    · obtain ⟨rfl, -⟩ := pure_eq_ok.mp h
      cases he
    · simp only [bind_eq_ok, pure_eq_ok] at h
      obtain ⟨-, c'', -, others, d', hothers, rfl, -⟩ := h
      split at he
      · rename_i hx
        rcases List.mem_cons.mp he with rfl | he
        · exact hx
        · exact ih hothers he
      · exact ih hothers he

theorem of_mem_children {p : Entry → Bool} {es : List Entry} (h : s.children u p c = .ok es d)
    (he : e ∈ es) : p e = true := by
  simp only [children, bind_eq_ok] at h
  obtain ⟨-, c', -, -, c'', -, h⟩ := h
  split at h
  · exact of_mem_childrenFrom h he
  · obtain ⟨rfl, -⟩ := pure_eq_ok.mp h
    cases he

/-! ## Compile units -/

theorem le_closing (depth n p : Nat) : p ≤ s.closing depth n p := by
  induction n generalizing depth p with
  | zero => exact Nat.le_refl p
  | succ n ih =>
    unfold closing
    split
    · exact Nat.le_refl p
    · split
      · split
        · omega
        · exact Nat.le_of_succ_le (ih _ (p + 1))
      · exact Nat.le_of_succ_le (ih _ (p + 1))

theorem lt_afterItem (i : Nat) (e : Entry) : i < s.afterItem i e := by
  unfold afterItem
  split
  · exact le_closing _ _ _
  · exact Nat.lt_succ_self i

/-- From `p` on the listing comes to the compile units at the indices. Behind each of them it goes
on where its item ends. -/
inductive Visits (s : Stream) : Nat → List Nat → Prop
  | done {p : Nat} : s.size ≤ p → Visits s p []
  | other {p : Nat} {js : List Nat} {e : Entry} : s.entries[p]? = some e → e.tag ≠ .compileUnit →
      Visits s (p + 1) js → Visits s p js
  | unit {p : Nat} {js : List Nat} {e : Entry} : s.EntryAt p e → e.tag = .compileUnit →
      Visits s (s.afterItem p e) js → Visits s p (p :: js)

theorem outcome_unitsFrom (hn : s.size < c.position + n) :
    ∃ js d, s.Visits c.position js ∧ (s.unitsFrom n).outcome c = .ok (s.entriesAt js, d) := by
  induction n generalizing c with
  | zero => exact ⟨[], c, .done (Nat.le_of_lt hn), rfl⟩
  | succ n ih =>
    unfold unitsFrom
    cases he : s.entries[c.position]? with
    | none =>
      refine ⟨[], { c with last := none }, .done (Array.getElem?_eq_none_iff.mp he), ?_⟩
      rw [Walk.outcome_bind_of_ok (outcome_next_none he)]
      rfl
    | some e =>
      by_cases htag : e.tag = .compileUnit
      · have hunit : s.EntryAt c.position e := ⟨he, by simp [Entry.isNull, htag]⟩
        have hbehind := s.lt_afterItem c.position e
        obtain ⟨js, d, hjs, hus⟩ :=
          ih (c := { position := s.afterItem c.position e }) (by dsimp only; omega)
        refine ⟨c.position :: js, d, .unit hunit htag hjs, ?_⟩
        rw [Walk.outcome_bind_of_ok (outcome_next_some he)]
        simp only [htag, if_true]
        rw [Walk.outcome_bind_of_ok (outcome_skipChildren he), Walk.outcome_bind_of_ok hus,
          entriesAt_cons hunit]
        rfl
      · obtain ⟨js, d, hjs, hus⟩ := ih (c := .behind c.position) (by
          rw [Cursor.behind_position]
          omega)
        refine ⟨js, d, .other he htag hjs, ?_⟩
        rw [Walk.outcome_bind_of_ok (outcome_next_some he)]
        simp only [htag, if_false]
        exact hus

theorem exists_visits (s : Stream) :
    ∃ js, s.Visits 0 js ∧ ∀ c, ∃ d, s.compileUnits c = .ok (s.entriesAt js) d := by
  obtain ⟨js, d, hjs, hus⟩ :=
    outcome_unitsFrom (s := s) (c := {}) (n := s.size + 1) (by dsimp only; omega)
  exact ⟨js, hjs, fun c => ⟨d, Walk.outcome_eq_ok.mp hus⟩⟩

namespace Visits

theorem le (h : s.Visits i js) (hk : k ∈ js) : i ≤ k := by
  induction h with
  | done => cases hk
  | other _ _ _ ih =>
    have := ih hk
    omega
  | @unit p js e _ _ _ ih =>
    have := s.lt_afterItem p e
    rcases List.mem_cons.mp hk with rfl | hk
    · exact Nat.le_refl _
    · have := ih hk
      omega

theorem unitAt (h : s.Visits i js) (hk : k ∈ js) : ∃ u, s.EntryAt k u ∧ u.tag = .compileUnit := by
  induction h with
  | done => cases hk
  | other _ _ _ ih => exact ih hk
  | unit hunit htag _ ih =>
    rcases List.mem_cons.mp hk with rfl | hk
    · exact ⟨_, hunit, htag⟩
    · exact ih hk

theorem sorted (h : s.Visits i js) : js.Pairwise (· < ·) := by
  induction h with
  | done => exact .nil
  | other _ _ _ ih => exact ih
  | unit _ _ hrest ih =>
    exact .cons (fun k hk => Nat.lt_of_lt_of_le (s.lt_afterItem _ _) (hrest.le hk)) ih

theorem afterItem_le {j : Nat} (h : s.Visits i js) (hj : j ∈ js) (hk : k ∈ js) (hlt : j < k)
    (hu : s.EntryAt j u) : s.afterItem j u ≤ k := by
  induction h with
  | done => cases hj
  | other _ _ _ ih => exact ih hj hk
  | @unit p js e hunit _ hrest ih =>
    have hbehind := s.lt_afterItem p e
    rcases List.mem_cons.mp hk with rfl | hk'
    · rcases List.mem_cons.mp hj with rfl | hj'
      · omega
      · have := hrest.le hj'
        omega
    · rcases List.mem_cons.mp hj with rfl | hj'
      · rw [hu.unique hunit]
        exact hrest.le hk'
      · exact ih hj' hk'

theorem mem_or_inside (h : s.Visits i js) (hk : i ≤ k) (hu : s.EntryAt k u)
    (htag : u.tag = .compileUnit) :
    k ∈ js ∨ ∃ j ∈ js, ∃ v, s.EntryAt j v ∧ j < k ∧ k < s.afterItem j v := by
  induction h with
  | done hsize =>
    have := hu.lt_size
    omega
  | other he hother _ ih =>
    rcases Nat.eq_or_lt_of_le hk with rfl | hlt
    · obtain rfl := Option.some.inj (he.symm.trans hu.get)
      exact absurd htag hother
    · exact ih hlt
  | @unit p js e hunit _ _ ih =>
    rcases Nat.eq_or_lt_of_le hk with rfl | hlt
    · exact .inl List.mem_cons_self
    rcases Nat.lt_or_ge k (s.afterItem p e) with hinside | hbehind
    · exact .inr ⟨p, List.mem_cons_self, e, hunit, hlt, hinside⟩
    · rcases ih hbehind with hmem | ⟨j, hj, hinside⟩
      · exact .inl (List.mem_cons_of_mem p hmem)
      · exact .inr ⟨j, List.mem_cons_of_mem p hj, hinside⟩

end Visits

theorem mem_compileUnits (h : s.compileUnits c = .ok us d) (hu : u ∈ us) :
    ∃ k, s.EntryAt k u ∧ u.tag = .compileUnit := by
  obtain ⟨js, hjs, hlisted⟩ := s.exists_visits
  obtain ⟨d', hd'⟩ := hlisted c
  obtain ⟨rfl, -⟩ := EStateM.Result.ok.inj (h.symm.trans hd')
  obtain ⟨k, hk, hget⟩ := mem_entriesAt.mp hu
  obtain ⟨v, hv, htag⟩ := hjs.unitAt hk
  obtain rfl := Option.some.inj (hget.symm.trans hv.get)
  exact ⟨k, hv, htag⟩

theorem exists_compileUnits_of_apart
    (hapart : ∀ j v k u, s.EntryAt j v → v.tag = .compileUnit → s.EntryAt k u →
      u.tag = .compileUnit → j < k → s.afterItem j v ≤ k) (c : Cursor) :
    ∃ us d, s.compileUnits c = .ok us d ∧
      (∀ u ∈ us, ∃ k, s.EntryAt k u ∧ u.tag = .compileUnit) ∧
      ∀ k u, s.EntryAt k u → u.tag = .compileUnit → u ∈ us := by
  obtain ⟨js, hjs, hlisted⟩ := s.exists_visits
  obtain ⟨d, hd⟩ := hlisted c
  refine ⟨_, d, hd, fun u hu => mem_compileUnits hd hu, fun k u hu htag => ?_⟩
  rcases hjs.mem_or_inside (Nat.zero_le k) hu htag with hk | ⟨j, hj, v, hv, hlt, hinside⟩
  · exact mem_entriesAt.mpr ⟨k, hk, hu.get⟩
  · obtain ⟨w, hw, hwtag⟩ := hjs.unitAt hj
    obtain rfl := hw.unique hv
    have := hapart j w k u hw hwtag hu htag hlt
    omega

/-- The compile units are trees of their own. -/
def UnitsOnTop (s : Stream) : Prop :=
  ∀ i e, s.EntryAt i e → e.tag = .compileUnit → ∃ js, s.Siblings 0 js i

/-- The listing of compile units has all of them and nothing else. -/
theorem exists_compileUnits (htop : s.UnitsOnTop) (c : Cursor) :
    ∃ us d, s.compileUnits c = .ok us d ∧
      (∀ u ∈ us, ∃ k, s.EntryAt k u ∧ u.tag = .compileUnit) ∧
      ∀ k u, s.EntryAt k u → u.tag = .compileUnit → u ∈ us := by
  apply exists_compileUnits_of_apart
  intro j v k u hv hvtag hu htag hlt
  obtain ⟨is, his⟩ := htop j v hv hvtag
  obtain ⟨ks, hks⟩ := htop k u hu htag
  exact his.afterItem_le hks hv hlt

end DwarfScope.Stream
