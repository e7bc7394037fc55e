import DwarfScope.Proofs.Stream.Listings
import DwarfScope.Proofs.Stream.Offsets
import Mathlib.Data.List.Sort

/-!
# Compile units that are listed

The listing takes a list of children for closed where the number of null entries says so. It comes
to the first entries of the units, and to nothing else, if this is in the unit itself.
-/

namespace DwarfScope

/-- A compile unit that is the first entry of its unit. -/
def Entry.isUnitRoot (e : Entry) : Bool := e.tag = .compileUnit ∧ e.offset = e.unit

namespace Stream

variable {s : Stream} {i k : Nat} {js : List Nat} {e u v : Entry}

/-! ## Items that end -/

/-- The entry at `i` has no children, or a list of them that is closed before `k`. -/
def EndsBefore (s : Stream) (i : Nat) (e : Entry) (k : Nat) : Prop :=
  e.children = false ∨ ∃ js m, s.Siblings (i + 1) js m ∧ s.NullAt m ∧ m < k

theorem endsBefore_iff (he : s.EntryAt i e) (hik : i < k) (hk : k < s.size) :
    s.EndsBefore i e k ↔ s.afterItem i e ≤ k := by
  constructor
  · rintro (hc | ⟨js, m, hjs, hm, hlt⟩)
    · rw [afterItem_leaf hc]
      exact hik
    · cases hc : e.children with
      | false =>
        rw [afterItem_leaf hc]
        exact hik
      | true =>
        rw [afterItem_node hc hjs hm]
        exact hlt
  · intro hle
    cases hc : e.children with
    | false => exact .inl hc
    | true =>
      by_cases hclosed : s.Closed (i + 1)
      · obtain ⟨js, m, hjs, hm⟩ := hclosed
        rw [afterItem_node hc hjs hm] at hle
        exact .inr ⟨js, m, hjs, hm, hle⟩
      · rw [afterItem_not_closed he.lt_size hc hclosed] at hle
        omega

/-! ## Units -/

theorem tag_of_isUnitRoot (h : e.isUnitRoot = true) : e.tag = .compileUnit := by
  simp only [Entry.isUnitRoot, decide_eq_true_eq] at h
  exact h.1

/-- A compile unit that is the first entry of its unit stands at `i`. -/
structure RootAt (s : Stream) (i : Nat) (u : Entry) : Prop where
  unitAt : s.EntryAt i u
  isRoot : u.isUnitRoot = true

theorem RootAt.tag (h : s.RootAt i u) : u.tag = .compileUnit := tag_of_isUnitRoot h.isRoot

/-- Every unit whose first entry is a compile unit is closed before the next such unit begins, and
the other entries with that tag are inside of such units. -/
structure UnitsApart (s : Stream) : Prop where
  ends : ∀ i u k v, s.RootAt i u → s.RootAt k v → i < k → s.EndsBefore i u k
  inside : ∀ k e, s.EntryAt k e → e.tag = .compileUnit → e.isUnitRoot = false →
    ∃ i u, s.RootAt i u ∧ i < k ∧ ¬ s.EndsBefore i u k

theorem Visits.mem_iff_of_apart (hjs : s.Visits 0 js) (h : s.UnitsApart) (hu : s.EntryAt k u)
    (htag : u.tag = .compileUnit) : k ∈ js ↔ u.isUnitRoot = true := by
  induction k using Nat.strongRecOn generalizing u with
  | ind k ih =>
    constructor
    · intro hk
      by_contra hroot
      rw [Bool.not_eq_true] at hroot
      obtain ⟨i, v, hv, hlt, hopen⟩ := h.inside k u hu htag hroot
      have hi : i ∈ js := (ih i hlt hv.unitAt hv.tag).mpr hv.isRoot
      have hle := hjs.afterItem_le hi hk hlt hv.unitAt
      exact hopen ((endsBefore_iff hv.unitAt hlt hu.lt_size).mpr hle)
    · intro hroot
      rcases hjs.mem_or_inside (Nat.zero_le k) hu htag with hk | ⟨j, hj, v, hv, hlt, hinside⟩
      · exact hk
      · obtain ⟨w, hw, hwtag⟩ := hjs.unitAt hj
        obtain rfl := hw.unique hv
        have hwroot := (ih j hlt hw hwtag).mp hj
        have hends := h.ends j w k u ⟨hw, hwroot⟩ ⟨hu, hroot⟩ hlt
        have := (endsBefore_iff hw hlt hu.lt_size).mp hends
        omega

theorem mem_entriesAt_iff (ha : s.Addressed) (hu : s.EntryAt k u) :
    u ∈ s.entriesAt js ↔ k ∈ js := by
  rw [mem_entriesAt]
  constructor
  · rintro ⟨j, hj, hget⟩
    have hjat := ha j u ⟨hget, hu.nonnull⟩
    rw [ha k u hu] at hjat
    rwa [Option.some.inj hjat]
  · intro hk
    exact ⟨k, hk, hu.get⟩

theorem mem_roots_iff (hu : s.EntryAt k u) :
    u ∈ s.entries.toList.filter Entry.isUnitRoot ↔ u.isUnitRoot = true := by
  have hmem : u ∈ s.entries.toList := by simpa using Array.mem_of_getElem? hu.get
  simp [List.mem_filter, hmem]

theorem unitsApart_of_mem_iff (hjs : s.Visits 0 js)
    (h : ∀ k u, s.EntryAt k u → (k ∈ js ↔ u.isUnitRoot = true)) : s.UnitsApart := by
  constructor
  · intro i u k v hu hv hlt
    have hi := (h i u hu.unitAt).mpr hu.isRoot
    have hk := (h k v hv.unitAt).mpr hv.isRoot
    exact (endsBefore_iff hu.unitAt hlt hv.unitAt.lt_size).mpr
      (hjs.afterItem_le hi hk hlt hu.unitAt)
  · intro k e he htag hroot
    rcases hjs.mem_or_inside (Nat.zero_le k) he htag with hk | ⟨i, hi, u, hu, hlt, hinside⟩
    · rw [(h k e he).mp hk] at hroot
      cases hroot
    · refine ⟨i, u, ⟨hu, (h i u hu).mp hi⟩, hlt, fun hends => ?_⟩
      have := (endsBefore_iff hu hlt he.lt_size).mp hends
      omega

theorem pairwise_entriesAt (ho : s.Ordered) (hjs : s.Visits i js) :
    (s.entriesAt js).Pairwise fun a b => a.offset < b.offset := by
  rw [entriesAt, List.pairwise_filterMap]
  refine hjs.sorted.imp_of_mem fun {j k} hj hk hlt u hu v hv => ?_
  obtain ⟨u', hu', -⟩ := hjs.unitAt hj
  obtain ⟨v', hv', -⟩ := hjs.unitAt hk
  obtain rfl := Option.some.inj (hu'.get.symm.trans hu)
  obtain rfl := Option.some.inj (hv'.get.symm.trans hv)
  exact ho.offset_lt hu' hv' hlt

theorem pairwise_roots (ho : s.Ordered) :
    (s.entries.toList.filter Entry.isUnitRoot).Pairwise fun a b => a.offset < b.offset := by
  have hnonnull : ∀ e : Entry, e.isUnitRoot = true → e.isNull = false := by
    intro e he
    simp [Entry.isNull, tag_of_isUnitRoot he]
  rw [List.pairwise_filter]
  exact ho.lt.imp fun h ha hb => h (hnonnull _ ha) (hnonnull _ hb)

theorem entriesAt_eq_iff (ho : s.Ordered) (hjs : s.Visits 0 js) :
    s.entriesAt js = s.entries.toList.filter Entry.isUnitRoot ↔ s.UnitsApart := by
  constructor
  · intro h
    apply unitsApart_of_mem_iff hjs
    intro k u hu
    rw [← mem_entriesAt_iff ho.addressed hu, h, mem_roots_iff hu]
  · intro h
    have : Std.Irrefl fun a b : Entry => a.offset < b.offset := ⟨fun a => Nat.lt_irrefl _⟩
    have : Std.Antisymm fun a b : Entry => a.offset < b.offset :=
      ⟨fun a b hab hba => absurd hab (Nat.lt_asymm hba)⟩
    apply (pairwise_entriesAt ho hjs).eq_of_mem_iff (pairwise_roots ho)
    intro u
    constructor
    · intro hu
      obtain ⟨k, hk, hget⟩ := mem_entriesAt.mp hu
      obtain ⟨v, hv, htag⟩ := hjs.unitAt hk
      obtain rfl := Option.some.inj (hget.symm.trans hv.get)
      exact (mem_roots_iff hv).mpr ((hjs.mem_iff_of_apart h hv htag).mp hk)
    · intro hu
      obtain ⟨hmem, hroot⟩ := List.mem_filter.mp hu
      obtain ⟨k, hk⟩ := List.mem_iff_getElem?.mp hmem
      have htag := tag_of_isUnitRoot hroot
      have hat : s.EntryAt k u := ⟨Array.getElem?_toList ▸ hk, by simp [Entry.isNull, htag]⟩
      exact (mem_entriesAt_iff ho.addressed hat).mpr ((hjs.mem_iff_of_apart h hat htag).mpr hroot)

end Stream
end DwarfScope
