import DwarfScope.Proofs.Effect
import DwarfScope.Proofs.Walk
import DwarfScope.Stream.Lookup

/-!
# Searches by name

Which entry a search finds. It starts at the cursor, goes on to the end, and only then begins at
the start.
-/

namespace DwarfScope.Stream

open Effect

variable {s : Stream} {name : String} {p i j n offset : Nat} {c d : Cursor} {e : Entry}
  {unit : Option Entry}

/-! ## Moving the cursor -/

theorem seek_eq_ok {u : Unit} :
    s.seek offset c = .ok u d ↔ ∃ i, s.locate? offset = some i ∧ d = { position := i } := by
  unfold seek
  cases s.locate? offset with
  | none => simp
  | some i => simp [eq_comm]

theorem exists_next (s : Stream) (c : Cursor) : ∃ d, s.next c = .ok s.entries[c.position]? d := by
  unfold next
  cases s.entries[c.position]? with
  | none => exact ⟨_, rfl⟩
  | some e => exact ⟨_, rfl⟩

theorem next_eq_ok {x : Option Entry} (h : s.next c = .ok x d) : x = s.entries[c.position]? := by
  obtain ⟨d', hd'⟩ := s.exists_next c
  rw [hd'] at h
  cases h
  rfl

/-! ## The next entry of a name -/

def Named (s : Stream) (name : String) (i : Nat) : Prop :=
  ∃ e, s.entries[i]? = some e ∧ e.name? = some name

/-- The first entry of a name from `p` on stands at `i`. -/
structure FirstNamed (s : Stream) (name : String) (p i : Nat) : Prop where
  le : p ≤ i
  named : s.Named name i
  first : ∀ j, p ≤ j → j < i → ¬ s.Named name j

theorem Named.lt_size (h : s.Named name i) : i < s.size := by
  obtain ⟨e, he, -⟩ := h
  exact (Array.getElem?_eq_some_iff.mp he).1

theorem FirstNamed.unique (h : s.FirstNamed name p i) (h' : s.FirstNamed name p j) : i = j := by
  rcases Nat.lt_trichotomy i j with hlt | heq | hlt
  · exact absurd h.named (h'.first i h.le hlt)
  · exact heq
  · exact absurd h'.named (h.first j h'.le hlt)

theorem indexOfName?_eq_some :
    s.indexOfName? name n p = some i ↔ s.FirstNamed name p i ∧ i < p + n := by
  induction n generalizing p with
  | zero =>
    simp only [indexOfName?, reduceCtorEq, false_iff]
    rintro ⟨h, hlt⟩
    have := h.le
    omega
  | succ n ih =>
    unfold indexOfName?
    cases he : s.entries[p]? with
    | none =>
      simp only [reduceCtorEq, false_iff]
      rintro ⟨h, -⟩
      have hp : s.size ≤ p := Array.getElem?_eq_none_iff.mp he
      have := h.le
      have := h.named.lt_size
      omega
    | some e =>
      by_cases hname : e.name? = some name
      · have hnamed : s.Named name p := ⟨e, he, hname⟩
        simp only [hname, if_true, Option.some.injEq]
        constructor
        · rintro rfl
          exact ⟨⟨Nat.le_refl p, hnamed, fun j hle hlt => by omega⟩, by omega⟩
        · rintro ⟨h, -⟩
          apply Nat.le_antisymm h.le
          apply Nat.le_of_not_lt
          intro hlt
          exact h.first p (Nat.le_refl p) hlt hnamed
      · have hnot : ¬ s.Named name p := by
          rintro ⟨e', he', hname'⟩
          obtain rfl := Option.some.inj (he.symm.trans he')
          exact hname hname'
        simp only [hname, if_false, ih]
        constructor
        · rintro ⟨h, hlt⟩
          refine ⟨⟨Nat.le_of_succ_le h.le, h.named, fun j hle hji => ?_⟩, by omega⟩
          rcases Nat.eq_or_lt_of_le hle with rfl | hlt'
          · exact hnot
          · exact h.first j hlt' hji
        · rintro ⟨h, hlt⟩
          have hne : p ≠ i := by
            rintro rfl
            exact hnot h.named
          have := h.le
          exact ⟨⟨by omega, h.named, fun j hle => h.first j (by omega)⟩, by omega⟩

theorem indexOfName?_eq_none (h : s.indexOfName? name n p = none) (hp : p ≤ j) (hj : j < p + n) :
    ¬ s.Named name j := by
  induction n generalizing p with
  | zero => omega
  | succ n ih =>
    rintro hnamed
    unfold indexOfName? at h
    cases he : s.entries[p]? with
    | none =>
      have hsize : s.size ≤ p := Array.getElem?_eq_none_iff.mp he
      have := hnamed.lt_size
      omega
    | some e =>
      by_cases hname : e.name? = some name
      · simp [he, hname] at h
      · simp only [he, hname, if_false] at h
        rcases Nat.eq_or_lt_of_le hp with rfl | hlt
        · obtain ⟨e', he', hname'⟩ := hnamed
          obtain rfl := Option.some.inj (he.symm.trans he')
          exact hname hname'
        · exact ih h hlt (by omega) hnamed

/-- Either some entry from the cursor on is the first of the name, and the cursor is left behind
it, or there is none, and the cursor is left at the end. -/
theorem findAhead_spec (s : Stream) (name : String) (c : Cursor) :
    (∃ i e, s.FirstNamed name c.position i ∧ s.entries[i]? = some e ∧
      s.findAhead name c = .ok (some e) (.behind i)) ∨
    (∀ j, c.position ≤ j → ¬ s.Named name j) ∧
      s.findAhead name c = .ok none { position := max c.position s.size } := by
  unfold findAhead
  cases hi : s.indexOfName? name (s.ahead c) c.position with
  | some i =>
    left
    obtain ⟨hfirst, -⟩ := indexOfName?_eq_some.mp hi
    obtain ⟨e, he, hname⟩ := hfirst.named
    exact ⟨i, e, hfirst, he, by rw [← he]; rfl⟩
  | none =>
    right
    refine ⟨fun j hj hnamed => ?_, rfl⟩
    have := hnamed.lt_size
    have hahead : j < c.position + s.ahead c := by
      unfold ahead
      omega
    exact indexOfName?_eq_none hi hj hahead hnamed

theorem findAhead_of_first (h : s.FirstNamed name c.position i) (he : s.entries[i]? = some e) :
    s.findAhead name c = .ok (some e) (.behind i) := by
  rcases s.findAhead_spec name c with ⟨i', e', hi', he', hahead⟩ | ⟨hnone, -⟩
  · obtain rfl := h.unique hi'
    obtain rfl := Option.some.inj (he.symm.trans he')
    exact hahead
  · exact absurd h.named (hnone i h.le)

theorem findAhead_of_none (h : ∀ j, c.position ≤ j → ¬ s.Named name j) :
    s.findAhead name c = .ok none { position := max c.position s.size } := by
  rcases s.findAhead_spec name c with ⟨i, _, hi, -⟩ | ⟨-, hahead⟩
  · exact absurd hi.named (h i hi.le)
  · exact hahead

/-! ## The search over the whole stream -/

/-- A search that starts at `p` ends at `i`. -/
def Found (s : Stream) (name : String) (p i : Nat) : Prop :=
  s.FirstNamed name p i ∨ (∀ j, p ≤ j → ¬ s.Named name j) ∧ s.FirstNamed name 0 i

theorem Found.named (h : s.Found name p i) : s.Named name i := by
  rcases h with h | ⟨-, h⟩
  · exact h.named
  · exact h.named

theorem Found.unique (h : s.Found name p i) (h' : s.Found name p j) : i = j := by
  rcases h with h | ⟨hnone, h⟩
  · rcases h' with h' | ⟨hnone', -⟩
    · exact h.unique h'
    · exact absurd h.named (hnone' i h.le)
  · rcases h' with h' | ⟨-, h'⟩
    · exact absurd h'.named (hnone j h'.le)
    · exact h.unique h'

theorem found_of_once (hi : s.Named name i) (honce : ∀ j, s.Named name j → j = i) (p : Nat) :
    s.Found name p i := by
  by_cases hp : p ≤ i
  · left
    refine ⟨hp, hi, fun j _ hlt hj => ?_⟩
    have := honce j hj
    omega
  · right
    constructor
    · intro j hle hj
      have := honce j hj
      omega
    · refine ⟨Nat.zero_le i, hi, fun j _ hlt hj => ?_⟩
      have := honce j hj
      omega

/-! ## Compile units -/

/-- The search for the compile unit of an entry comes to an end: the unit it names can be sought,
and so can the entry itself, to which the cursor returns. -/
def Seekable (s : Stream) (e : Entry) : Prop :=
  e.tag = .compileUnit ∨ (s.locate? e.unit).isSome = true ∧ (s.locate? e.offset).isSome = true

theorem enclosingUnit_self (h : e.tag = .compileUnit) :
    s.enclosingUnit e c = .ok (some e) c := by
  unfold enclosingUnit
  rw [if_pos h]
  rfl

theorem enclosingUnit_eq_ok (h : e.tag ≠ .compileUnit) :
    s.enclosingUnit e c = .ok unit d ↔
      ∃ k j, s.locate? e.unit = some k ∧ s.locate? e.offset = some j ∧
        unit = s.entries[k]?.filter (·.tag = .compileUnit) ∧
        s.next { position := j } = .ok s.entries[j]? d := by
  unfold enclosingUnit
  simp only [h, if_false, bind_eq_ok, seek_eq_ok, pure_eq_ok]
  constructor
  · rintro ⟨_, _, ⟨k, hk, rfl⟩, x, _, hx, _, _, ⟨j, hj, rfl⟩, y, _, hy, rfl, rfl⟩
    obtain rfl := next_eq_ok hx
    obtain rfl := next_eq_ok hy
    exact ⟨k, j, hk, hj, rfl, hy⟩
  · rintro ⟨k, j, hk, hj, rfl, hd⟩
    obtain ⟨d', hd'⟩ := s.exists_next { position := k }
    exact ⟨(), _, ⟨k, hk, rfl⟩, _, d', hd', (), _, ⟨j, hj, rfl⟩, _, d, hd, rfl, rfl⟩

theorem exists_enclosingUnit :
    (∃ unit d, s.enclosingUnit e c = .ok unit d) ↔ s.Seekable e := by
  by_cases h : e.tag = .compileUnit
  · exact ⟨fun _ => .inl h, fun _ => ⟨_, _, enclosingUnit_self h⟩⟩
  · simp only [enclosingUnit_eq_ok h, Seekable, h, false_or, Option.isSome_iff_exists]
    constructor
    · rintro ⟨_, _, k, j, hk, hj, -, -⟩
      exact ⟨⟨k, hk⟩, ⟨j, hj⟩⟩
    · rintro ⟨⟨k, hk⟩, ⟨j, hj⟩⟩
      obtain ⟨d, hd⟩ := s.exists_next { position := j }
      exact ⟨_, d, k, j, hk, hj, rfl, hd⟩

/-! ## What a search answers -/

theorem findEntry_of_found (h : s.Found name c.position i) (he : s.entries[i]? = some e) :
    s.findEntry name c = (do return (e, ← s.enclosingUnit e) : Walk _) (.behind i) := by
  unfold findEntry
  rcases h with hi | ⟨hnone, hi⟩
  · have hahead := findAhead_of_first hi he
    simp only [Bind.bind, EStateM.bind, hahead]
    rfl
  · have hahead := findAhead_of_none hnone
    have hagain := findAhead_of_first (c := {}) hi he
    simp only [Bind.bind, EStateM.bind, hahead, rewind, hagain]
    rfl

theorem findEntry_of_none (h : ∀ j, ¬ s.Named name j) :
    s.findEntry name c = .error (Error.notFound name) { position := s.size } := by
  have hahead := findAhead_of_none (c := c) fun j _ => h j
  have hagain := findAhead_of_none (c := {}) fun j _ => h j
  unfold findEntry
  simp only [Bind.bind, EStateM.bind, hahead, rewind, hagain, Nat.zero_max]
  rfl

theorem exists_found (h : s.Named name j) (p : Nat) : ∃ i, s.Found name p i := by
  rcases s.findAhead_spec name { position := p } with ⟨i, e, hi, -⟩ | ⟨hnone, -⟩
  · exact ⟨i, .inl hi⟩
  · rcases s.findAhead_spec name {} with ⟨i, e, hi, -⟩ | ⟨hnone', -⟩
    · exact ⟨i, .inr ⟨hnone, hi⟩⟩
    · exact absurd h (hnone' j (Nat.zero_le j))

theorem findEntry_eq_ok :
    s.findEntry name c = .ok (e, unit) d ↔
      ∃ i, s.Found name c.position i ∧ s.entries[i]? = some e ∧
        s.enclosingUnit e (.behind i) = .ok unit d := by
  constructor
  · intro h
    by_cases hnone : ∀ j, ¬ s.Named name j
    · cases (findEntry_of_none hnone).symm.trans h
    · obtain ⟨j, hj⟩ := Classical.not_forall_not.mp hnone
      obtain ⟨i, hi⟩ := exists_found hj c.position
      obtain ⟨e', he', -⟩ := hi.named
      rw [findEntry_of_found hi he'] at h
      simp only [bind_eq_ok, pure_eq_ok, Prod.mk.injEq] at h
      obtain ⟨_, _, hunit, ⟨rfl, rfl⟩, rfl⟩ := h
      exact ⟨i, hi, he', hunit⟩
  · rintro ⟨i, hi, he, hunit⟩
    rw [findEntry_of_found hi he, bind_eq_ok]
    exact ⟨unit, d, hunit, rfl⟩

end DwarfScope.Stream
