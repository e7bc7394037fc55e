import DwarfScope.Proofs.Explorer.Commands
import DwarfScope.Proofs.Stream.Listings

/-!
# Moves between levels

What the moves of a navigation do to its levels. Lookups move the cursor and nothing else, so a
move that fails leaves everything but the cursor as it was.
-/

namespace DwarfScope

open Effect

/-- A variable or a type that is listed below an entry. The client of a variable may be any. -/
inductive Stream.Child (s : Stream) (parent : Entry) : Subject → Prop
  | variable {children : List Entry} {e : Entry} {v : Variable} {c d c' d' : Cursor}
    (client : Option Nat) : s.children parent Entry.isExplorable c = .ok children d →
    e ∈ children → Variable.ofEntry s e c' = .ok v d' → Child s parent (.variable { v with client })
  | type (l : Layout) : Child s parent (.type l)

namespace Navigation

variable {n m : Navigation} {name : String} {levels : List Level} {α : Type}

/-- A navigation without the place of its cursor. -/
def shown (n : Navigation) : Navigation := { n with cursor := {} }

theorem eq_of_shown_eq (h : m.shown = n.shown) : m = { n with cursor := m.cursor } := by
  simp only [shown, mk.injEq, true_and] at h
  obtain ⟨hstream, hlevels, hclient⟩ := h
  rw [← hstream, ← hlevels, ← hclient]

/-- The cursor can be put back to every entry on the way. -/
def Placed (n : Navigation) : Prop :=
  ∀ e, .entry e ∈ n.levels → (n.stream.locate? e.offset).isSome = true

/-! ## Lookups -/

theorem walk_keeps (step : Stream → Walk α) : Keeps shown (walk step) := by
  intro n
  unfold after walk
  cases step n.stream n.cursor <;> rfl

theorem unitNamed_keeps (name : String) : Keeps shown (unitNamed name) := by
  apply Keeps.bind (walk_keeps _)
  intro units
  split
  · exact Keeps.throw _
  · exact Keeps.bind (walk_keeps _) fun _ => Keeps.bind (walk_keeps _) fun _ => Keeps.pure _

theorem entryChild_keeps (parent : Entry) (name : String) :
    Keeps shown (entryChild parent name) := by
  apply Keeps.bind (walk_keeps _)
  intro children
  split
  · exact Keeps.throw _
  · split
    · exact Keeps.bind (walk_keeps _) fun _ => Keeps.bind Keeps.get fun _ => Keeps.pure _
    · exact Keeps.bind (walk_keeps _) fun _ => Keeps.pure _

theorem listChildren_keeps : Keeps shown listChildren := by
  apply Keeps.bind Keeps.get
  intro n
  split
  · exact Keeps.bind (walk_keeps _) fun _ => Keeps.pure _
  · exact Keeps.bind (walk_keeps _) fun _ => Keeps.pure _
  · exact Keeps.pure _

/-! ## Stepping in -/

theorem push_keepsFailing (level : Level) : KeepsFailing shown (push level) := by
  rintro n e m ⟨⟩

theorem stepInto_keepsFailing (name : String) : KeepsFailing shown (stepInto name) := by
  apply KeepsFailing.bind Keeps.get
  intro n
  split
  · exact KeepsFailing.bind (unitNamed_keeps name) fun _ => push_keepsFailing _
  · exact KeepsFailing.bind (entryChild_keeps _ name) fun _ => push_keepsFailing _
  · exact KeepsFailing.bind (Keeps.ofExcept _) fun _ => push_keepsFailing _

theorem stepToType_keepsFailing : KeepsFailing shown stepToType := by
  apply KeepsFailing.bind Keeps.get
  intro n
  split
  · rintro n e m ⟨⟩
  · exact (Keeps.pure _).failing
  · exact (Keeps.throw _).failing

theorem push_eq_ok {level : Level} {u : Unit} :
    push level n = .ok u m ↔ m = { n with levels := level :: n.levels } := modify_eq_ok

theorem unitNamed_eq_ok {unit : Entry} :
    unitNamed name n = .ok unit m ↔
      ∃ units c i e d, Stream.compileUnits n.stream n.cursor = .ok units c ∧
        units.find? (·.name? = some name) = some unit ∧
        n.stream.locate? unit.offset = some i ∧ n.stream.next { position := i } = .ok e d ∧
        m = { n with cursor := d } := by
  simp only [unitNamed, bind_eq_ok, walk_eq_ok]
  constructor
  · rintro ⟨units, _, ⟨c, hunits, rfl⟩, h⟩
    cases hfind : units.find? (·.name? = some name) with
    | none => simp [hfind] at h
    | some u =>
      simp only [hfind, bind_eq_ok, walk_eq_ok, Stream.seek_eq_ok, pure_eq_ok] at h
      obtain ⟨_, _, ⟨_, ⟨i, hi, rfl⟩, rfl⟩, e, _, ⟨d, hnext, rfl⟩, rfl, rfl⟩ := h
      exact ⟨units, c, i, e, d, hunits, hfind, hi, hnext, rfl⟩
  · rintro ⟨units, c, i, e, d, hunits, hfind, hi, hnext, rfl⟩
    refine ⟨units, _, ⟨c, hunits, rfl⟩, ?_⟩
    simp only [hfind, bind_eq_ok, walk_eq_ok, Stream.seek_eq_ok]
    exact ⟨(), _, ⟨_, ⟨i, hi, rfl⟩, rfl⟩, e, _, ⟨d, hnext, rfl⟩, rfl⟩

theorem entryChild_eq_ok {parent e : Entry} {children : List Entry} {c : Cursor}
    (hc : n.stream.children parent Entry.isExplorable n.cursor = .ok children c)
    (he : children.find? (·.name? = some name) = some e) (hv : e.tag.isVariable = true)
    {s : Subject} :
    entryChild parent name n = .ok s m ↔
      ∃ v d, Variable.ofEntry n.stream e c = .ok v d ∧
        s = .variable { v with client := n.client } ∧ m = { n with cursor := d } := by
  simp only [entryChild, bind_eq_ok, walk_eq_ok]
  constructor
  · rintro ⟨_, _, ⟨_, hc', rfl⟩, h⟩
    obtain ⟨rfl, rfl⟩ : children = _ ∧ c = _ := by simpa [hc] using hc'
    simp only [he, hv, if_true, bind_eq_ok, walk_eq_ok, get_eq_ok, pure_eq_ok] at h
    obtain ⟨v, _, ⟨d, hd, rfl⟩, _, _, ⟨rfl, rfl⟩, rfl, rfl⟩ := h
    exact ⟨v, d, hd, rfl, rfl⟩
  · rintro ⟨v, d, hd, rfl, rfl⟩
    refine ⟨children, _, ⟨c, hc, rfl⟩, ?_⟩
    simp only [he, hv, if_true, bind_eq_ok, walk_eq_ok, get_eq_ok, pure_eq_ok]
    exact ⟨v, _, ⟨d, hd, rfl⟩, _, _, ⟨rfl, rfl⟩, rfl, rfl⟩

theorem stepInto_unit_eq_ok (h : n.levels = []) :
    stepInto name n = .ok () m ↔
      ∃ unit z, unitNamed name n = .ok unit z ∧
        m = { z with levels := .entry unit :: z.levels } := by
  have hcurrent : n.current = .allUnits := by simp [current, h]
  simp only [stepInto, bind_eq_ok, get_eq_ok, and_assoc, exists_and_left, exists_eq_left, hcurrent,
    push_eq_ok]

theorem stepInto_found {units : List Entry} {u : Entry} {k : Nat} {c : Cursor} (h : n.levels = [])
    (hunits : n.stream.compileUnits n.cursor = .ok units c)
    (hfind : units.find? (·.name? = some name) = some u) (hu : n.stream.EntryAt k u)
    (hk : n.stream.locate? u.offset = some k) :
    stepInto name n = .ok () { n with levels := [.entry u], cursor := .behind k } := by
  have hnext : n.stream.next { position := k } = .ok (some u) (.behind k) :=
    Walk.outcome_eq_ok.mp (Stream.outcome_next_some hu.get)
  have hnamed : unitNamed name n = .ok u { n with cursor := .behind k } :=
    unitNamed_eq_ok.mpr ⟨units, c, k, some u, .behind k, hunits, hfind, hk, hnext, rfl⟩
  rw [stepInto_unit_eq_ok h]
  refine ⟨u, _, hnamed, ?_⟩
  rw [h]

theorem stepInto_entry_eq_ok {parent : Entry} {rest : List Level}
    (h : n.levels = .entry parent :: rest) :
    stepInto name n = .ok () m ↔
      ∃ s z, entryChild parent name n = .ok s z ∧
        m = { z with levels := .subject s :: z.levels } := by
  have hcurrent : n.current = .entry parent := by simp [current, h]
  simp only [stepInto, bind_eq_ok, get_eq_ok, and_assoc, exists_and_left, exists_eq_left, hcurrent,
    push_eq_ok]

theorem entryChild_child {parent : Entry} {s : Subject} (h : entryChild parent name n = .ok s m) :
    n.stream.Child parent s := by
  simp only [entryChild, bind_eq_ok, walk_eq_ok] at h
  obtain ⟨children, _, ⟨c, hc, rfl⟩, h⟩ := h
  cases hfind : children.find? (·.name? = some name) with
  | none => simp [hfind] at h
  | some e =>
    simp only [hfind] at h
    by_cases hv : e.tag.isVariable = true
    · simp only [hv, if_true, bind_eq_ok, walk_eq_ok, get_eq_ok, pure_eq_ok] at h
      obtain ⟨v, _, ⟨d, hd, rfl⟩, _, _, ⟨rfl, rfl⟩, rfl, rfl⟩ := h
      exact .variable _ hc (List.mem_of_find?_eq_some hfind) hd
    · simp only [hv, Bool.false_eq_true, if_false, bind_eq_ok, walk_eq_ok, pure_eq_ok] at h
      obtain ⟨l, _, -, rfl, -⟩ := h
      exact .type l

/-! ## What one move makes of the levels -/

inductive Step (n : Navigation) : List Level → Prop
  | unit {u : Entry} : n.current = .allUnits → (∃ k, n.stream.EntryAt k u) →
    u.tag = .compileUnit → (n.stream.locate? u.offset).isSome = true → Step n (.entry u :: n.levels)
  | child {parent : Entry} {s : Subject} : n.current = .entry parent → n.stream.Child parent s →
    Step n (.subject s :: n.levels)
  | member {s t : Subject} (field : String) : n.current = .subject s → s.member field = .ok t →
    Step n (.subject t :: n.levels)
  | type {v : Variable} : n.current = .subject (.variable v) →
    Step n (.subject (.type v.layout) :: n.levels)
  | back : Step n n.levels.tail
  | reset : Step n []

theorem Step.placed (h : n.Step levels) (hn : n.Placed) {e : Entry} (he : .entry e ∈ levels) :
    (n.stream.locate? e.offset).isSome = true := by
  cases h with
  | unit _ _ _ hu =>
    rcases List.mem_cons.mp he with he | he
    · obtain rfl : e = _ := by simpa using he
      exact hu
    · exact hn e he
  | child => exact hn e (by simpa using he)
  | member => exact hn e (by simpa using he)
  | type => exact hn e (by simpa using he)
  | back => exact hn e (List.mem_of_mem_tail he)
  | reset => cases he

theorem stepInto_eq_ok (h : stepInto name n = .ok () m) :
    ∃ level c, m = { n with levels := level :: n.levels, cursor := c } ∧
      n.Step (level :: n.levels) := by
  simp only [stepInto, bind_eq_ok, get_eq_ok, and_assoc, exists_and_left, exists_eq_left] at h
  cases hcurrent : n.current with
  | allUnits =>
    simp only [hcurrent, bind_eq_ok, push_eq_ok] at h
    obtain ⟨unit, z, hunit, rfl⟩ := h
    rw [eq_of_shown_eq ((unitNamed_keeps name).ok hunit)]
    obtain ⟨units, _, i, _, _, hunits, hfind, hi, -, -⟩ := unitNamed_eq_ok.mp hunit
    obtain ⟨k, hk, htag⟩ := Stream.mem_compileUnits hunits (List.mem_of_find?_eq_some hfind)
    exact ⟨_, _, rfl, .unit hcurrent ⟨k, hk⟩ htag (by simp [hi])⟩
  | entry parent =>
    simp only [hcurrent, bind_eq_ok, push_eq_ok] at h
    obtain ⟨s, z, hs, rfl⟩ := h
    rw [eq_of_shown_eq ((entryChild_keeps parent name).ok hs)]
    exact ⟨_, _, rfl, .child hcurrent (entryChild_child hs)⟩
  | subject s =>
    simp only [hcurrent, bind_eq_ok, push_eq_ok, ofExcept_eq_ok] at h
    obtain ⟨t, _, ⟨ht, rfl⟩, rfl⟩ := h
    exact ⟨_, _, rfl, .member name hcurrent ht⟩

theorem stepToType_eq_ok {l : Layout} (h : stepToType n = .ok l m) :
    m = n ∨ m = { n with levels := .subject (.type l) :: n.levels } ∧
      n.Step (.subject (.type l) :: n.levels) := by
  simp only [stepToType, bind_eq_ok, get_eq_ok, and_assoc, exists_and_left, exists_eq_left] at h
  cases hcurrent : n.current with
  | allUnits => simp [hcurrent] at h
  | entry e => simp [hcurrent] at h
  | subject s =>
    rcases s with v | l'
    · simp only [hcurrent, bind_eq_ok, push_eq_ok, pure_eq_ok] at h
      obtain ⟨_, _, rfl, rfl, rfl⟩ := h
      exact .inr ⟨rfl, .type hcurrent⟩
    · simp only [hcurrent, pure_eq_ok] at h
      exact .inl h.2

/-! ## Stepping out -/

theorem reset_eq_ok (n : Navigation) : reset n = .ok () { n with levels := [], cursor := {} } := rfl

/-- The way back is always open. Back at an entry, the cursor has just passed it. -/
theorem back_eq_ok (h : n.Placed) :
    ∃ c, back n = .ok () { n with levels := n.levels.tail, cursor := c } ∧
      ∀ e rest, n.levels.tail = .entry e :: rest →
        ∃ i, n.stream.locate? e.offset = some i ∧
          n.stream.next { position := i } = .ok n.stream.entries[i]? c := by
  rcases n with ⟨stream, cursor, levels, client⟩
  rcases levels with _ | ⟨level, _ | ⟨below, rest⟩⟩
  · exact ⟨cursor, rfl, by simp⟩
  · exact ⟨cursor, rfl, by simp⟩
  cases below with
  | allUnits => exact ⟨cursor, rfl, by simp⟩
  | subject s => exact ⟨cursor, rfl, by simp⟩
  | entry e =>
    obtain ⟨i, hi⟩ := Option.isSome_iff_exists.mp (h e (by simp))
    obtain ⟨d, hd⟩ := stream.exists_next { position := i }
    refine ⟨d, ?_, ?_⟩
    · simp only [back, bind_eq_ok, get_eq_ok]
      refine ⟨_, _, ⟨rfl, rfl⟩, ?_⟩
      simp only [bind_eq_ok, modify_eq_ok, get_eq_ok]
      refine ⟨(), _, rfl, _, _, ⟨rfl, rfl⟩, ?_⟩
      simp only [current, List.headD_cons, bind_eq_ok, walk_eq_ok, Stream.seek_eq_ok]
      exact ⟨(), _, ⟨_, ⟨i, hi, rfl⟩, rfl⟩, _, _, ⟨d, hd, rfl⟩, rfl⟩
    · rintro e' rest' htail
      obtain ⟨rfl, -⟩ : e = e' ∧ rest = rest' := by simpa using htail
      exact ⟨i, hi, hd⟩

end Navigation
end DwarfScope
