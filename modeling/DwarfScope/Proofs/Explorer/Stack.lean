import DwarfScope.Proofs.Explorer.Paths

/-!
# The stack of levels

Which stacks a navigation can come to, in whatever order it moves, and that each step into
something is undone by one step back.
-/

namespace DwarfScope

open Effect

namespace Navigation

variable {s : Stream} {n m : Navigation} {u e : Entry} {vs : List Variable} {ts : List Layout}
  {levels : List Level} {α : Type}

/-! ## Legal stacks -/

def stack (n : Navigation) : List Level := .allUnits :: n.levels.reverse

/-- On the level of all units there is nothing, or one compile unit, then variables, then types. -/
inductive Legal : List Level → Prop
  | bottom : Legal [.allUnits]
  | unit {u : Entry} (vs : List Variable) (ts : List Layout) : u.tag = .compileUnit →
    Legal (.allUnits :: .entry u ::
      (vs.map (fun v => .subject (.variable v)) ++ ts.map (fun l => .subject (.type l))))

theorem Housed.legal (h : n.Housed) : Legal n.stack := by
  unfold stack
  cases h with
  | outside hn =>
    rw [hn]
    exact .bottom
  | @inside u vs ts h =>
    have hreverse : n.levels.reverse = .entry u ::
        (vs.reverse.map (fun v => .subject (.variable v)) ++
          ts.reverse.map (fun l => .subject (.type l))) := by
      simp [h.levels, inUnit]
    rw [hreverse]
    exact .unit _ _ h.isUnit

/-! ## Navigations of a stream -/

/-- The navigations that moves and listings come to from the start, in any order. In between, the
client may be given, the current variable may get a value, and lookups may move the cursor. -/
inductive Reached (s : Stream) : Navigation → Prop
  | start : Reached s { stream := s }
  | stepInto {n : Navigation} (name : String) : Reached s n → Reached s (after (stepInto name) n)
  | back {n : Navigation} : Reached s n → Reached s (after back n)
  | reset {n : Navigation} : Reached s n → Reached s (after reset n)
  | stepToType {n : Navigation} : Reached s n → Reached s (after stepToType n)
  | listChildren {n : Navigation} : Reached s n → Reached s (after listChildren n)
  | client {n : Navigation} (client : Option Nat) : Reached s n → Reached s { n with client }
  | assign {n : Navigation} {v : Variable} (value : Option (List UInt8)) : Reached s n →
    n.currentVariable = .ok v → Reached s (n.setCurrentVariable { v with value })
  | cursor {n : Navigation} (cursor : Cursor) : Reached s n → Reached s { n with cursor }

/-- The levels and the cursor may change, but not the stream, and the levels in one step. -/
def Moved (n m : Navigation) : Prop :=
  ∃ levels c, m = { n with levels, cursor := c } ∧ (levels = n.levels ∨ n.Step levels)

theorem moved_of_shown_eq (h : m.shown = n.shown) : n.Moved m :=
  ⟨n.levels, m.cursor, eq_of_shown_eq h, .inl rfl⟩

theorem moved_stepInto (name : String) (n : Navigation) : n.Moved (after (stepInto name) n) := by
  unfold after
  cases h : stepInto name n with
  | ok u m =>
    obtain ⟨level, c, rfl, hstep⟩ := stepInto_eq_ok h
    exact ⟨_, c, rfl, .inr hstep⟩
  | error e m => exact moved_of_shown_eq (stepInto_keepsFailing name n e m h)

theorem moved_stepToType (n : Navigation) : n.Moved (after stepToType n) := by
  unfold after
  cases h : stepToType n with
  | ok l m =>
    rcases stepToType_eq_ok h with rfl | ⟨rfl, hstep⟩
    · exact moved_of_shown_eq rfl
    · exact ⟨_, _, rfl, .inr hstep⟩
  | error e m => exact moved_of_shown_eq (stepToType_keepsFailing n e m h)

theorem moved_back (h : n.Placed) : n.Moved (after back n) := by
  obtain ⟨c, hback, -⟩ := back_eq_ok h
  rw [after_of_ok hback]
  exact ⟨_, c, rfl, .inr .back⟩

theorem Moved.housed (h : n.Moved m) (hn : n.Housed) : m.Housed := by
  obtain ⟨levels, c, rfl, rfl | hstep⟩ := h
  · exact hn.of_eq rfl rfl
  · exact (hstep.housed hn).of_eq rfl rfl

theorem Moved.stream_eq (h : n.Moved m) : m.stream = n.stream := by
  obtain ⟨levels, c, rfl, -⟩ := h
  rfl

theorem Inside.eq_of_mem (h : n.Inside u vs ts) (he : .entry e ∈ n.levels) : e = u := by
  rw [h.levels] at he
  simpa [inUnit] using he

theorem Housed.placed (h : n.Housed) (ha : n.stream.Addressed) : n.Placed := by
  intro e he
  cases h with
  | outside hn =>
    rw [hn] at he
    cases he
  | inside h =>
    obtain ⟨k, hk⟩ := h.entryAt
    rw [h.eq_of_mem he, ha k _ hk]
    rfl

theorem Reached.housed (h : Reached s n) (ha : s.Addressed) : n.stream = s ∧ n.Housed := by
  induction h with
  | start => exact ⟨rfl, .outside rfl⟩
  | @stepInto n name _ ih =>
    have hmoved := moved_stepInto name n
    exact ⟨hmoved.stream_eq.trans ih.1, hmoved.housed ih.2⟩
  | back _ ih =>
    have hmoved := moved_back (ih.2.placed (by rw [ih.1]; exact ha))
    exact ⟨hmoved.stream_eq.trans ih.1, hmoved.housed ih.2⟩
  | reset _ ih => exact ⟨ih.1, .outside rfl⟩
  | @stepToType n _ ih =>
    have hmoved := moved_stepToType n
    exact ⟨hmoved.stream_eq.trans ih.1, hmoved.housed ih.2⟩
  | @listChildren n _ ih =>
    have hmoved := moved_of_shown_eq (listChildren_keeps n)
    exact ⟨hmoved.stream_eq.trans ih.1, hmoved.housed ih.2⟩
  | client client _ ih => exact ⟨ih.1, ih.2.of_eq rfl rfl⟩
  | assign value _ hv ih =>
    refine ⟨?_, ih.2.assign hv value⟩
    obtain ⟨rest, hlevels⟩ := currentVariable_eq_ok.mp hv
    rw [setCurrentVariable_eq hlevels]
    exact ih.1
  | cursor c _ ih => exact ⟨ih.1, ih.2.of_eq rfl rfl⟩

/-! ## The way back -/

/-- One step back from `m` leads to `n` again, but for the cursor. If that is a place in an entry,
the cursor has just passed this entry. -/
def Returns (m n : Navigation) : Prop :=
  ∃ c, back m = .ok () { n with cursor := c } ∧
    ∀ e, n.current = .entry e → ∃ k, n.stream.EntryAt k e ∧ c = .behind k

theorem returns_of_step {level : Level} {c : Cursor} (hn : n.Housed) (ha : n.stream.Addressed)
    (h : n.Step (level :: n.levels)) :
    Returns { n with levels := level :: n.levels, cursor := c } n := by
  have hplaced : Placed { n with levels := level :: n.levels, cursor := c } :=
    fun e he => h.placed (hn.placed ha) he
  obtain ⟨d, hback, hentry⟩ := back_eq_ok hplaced
  refine ⟨d, hback, fun e he => ?_⟩
  have hinside := hn.of_entry he
  obtain ⟨k, hk⟩ := hinside.entryAt
  obtain ⟨i, hi, hnext⟩ := hentry e [] hinside.levels
  obtain rfl : i = k := Option.some.inj (hi.symm.trans (ha k e hk))
  have hpassed : n.stream.next { position := i } = .ok (some e) (.behind i) :=
    Walk.outcome_eq_ok.mp (Stream.outcome_next_some hk.get)
  obtain ⟨-, rfl⟩ : _ ∧ d = .behind i := by simpa using hnext.symm.trans hpassed
  exact ⟨i, hk, rfl⟩

/-- In a built stream the stack is always a legal one. One can always step back, and each step into
something, or to a type, is undone by a step back. -/
theorem stack_legal {b : Stream.Builder} (hb : b.Built) (h : Reached b.build n) :
    Legal n.stack ∧
    (∃ m, back n = .ok () m ∧ Legal m.stack ∧
      m.stack = if n.depth = 0 then n.stack else n.stack.dropLast) ∧
    (∀ name m, stepInto name n = .ok () m → Returns m n) ∧
    ∀ l m, stepToType n = .ok l m → m.depth ≠ n.depth → Returns m n := by
  have ha := hb.addressed (List.prefix_refl _)
  obtain ⟨hstream, hn⟩ := h.housed ha
  rw [← hstream] at ha
  obtain ⟨c, hback, -⟩ := back_eq_ok (hn.placed ha)
  refine ⟨hn.legal, ⟨_, hback, (hn.pop.of_eq rfl rfl).legal, ?_⟩, ?_, ?_⟩
  · unfold stack depth
    cases hlevels : n.levels with
    | nil => rfl
    | cons level rest =>
      rw [List.length_cons, if_neg (Nat.succ_ne_zero _), List.reverse_cons, ← List.cons_append,
        List.dropLast_concat]
      rfl
  · intro name m hm
    obtain ⟨level, c, rfl, hstep⟩ := stepInto_eq_ok hm
    exact returns_of_step hn ha hstep
  · intro l m hm hdepth
    rcases stepToType_eq_ok hm with rfl | ⟨rfl, hstep⟩
    · exact absurd rfl hdepth
    · exact returns_of_step hn ha hstep

theorem stack_legal_bytePair :
    ∃ n, Reached Stream.Builder.bytePair.build n ∧ n.depth = 2 ∧ Legal n.stack ∧
      (∃ m, stepInto "a" n = .ok () m ∧ Returns m n) ∧
      ∃ l m, stepToType n = .ok l m ∧ m.depth = 3 ∧ Returns m n := by
  let unit : Navigation := after (stepInto "main.c") { stream := Stream.Builder.bytePair.build }
  have hreached : Reached Stream.Builder.bytePair.build (after (stepInto "pair") unit) :=
    .stepInto "pair" (.stepInto "main.c" .start)
  obtain ⟨hlegal, -, hstep, htype⟩ := stack_legal Stream.Builder.built_bytePair hreached
  have hdepth : (after (stepInto "pair") unit).depth = 2 := by decide +kernel
  obtain ⟨_, hm⟩ := exists_of_succeeds (m := stepInto "a") (x := after (stepInto "pair") unit)
    (by decide +kernel)
  obtain ⟨l, hl⟩ := exists_of_succeeds (m := stepToType) (x := after (stepInto "pair") unit)
    (by decide +kernel)
  have hpushed : (after stepToType (after (stepInto "pair") unit)).depth = 3 := by decide +kernel
  refine ⟨_, hreached, hdepth, hlegal, ⟨_, hm, hstep _ _ hm⟩, l, _, hl, hpushed, htype _ _ hl ?_⟩
  rw [hpushed, hdepth]
  decide

end Navigation
end DwarfScope
