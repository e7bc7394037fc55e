import DwarfScope.Proofs.Explorer.Moves

/-!
# Levels of one compile unit

The levels a navigation can come to are those of one compile unit: the unit, then variables, then
types. So the current variable stands below the unit that is taken for its unit.
-/

namespace DwarfScope

open Effect

/-- A variable stands below an entry: it is a child of it, or a member of one that is. Its value
may be any. -/
inductive Stream.Holds (s : Stream) (u : Entry) : Variable → Prop
  | child {v : Variable} : s.Child u (.variable v) → Holds s u v
  | member {v w : Variable} (field : String) : Holds s u v → v.member field = .ok w → Holds s u w
  | value {v : Variable} (value : Option (List UInt8)) : Holds s u v → Holds s u { v with value }

namespace Navigation

variable {n m : Navigation} {u : Entry} {v : Variable} {vs : List Variable} {l : Layout}
  {ts : List Layout} {levels : List Level}

/-! ## Shape -/

/-- The levels of a compile unit, some variables and some types, the current one first. -/
def inUnit (u : Entry) (vs : List Variable) (ts : List Layout) : List Level :=
  ts.map (fun l => .subject (.type l)) ++ (vs.map (fun v => .subject (.variable v)) ++ [.entry u])

/-- The levels are those of a compile unit of the stream and of variables and types below it. -/
structure Inside (n : Navigation) (u : Entry) (vs : List Variable) (ts : List Layout) : Prop where
  entryAt : ∃ k, n.stream.EntryAt k u
  isUnit : u.tag = .compileUnit
  levels : n.levels = inUnit u vs ts
  holds : ∀ v ∈ vs, n.stream.Holds u v

inductive Housed (n : Navigation) : Prop
  | outside : n.levels = [] → Housed n
  | inside {u : Entry} {vs : List Variable} {ts : List Layout} : n.Inside u vs ts → Housed n

theorem Housed.of_eq (h : n.Housed) (hstream : m.stream = n.stream)
    (hlevels : m.levels = n.levels) :
    m.Housed := by
  cases h with
  | outside hn => exact .outside (hlevels.trans hn)
  | inside h =>
    refine .inside ⟨?_, h.isUnit, hlevels.trans h.levels, ?_⟩
    · rw [hstream]
      exact h.entryAt
    · rw [hstream]
      exact h.holds

theorem current_inUnit (h : n.levels = inUnit u vs ts) :
    (∃ l ts', ts = l :: ts' ∧ n.current = .subject (.type l)) ∨
    (∃ v vs', ts = [] ∧ vs = v :: vs' ∧ n.current = .subject (.variable v)) ∨
    (ts = [] ∧ vs = [] ∧ n.current = .entry u) := by
  unfold current
  rw [h]
  rcases ts with _ | ⟨l, ts⟩
  · rcases vs with _ | ⟨v, vs⟩
    · exact .inr (.inr ⟨rfl, rfl, rfl⟩)
    · exact .inr (.inl ⟨v, vs, rfl, rfl, rfl⟩)
  · exact .inl ⟨l, ts, rfl, rfl⟩

theorem current_outside (h : n.levels = []) : n.current = .allUnits := by
  unfold current
  rw [h]
  rfl

namespace Housed

variable (h : n.Housed)

include h

theorem of_allUnits (hc : n.current = .allUnits) : n.levels = [] := by
  cases h with
  | outside hn => exact hn
  | inside h =>
    rcases current_inUnit h.levels with ⟨_, _, _, h'⟩ | ⟨_, _, _, _, h'⟩ | ⟨_, _, h'⟩ <;>
      cases hc.symm.trans h'

theorem of_entry (hc : n.current = .entry u) : n.Inside u [] [] := by
  cases h with
  | outside hn => cases hc.symm.trans (current_outside hn)
  | inside h =>
    rcases current_inUnit h.levels with ⟨_, _, _, h'⟩ | ⟨_, _, _, _, h'⟩ | ⟨rfl, rfl, h'⟩
    · cases hc.symm.trans h'
    · cases hc.symm.trans h'
    · obtain rfl := Level.entry.inj (hc.symm.trans h')
      exact h

theorem of_variable (hc : n.current = .subject (.variable v)) :
    ∃ u vs, n.Inside u (v :: vs) [] := by
  cases h with
  | outside hn => cases hc.symm.trans (current_outside hn)
  | inside h =>
    rcases current_inUnit h.levels with ⟨_, _, _, h'⟩ | ⟨w, vs, rfl, rfl, h'⟩ | ⟨_, _, h'⟩
    · cases hc.symm.trans h'
    · cases hc.symm.trans h'
      exact ⟨_, vs, h⟩
    · cases hc.symm.trans h'

theorem of_type (hc : n.current = .subject (.type l)) : ∃ u vs ts, n.Inside u vs (l :: ts) := by
  cases h with
  | outside hn => cases hc.symm.trans (current_outside hn)
  | inside h =>
    rcases current_inUnit h.levels with ⟨l', ts, rfl, h'⟩ | ⟨_, _, _, _, h'⟩ | ⟨_, _, h'⟩
    · cases hc.symm.trans h'
      exact ⟨_, _, ts, h⟩
    · cases hc.symm.trans h'
    · cases hc.symm.trans h'

end Housed

/-! ## Moves keep the shape -/

theorem Inside.push_variable (h : n.Inside u vs []) (hv : n.stream.Holds u v) :
    Inside { n with levels := .subject (.variable v) :: n.levels } u (v :: vs) [] := by
  refine ⟨h.entryAt, h.isUnit, ?_, ?_⟩
  · rw [h.levels]
    rfl
  · intro w hw
    rcases List.mem_cons.mp hw with rfl | hw
    · exact hv
    · exact h.holds w hw

theorem Inside.push_type (h : n.Inside u vs ts) (l : Layout) :
    Inside { n with levels := .subject (.type l) :: n.levels } u vs (l :: ts) := by
  refine ⟨h.entryAt, h.isUnit, ?_, h.holds⟩
  rw [h.levels]
  rfl

theorem Inside.pop_type (h : n.Inside u vs (l :: ts)) :
    Inside { n with levels := n.levels.tail } u vs ts := by
  refine ⟨h.entryAt, h.isUnit, ?_, h.holds⟩
  rw [h.levels]
  rfl

theorem Inside.pop_variable (h : n.Inside u (v :: vs) []) :
    Inside { n with levels := n.levels.tail } u vs [] := by
  refine ⟨h.entryAt, h.isUnit, ?_, fun w hw => h.holds w (List.mem_cons_of_mem v hw)⟩
  rw [h.levels]
  rfl

theorem Housed.pop (h : n.Housed) : Housed { n with levels := n.levels.tail } := by
  cases h with
  | outside hn =>
    refine .outside ?_
    rw [hn]
    rfl
  | @inside u vs ts h =>
    rcases ts with _ | ⟨l, ts⟩
    · rcases vs with _ | ⟨v, vs⟩
      · refine .outside ?_
        rw [h.levels]
        rfl
      · exact .inside h.pop_variable
    · exact .inside h.pop_type

theorem Step.housed (h : n.Step levels) (hn : n.Housed) : Housed { n with levels } := by
  cases h with
  | @unit u hc hk htag =>
    have hinside : Inside { n with levels := .entry u :: n.levels } u [] [] := by
      refine ⟨hk, htag, ?_, by simp⟩
      rw [hn.of_allUnits hc]
      rfl
    exact .inside hinside
  | @child parent s hc hs =>
    have hinside := hn.of_entry hc
    rcases s with v | l
    · exact .inside (hinside.push_variable (.child hs))
    · exact .inside (hinside.push_type l)
  | @member s t field hc ht =>
    rcases s with v | l
    · obtain ⟨u, vs, hinside⟩ := hn.of_variable hc
      obtain ⟨w, hw, rfl⟩ := map_eq_ok.mp ht
      have hv := hinside.holds v List.mem_cons_self
      exact .inside (hinside.push_variable (.member field hv hw))
    · obtain ⟨u, vs, ts, hinside⟩ := hn.of_type hc
      obtain ⟨l', -, rfl⟩ := map_eq_ok.mp ht
      exact .inside (hinside.push_type l')
  | @type v hc =>
    obtain ⟨u, vs, hinside⟩ := hn.of_variable hc
    exact .inside (hinside.push_type v.layout)
  | back => exact hn.pop
  | reset => exact .outside rfl

theorem Housed.of_currentVariable (h : n.Housed) (hv : n.currentVariable = .ok v) :
    ∃ u vs, n.Inside u (v :: vs) [] := by
  obtain ⟨rest, hlevels⟩ := currentVariable_eq_ok.mp hv
  apply h.of_variable
  unfold current
  rw [hlevels]
  rfl

theorem Housed.assign (h : n.Housed) (hv : n.currentVariable = .ok v)
    (value : Option (List UInt8)) : (n.setCurrentVariable { v with value }).Housed := by
  obtain ⟨rest, hlevels⟩ := currentVariable_eq_ok.mp hv
  obtain ⟨u, vs, hinside⟩ := h.of_currentVariable hv
  obtain ⟨-, rfl⟩ := List.cons.inj (hlevels.symm.trans hinside.levels)
  have hagain := hinside.pop_variable.push_variable
    ((hinside.holds v List.mem_cons_self).value value)
  rw [setCurrentVariable_eq hlevels]
  simp only [hlevels, List.tail_cons] at hagain
  exact .inside hagain

end Navigation
end DwarfScope
