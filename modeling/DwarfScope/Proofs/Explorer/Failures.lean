import DwarfScope.Proofs.Explorer.Session

/-!
# Commands that fail

A command that fails should change nothing that is shown. This is so for all but the edits of the
current variable. They keep a new value even if it cannot be written to memory.
-/

namespace DwarfScope

open Effect

theorem Navigation.shown_setCurrentVariable {n : Navigation} {v w : Variable}
    (h : n.currentVariable = .ok v) : (n.setCurrentVariable w).shown = n.shown ↔ w = v := by
  obtain ⟨rest, hlevels⟩ := currentVariable_eq_ok.mp h
  rw [setCurrentVariable_eq hlevels]
  simp [shown, hlevels]

namespace Explorer

variable {x y : Explorer} {files : Files} {c : Command} {f : Failure}

theorem shown_nav {n m : Navigation} (hn : x.nav = some n) :
    { x with nav := some m }.shown = x.shown ↔ m.shown = n.shown := by
  simp [shown, hn]

/-- A failed command changes something that is shown exactly if it edits the current variable and
comes to another value, and then that value is all that it changes. -/
theorem shown_of_error (hx : x.Reachable) (h : execute files c x = .error f y) :
    (y.shown = x.shown ↔ ∀ edit n v w, c.edit? = some edit → x.nav = some n →
      n.currentVariable = .ok v → edit v = .ok w → w.value = v.value) ∧
    ∀ edit n v w, c.edit? = some edit → x.nav = some n → n.currentVariable = .ok v →
      edit v = .ok w → y.shown = { x with nav := some (n.setCurrentVariable w) }.shown := by
  cases hc : c.edit? with
  | none =>
    have hshown := shown_of_fails hx.sound hc h
    exact ⟨by simp [hshown], by simp⟩
  | some edit =>
    rw [execute_edit hc] at h
    rcases editCurrent_eq_error h with ⟨hshown, hnone⟩ | ⟨n, v, w, hn, hv, hw, hshown⟩
    · constructor
      · simp only [hshown, true_iff]
        rintro _ n v w ⟨⟩ hn hv hw
        exact absurd hw (hnone n v w hn hv)
      · rintro _ n v w ⟨⟩ hn hv hw
        exact absurd hw (hnone n v w hn hv)
    -- The new value is there, so it has been kept.
    have hunique : ∀ edit' n' v' w', some edit = some edit' → x.nav = some n' →
        n'.currentVariable = .ok v' → edit' v' = .ok w' → n' = n ∧ v' = v ∧ w' = w := by
      rintro _ n' v' w' ⟨⟩ hn' hv' hw'
      obtain rfl := Option.some.inj (hn.symm.trans hn')
      obtain rfl := Except.ok.inj (hv.symm.trans hv')
      obtain rfl := Except.ok.inj (hw.symm.trans hw')
      exact ⟨rfl, rfl, rfl⟩
    constructor
    · rw [hshown, shown_nav hn, Navigation.shown_setCurrentVariable hv]
      obtain ⟨bytes, rfl⟩ := edit_eq_ok hc hw
      constructor
      · intro hsame edit' n' v' w' hedit' hn' hv' hw'
        obtain ⟨-, rfl, rfl⟩ := hunique edit' n' v' w' hedit' hn' hv' hw'
        rw [hsame]
      · intro hvalue
        have hsame := hvalue edit n v _ rfl hn hv hw
        dsimp only at hsame
        rw [hsame]
    · intro edit' n' v' w' hedit' hn' hv' hw'
      obtain ⟨rfl, -, rfl⟩ := hunique edit' n' v' w' hedit' hn' hv' hw'
      exact hshown

/-- The offset one puts the pair of bytes in front of the memory. -/
def unwritable : Explorer := (bytePair.runAll noFiles [.setOffset 1]).get (by decide +kernel)

theorem reachable_unwritable : unwritable.Reachable :=
  reachable_bytePair.runAll (Option.some_get _).symm

theorem shown_of_error_same_value :
    unwritable.Reachable ∧ ∃ (e : Error) (y : _),
      execute noFiles (.setVariable none [0, 0]) unwritable = .error e y ∧
      y.shown = unwritable.shown := by
  obtain ⟨e, h⟩ := exists_of_reports
    (m := execute noFiles (.setVariable none [0, 0])) (x := unwritable) (by decide +kernel)
  refine ⟨reachable_unwritable, e, _, h, (shown_of_error reachable_unwritable h).1.mpr ?_⟩
  rintro _ n v w ⟨⟩ hn hv hw
  have hvalue : unwritable.current?.bind Variable.value = some [0, 0] := by decide +kernel
  rw [current?_eq_some.mpr ⟨n, hn, hv⟩] at hvalue
  rw [(Variable.set_eq_ok.mp hw).2, ← hvalue]
  rfl

/-- The write fails, but the current variable shows the value that was to be written. -/
theorem shown_of_error_new_value :
    unwritable.Reachable ∧ ∃ (e : Error) (y : _),
      execute noFiles (.setVariable none [1, 1]) unwritable = .error e y ∧
      unwritable.current?.bind Variable.value = some [0, 0] ∧
      y.current?.bind Variable.value = some [1, 1] ∧ y.shown ≠ unwritable.shown := by
  obtain ⟨e, h⟩ := exists_of_reports
    (m := execute noFiles (.setVariable none [1, 1])) (x := unwritable) (by decide +kernel)
  have hbefore : unwritable.current?.bind Variable.value = some [0, 0] := by decide +kernel
  have hafter : (after (execute noFiles (.setVariable none [1, 1])) unwritable).current?.bind
      Variable.value = some [1, 1] := by decide +kernel
  refine ⟨reachable_unwritable, e, _, h, hbefore, hafter, fun hshown => ?_⟩
  rw [current?_of_shown_eq hshown, hbefore] at hafter
  cases hafter

end Explorer
end DwarfScope
