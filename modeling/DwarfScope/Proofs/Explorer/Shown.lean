import DwarfScope.Proofs.Explorer.Moves

/-!
# What an explorer shows

Of an explorer everything is shown but the place of the cursor and the offset its client happens to
have. Questions change nothing of this. A command that fails changes nothing of it either, unless it
is an edit of the current variable or, where the way back is lost, a step back.
-/

namespace DwarfScope

open Effect

/-- The command is a question. It changes neither the place reached nor any value. -/
def Command.asks : Command → Bool
  | loadDebugFile _ | stepInto _ | back | reset | currentType | readVariable none
  | setVariable .. | setField .. | setOffset _ => false
  | _ => true

/-- What the command makes of the current variable before it writes that to memory. -/
def Command.edit? : Command → Option (Variable → Except Error Variable)
  | setVariable none value => some (·.set value)
  | setField field n => some (·.setField field n)
  | _ => none

namespace Explorer

variable {x y : Explorer} {files : Files} {c : Command} {α : Type}

/-! ## What an explorer shows -/

/-- An explorer without the place of its cursor and without the offset of its client, which is
only a copy: each command that comes to memory takes it anew from the offset rule. -/
def shown (x : Explorer) : Explorer :=
  { x with nav := x.nav.map Navigation.shown, memory := x.memory.setOffset 0 }

theorem shown_eq_shown :
    y.shown = x.shown ↔ y.offsetRule = x.offsetRule ∧ y.debugFile = x.debugFile ∧
      y.nav.map Navigation.shown = x.nav.map Navigation.shown ∧
      y.memory.setOffset 0 = x.memory.setOffset 0 := by
  simp only [shown, mk.injEq]

@[simp] theorem shown_memoryAt (unit : Option Entry) :
    { x with memory := x.memoryAt unit }.shown = x.shown := by
  unfold shown memoryAt
  rw [Memory.setOffset_setOffset]

theorem shown_file (unit : Option Entry) (file : Option Contents) :
    { x with memory := { x.memoryAt unit with file } }.shown =
      { x with memory := { x.memory with file } }.shown := by
  simp only [shown, memoryAt, Memory.setOffset, Option.map_map]
  rfl

/-! ## Questions -/

theorem navigate_keeps {step : Navigate α} (h : Keeps Navigation.shown step) :
    Keeps shown (navigate step) := by
  intro x
  unfold after navigate
  cases hx : x.nav with
  | none => rfl
  | some n =>
    have hn := h n
    unfold after at hn
    dsimp only
    cases hstep : step n with
    | ok a m =>
      rw [hstep] at hn
      simp only [shown, hx, Option.map_some, hn]
    | error e m =>
      rw [hstep] at hn
      simp only [shown, hx, Option.map_some, hn]

theorem navigate_keepsFailing {step : Navigate α} (h : KeepsFailing Navigation.shown step) :
    KeepsFailing shown (navigate step) := by
  intro x e y hy
  unfold navigate at hy
  cases hx : x.nav with
  | none =>
    rw [hx] at hy
    obtain ⟨-, rfl⟩ : _ ∧ x = y := by simpa using hy
    rfl
  | some n =>
    rw [hx] at hy
    dsimp only at hy
    cases hstep : step n with
    | ok a m =>
      rw [hstep] at hy
      cases hy
    | error e' m =>
      rw [hstep] at hy
      obtain ⟨-, rfl⟩ : _ ∧ _ = y := by simpa using hy
      simp only [shown, hx, Option.map_some, h n e' m hstep]

theorem walk_keeps (step : Stream → Walk α) : Keeps shown (walk step) :=
  navigate_keeps (Navigation.walk_keeps step)

theorem applyOffset_keeps (unit : Option Entry) : Keeps shown (applyOffset unit) :=
  Keeps.modify fun _ => shown_memoryAt unit

theorem variableNamed_keeps (name : String) : Keeps shown (variableNamed name) := by
  apply Keeps.bind (walk_keeps _)
  rintro ⟨e, unit⟩
  apply Keeps.bind (walk_keeps _)
  intro v
  apply Keeps.bind (applyOffset_keeps unit)
  intro _
  exact Keeps.bind Keeps.get fun _ => Keeps.pure _

theorem currentVariable_keeps : Keeps shown currentVariable := by
  apply Keeps.bind (navigate_keeps Keeps.get)
  intro n
  exact Keeps.bind (applyOffset_keeps _) fun _ => Keeps.ofExcept _

theorem listUnits_keeps : Keeps shown listUnits :=
  Keeps.bind (walk_keeps _) fun _ => Keeps.pure _

theorem describe_keeps : Keeps shown describe := by
  apply Keeps.bind (navigate_keeps Keeps.get)
  intro n
  split
  · exact listUnits_keeps
  · exact Keeps.pure _
  · exact Keeps.pure _
  · exact Keeps.pure _

theorem debugFilePath_keeps : Keeps shown debugFilePath := by
  apply Keeps.bind Keeps.get
  intro x
  split
  · exact Keeps.pure _
  · exact Keeps.throw _

/-- A question changes nothing that is shown, whether it is answered or not. -/
theorem execute_keeps (h : c.asks = true) : Keeps shown (execute files c) := by
  cases c with
  | ping => exact Keeps.pure _
  | quit => exact Keeps.pure _
  | debugFile => exact debugFilePath_keeps
  | listUnits => exact listUnits_keeps
  | listChildren =>
    exact Keeps.bind (navigate_keeps Navigation.listChildren_keeps) fun _ => Keeps.pure _
  | path => exact Keeps.bind (navigate_keeps Keeps.get) fun _ => Keeps.pure _
  | describe => exact describe_keeps
  | typeOf name =>
    exact Keeps.bind (walk_keeps _) fun ⟨_, _⟩ => Keeps.bind (walk_keeps _) fun _ => Keeps.pure _
  | entryInfo name => exact Keeps.bind (walk_keeps _) fun ⟨_, _⟩ => Keeps.pure _
  | getField field =>
    apply Keeps.bind (navigate_keeps Keeps.get)
    intro n
    apply Keeps.bind (Keeps.ofExcept _)
    intro v
    exact Keeps.bind (Keeps.ofExcept _) fun _ => Keeps.pure _
  | readVariable name =>
    cases name with
    | none => cases h
    | some name =>
      apply Keeps.bind (variableNamed_keeps name)
      intro v
      apply Keeps.bind Keeps.get
      intro x
      exact Keeps.bind (Keeps.ofExcept _) fun _ => Keeps.pure _
  | loadDebugFile path => cases h
  | stepInto name => cases h
  | back => cases h
  | reset => cases h
  | currentType => cases h
  | setVariable name value => cases h
  | setField field value => cases h
  | setOffset offset => cases h

/-! ## Edits -/

theorem writeVariable_keepsFailing (v : Variable) : KeepsFailing shown (writeVariable v) := by
  apply KeepsFailing.bind Keeps.get
  intro x
  apply KeepsFailing.bind (Keeps.ofExcept _)
  rintro m x e y ⟨⟩

theorem keepVariable_keepsFailing (v : Variable) : KeepsFailing shown (keepVariable v) :=
  navigate_keepsFailing (by rintro _ _ _ ⟨⟩)

theorem edit_eq_ok {edit : Variable → Except Error Variable} {v w : Variable}
    (hc : c.edit? = some edit) (h : edit v = .ok w) :
    ∃ bytes, w = { v with value := some bytes } := by
  unfold Command.edit? at hc
  split at hc
  · obtain rfl := Option.some.inj hc
    exact ⟨_, (Variable.set_eq_ok.mp h).2⟩
  · obtain rfl := Option.some.inj hc
    obtain ⟨s, bytes, -, -, -, rfl⟩ := Variable.setField_eq_ok.mp h
    exact ⟨_, rfl⟩
  · cases hc

theorem execute_edit {edit : Variable → Except Error Variable} (h : c.edit? = some edit) :
    execute files c = editCurrent edit := by
  unfold Command.edit? at h
  split at h
  · obtain rfl := Option.some.inj h
    exact execute_setCurrent
  · obtain rfl := Option.some.inj h
    exact execute_setField
  · cases h

theorem editCurrent_eq_error {edit : Variable → Except Error Variable} {e : Failure}
    (h : editCurrent edit x = .error e y) :
    (y.shown = x.shown ∧
      ∀ n v w, x.nav = some n → n.currentVariable = .ok v → edit v ≠ .ok w) ∨
    ∃ n v w, x.nav = some n ∧ n.currentVariable = .ok v ∧ edit v = .ok w ∧
      y.shown = { x with nav := some (n.setCurrentVariable w) }.shown := by
  unfold editCurrent at h
  rcases bind_eq_error.mp h with hfails | ⟨v, z, hv, h⟩
  · left
    refine ⟨currentVariable_keeps.failing _ _ _ hfails, fun n v w hn hnv _ => ?_⟩
    have hok := currentVariable_eq_ok.mpr ⟨n, hn, hnv, rfl⟩
    cases hfails.symm.trans hok
  obtain ⟨n, hn, hnv, rfl⟩ := currentVariable_eq_ok.mp hv
  rcases bind_eq_error.mp h with hfails | ⟨w, z, hw, h⟩
  · left
    obtain ⟨_, hedit, -, rfl⟩ := ofExcept_eq_error.mp hfails
    refine ⟨shown_memoryAt _, fun n' v' w hn' hnv' hw => ?_⟩
    obtain rfl := Option.some.inj (hn.symm.trans hn')
    obtain rfl := Except.ok.inj (hnv.symm.trans hnv')
    cases hedit.symm.trans hw
  right
  obtain ⟨hedit, rfl⟩ := ofExcept_eq_ok.mp hw
  refine ⟨n, v, w, hn, hnv, hedit, ?_⟩
  rcases bind_eq_error.mp h with hfails | ⟨u, z, hkeep, h⟩
  · have hok : keepVariable w { x with memory := x.memoryAt n.currentUnit? } = .ok () _ :=
      keepVariable_eq_ok.mpr ⟨n, hn, rfl⟩
    cases hfails.symm.trans hok
  obtain ⟨n', hn', rfl⟩ := keepVariable_eq_ok.mp hkeep
  obtain rfl := Option.some.inj (hn.symm.trans hn')
  rcases bind_eq_error.mp h with hfails | ⟨_, z, -, h⟩
  · rw [writeVariable_keepsFailing w _ _ _ hfails]
    exact shown_memoryAt (x := { x with nav := some (n.setCurrentVariable w) }) _
  · cases h

/-! ## Other commands -/

theorem loadDebugFile_keepsFailing (path : String) :
    KeepsFailing shown (loadDebugFile files path) := by
  apply KeepsFailing.bind Keeps.get
  intro x
  apply KeepsFailing.bind (Keeps.ofExcept _)
  rintro x y e z ⟨⟩

theorem move_keepsFailing {step : Navigate Unit} (h : KeepsFailing Navigation.shown step) :
    KeepsFailing shown (move step) := by
  intro x e y hy
  rcases bind_eq_error.mp hy with hy | ⟨_, z, hz, hy⟩
  · exact navigate_keepsFailing h x e y hy
  · -- The step has been taken, so there is a program, and the path is known.
    obtain ⟨n, m, -, -, rfl⟩ := navigate_eq_ok.mp hz
    cases hy

theorem setNamed_keepsFailing (name : String) (value : List UInt8) :
    KeepsFailing shown (execute files (.setVariable (some name) value)) := by
  apply KeepsFailing.bind (variableNamed_keeps name)
  intro v
  exact KeepsFailing.bind (Keeps.ofExcept _) fun w => (writeVariable_keepsFailing w).map _

theorem readCurrent_keepsFailing :
    KeepsFailing shown (execute files (.readVariable none)) := by
  apply KeepsFailing.bind currentVariable_keeps
  intro v
  apply KeepsFailing.bind Keeps.get
  intro x
  exact KeepsFailing.bind (Keeps.ofExcept _) fun w => (keepVariable_keepsFailing w).map _

end Explorer
end DwarfScope
