import DwarfScope.Explorer
import DwarfScope.Proofs.Effect
import DwarfScope.Proofs.Memory

/-!
# What commands do

Each command that works on variables, said once: when it succeeds, what it answers, and what the
explorer is afterwards.
-/

namespace DwarfScope

open Effect

/-! ## Navigation -/

namespace Navigation

variable {n m : Navigation} {α : Type}

@[simp] theorem walk_eq_ok {step : Stream → Walk α} {a : α} :
    walk step n = .ok a m ↔ ∃ d, step n.stream n.cursor = .ok a d ∧ m = { n with cursor := d } := by
  unfold walk
  cases step n.stream n.cursor with
  | ok b d =>
    constructor
    · rintro ⟨⟩
      exact ⟨d, rfl, rfl⟩
    · rintro ⟨d, ⟨⟩, rfl⟩
      rfl
  | error e d => simp

theorem currentVariable_eq_ok {v : Variable} :
    n.currentVariable = .ok v ↔ ∃ rest, n.levels = .subject (.variable v) :: rest := by
  unfold currentVariable current
  rcases n.levels with _ | ⟨level, rest⟩
  · simp
  · rcases level with _ | e | w | l <;> simp

theorem setCurrentVariable_eq {v w : Variable} {rest : List Level}
    (h : n.levels = .subject (.variable v) :: rest) :
    n.setCurrentVariable w = { n with levels := .subject (.variable w) :: rest } := by
  unfold setCurrentVariable
  rw [h]

end Navigation

/-! ## Offsets -/

namespace Memory

@[simp] theorem setOffset_setOffset (m : Memory) (a b : Int64) :
    (m.setOffset a).setOffset b = m.setOffset b := by
  unfold setOffset
  rw [Option.map_map]
  rfl

@[simp] theorem setOffset_client_id (m : Memory) (a : Int64) :
    (m.setOffset a).client.map Client.id = m.client.map Client.id := by
  unfold setOffset
  cases m.client <;> rfl

end Memory

namespace Explorer

variable {x y : Explorer} {files : Files} {α : Type} {name field : String} {value : List UInt8}
  {n : UInt64} {fb : Feedback}

/-! ## Parts of commands -/

def memoryAt (x : Explorer) (unit : Option Entry) : Memory :=
  x.memory.setOffset (x.offsetRule.offsetFor unit)

@[simp] theorem memoryAt_client_id (unit : Option Entry) :
    (x.memoryAt unit).client.map Client.id = x.memory.client.map Client.id :=
  Memory.setOffset_client_id _ _

theorem offset_of_clientOf? {unit : Option Entry} {id : Option Nat} {c : Client}
    (h : (x.memoryAt unit).clientOf? id = some c) : c.offset = x.offsetRule.offsetFor unit := by
  unfold Memory.clientOf? memoryAt Memory.setOffset at h
  cases hc : x.memory.client with
  | none => simp [hc] at h
  | some c' =>
    simp only [hc, Option.map_some, Option.filter_eq_some_iff, Option.some.injEq] at h
    rw [← h.1]

@[simp] theorem navigate_eq_ok {step : Navigate α} {a : α} :
    navigate step x = .ok a y ↔
      ∃ n m, x.nav = some n ∧ step n = .ok a m ∧ y = { x with nav := some m } := by
  unfold navigate
  cases x.nav with
  | none => simp
  | some n =>
    dsimp only
    constructor
    · intro h
      cases hn : step n with
      | ok b m =>
        rw [hn] at h
        obtain ⟨rfl, rfl⟩ : b = a ∧ _ = y := by simpa using h
        exact ⟨n, m, rfl, hn, rfl⟩
      | error e m =>
        rw [hn] at h
        cases h
    · rintro ⟨_, m, ⟨⟩, hn, rfl⟩
      rw [hn]

theorem applyOffset_eq_ok {unit : Option Entry} {u : Unit} :
    applyOffset unit x = .ok u y ↔ y = { x with memory := x.memoryAt unit } := modify_eq_ok

theorem writeVariable_eq_ok {v : Variable} {u : Unit} :
    writeVariable v x = .ok u y ↔ ∃ m, v.write x.memory = .ok m ∧ y = { x with memory := m } := by
  simp [writeVariable, bind_eq_ok, and_assoc]

theorem keepVariable_eq_ok {v : Variable} {u : Unit} :
    keepVariable v x = .ok u y ↔
      ∃ n, x.nav = some n ∧ y = { x with nav := some (n.setCurrentVariable v) } := by
  simp [keepVariable]

theorem currentVariable_eq_ok {v : Variable} :
    currentVariable x = .ok v y ↔
      ∃ n, x.nav = some n ∧ n.currentVariable = .ok v ∧
        y = { x with memory := x.memoryAt n.currentUnit? } := by
  simp only [currentVariable, bind_eq_ok, navigate_eq_ok, applyOffset_eq_ok, get_eq_ok,
    ofExcept_eq_ok]
  constructor
  · rintro ⟨_, _, ⟨n, _, hn, ⟨rfl, rfl⟩, rfl⟩, _, _, rfl, hv, rfl⟩
    exact ⟨_, hn, hv, by rw [← hn]⟩
  · rintro ⟨n, hn, hv, rfl⟩
    exact ⟨n, x, ⟨n, n, hn, ⟨rfl, rfl⟩, by rw [← hn]⟩, (), _, rfl, hv, rfl⟩

theorem variableNamed_eq_ok {v : Variable} :
    variableNamed name x = .ok v y ↔
      ∃ n e unit c w d, x.nav = some n ∧ n.stream.findEntry name n.cursor = .ok (e, unit) c ∧
        Variable.ofEntry n.stream e c = .ok w d ∧
        v = { w with client := x.memory.client.map Client.id } ∧
        y = { x with nav := some { n with cursor := d }, memory := x.memoryAt unit } := by
  simp only [variableNamed, bind_eq_ok, Explorer.walk, navigate_eq_ok, applyOffset_eq_ok,
    get_eq_ok, pure_eq_ok, Navigation.walk_eq_ok]
  constructor
  · rintro ⟨⟨e, unit⟩, _, ⟨n, _, hn, ⟨c, hfind, rfl⟩, rfl⟩, w, _, ⟨_, _, ⟨⟩, ⟨d, hw, rfl⟩, rfl⟩,
      _, _, rfl, _, _, ⟨rfl, rfl⟩, rfl, rfl⟩
    refine ⟨n, e, unit, c, w, d, hn, hfind, hw, ?_, rfl⟩
    exact congrArg _ (memoryAt_client_id unit)
  · rintro ⟨n, e, unit, c, w, d, hn, hfind, hw, rfl, rfl⟩
    refine ⟨(e, unit), _, ⟨n, _, hn, ⟨c, hfind, rfl⟩, rfl⟩, w, _, ⟨_, _, rfl, ⟨d, hw, rfl⟩, rfl⟩,
      (), _, rfl, _, _, ⟨rfl, rfl⟩, ?_, rfl⟩
    exact congrArg _ (memoryAt_client_id unit).symm

/-! ## Debug files -/

theorem openDebugFile_eq_ok {path : String} :
    x.openDebugFile files path = .ok y ↔
      ∃ data stream, files.read path = .ok data ∧ DebugFile.load files.inflate data = .ok stream ∧
        y = { x.setEntries stream with debugFile := some path } := by
  unfold openDebugFile
  cases files.read path with
  | error fault => simp
  | ok data =>
    cases hload : DebugFile.load files.inflate data with
    | error fault => simp [bind, Except.bind, hload]
    | ok stream => simp [bind, Except.bind, pure, Except.pure, hload, eq_comm]

theorem loadDebugFile_eq_ok {path : String} :
    execute files (.loadDebugFile path) x = .ok fb y ↔
      x.openDebugFile files path = .ok y ∧ fb = .ok := by
  simp only [execute, loadDebugFile, bind_eq_ok, get_eq_ok, ofExcept_eq_ok, set_eq_ok, pure_eq_ok]
  constructor
  · rintro ⟨_, _, ⟨rfl, rfl⟩, z, _, ⟨hopen, rfl⟩, _, _, rfl, rfl, rfl⟩
    exact ⟨hopen, rfl⟩
  · rintro ⟨hopen, rfl⟩
    exact ⟨x, x, ⟨rfl, rfl⟩, y, x, ⟨hopen, rfl⟩, (), y, rfl, rfl, rfl⟩

/-! ## Commands on the current variable -/

theorem readCurrent_eq_ok :
    execute files (.readVariable none) x = .ok fb y ↔
      ∃ n v w, x.nav = some n ∧ n.currentVariable = .ok v ∧
        v.read (x.memoryAt n.currentUnit?) = .ok w ∧ fb = .variable w.view ∧
        y = { x with
          nav := some (n.setCurrentVariable w), memory := x.memoryAt n.currentUnit? } := by
  simp only [execute, readVariable, bind_eq_ok, currentVariable_eq_ok, keepVariable_eq_ok,
    ofExcept_eq_ok, get_eq_ok, pure_eq_ok]
  constructor
  · rintro ⟨v, _, ⟨n, hn, hv, rfl⟩, _, _, ⟨rfl, rfl⟩, w, _, ⟨hw, rfl⟩, _, _, ⟨_, hn', rfl⟩,
      rfl, rfl⟩
    obtain rfl := Option.some.inj (hn.symm.trans hn')
    exact ⟨n, v, w, hn, hv, hw, rfl, rfl⟩
  · rintro ⟨n, v, w, hn, hv, hw, rfl, rfl⟩
    exact ⟨v, _, ⟨n, hn, hv, rfl⟩, _, _, ⟨rfl, rfl⟩, w, _, ⟨hw, rfl⟩, (), _, ⟨n, hn, rfl⟩, rfl, rfl⟩

/-- Gives the current variable another value and writes it to memory. -/
def editCurrent (edit : Variable → Except Error Variable) : Explore Feedback := do
  let w ← ofExcept (edit (← currentVariable))
  keepVariable w
  writeVariable w
  return .variable w.view

theorem execute_setCurrent :
    execute files (.setVariable none value) = editCurrent (·.set value) := rfl

theorem execute_setField : execute files (.setField field n) = editCurrent (·.setField field n) :=
  rfl

theorem editCurrent_eq_ok {edit : Variable → Except Error Variable} :
    editCurrent edit x = .ok fb y ↔
      ∃ n v w m, x.nav = some n ∧ n.currentVariable = .ok v ∧ edit v = .ok w ∧
        w.write (x.memoryAt n.currentUnit?) = .ok m ∧ fb = .variable w.view ∧
        y = { x with nav := some (n.setCurrentVariable w), memory := m } := by
  simp only [editCurrent, bind_eq_ok, currentVariable_eq_ok, keepVariable_eq_ok,
    writeVariable_eq_ok, ofExcept_eq_ok, pure_eq_ok]
  constructor
  · rintro ⟨v, _, ⟨n, hn, hv, rfl⟩, w, _, ⟨hw, rfl⟩, _, _, ⟨_, hn', rfl⟩, _, _, ⟨m, hm, rfl⟩, rfl,
      rfl⟩
    obtain rfl := Option.some.inj (hn.symm.trans hn')
    exact ⟨n, v, w, m, hn, hv, hw, hm, rfl, rfl⟩
  · rintro ⟨n, v, w, m, hn, hv, hw, hm, rfl, rfl⟩
    exact ⟨v, _, ⟨n, hn, hv, rfl⟩, w, _, ⟨hw, rfl⟩, (), _, ⟨n, hn, rfl⟩, (), _, ⟨m, hm, rfl⟩, rfl,
      rfl⟩

/-! ## Commands on a variable by name -/

theorem readNamed_eq_ok :
    execute files (.readVariable (some name)) x = .ok fb y ↔
      ∃ v w, variableNamed name x = .ok v y ∧ v.read y.memory = .ok w ∧
        fb = .variable w.view := by
  simp only [execute, readVariable, bind_eq_ok, ofExcept_eq_ok, get_eq_ok, pure_eq_ok]
  constructor
  · rintro ⟨v, _, hv, _, _, ⟨rfl, rfl⟩, w, _, ⟨hw, rfl⟩, rfl, rfl⟩
    exact ⟨v, w, hv, hw, rfl⟩
  · rintro ⟨v, w, hv, hw, rfl⟩
    exact ⟨v, y, hv, y, y, ⟨rfl, rfl⟩, w, y, ⟨hw, rfl⟩, rfl, rfl⟩

theorem setNamed_eq_ok :
    execute files (.setVariable (some name) value) x = .ok fb y ↔
      ∃ v z w m, variableNamed name x = .ok v z ∧ v.set value = .ok w ∧ w.write z.memory = .ok m ∧
        fb = .variable w.view ∧ y = { z with memory := m } := by
  simp only [execute, setVariable, bind_eq_ok, writeVariable_eq_ok, ofExcept_eq_ok, pure_eq_ok]
  constructor
  · rintro ⟨v, _, hv, w, z, ⟨hw, rfl⟩, _, _, ⟨m, hm, rfl⟩, rfl, rfl⟩
    exact ⟨v, z, w, m, hv, hw, hm, rfl, rfl⟩
  · rintro ⟨v, z, w, m, hv, hw, hm, rfl, rfl⟩
    exact ⟨v, z, hv, w, z, ⟨hw, rfl⟩, (), _, ⟨m, hm, rfl⟩, rfl, rfl⟩

/-! ## Moves -/

theorem move_eq_ok {step : Navigate Unit} :
    move step x = .ok fb y ↔
      ∃ n m, x.nav = some n ∧ step n = .ok () m ∧ fb = .path m.path ∧
        y = { x with nav := some m } := by
  simp only [move, bind_eq_ok, navigate_eq_ok, get_eq_ok, pure_eq_ok]
  constructor
  · rintro ⟨_, _, ⟨n, m, hn, hm, rfl⟩, _, _, ⟨_, _, ⟨⟩, ⟨rfl, rfl⟩, rfl⟩, rfl, rfl⟩
    exact ⟨n, _, hn, hm, rfl, rfl⟩
  · rintro ⟨n, m, hn, hm, rfl, rfl⟩
    exact ⟨(), _, ⟨n, m, hn, hm, rfl⟩, m, _, ⟨m, m, rfl, ⟨rfl, rfl⟩, rfl⟩, rfl, rfl⟩

/-! ## What a run answers -/

variable {c : Command}

theorem run_eq_some :
    x.run files c = some (fb, y) ↔
      execute files c x = .ok fb y ∨
        ∃ e : Error, execute files c x = .error e y ∧ fb = .error e := by
  unfold run
  cases execute files c x with
  | ok a z => simp
  | error f z =>
    cases f with
    | reported e =>
      constructor
      · rintro ⟨⟩
        exact .inr ⟨e, rfl, rfl⟩
      · rintro (h | ⟨_, ⟨⟩, rfl⟩)
        · cases h
        · rfl
    | endless => simp

theorem run_eq_none :
    x.run files c = none ↔ ∃ y, execute files c x = .error .endless y := by
  unfold run
  cases execute files c x with
  | ok a z => simp
  | error f z => cases f <;> simp

theorem run_of_ok (h : execute files c x = .ok fb y) : x.run files c = some (fb, y) :=
  run_eq_some.mpr (.inl h)

end Explorer
end DwarfScope
