import DwarfScope.Proofs.Explorer.Levels
import DwarfScope.Proofs.Explorer.Shown
import DwarfScope.Stream.Builder

/-!
# Sessions

What one command can do to an explorer, and what therefore holds all through a session.
-/

namespace DwarfScope

open Effect

namespace Explorer

variable {x y z : Explorer} {files : Files} {c : Command}

/-! ## What one command can change -/

/-- What a command can do to what is shown: at most one of these. -/
inductive Change (x : Explorer) : Explorer → Prop where
  | nothing : Change x x
  | load (stream : Stream) (path : String) :
    Change x { x.setEntries stream with debugFile := some path }
  | move (n : Navigation) (levels : List Level) : x.nav = some n → n.Step levels →
    Change x { x with nav := some { n with levels } }
  /-- The current variable gets a value, the file perhaps other contents. -/
  | assign (n : Navigation) (v : Variable) (bytes : List UInt8) (file : Option Contents) :
    x.nav = some n → n.currentVariable = .ok v →
    Change x { x with
      nav := some (n.setCurrentVariable { v with value := some bytes })
      memory := { x.memory with file } }
  | write (file : Option Contents) : Change x { x with memory := { x.memory with file } }
  | offset (offset : Int64) : Change x { x with offsetRule := .fixed offset }

/-- What every command keeps: variables that are stepped into get the attached client, the way
back is open, and the place reached lies in one compile unit. -/
structure Sound (x : Explorer) : Prop where
  client : ∀ n, x.nav = some n → n.client = x.memory.client.map Client.id
  placed : ∀ n, x.nav = some n → n.Placed
  housed : ∀ n, x.nav = some n → n.Housed

theorem Sound.of_shown_eq (hx : x.Sound) (h : y.shown = x.shown) : y.Sound := by
  obtain ⟨-, -, hnav, hmemory⟩ := shown_eq_shown.mp h
  have hclient : y.memory.client.map Client.id = x.memory.client.map Client.id := by
    rw [← Memory.setOffset_client_id y.memory 0, hmemory, Memory.setOffset_client_id]
  have hnavigation : ∀ m, y.nav = some m → ∃ n, x.nav = some n ∧ n.shown = m.shown := by
    intro m hm
    rw [hm] at hnav
    simpa using hnav.symm
  constructor
  · intro m hm
    obtain ⟨n, hn, hshown⟩ := hnavigation m hm
    rw [hclient, ← hx.client n hn, Navigation.eq_of_shown_eq hshown]
  · intro m hm
    obtain ⟨n, hn, hshown⟩ := hnavigation m hm
    have hplaced := hx.placed n hn
    rw [Navigation.eq_of_shown_eq hshown] at hplaced
    exact hplaced
  · intro m hm
    obtain ⟨n, hn, hshown⟩ := hnavigation m hm
    have hhoused := hx.housed n hn
    rw [Navigation.eq_of_shown_eq hshown] at hhoused
    exact hhoused.of_eq rfl rfl

theorem setEntries_sound (x : Explorer) (stream : Stream) : (x.setEntries stream).Sound := by
  constructor
  · rintro _ ⟨⟩
    rfl
  · rintro _ ⟨⟩ e he
    cases he
  · rintro _ ⟨⟩
    exact .outside rfl

theorem Change.sound (h : x.Change z) (hx : x.Sound) : z.Sound := by
  cases h with
  | nothing => exact hx
  | load stream path =>
    have h := setEntries_sound x stream
    exact ⟨h.client, h.placed, h.housed⟩
  | move n levels hn hstep =>
    constructor
    · rintro _ ⟨⟩
      exact hx.client n hn
    · rintro _ ⟨⟩ e he
      exact hstep.placed (hx.placed n hn) he
    · rintro _ ⟨⟩
      exact hstep.housed (hx.housed n hn)
  | assign n v bytes file hn hv =>
    obtain ⟨rest, hlevels⟩ := Navigation.currentVariable_eq_ok.mp hv
    constructor
    · rintro _ ⟨⟩
      rw [Navigation.setCurrentVariable_eq hlevels]
      exact hx.client n hn
    · rintro _ ⟨⟩
      rw [Navigation.setCurrentVariable_eq hlevels]
      intro e he
      have hrest : Level.entry e ∈ rest := by simpa using he
      exact hx.placed n hn e (by simp [hlevels, hrest])
    · rintro _ ⟨⟩
      exact (hx.housed n hn).assign hv (some bytes)
  | write file => exact ⟨hx.client, hx.placed, hx.housed⟩
  | offset offset => exact ⟨hx.client, hx.placed, hx.housed⟩

/-! ## What commands do to a sound explorer -/

theorem back_eq_ok {n : Navigation} (files : Files) (hx : x.Sound) (hn : x.nav = some n) :
    ∃ fb c, execute files .back x =
      .ok fb { x with nav := some { n with levels := n.levels.tail, cursor := c } } := by
  obtain ⟨c, hback, -⟩ := Navigation.back_eq_ok (hx.placed n hn)
  exact ⟨_, c, move_eq_ok.mpr ⟨n, _, hn, hback, rfl, rfl⟩⟩

/-- Only an edit can fail after it has changed something. -/
theorem shown_of_fails (hx : x.Sound) (hc : c.edit? = none) {e : Failure}
    (h : execute files c x = .error e y) : y.shown = x.shown := by
  by_cases hasks : c.asks = true
  · exact (execute_keeps hasks).failing x e y h
  cases c with
  | loadDebugFile path => exact loadDebugFile_keepsFailing path x e y h
  | stepInto name => exact move_keepsFailing (Navigation.stepInto_keepsFailing name) x e y h
  | back =>
    cases hn : x.nav with
    | none =>
      simp only [execute, move, bind_eq_error, navigate, hn] at h
      obtain ⟨⟨⟩⟩ | ⟨_, _, ⟨⟩, _⟩ := h
      rfl
    | some n =>
      obtain ⟨fb, c, hok⟩ := back_eq_ok files hx hn
      cases h.symm.trans hok
  | reset => exact move_keepsFailing (by rintro _ _ _ ⟨⟩) x e y h
  | currentType =>
    exact (navigate_keepsFailing Navigation.stepToType_keepsFailing).map _ x e y h
  | readVariable name =>
    cases name with
    | none => exact readCurrent_keepsFailing x e y h
    | some name => exact absurd rfl hasks
  | setVariable name value =>
    cases name with
    | none => cases hc
    | some name => exact setNamed_keepsFailing name value x e y h
  | setField field n => cases hc
  | setOffset offset => cases h
  | _ => exact absurd rfl hasks

theorem change_of_edit {edit : Variable → Except Error Variable} {fb : Feedback}
    (hc : c.edit? = some edit) (h : editCurrent edit x = .ok fb y) :
    ∃ z, x.Change z ∧ y.shown = z.shown := by
  obtain ⟨n, v, w, m, hn, hv, hedit, hm, -, rfl⟩ := editCurrent_eq_ok.mp h
  obtain ⟨bytes, rfl⟩ := edit_eq_ok hc hedit
  obtain ⟨_, start, written, -, -, -, rfl⟩ := Variable.write_eq_ok.mp hm
  refine ⟨_, .assign n v bytes (some (x.memory.contents.write start written)) hn hv, ?_⟩
  exact shown_file (x := { x with nav := some (n.setCurrentVariable _) }) _ _

theorem change_of_ok (hx : x.Sound) {fb : Feedback} (h : execute files c x = .ok fb y) :
    ∃ z, x.Change z ∧ y.shown = z.shown := by
  by_cases hasks : c.asks = true
  · exact ⟨x, .nothing, (execute_keeps hasks).ok h⟩
  cases c with
  | loadDebugFile path =>
    obtain ⟨hopen, -⟩ := loadDebugFile_eq_ok.mp h
    obtain ⟨_, stream, -, -, rfl⟩ := openDebugFile_eq_ok.mp hopen
    exact ⟨_, .load stream path, rfl⟩
  | stepInto name =>
    obtain ⟨n, m, hn, hstep, -, rfl⟩ := move_eq_ok.mp h
    obtain ⟨level, c, rfl, hlevels⟩ := Navigation.stepInto_eq_ok hstep
    exact ⟨_, .move n _ hn hlevels, rfl⟩
  | back =>
    obtain ⟨n, m, hn, -, -, -⟩ := move_eq_ok.mp h
    obtain ⟨fb', c, hok⟩ := back_eq_ok files hx hn
    obtain ⟨-, rfl⟩ : fb = fb' ∧ y = _ := by simpa using h.symm.trans hok
    exact ⟨_, .move n _ hn .back, rfl⟩
  | reset =>
    obtain ⟨n, m, hn, hstep, -, rfl⟩ := move_eq_ok.mp h
    cases (Navigation.reset_eq_ok n).symm.trans hstep
    exact ⟨_, .move n _ hn .reset, rfl⟩
  | currentType =>
    simp only [execute, bind_eq_ok, navigate_eq_ok, pure_eq_ok] at h
    obtain ⟨l, _, ⟨n, m, hn, hstep, rfl⟩, -, rfl⟩ := h
    rcases Navigation.stepToType_eq_ok hstep with rfl | ⟨rfl, hlevels⟩
    · refine ⟨x, .nothing, ?_⟩
      rw [← hn]
    · exact ⟨_, .move n _ hn hlevels, rfl⟩
  | readVariable name =>
    cases name with
    | some name => exact absurd rfl hasks
    | none =>
      obtain ⟨n, v, w, hn, hv, hw, -, rfl⟩ := readCurrent_eq_ok.mp h
      obtain ⟨_, _, bytes, -, -, -, rfl⟩ := Variable.read_eq_ok.mp hw
      refine ⟨_, .assign n v bytes x.memory.file hn hv, ?_⟩
      exact shown_memoryAt (x := { x with nav := some (n.setCurrentVariable _) }) _
  | setVariable name value =>
    cases name with
    | some name =>
      obtain ⟨v, z, w, m, hv, -, hm, -, rfl⟩ := setNamed_eq_ok.mp h
      obtain ⟨n, e, unit, c, w', d, hn, -, -, -, rfl⟩ := variableNamed_eq_ok.mp hv
      obtain ⟨_, start, bytes, -, -, -, rfl⟩ := Variable.write_eq_ok.mp hm
      refine ⟨_, .write (some (x.memory.contents.write start bytes)), ?_⟩
      apply (shown_file (x := { x with nav := some { n with cursor := d } }) _ _).trans
      unfold shown
      rw [hn]
      rfl
    | none => exact change_of_edit (c := .setVariable none value) rfl h
  | setField field n => exact change_of_edit (c := .setField field n) rfl h
  | setOffset offset =>
    simp only [execute, setOffset, bind_eq_ok, modify_eq_ok, applyOffset_eq_ok, pure_eq_ok] at h
    obtain ⟨_, _, rfl, _, _, rfl, -, rfl⟩ := h
    exact ⟨_, .offset offset, shown_memoryAt (x := { x with offsetRule := .fixed offset }) none⟩
  | _ => exact absurd rfl hasks

/-- One command, whether it succeeds or fails, changes at most one thing. -/
theorem change_of_run (hx : x.Sound) {fb : Feedback} (h : x.run files c = some (fb, y)) :
    ∃ z, x.Change z ∧ y.shown = z.shown := by
  rcases run_eq_some.mp h with hok | ⟨e, herror, -⟩
  · exact change_of_ok hx hok
  · cases hc : c.edit? with
    | none => exact ⟨x, .nothing, shown_of_fails hx hc herror⟩
    | some edit =>
      rw [execute_edit hc] at herror
      rcases editCurrent_eq_error herror with ⟨hshown, -⟩ | ⟨n, v, w, hn, hv, hw, hshown⟩
      · exact ⟨x, .nothing, hshown⟩
      · obtain ⟨bytes, rfl⟩ := edit_eq_ok hc hw
        exact ⟨_, .assign n v bytes x.memory.file hn hv, hshown⟩

theorem shown_of_asks (hc : c.asks = true) {fb : Feedback} (h : x.run files c = some (fb, y)) :
    y.shown = x.shown := by
  rcases run_eq_some.mp h with hok | ⟨e, herror, -⟩
  · exact (execute_keeps hc).ok hok
  · exact (execute_keeps hc).failing x e y herror

/-! ## Sessions -/

/-- The explorers that a session can come to: commands are carried out in any order, and in
between the program and the memory may be given directly. -/
inductive Reachable : Explorer → Prop where
  | start (rule : OffsetRule) (memory : Memory) : Reachable { offsetRule := rule, memory }
  | entries {x : Explorer} (stream : Stream) : Reachable x → Reachable (x.setEntries stream)
  | memory {x : Explorer} (memory : Memory) : Reachable x → Reachable (x.setMemory memory)
  | command {x y : Explorer} {files : Files} {c : Command} {fb : Feedback} :
    Reachable x → x.run files c = some (fb, y) → Reachable y

theorem Sound.run (hx : x.Sound) {fb : Feedback} (h : x.run files c = some (fb, y)) :
    y.Sound := by
  obtain ⟨z, hz, hshown⟩ := change_of_run hx h
  exact (hz.sound hx).of_shown_eq hshown

theorem Reachable.sound (h : x.Reachable) : x.Sound := by
  induction h with
  | start rule memory => exact ⟨by simp, by simp, by simp⟩
  | entries stream => exact setEntries_sound _ stream
  | memory memory _ ih =>
    constructor
    · intro m hm
      obtain ⟨n, -, rfl⟩ := Option.map_eq_some_iff.mp hm
      rfl
    · intro m hm
      obtain ⟨n, hn, rfl⟩ := Option.map_eq_some_iff.mp hm
      exact ih.placed n hn
    · intro m hm
      obtain ⟨n, hn, rfl⟩ := Option.map_eq_some_iff.mp hm
      exact (ih.housed n hn).of_eq rfl rfl
  | command _ hrun ih => exact ih.run hrun

/-! ## The current variable -/

def current? (x : Explorer) : Option Variable := x.nav.bind fun n => n.currentVariable.toOption

theorem current?_eq_some {v : Variable} :
    x.current? = some v ↔ ∃ n, x.nav = some n ∧ n.currentVariable = .ok v := by
  simp only [current?, Option.bind_eq_some_iff, toOption_eq_some]

theorem current?_of_shown_eq (h : y.shown = x.shown) : y.current? = x.current? := by
  have hcurrent : ∀ z : Explorer, z.shown.current? = z.current? := by
    intro z
    unfold current? shown
    cases z.nav <;> rfl
  rw [← hcurrent y, h, hcurrent x]

/-! ## Several commands -/

/-- Carries out commands one after the other. None if one of them never comes to an end. -/
def runAll (files : Files) (cs : List Command) (x : Explorer) : Option Explorer :=
  cs.foldlM (fun x c => (x.run files c).map Prod.snd) x

theorem runAll_cons {cs : List Command} :
    x.runAll files (c :: cs) = some y ↔
      ∃ fb z, x.run files c = some (fb, z) ∧ z.runAll files cs = some y := by
  simp only [runAll, List.foldlM_cons, Option.bind_eq_bind, Option.bind_eq_some_iff,
    Option.map_eq_some_iff, Prod.exists, exists_eq_right]
  constructor
  · rintro ⟨z, ⟨fb, hz⟩, hy⟩
    exact ⟨fb, z, hz, hy⟩
  · rintro ⟨fb, z, hz, hy⟩
    exact ⟨z, ⟨fb, hz⟩, hy⟩

theorem Reachable.runAll {cs : List Command} (h : x.Reachable)
    (hy : x.runAll files cs = some y) : y.Reachable := by
  induction cs generalizing x with
  | nil =>
    obtain rfl := Option.some.inj hy
    exact h
  | cons c cs ih =>
    obtain ⟨fb, z, hz, hy⟩ := runAll_cons.mp hy
    exact ih (h.command hz) hy

end Explorer

/-! ## A small session -/

/-- A program with one variable, a pair of bytes at the address zero. -/
def Stream.Builder.bytePair : Stream.Builder :=
  (((((((({} : Builder).begin .compileUnit [(.name, .text "main.c")]).leaf
    .baseType [(.name, .text "byte"), (.byteSize, .udata 1)]).begin
    .structureType [(.name, .text "Pair"), (.byteSize, .udata 2)]).leaf
    .member [(.name, .text "a"), (.type, .ref 12), (.dataMemberLocation, .udata 0)]).leaf
    .member [(.name, .text "b"), (.type, .ref 12), (.dataMemberLocation, .udata 1)]).close).leaf
    .var [(.name, .text "pair"), (.type, .ref 13), (.location, .address 0)]).close

theorem Stream.named_bytePair {i : Nat} (h : Builder.bytePair.build.Named "pair" i) : i = 6 := by
  have hlt : i < 8 := h.lt_size
  obtain ⟨e, he, hname⟩ := h
  have hall : ∀ i < 8, (Builder.bytePair.build.entries[i]?.bind Entry.name?) = some "pair" →
      i = 6 := by decide +kernel
  apply hall i hlt
  rw [he]
  exact hname

def noFiles : Files := { read := fun _ => .error .notFound, inflate := fun _ _ _ => none }

def Explorer.unreadPair : Explorer :=
  Explorer.setEntries { memory := { file := some #[0, 0], client := some ⟨0, 0⟩, issued := 1 } }
    Stream.Builder.bytePair.build

def Explorer.bytePair : Explorer :=
  (unreadPair.runAll noFiles [.stepInto "main.c", .stepInto "pair", .readVariable none]).get
    (by decide +kernel)

theorem Explorer.reachable_bytePair : Explorer.bytePair.Reachable :=
  ((Explorer.Reachable.start _ _).entries _).runAll (Option.some_get _).symm

end DwarfScope
