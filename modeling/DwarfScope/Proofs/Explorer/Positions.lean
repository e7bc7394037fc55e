import DwarfScope.Proofs.Explorer.Paths
import Mathlib.Algebra.Group.Int.Defs
import Mathlib.Algebra.Group.Nat.Defs

/-!
# Positions in the file

Where a variable is read from and written to if its address is taken relative to the low pc of its
compile unit. A low pc is subtracted as a signed word, so one with the highest bit set does not take
an address down to its distance from the unit but past all of the file.
-/

namespace DwarfScope

open Effect

/-! ## Low addresses -/

theorem Entry.lowPc_lt {e : Entry} {pc : Nat} (h : e.lowPc? = some pc) : pc < 2 ^ 64 := by
  unfold lowPc? at h
  split at h
  · rename_i a _
    obtain rfl : a.toNat = pc := by simpa using h
    exact a.toNat_lt
  · rename_i value _ _
    cases value with
    | udata n =>
      obtain rfl : n.toNat = pc := by simpa [AttrValue.unsigned?] using h
      exact n.toNat_lt
    | sdata n =>
      have hlt := n.toInt_lt
      simp only [AttrValue.unsigned?] at h
      split at h
      · obtain rfl : n.toInt.toNat = pc := by simpa using h
        omega
      · cases h
    | _ => simp [AttrValue.unsigned?] at h
  · cases h

def lowPcOf (unit : Option Entry) : Nat := (unit.bind Entry.lowPc?).getD 0

theorem lowPcOf_lt (unit : Option Entry) : lowPcOf unit < 2 ^ 64 := by
  unfold lowPcOf
  cases h : unit.bind Entry.lowPc? with
  | none => decide
  | some pc =>
    obtain ⟨e, -, he⟩ := Option.bind_eq_some_iff.mp h
    exact Entry.lowPc_lt he

theorem offsetFor_unitLowPc (unit : Option Entry) :
    OffsetRule.unitLowPc.offsetFor unit = (UInt64.ofNat (lowPcOf unit)).toInt64 := by
  unfold OffsetRule.offsetFor lowPcOf
  cases unit.bind Entry.lowPc? <;> rfl

theorem toInt_toInt64_ofNat {pc : Nat} (h : pc < 2 ^ 64) :
    (UInt64.ofNat pc).toInt64.toInt = if pc < 2 ^ 63 then (pc : Int) else pc - 2 ^ 64 := by
  have hbits : (UInt64.ofNat pc).toInt64.toInt = (BitVec.ofNat 64 pc).toInt := rfl
  rw [hbits, BitVec.toInt_eq_toNat_cond, BitVec.toNat_ofNat, Nat.mod_eq_of_lt h]
  split <;> split <;> omega

namespace Contents

/-! ## Positions -/

theorem position_of_out {last address : Nat} {offset : Int64}
    (h : (address : Int) < offset.toInt ∨ 2 ^ 64 ≤ (address : Int) - offset.toInt) :
    position last address offset = .error (.negativeAddress address offset) := by
  have hnone : Address.position? address offset = none := by
    unfold Address.position?
    refine if_neg fun hrange => ?_
    have hsize : ((UInt64.size : Nat) : Int) = 2 ^ 64 := rfl
    omega
  unfold position
  rw [hnone]

/-- Where the bytes of an address are looked for, relative to a low pc. -/
def unitPosition (last address pc : Nat) : Except Error Nat :=
  if pc < 2 ^ 63 then
    if pc ≤ address then reach last (address - pc)
    else .error (.negativeAddress address (UInt64.ofNat pc).toInt64)
  else if address < pc then reach last (2 ^ 64 + address - pc)
  else .error (.negativeAddress address (UInt64.ofNat pc).toInt64)

theorem position_unitLowPc {last address : Nat} (unit : Option Entry) (h : address < 2 ^ 64) :
    position last address (OffsetRule.unitLowPc.offsetFor unit) =
      unitPosition last address (lowPcOf unit) := by
  have hpc := lowPcOf_lt unit
  rw [offsetFor_unitLowPc]
  generalize lowPcOf unit = pc at *
  have hoffset := toInt_toInt64_ofNat hpc
  unfold unitPosition
  by_cases hlow : pc < 2 ^ 63
  · rw [if_pos hlow] at hoffset ⊢
    by_cases hle : pc ≤ address
    · rw [if_pos hle]
      apply position_of_eq <;> omega
    · rw [if_neg hle]
      apply position_of_out
      omega
  · rw [if_neg hlow] at hoffset ⊢
    by_cases hlt : address < pc
    · rw [if_pos hlt]
      apply position_of_eq <;> omega
    · rw [if_neg hlt]
      apply position_of_out
      omega

/-- The address is taken down by just the low pc, and is given up only if it lies below that. -/
def Exact (last address pc : Nat) (position : Except Error Nat) : Prop :=
  (pc ≤ address → position = reach last (address - pc)) ∧
    ∀ a offset, position = .error (.negativeAddress a offset) → address < pc

theorem reach_ne_negative {last q a : Nat} {offset : Int64} :
    reach last q ≠ .error (.negativeAddress a offset) := by
  unfold reach
  split <;> simp

theorem exact_unitPosition_iff {last address pc : Nat} :
    Exact last address pc (unitPosition last address pc) ↔ pc < 2 ^ 63 ∨ address < pc := by
  unfold Exact unitPosition
  constructor
  · rintro ⟨-, hgiven⟩
    by_cases hlow : pc < 2 ^ 63
    · exact .inl hlow
    · by_cases hlt : address < pc
      · exact .inr hlt
      · rw [if_neg hlow, if_neg hlt] at hgiven
        exact .inr (hgiven _ _ rfl)
  · intro h
    by_cases hlt : address < pc
    · exact ⟨fun hle => absurd hle (by omega), fun _ _ _ => hlt⟩
    · rw [if_pos (h.resolve_right hlt), if_pos (by omega)]
      exact ⟨fun _ => rfl, fun a offset hgiven => absurd hgiven reach_ne_negative⟩

end Contents

/-! ## Accesses -/

/-- What is done at a position of the file. -/
inductive Access where
  | read (size : Nat)
  | write (bytes : List UInt8)

/-- The bytes that are read or written, and the file afterwards. -/
def Access.perform (file : Contents) (position : Except Error Nat) :
    Access → Except Error (List UInt8 × Contents)
  | read size => do
    let bytes ← file.read (← position) size
    return (bytes, file)
  | write bytes => do return (bytes, file.write (← position) bytes)

theorem Access.file_of_read {file file' : Contents} {position : Except Error Nat} {size : Nat}
    {bytes : List UInt8} (h : (Access.read size).perform file position = .ok (bytes, file')) :
    file' = file := by
  unfold perform at h
  simp only [bind, Except.bind] at h
  split at h
  · cases h
  · split at h
    · cases h
    · cases h
      rfl

theorem Access.bytes_of_write {file file' : Contents} {position : Except Error Nat}
    {bytes bytes' : List UInt8}
    (h : (Access.write bytes).perform file position = .ok (bytes', file')) : bytes' = bytes := by
  unfold perform at h
  simp only [bind, Except.bind] at h
  split at h
  · cases h
  · cases h
    rfl

namespace Variable

variable {v : Variable} {m : Memory} {c : Client} {bytes : List UInt8}

theorem read_of_client (h : m.clientOf? v.client = some c) :
    v.read m = ((Access.read (v.layout.bitSize / 8)).perform m.contents
      (Contents.position m.lastPosition v.address c.offset)).map
        fun r => { v with value := some r.1 } := by
  unfold read Memory.read Access.perform
  rw [clientIn_eq_ok.mpr h]
  simp only [bind, Except.bind]
  cases Contents.position m.lastPosition v.address c.offset with
  | error e => rfl
  | ok start =>
    dsimp only
    cases hr : m.contents.read start (v.layout.bitSize / 8) with
    | error e => rfl
    | ok bytes =>
      have hlength := (Contents.read_eq_ok.mp hr).1
      exact set_eq_ok.mpr ⟨by omega, rfl⟩

theorem write_of_client (h : m.clientOf? v.client = some c) (hv : v.value = some bytes) :
    v.write m = ((Access.write bytes).perform m.contents
      (Contents.position m.lastPosition v.address c.offset)).map
        fun r => { m with file := some r.2 } := by
  unfold write Memory.write Access.perform
  rw [clientIn_eq_ok.mpr h, get_eq_ok.mpr hv]
  simp only [bind, Except.bind]
  cases Contents.position m.lastPosition v.address c.offset <;> rfl

end Variable

namespace Stream

variable {s : Stream} {e : Entry} {unit : Option Entry} {c d : Cursor}

/-- The compile unit that an entry says it belongs to. -/
def unitOf? (s : Stream) (e : Entry) : Option Entry :=
  if e.tag = .compileUnit then some e
  else ((s.locate? e.unit).bind (s.entries[·]?)).filter (·.tag = .compileUnit)

theorem eq_unitOf? (h : s.enclosingUnit e c = .ok unit d) : unit = s.unitOf? e := by
  unfold unitOf?
  by_cases htag : e.tag = .compileUnit
  · cases (enclosingUnit_self htag).symm.trans h
    rw [if_pos htag]
  · obtain ⟨k, j, hk, -, rfl, -⟩ := (enclosingUnit_eq_ok htag).mp h
    rw [if_neg htag, hk]
    rfl

end Stream

theorem Navigation.Inside.currentUnit? {n : Navigation} {u : Entry} {vs : List Variable}
    {ts : List Layout} (h : n.Inside u vs ts) : n.currentUnit? = some u := by
  unfold Navigation.currentUnit?
  rw [h.levels]
  simp [Navigation.inUnit, h.isUnit]

namespace Explorer

variable {x y : Explorer} {files : Files} {c : Command} {target : Option String} {v w : Variable}
  {unit : Option Entry} {access : Access} {name : String}

/-! ## Commands that come to memory -/

/-- The variable that is meant by a name, or else the current one. -/
def select : Option String → Explore Variable
  | none => currentVariable
  | some name => variableNamed name

def finish : Option String → Variable → Explore Unit
  | none, v => keepVariable v
  | some _, _ => pure ()

theorem execute_read : execute files (.readVariable target) = (do
    let w ← ofExcept ((← select target).read (← get).memory)
    finish target w
    return .variable w.view) := by
  cases target <;> rfl

/-- Gives a variable another value and writes it to memory. -/
def edit (target : Option String) (f : Variable → Except Error Variable) : Explore Feedback := do
  let w ← ofExcept (f (← select target))
  finish target w
  writeVariable w
  return .variable w.view

theorem execute_set {value : List UInt8} :
    execute files (.setVariable target value) = edit target (·.set value) := by
  cases target <;> rfl

/-- The variable that a command means, and the compile unit it belongs to. -/
inductive Target (x : Explorer) : Option String → Variable → Option Entry → Prop
  | current {n : Navigation} {v : Variable} : x.nav = some n → n.currentVariable = .ok v →
    Target x none v n.currentUnit?
  | named {n : Navigation} {name : String} {i : Nat} {e : Entry} {v : Variable} {d : Cursor} :
    x.nav = some n → n.stream.Found name n.cursor.position i → n.stream.entries[i]? = some e →
    n.stream.Seekable e → x.Declared n.stream e v d → Target x (some name) v (n.stream.unitOf? e)

theorem Target.of_findEntry {n : Navigation} {e : Entry} {c d : Cursor} (hn : x.nav = some n)
    (hfind : n.stream.findEntry name n.cursor = .ok (e, unit) c)
    (hw : Variable.ofEntry n.stream e c = .ok w d) :
    x.Target (some name) { w with client := x.memory.client.map Client.id } unit := by
  obtain ⟨i, hi, he, hunit⟩ := Stream.findEntry_eq_ok.mp hfind
  obtain ⟨address, l, haddress, hl, rfl⟩ := Stream.ofEntry_eq_ok.mp hw
  have hseek := Stream.exists_enclosingUnit.mp ⟨unit, c, hunit⟩
  rw [Stream.eq_unitOf? hunit]
  exact .named hn hi he hseek ⟨address, l, haddress, Stream.resolve_cursor hl {}, rfl⟩

theorem Target.select_eq_ok (h : x.Target target v unit) :
    ∃ y, select target x = .ok v y ∧ y.memory = x.memoryAt unit ∧ y.nav.isSome = true := by
  cases h with
  | @current n v hn hv =>
    refine ⟨_, currentVariable_eq_ok.mpr ⟨n, hn, hv, rfl⟩, rfl, ?_⟩
    rw [hn]
    rfl
  | @named n name i e v d hn hi he hseek hv =>
    obtain ⟨address, l, haddress, hl, rfl⟩ := hv
    obtain ⟨unit, c, hunit⟩ := Stream.exists_enclosingUnit.mpr hseek
    have hfind := Stream.findEntry_eq_ok.mpr ⟨i, hi, he, hunit⟩
    have hw := Stream.ofEntry_eq_ok.mpr ⟨address, l, haddress, Stream.resolve_cursor hl c, rfl⟩
    rw [← Stream.eq_unitOf? hunit]
    exact ⟨_, variableNamed_eq_ok.mpr ⟨n, e, unit, c, _, d, hn, hfind, hw, rfl, rfl⟩, rfl, rfl⟩

/-- What the command does in the file, for a variable of a compile unit. -/
inductive Accesses (x : Explorer) : Command → Variable → Option Entry → Access → Prop
  | read {target : Option String} {v : Variable} {unit : Option Entry} :
    x.Target target v unit →
    Accesses x (.readVariable target) v unit (.read (v.layout.bitSize / 8))
  | set {target : Option String} {v w : Variable} {unit : Option Entry} {value : List UInt8} :
    x.Target target v unit → v.set value = .ok w →
    Accesses x (.setVariable target value) v unit (.write value)
  | setField {v w : Variable} {unit : Option Entry} {field : String} {n : UInt64}
    {bytes : List UInt8} :
    x.Target none v unit → v.setField field n = .ok w → w.value = some bytes →
    Accesses x (.setField field n) v unit (.write bytes)

/-- The command answers the variable with the bytes of the access and leaves the file as the access
does, or ends with the error of the access. -/
def Yields (files : Files) (c : Command) (x : Explorer) (v : Variable) :
    Except Error (List UInt8 × Contents) → Prop
  | .ok (bytes, file) =>
    ∃ y, execute files c x = .ok (.variable ({ v with value := some bytes } : Variable).view) y ∧
      y.memory.contents = file
  | .error e => ∃ y, execute files c x = .error e y ∧ y.memory.contents = x.memory.contents

theorem finish_eq_ok (target : Option String) (w : Variable) (h : x.nav.isSome = true) :
    ∃ y, finish target w x = .ok () y ∧ y.memory = x.memory := by
  cases target with
  | none =>
    obtain ⟨n, hn⟩ := Option.isSome_iff_exists.mp h
    exact ⟨_, keepVariable_eq_ok.mpr ⟨n, hn, rfl⟩, rfl⟩
  | some name => exact ⟨x, rfl, rfl⟩

theorem clientOf?_memoryAt {id : Option Nat} {k : Client} (h : x.memory.clientOf? id = some k) :
    (x.memoryAt unit).clientOf? id = some { k with offset := x.offsetRule.offsetFor unit } := by
  obtain ⟨hk, hid⟩ := Option.filter_eq_some_iff.mp h
  unfold Memory.clientOf? memoryAt Memory.setOffset
  rw [hk]
  exact Option.filter_eq_some_iff.mpr ⟨rfl, hid⟩

theorem read_yields {k : Client} (h : x.Target target v unit)
    (hk : x.memory.clientOf? v.client = some k) :
    Yields files (.readVariable target) x v
      ((Access.read (v.layout.bitSize / 8)).perform x.memory.contents
        (Contents.position x.memory.lastPosition v.address (x.offsetRule.offsetFor unit))) := by
  obtain ⟨y, hselect, hmemory, hnav⟩ := h.select_eq_ok
  have hcontents : y.memory.contents = x.memory.contents := by rw [hmemory]; rfl
  have hlast : y.memory.lastPosition = x.memory.lastPosition := by rw [hmemory]; rfl
  have hread := Variable.read_of_client (v := v) (m := y.memory)
    (by rw [hmemory]; exact clientOf?_memoryAt hk)
  have hget : (get : Explore Explorer) y = .ok y y := rfl
  rw [hcontents, hlast] at hread
  dsimp only at hread
  cases hr : (Access.read (v.layout.bitSize / 8)).perform x.memory.contents
      (Contents.position x.memory.lastPosition v.address (x.offsetRule.offsetFor unit)) with
  | error e =>
    rw [hr] at hread
    refine ⟨y, ?_, hcontents⟩
    rw [execute_read, bind_of_ok hselect, bind_of_ok hget]
    exact bind_of_error (ofExcept_of_error hread)
  | ok r =>
    obtain ⟨bytes, file⟩ := r
    rw [hr] at hread
    obtain ⟨z, hfinish, hz⟩ := finish_eq_ok target { v with value := some bytes } hnav
    refine ⟨z, ?_, ?_⟩
    · rw [execute_read, bind_of_ok hselect, bind_of_ok hget,
        bind_of_ok (ofExcept_eq_ok.mpr ⟨hread, rfl⟩), bind_of_ok hfinish]
      rfl
    · rw [hz, hcontents, Access.file_of_read hr]

theorem edit_yields {k : Client} {f : Variable → Except Error Variable} {bytes : List UInt8}
    (hc : execute files c = edit target f) (hf : f v = .ok { v with value := some bytes })
    (h : x.Target target v unit) (hk : x.memory.clientOf? v.client = some k) :
    Yields files c x v
      ((Access.write bytes).perform x.memory.contents
        (Contents.position x.memory.lastPosition v.address (x.offsetRule.offsetFor unit))) := by
  obtain ⟨y, hselect, hmemory, hnav⟩ := h.select_eq_ok
  obtain ⟨z, hfinish, hz⟩ := finish_eq_ok target { v with value := some bytes } hnav
  have hcontents : z.memory.contents = x.memory.contents := by rw [hz, hmemory]; rfl
  have hlast : z.memory.lastPosition = x.memory.lastPosition := by rw [hz, hmemory]; rfl
  have hwrite := Variable.write_of_client (v := { v with value := some bytes }) (m := z.memory)
    (by rw [hz, hmemory]; exact clientOf?_memoryAt hk) rfl
  have hget : (get : Explore Explorer) z = .ok z z := rfl
  rw [hcontents, hlast] at hwrite
  dsimp only at hwrite
  have hrest : execute files c x = (do
      writeVariable { v with value := some bytes }
      return .variable ({ v with value := some bytes } : Variable).view : Explore Feedback) z := by
    rw [hc, edit, bind_of_ok hselect, bind_of_ok (ofExcept_eq_ok.mpr ⟨hf, rfl⟩),
      bind_of_ok hfinish]
  cases hr : (Access.write bytes).perform x.memory.contents
      (Contents.position x.memory.lastPosition v.address (x.offsetRule.offsetFor unit)) with
  | error e =>
    rw [hr] at hwrite
    refine ⟨z, ?_, hcontents⟩
    rw [hrest]
    apply bind_of_error
    unfold writeVariable
    rw [bind_of_ok hget]
    exact bind_of_error (ofExcept_of_error hwrite)
  | ok r =>
    obtain ⟨bytes', file⟩ := r
    rw [hr] at hwrite
    obtain rfl := Access.bytes_of_write hr
    have hwritten := (writeVariable_eq_ok (u := ())).mpr ⟨_, hwrite, rfl⟩
    exact ⟨_, by rw [hrest, bind_of_ok hwritten]; rfl, rfl⟩

theorem Accesses.yields {k : Client} (files : Files) (h : x.Accesses c v unit access)
    (hk : x.memory.clientOf? v.client = some k) :
    Yields files c x v (access.perform x.memory.contents
      (Contents.position x.memory.lastPosition v.address (x.offsetRule.offsetFor unit))) := by
  cases h with
  | read h => exact read_yields h hk
  | set h hw =>
    refine edit_yields execute_set ?_ h hk
    rw [hw, (Variable.set_eq_ok.mp hw).2]
  | setField h hw hbytes =>
    obtain ⟨s, _, -, -, -, rfl⟩ := Variable.setField_eq_ok.mp hw
    obtain rfl := Option.some.inj hbytes
    have hedit : ∀ field n, execute files (.setField field n) = edit none (·.setField field n) :=
      fun _ _ => rfl
    exact edit_yields (hedit _ _) hw h hk

/-! ## The offset rule through a session -/

theorem navigate_keeps_rule {α : Type} (step : Navigate α) : Keeps offsetRule (navigate step) := by
  intro x
  unfold after navigate
  cases x.nav with
  | none => rfl
  | some n =>
    dsimp only
    cases step n <;> rfl

theorem applyOffset_keeps_rule (unit : Option Entry) : Keeps offsetRule (applyOffset unit) :=
  fun _ => rfl

theorem select_keeps_rule (target : Option String) : Keeps offsetRule (select target) := by
  cases target with
  | none =>
    apply Keeps.bind (navigate_keeps_rule _)
    intro n
    exact Keeps.bind (applyOffset_keeps_rule _) fun _ => Keeps.ofExcept _
  | some name =>
    apply Keeps.bind (navigate_keeps_rule _)
    rintro ⟨e, unit⟩
    apply Keeps.bind (navigate_keeps_rule _)
    intro v
    apply Keeps.bind (applyOffset_keeps_rule unit)
    intro _
    exact Keeps.bind Keeps.get fun _ => Keeps.pure _

theorem finish_keeps_rule (target : Option String) (w : Variable) :
    Keeps offsetRule (finish target w) := by
  cases target with
  | none => exact navigate_keeps_rule (modify (·.setCurrentVariable w))
  | some name => exact Keeps.pure _

theorem edit_keeps_rule (target : Option String) (f : Variable → Except Error Variable) :
    Keeps offsetRule (edit target f) := by
  apply Keeps.bind (select_keeps_rule target)
  intro v
  apply Keeps.bind (Keeps.ofExcept _)
  intro w
  apply Keeps.bind (finish_keeps_rule target w)
  intro _
  refine Keeps.bind (Keeps.bind Keeps.get fun _ => ?_) fun _ => Keeps.pure _
  exact Keeps.bind (Keeps.ofExcept _) fun _ => Keeps.modify fun _ => rfl

theorem move_keeps_rule (step : Navigate Unit) : Keeps offsetRule (move step) :=
  Keeps.bind (navigate_keeps_rule _) fun _ =>
    Keeps.bind (navigate_keeps_rule _) fun _ => Keeps.pure _

theorem execute_keeps_rule (h : ∀ offset, c ≠ .setOffset offset) :
    Keeps offsetRule (execute files c) := by
  cases c with
  | readVariable target =>
    rw [execute_read]
    apply Keeps.bind (select_keeps_rule target)
    intro v
    apply Keeps.bind Keeps.get
    intro x
    apply Keeps.bind (Keeps.ofExcept _)
    intro w
    exact Keeps.bind (finish_keeps_rule target w) fun _ => Keeps.pure _
  | setVariable target value =>
    rw [execute_set]
    exact edit_keeps_rule target _
  | setField field n => exact edit_keeps_rule none _
  | setOffset offset => exact absurd rfl (h offset)
  | stepInto name => exact move_keeps_rule _
  | back => exact move_keeps_rule _
  | reset => exact move_keeps_rule _
  | currentType => exact Keeps.bind (navigate_keeps_rule _) fun _ => Keeps.pure _
  | loadDebugFile path =>
    intro x
    cases h : execute files (.loadDebugFile path) x with
    | ok fb y =>
      obtain ⟨_, _, -, -, rfl⟩ := openDebugFile_eq_ok.mp (loadDebugFile_eq_ok.mp h).1
      rw [after_of_ok h]
      rfl
    | error f y =>
      rw [after_of_error h]
      exact (shown_eq_shown.mp (loadDebugFile_keepsFailing path x f y h)).1
  | _ =>
    -- The others are questions, which change nothing that is shown.
    intro x
    exact (shown_eq_shown.mp (execute_keeps rfl x)).1

theorem run_rule {fb : Feedback} (hc : ∀ offset, c ≠ .setOffset offset)
    (h : x.run files c = some (fb, y)) : y.offsetRule = x.offsetRule := by
  rcases run_eq_some.mp h with hok | ⟨e, herror, -⟩
  · exact (execute_keeps_rule hc).ok hok
  · exact (execute_keeps_rule hc).failing x e y herror

theorem runAll_rule {cs : List Command} (h : ∀ c ∈ cs, ∀ offset, c ≠ .setOffset offset)
    (hy : x.runAll files cs = some y) : y.offsetRule = x.offsetRule := by
  induction cs generalizing x with
  | nil =>
    obtain rfl := Option.some.inj hy
    rfl
  | cons c cs ih =>
    obtain ⟨fb, z, hz, hy⟩ := runAll_cons.mp hy
    have hfirst := run_rule (h c List.mem_cons_self) hz
    exact (ih (fun c hc => h c (List.mem_cons_of_mem _ hc)) hy).trans hfirst

/-! ## Sessions without offsets of their own -/

theorem Target.inside (hx : x.Sound) (h : x.Target none v unit) :
    ∃ n u vs, x.nav = some n ∧ unit = some u ∧ n.Inside u (v :: vs) [] := by
  cases h with
  | @current n v hn hv =>
    obtain ⟨u, vs, hinside⟩ := (hx.housed n hn).of_currentVariable hv
    exact ⟨n, u, vs, hn, hinside.currentUnit?, hinside⟩

/-- Addresses are taken relative to the low pc of the compile unit of the variable at hand, whatever
was accessed before, and the current variable stands below the unit that is taken for its own. This
is exact unless the low pc has its highest bit set and the address does not lie below it. -/
theorem access_position {cs : List Command} (hx : x.Reachable) (hrule : x.offsetRule = .unitLowPc)
    (hcs : ∀ c ∈ cs, ∀ offset, c ≠ .setOffset offset) (hy : x.runAll files cs = some y)
    (h : y.Accesses c v unit access) (hclient : (y.memory.clientOf? v.client).isSome = true)
    (haddress : v.address < 2 ^ 64) :
    Yields files c y v
      (access.perform y.memory.contents
        (Contents.unitPosition y.memory.lastPosition v.address (lowPcOf unit))) ∧
    (Contents.Exact y.memory.lastPosition v.address (lowPcOf unit)
        (Contents.unitPosition y.memory.lastPosition v.address (lowPcOf unit)) ↔
      lowPcOf unit < 2 ^ 63 ∨ v.address < lowPcOf unit) ∧
    (y.Target none v unit →
      ∃ n u vs, y.nav = some n ∧ unit = some u ∧ n.Inside u (v :: vs) []) := by
  obtain ⟨k, hk⟩ := Option.isSome_iff_exists.mp hclient
  have hyields := h.yields files hk
  rw [runAll_rule hcs hy, hrule, Contents.position_unitLowPc unit haddress] at hyields
  exact ⟨hyields, Contents.exact_unitPosition_iff, Target.inside (hx.runAll hy).sound⟩

end Explorer

/-- Two compile units with a variable at the start of each. The first one starts at 4096. -/
def Stream.Builder.unitsAt (pc : UInt64) : Stream.Builder :=
  ((((((({} : Builder).begin .compileUnit [(.name, .text "a.c"), (.lowPc, .address 0x1000)]).leaf
    .baseType [(.name, .text "byte"), (.byteSize, .udata 1)]).leaf
    .var [(.name, .text "x"), (.type, .ref 12), (.location, .address 0x1000)]).close).begin
    .compileUnit [(.name, .text "b.c"), (.lowPc, .address pc)]).leaf
    .var [(.name, .text "y"), (.type, .ref 12), (.location, .address pc)]).close

def Explorer.unitsAt (pc : UInt64) : Explorer :=
  Explorer.setEntries
    { offsetRule := .unitLowPc
      memory := { file := some #[7], client := some ⟨0, 0⟩, issued := 1 } }
    (Stream.Builder.unitsAt pc).build

namespace Explorer

theorem exists_read (x : Explorer) (name : String) (pc address : Nat)
    (hunit : (x.nav.bind fun n =>
      (result? (n.stream.findEntry name) n.cursor).map fun r => lowPcOf r.2) = some pc)
    (hv : (result? (variableNamed name) x).map (fun v =>
      (v.address, (x.memory.clientOf? v.client).isSome)) = some (address, true)) :
    ∃ v unit, x.Accesses (.readVariable (some name)) v unit (.read (v.layout.bitSize / 8)) ∧
      lowPcOf unit = pc ∧ v.address = address ∧ (x.memory.clientOf? v.client).isSome = true := by
  unfold result? at hv
  cases hselect : variableNamed name x with
  | error e y => simp [hselect] at hv
  | ok v y =>
    rw [hselect] at hv
    obtain ⟨haddress, hclient⟩ : v.address = address ∧ _ := by simpa using hv
    obtain ⟨n, e, unit, c, w, d, hn, hfind, hw, rfl, -⟩ := variableNamed_eq_ok.mp hselect
    rw [hn, Option.bind_some, result?_of_ok hfind, Option.map_some, Option.some.injEq] at hunit
    exact ⟨_, unit, .read (.of_findEntry hn hfind hw), hunit, haddress, hclient⟩

theorem access_position_low :
    ∃ y v unit, (unitsAt 0x2000).runAll noFiles [.readVariable (some "x")] = some y ∧
      y.Accesses (.readVariable (some "y")) v unit (.read (v.layout.bitSize / 8)) ∧
      v.address = 0x2000 ∧ lowPcOf unit = 0x2000 ∧
      Yields noFiles (.readVariable (some "y")) y v
        ((Access.read (v.layout.bitSize / 8)).perform y.memory.contents
          (Contents.reach y.memory.lastPosition 0)) := by
  obtain ⟨v, unit, haccess, hpc, haddress, hclient⟩ := exists_read
    (((unitsAt 0x2000).runAll noFiles [.readVariable (some "x")]).get (by decide +kernel))
    "y" 0x2000 0x2000 (by decide +kernel) (by decide +kernel)
  have hreachable : (unitsAt 0x2000).Reachable := (Reachable.start _ _).entries _
  obtain ⟨hyields, hexact, -⟩ := access_position hreachable rfl
    (by simp) (Option.some_get _).symm haccess hclient (by omega)
  have hlow := (hexact.mpr (.inl (by omega))).1 (by omega)
  rw [hlow, haddress, hpc] at hyields
  exact ⟨_, v, unit, (Option.some_get _).symm, haccess, haddress, hpc, hyields⟩

/-- The unit and its variable stand at one address in the upper half of the address space. The
variable is not looked for at the start of the file but given up. -/
theorem access_position_high :
    (unitsAt 0xffffffff80000000).Reachable ∧
      (unitsAt 0xffffffff80000000).offsetRule = .unitLowPc ∧
      ∃ v unit, (unitsAt 0xffffffff80000000).Accesses (.readVariable (some "y")) v unit
          (.read (v.layout.bitSize / 8)) ∧
        v.address = 0xffffffff80000000 ∧ lowPcOf unit = 0xffffffff80000000 ∧
        ∃ offset y, execute noFiles (.readVariable (some "y")) (unitsAt 0xffffffff80000000) =
          .error (Error.negativeAddress v.address offset) y := by
  obtain ⟨v, unit, haccess, hpc, haddress, hclient⟩ := exists_read
    (unitsAt 0xffffffff80000000) "y" 0xffffffff80000000 0xffffffff80000000
    (by decide +kernel) (by decide +kernel)
  obtain ⟨k, hk⟩ := Option.isSome_iff_exists.mp hclient
  have hyields := haccess.yields noFiles hk
  have hrule : (unitsAt 0xffffffff80000000).offsetRule = .unitLowPc := rfl
  have hgiven : ∀ last, Contents.unitPosition last v.address (lowPcOf unit) =
      .error (.negativeAddress v.address (UInt64.ofNat (lowPcOf unit)).toInt64) := by
    intro last
    unfold Contents.unitPosition
    rw [if_neg (by omega), if_neg (by omega)]
  rw [hrule, Contents.position_unitLowPc unit (by omega), hgiven] at hyields
  obtain ⟨y, hy, -⟩ := hyields
  exact ⟨(Reachable.start _ _).entries _, rfl, v, unit, haccess, haddress, hpc, _, y, hy⟩

end Explorer
end DwarfScope
