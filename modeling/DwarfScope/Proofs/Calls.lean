import DwarfScope.Proofs.Effect
import DwarfScope.Proofs.Memory

/-!
# Calls to a client

Bytes are read and written through a client, and its offset is changed, in any order. What the file
holds then can be told from the calls alone: at each place stands the byte that was written there
last.
-/

namespace DwarfScope

open Effect

/-- A memory and the client that is attached to it. -/
structure Attachment where
  memory : Memory
  client : Client
  attached : memory.client = some client

inductive Call where
  | read (address size : Nat)
  | write (address : Nat) (bytes : List UInt8)
  | setOffset (offset : Int64)
  deriving Repr, DecidableEq

namespace Attachment

def contents (x : Attachment) : Contents := x.memory.contents

def withContents (x : Attachment) (file : Contents) : Attachment where
  memory := { x.memory with file := some file }
  client := x.client
  attached := x.attached

def setOffset (x : Attachment) (offset : Int64) : Attachment where
  memory := x.memory.setOffset offset
  client := { x.client with offset }
  attached := by simp [Memory.setOffset, x.attached]

@[simp] theorem contents_withContents (x : Attachment) (file : Contents) :
    (x.withContents file).contents = file := rfl

end Attachment

/-- Carries out a call. A read answers the bytes, the other calls answer none. -/
def Call.perform (last : Nat) : Call → EStateM Error Attachment (List UInt8)
  | .read address size => do
    let x ← get
    let position ← ofExcept (Contents.position last address x.client.offset)
    ofExcept (x.contents.read position size)
  | .write address bytes => do
    let x ← get
    let position ← ofExcept (Contents.position last address x.client.offset)
    set (x.withContents (x.contents.write position bytes))
    return []
  | .setOffset offset => do
    modify (·.setOffset offset)
    return []

/-- Calls one after the other, whether they succeed or fail. -/
def Attachment.performAll (last : Nat) (calls : List Call) (x : Attachment) : Attachment :=
  calls.foldl (fun x call => after (call.perform last) x) x

/-! ## What the calls tell -/

/-- The file at first, and what calls have done to it since. -/
structure History where
  initial : Contents
  offset : Int64
  /-- The positions and the bytes that were written there, the last write first. -/
  log : List (Nat × List UInt8) := []

namespace History

def size (h : History) : Nat :=
  h.log.foldr (fun (position, bytes) size => max size (position + bytes.length)) h.initial.size

/-- The byte that was written last at a place. -/
def written? (h : History) (i : Nat) : Option UInt8 :=
  h.log.findSome? fun (position, bytes) => if position ≤ i then bytes[i - position]? else none

def byte (h : History) (i : Nat) : UInt8 := (h.written? i).getD (h.initial[i]?.getD 0)

def put (h : History) (position : Nat) (bytes : List UInt8) : History :=
  { h with log := (position, bytes) :: h.log }

/-- The difference of address and offset is a position if it is a number of 64 bits. -/
def position (last : Nat) (h : History) (address : Nat) : Except Error Nat :=
  let p : Int := address - h.offset.toInt
  if p < 0 ∨ UInt64.size ≤ p then .error (.negativeAddress address h.offset)
  else if last < p then .error (.file .positionTooLarge)
  else .ok p.toNat

def answer (last : Nat) (h : History) : Call → Except Error (List UInt8)
  | .read address size => do
    let p ← h.position last address
    if 0 < size ∧ h.size < p + size then .error (.shortRead size (h.size - p))
    else .ok ((List.range size).map fun i => h.byte (p + i))
  | .write address _ => (fun _ => []) <$> h.position last address
  | .setOffset _ => .ok []

def record (last : Nat) (h : History) : Call → History
  | .read .. => h
  | .write address bytes =>
    match h.position last address with
    | .ok p => if bytes = [] then h else h.put p bytes
    | .error _ => h
  | .setOffset offset => { h with offset }

def recordAll (last : Nat) (calls : List Call) (h : History) : History :=
  calls.foldl (record last) h

end History

def History.start (x : Attachment) : History := { initial := x.contents, offset := x.client.offset }

/-- The file and the offset are those that the calls tell. -/
structure Attachment.Shows (x : Attachment) (h : History) : Prop where
  offset : x.client.offset = h.offset
  size : x.contents.size = h.size
  byte : ∀ i < h.size, x.contents[i]? = some (h.byte i)

namespace History

variable {h : History} {p i last address size : Nat} {bytes : List UInt8} {b : UInt8}

@[simp] theorem size_put : (h.put p bytes).size = max h.size (p + bytes.length) := rfl

theorem written?_put :
    (h.put p bytes).written? i =
      if p ≤ i ∧ i < p + bytes.length then bytes[i - p]? else h.written? i := by
  unfold written? put
  rw [List.findSome?_cons]
  by_cases hp : p ≤ i
  · by_cases hi : i < p + bytes.length
    · have hlt : i - p < bytes.length := by omega
      have hget : bytes[i - p]? = some bytes[i - p] := List.getElem?_eq_getElem hlt
      simp only [hp, hi, and_self, if_true, hget]
    · have hget : bytes[i - p]? = none := List.getElem?_eq_none (by omega)
      simp only [hp, hi, and_false, if_true, if_false, hget]
  · simp only [hp, false_and, if_false]

@[elab_as_elim]
theorem inductionOn {P : History → Prop} (h : History)
    (start : ∀ initial offset, P { initial, offset })
    (put : ∀ h p bytes, P h → P (h.put p bytes)) : P h := by
  obtain ⟨initial, offset, log⟩ := h
  induction log with
  | nil => exact start initial offset
  | cons w log ih => exact put _ w.1 w.2 ih

theorem size_initial_le (h : History) : h.initial.size ≤ h.size := by
  induction h using inductionOn with
  | start => exact Nat.le_refl _
  | put h p bytes ih => exact Nat.le_trans ih (Nat.le_max_left _ _)

theorem lt_size_of_written? (hb : h.written? i = some b) : i < h.size := by
  induction h using inductionOn with
  | start => cases hb
  | put h p bytes ih =>
    rw [written?_put] at hb
    rw [size_put]
    split at hb
    · omega
    · have := ih hb
      omega

theorem byte_of_size_le (hi : h.size ≤ i) : h.byte i = 0 := by
  have hwritten : h.written? i = none := by
    cases hb : h.written? i with
    | none => rfl
    | some b =>
      have := lt_size_of_written? hb
      omega
  have := h.size_initial_le
  rw [byte, hwritten, Array.getElem?_eq_none (by omega)]
  rfl

theorem byte_put :
    (h.put p bytes).byte i =
      if p ≤ i ∧ i < p + bytes.length then bytes[i - p]?.getD 0 else h.byte i := by
  unfold byte
  rw [written?_put]
  split
  · rw [List.getElem?_eq_getElem (by omega)]
    rfl
  · rfl

theorem position_eq (last address : Nat) (h : History) :
    Contents.position last address h.offset = h.position last address := by
  unfold Contents.position Address.position? position
  dsimp only
  by_cases hrange : 0 ≤ (address : Int) - h.offset.toInt ∧
      (address : Int) - h.offset.toInt < UInt64.size
  · rw [if_pos hrange, if_neg (by omega)]
    dsimp only
    split
    · rw [if_neg (by omega)]
    · rw [if_pos (by omega)]
  · rw [if_neg hrange, if_pos (by omega)]

end History

/-! ## One call -/

namespace Contents

variable {file : Contents} {p i size : Nat} {bytes : List UInt8}

theorem size_write (h : bytes ≠ []) :
    (file.write p bytes).size = max file.size (p + bytes.length) := by
  have hsize := file.size_padded p
  rw [write_eq h]
  simp only [Array.size_append, Array.size_extract, List.size_toArray]
  omega

theorem read_eq (file : Contents) (p size : Nat) :
    file.read p size =
      if 0 < size ∧ file.size < p + size then .error (.shortRead size (file.size - p))
      else .ok ((List.range size).map fun i => file[p + i]?.getD 0) := by
  have hlength : (file.extract p (p + size)).toList.length = min (p + size) file.size - p := by
    rw [Array.length_toList, Array.size_extract]
  split
  · unfold read
    dsimp only
    rw [hlength, if_neg (by omega)]
    congr 2
    omega
  · rw [read_eq_ok]
    refine ⟨by simp, fun i hi => ?_⟩
    have hlt : p + i < file.size := by omega
    have hget : file[p + i]? = some file[p + i] := Array.getElem?_eq_getElem hlt
    rw [List.getElem?_map, List.getElem?_range hi, Option.map_some, hget]
    rfl

end Contents

namespace Attachment

variable {x : Attachment} {h : History} {last p : Nat} {bytes : List UInt8}

theorem Shows.put (hx : x.Shows h) (hbytes : bytes ≠ []) :
    (x.withContents (x.contents.write p bytes)).Shows (h.put p bytes) where
  offset := hx.offset
  size := by
    rw [contents_withContents, Contents.size_write hbytes, hx.size, History.size_put]
  byte i hi := by
    rw [contents_withContents, Contents.getElem?_write, History.byte_put]
    rw [History.size_put] at hi
    by_cases hin : p ≤ i ∧ i < p + bytes.length
    · rw [if_pos hin, if_pos hin, List.getElem?_eq_getElem (by omega)]
      rfl
    rw [if_neg hin, if_neg hin]
    by_cases hgap : bytes ≠ [] ∧ x.contents.size ≤ i ∧ i < p
    · rw [if_pos hgap, History.byte_of_size_le (hx.size ▸ hgap.2.1)]
    · rw [if_neg hgap]
      have hsize := hx.size
      apply hx.byte
      by_contra hle
      exact hgap ⟨hbytes, by omega, by omega⟩

theorem Shows.read_eq (hx : x.Shows h) (p size : Nat) :
    x.contents.read p size =
      if 0 < size ∧ h.size < p + size then .error (.shortRead size (h.size - p))
      else .ok ((List.range size).map fun i => h.byte (p + i)) := by
  rw [Contents.read_eq, hx.size]
  split
  · rfl
  · congr 1
    apply List.map_congr_left
    intro i hi
    have hlt := List.mem_range.mp hi
    rw [hx.byte (p + i) (by omega)]
    rfl

section

variable {address size : Nat} {e : Error}

theorem perform_read_of_ok (hp : Contents.position last address x.client.offset = .ok p) :
    (Call.read address size).perform last x =
      (ofExcept (x.contents.read p size) : EStateM Error Attachment (List UInt8)) x :=
  (bind_of_ok rfl).trans (bind_of_ok (Direct.ofExcept_eq_ok.mpr ⟨hp, rfl⟩))

theorem perform_read_of_error
    (hp : Contents.position last address x.client.offset = .error e) :
    (Call.read address size).perform last x = .error e x :=
  (bind_of_ok rfl).trans (bind_of_error (Direct.ofExcept_eq_error.mpr ⟨hp, rfl⟩))

theorem perform_write_of_ok (hp : Contents.position last address x.client.offset = .ok p) :
    (Call.write address bytes).perform last x =
      .ok [] (x.withContents (x.contents.write p bytes)) :=
  (bind_of_ok rfl).trans (bind_of_ok (Direct.ofExcept_eq_ok.mpr ⟨hp, rfl⟩))

theorem perform_write_of_error
    (hp : Contents.position last address x.client.offset = .error e) :
    (Call.write address bytes).perform last x = .error e x :=
  (bind_of_ok rfl).trans (bind_of_error (Direct.ofExcept_eq_error.mpr ⟨hp, rfl⟩))

end

/-- A call is answered as the history tells, and the history goes on. A call that fails changes
nothing. -/
structure Follows (last : Nat) (x : Attachment) (h : History) (call : Call) : Prop where
  answers : answer (call.perform last) x = h.answer last call
  shows : (after (call.perform last) x).Shows (h.record last call)
  failing : ∀ e, h.answer last call = .error e → after (call.perform last) x = x

theorem Follows.of_error {call : Call} {e : Error} (hx : x.Shows h)
    (hcall : call.perform last x = .error e x) (hanswer : h.answer last call = .error e)
    (hrecord : h.record last call = h) : Follows last x h call where
  answers := by rw [answer, hcall, hanswer]
  shows := by rwa [after_of_error hcall, hrecord]
  failing _ _ := after_of_error hcall

theorem Shows.follows (hx : x.Shows h) (last : Nat) (call : Call) : Follows last x h call := by
  have hposition (address : Nat) :
      Contents.position last address x.client.offset = h.position last address := by
    rw [hx.offset]
    exact History.position_eq last address h
  cases call with
  | read address size =>
    cases hp : h.position last address with
    | error e =>
      refine .of_error hx (perform_read_of_error ((hposition address).trans hp)) ?_ rfl
      simp [History.answer, hp, bind, Except.bind]
    | ok p =>
      have hread : (Call.read address size).perform last x =
          (ofExcept (x.contents.read p size) : EStateM Error Attachment (List UInt8)) x :=
        perform_read_of_ok ((hposition address).trans hp)
      have hafter : after ((Call.read address size).perform last) x = x := by
        rw [after, hread]
        exact Direct.after_ofExcept _
      refine ⟨?_, hafter.symm ▸ hx, fun _ _ => hafter⟩
      rw [answer, hread]
      refine (Direct.answer_ofExcept _).trans ?_
      rw [hx.read_eq]
      simp [History.answer, hp, bind, Except.bind]
  | write address bytes =>
    cases hp : h.position last address with
    | error e =>
      refine .of_error hx (perform_write_of_error ((hposition address).trans hp)) ?_ ?_
      · simp [History.answer, hp, Functor.map, Except.map]
      · simp [History.record, hp]
    | ok p =>
      have hwrite : (Call.write address bytes).perform last x =
          .ok [] (x.withContents (x.contents.write p bytes)) :=
        perform_write_of_ok ((hposition address).trans hp)
      have hanswer : h.answer last (.write address bytes) = .ok [] := by
        simp [History.answer, hp, Functor.map, Except.map]
      refine ⟨?_, ?_, ?_⟩
      · rw [answer, hwrite, hanswer]
      · rw [after_of_ok hwrite, History.record, hp]
        dsimp only
        -- A write of no bytes leaves no trace, not even a gap that is filled.
        split
        · rename_i hbytes
          subst hbytes
          exact ⟨hx.offset, hx.size, hx.byte⟩
        · rename_i hbytes
          exact hx.put hbytes
      · intro e he
        cases hanswer.symm.trans he
  | setOffset offset =>
    refine ⟨rfl, ⟨rfl, hx.size, hx.byte⟩, ?_⟩
    rintro e ⟨⟩

/-! ## Many calls -/

theorem Shows.performAll (hx : x.Shows h) (last : Nat) (calls : List Call) :
    (x.performAll last calls).Shows (h.recordAll last calls) := by
  induction calls generalizing x h with
  | nil => exact hx
  | cons call calls ih => exact ih (hx.follows last call).shows

def twoBytes : Attachment where
  memory := { file := some #[1, 2], client := some ⟨0, 0⟩, issued := 1 }
  client := ⟨0, 0⟩
  attached := rfl

end Attachment
end DwarfScope
