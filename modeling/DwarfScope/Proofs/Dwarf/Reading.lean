import DwarfScope.Dwarf.Input
import DwarfScope.Proofs.Binary
import DwarfScope.Proofs.Effect

/-!
# Reading within the data

A step that succeeds moves forward in the data it was given, at most to its end. So whatever is cut
out of data that is there is there itself.
-/

namespace DwarfScope

namespace Dwarf

open Effect

namespace Input

variable {i j k : Input}

/-- What is still to be read is there. -/
structure Fits (i : Input) : Prop where
  pos_le : i.pos ≤ i.stop
  stop_le : i.stop ≤ i.data.size

/-- Further on in the same data. -/
structure Onward (i j : Input) : Prop where
  eq : j = { i with pos := j.pos }
  le_pos : i.pos ≤ j.pos
  pos_le : j.pos ≤ i.stop

theorem Fits.ofSection (order : ByteOrder) (data : ByteArray) : (ofSection order data).Fits :=
  ⟨Nat.zero_le _, Nat.le_refl _⟩

theorem Onward.stop_eq (h : i.Onward j) : j.stop = i.stop := by
  rw [h.eq]

theorem Onward.fits (h : i.Onward j) (hi : i.Fits) : j.Fits := by
  have hpos := h.pos_le
  have hstop := hi.stop_le
  rw [h.eq]
  exact ⟨hpos, hstop⟩

theorem Onward.refl (hi : i.Fits) : i.Onward i := ⟨rfl, Nat.le_refl _, hi.pos_le⟩

theorem Onward.trans (h : i.Onward j) (h' : j.Onward k) : i.Onward k where
  eq := by
    rw [h'.eq, h.eq]
  le_pos := Nat.le_trans h.le_pos h'.le_pos
  pos_le := h.stop_eq ▸ h'.pos_le

theorem isEmpty_eq_true : i.isEmpty = true ↔ i.stop ≤ i.pos := decide_eq_true_iff

theorem isEmpty_eq_false : i.isEmpty = false ↔ i.pos < i.stop :=
  decide_eq_false_iff_not.trans Nat.not_le

/-! ## The bytes that remain -/

theorem bytes_eq (i : Input) : i.bytes = (i.data.data.toList.take i.stop).drop i.pos := by
  simp [bytes, Binary.toList_eq, ByteArray.data_extract, List.drop_take]

theorem Fits.length_bytes (hi : i.Fits) : i.bytes.length = i.remaining := by
  have hstop : i.stop ≤ i.data.data.toList.length := hi.stop_le
  rw [bytes_eq, List.length_drop, List.length_take, Nat.min_eq_left hstop, remaining]

def part (i : Input) (n : Nat) : Input := { i with stop := i.pos + n }

def advance (i : Input) (n : Nat) : Input := { i with pos := i.pos + n }

theorem Fits.part {n : Nat} (hi : i.Fits) (hn : n ≤ i.remaining) : (i.part n).Fits where
  pos_le := Nat.le_add_right ..
  stop_le := by
    have hstop := hi.stop_le
    have hpos := hi.pos_le
    unfold remaining at hn
    show i.pos + n ≤ i.data.size
    omega

theorem Onward.advance {n : Nat} (hi : i.Fits) (hn : n ≤ i.remaining) :
    i.Onward (i.advance n) where
  eq := rfl
  le_pos := Nat.le_add_right ..
  pos_le := by
    have hpos := hi.pos_le
    unfold remaining at hn
    show i.pos + n ≤ i.stop
    omega

theorem bytes_part {n : Nat} (hi : i.Fits) (hn : n ≤ i.remaining) :
    (i.part n).bytes = i.bytes.take n := by
  have hpos := hi.pos_le
  unfold remaining at hn
  have hmin : min n (i.stop - i.pos) = n := Nat.min_eq_left hn
  simp only [bytes_eq, part, List.drop_take, List.take_take, hmin, Nat.add_sub_cancel_left]

end Input

namespace Read

variable {α β : Type} {i j : Input} {n : Nat}

theorem split_eq_ok {part : Input} :
    split n i = .ok part j ↔ n ≤ i.remaining ∧ part = i.part n ∧ j = i.advance n := by
  unfold split
  split
  case isTrue hn =>
    constructor
    · intro h
      cases h
      exact ⟨hn, rfl, rfl⟩
    · rintro ⟨-, rfl, rfl⟩
      rfl
  case isFalse hn => simp [hn]

theorem word_eq_ok {a : Nat} :
    word n i = .ok a j ↔
      n ≤ i.remaining ∧ a = Binary.value i.order (i.part n).bytes ∧ j = i.advance n := by
  simp only [word, bind_eq_ok, split_eq_ok, pure_eq_ok]
  constructor
  · rintro ⟨_, _, ⟨hn, rfl, rfl⟩, rfl, rfl⟩
    exact ⟨hn, rfl, rfl⟩
  · rintro ⟨hn, rfl, rfl⟩
    exact ⟨_, _, ⟨hn, rfl, rfl⟩, rfl, rfl⟩

theorem lt_of_word {a : Nat} (hi : i.Fits) (h : word n i = .ok a j) : a < 256 ^ n := by
  obtain ⟨hn, rfl, -⟩ := word_eq_ok.mp h
  have hlength : (i.part n).bytes.length = n := by
    rw [Input.bytes_part hi hn, List.length_take, hi.length_bytes, Nat.min_eq_left hn]
  have hlt := Binary.value_lt i.order (i.part n).bytes
  rwa [hlength] at hlt

theorem byte_eq_ok {a : Nat} (hi : i.Fits) :
    byte i = .ok a j ↔ ∃ b rest, i.bytes = b :: rest ∧ a = b.toNat ∧ j = i.advance 1 := by
  rw [byte, word_eq_ok, ← hi.length_bytes]
  constructor
  · rintro ⟨hn, rfl, rfl⟩
    obtain ⟨b, rest, hbytes⟩ := List.exists_cons_of_length_pos hn
    have hpart : (i.part 1).bytes = [b] := by
      rw [Input.bytes_part hi (hi.length_bytes ▸ hn), hbytes]
      rfl
    refine ⟨b, rest, hbytes, ?_, rfl⟩
    rw [hpart]
    cases i.order <;> simp [Binary.value]
  · rintro ⟨b, rest, hbytes, rfl, rfl⟩
    have hn : 1 ≤ i.bytes.length := by simp [hbytes]
    have hpart : (i.part 1).bytes = [b] := by
      rw [Input.bytes_part hi (hi.length_bytes ▸ hn), hbytes]
      rfl
    refine ⟨hn, ?_, rfl⟩
    rw [hpart]
    cases i.order <;> simp [Binary.value]

/-! ## What every step does -/

/-- Where the step succeeds it has moved on, and its answer is good. -/
def Yields (step : Read α) (good : α → Prop) : Prop :=
  ∀ i a j, i.Fits → step i = .ok a j → i.Onward j ∧ good a

abbrev Forward (step : Read α) : Prop := Yields step fun _ => True

namespace Yields

variable {step : Read α} {good : α → Prop} {rest : α → Read β} {fine : β → Prop}

theorem mono {better : α → Prop} (h : step.Yields better) (hgood : ∀ a, better a → good a) :
    step.Yields good := by
  intro i a j hi hstep
  obtain ⟨hj, ha⟩ := h i a j hi hstep
  exact ⟨hj, hgood a ha⟩

theorem pure {a : α} (ha : good a) : (pure a : Read α).Yields good := by
  intro i b j hi h
  obtain ⟨rfl, rfl⟩ := pure_eq_ok.mp h
  exact ⟨.refl hi, ha⟩

theorem throw (fault : Fault) : (throw fault : Read α).Yields good := by
  intro i a j _ h
  cases h

theorem get : (get : Read Input).Yields Input.Fits := by
  intro i a j hi h
  obtain ⟨rfl, rfl⟩ := get_eq_ok.mp h
  exact ⟨.refl hi, hi⟩

theorem bind (h : step.Yields good) (hrest : ∀ a, good a → (rest a).Yields fine) :
    (step >>= rest).Yields fine := by
  intro i b k hi hrun
  obtain ⟨a, j, ha, hb⟩ := bind_eq_ok.mp hrun
  obtain ⟨hj, hgood⟩ := h i a j hi ha
  obtain ⟨hk, hfine⟩ := hrest a hgood j b k (hj.fits hi) hb
  exact ⟨hj.trans hk, hfine⟩

theorem ite {p : Prop} [Decidable p] {yes no : Read α} (hyes : p → yes.Yields good)
    (hno : ¬p → no.Yields good) : (if p then yes else no).Yields good := by
  split
  case isTrue h => exact hyes h
  case isFalse h => exact hno h

theorem map {f : α → β} (h : step.Yields good) (hf : ∀ a, good a → fine (f a)) :
    (do return f (← step)).Yields fine :=
  h.bind fun a ha => .pure (hf a ha)

theorem within {inner : Input} (hinner : inner.Fits) (h : step.Yields good) :
    (within inner step).Yields good := by
  intro i a j hi hrun
  unfold Read.within at hrun
  cases hstep : step inner with
  | ok b k =>
    rw [hstep] at hrun
    cases hrun
    exact ⟨.refl hi, (h _ _ _ hinner hstep).2⟩
  | error fault k =>
    rw [hstep] at hrun
    cases hrun

end Yields

theorem within_forward (inner : Input) (step : Read α) : (within inner step).Forward := by
  intro i a j hi hrun
  unfold within at hrun
  split at hrun
  · cases hrun
    exact ⟨.refl hi, trivial⟩
  · cases hrun

theorem split_yields (n : Nat) : (split n).Yields Input.Fits := by
  intro i part j hi h
  obtain ⟨hn, rfl, rfl⟩ := split_eq_ok.mp h
  exact ⟨.advance hi hn, hi.part hn⟩

theorem skip_forward (n : Nat) : (skip n).Forward := (split_yields n).map fun _ _ => trivial

theorem word_forward (n : Nat) : (word n).Forward := (split_yields n).map fun _ _ => trivial

theorem byte_forward : byte.Forward := word_forward 1

theorem offset_forward (format : Format) : (offset format).Forward := word_forward _

def IsAddressSize (n : Nat) : Prop := n = 1 ∨ n = 2 ∨ n = 4 ∨ n = 8

theorem addressSize_yields : addressSize.Yields IsAddressSize := by
  refine byte_forward.bind fun size _ => ?_
  exact .ite (fun h => .pure h) fun _ => .throw _

theorem initialLength_forward : initialLength.Forward := by
  refine (word_forward 4).bind fun length _ => ?_
  refine .ite (fun _ => .pure trivial) fun _ => ?_
  exact .ite (fun _ => (word_forward 8).map fun _ _ => trivial) fun _ => .throw _

theorem unsignedFrom_forward (weight n : Nat) : (unsignedFrom weight n).Forward := by
  induction n generalizing weight with
  | zero => exact .throw _
  | succ n ih =>
    refine byte_forward.bind fun b _ => ?_
    refine .ite (fun _ => .throw _) fun _ => ?_
    exact .ite (fun _ => .pure trivial) fun _ => (ih _).map fun _ _ => trivial

theorem unsigned_forward : unsigned.Forward := unsignedFrom_forward 1 10

theorem signedFrom_forward (weight n : Nat) : (signedFrom weight n).Forward := by
  induction n generalizing weight with
  | zero => exact .throw _
  | succ n ih =>
    refine byte_forward.bind fun b _ => ?_
    refine .ite (fun _ => .throw _) fun _ => ?_
    refine .ite (fun _ => .pure trivial) fun _ => ?_
    exact .ite (fun _ => .pure trivial) fun _ => (ih _).map fun _ _ => trivial

theorem signed_forward : signed.Forward := signedFrom_forward 1 10

theorem unsigned16_forward : unsigned16.Forward := by
  refine byte_forward.bind fun a _ => ?_
  refine .ite (fun _ => .pure trivial) fun _ => ?_
  refine byte_forward.bind fun b _ => ?_
  refine .ite (fun _ => .pure trivial) fun _ => ?_
  refine byte_forward.bind fun c _ => ?_
  exact .ite (fun _ => .throw _) fun _ => .pure trivial

theorem zeroTerminated_forward : zeroTerminated.Forward := by
  intro i text j hi h
  unfold zeroTerminated at h
  simp only at h
  split at h
  case isTrue hlt =>
    cases h
    exact ⟨.advance hi hlt, trivial⟩
  case isFalse => cases h

theorem collect_yields {step : Read (Option α)} {good : α → Prop}
    (h : step.Yields fun found => ∀ a ∈ found, good a) (n : Nat) (found : Array α)
    (hfound : ∀ a ∈ found, good a) :
    (collect step n found).Yields fun all => ∀ a ∈ all, good a := by
  induction n generalizing found with
  | zero => exact .pure hfound
  | succ n ih =>
    refine h.bind fun next hnext => ?_
    cases next with
    | none => exact .pure hfound
    | some a =>
      apply ih
      intro b hb
      rcases Array.mem_push.mp hb with hb | rfl
      · exact hfound b hb
      · exact hnext b rfl

theorem many_yields {step : Read (Option α)} {good : α → Prop}
    (h : step.Yields fun found => ∀ a ∈ found, good a) :
    (many step).Yields fun all => ∀ a ∈ all, good a :=
  Yields.get.bind fun _ _ => collect_yields h _ _ (by simp)

theorem untilEmpty_yields {step : Read α} {good : α → Prop} (h : step.Yields good) :
    (many (do if (← (get : Read Input)).isEmpty then return none else some <$> step)).Yields
      fun all => ∀ a ∈ all, good a := by
  refine many_yields (Yields.get.bind fun i _ => .ite (fun _ => .pure (by simp)) fun _ => ?_)
  rw [map_eq_pure_bind]
  exact h.map fun a ha b hb => Option.some.inj hb ▸ ha

end Read
end Dwarf
end DwarfScope
