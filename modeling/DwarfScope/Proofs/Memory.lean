import DwarfScope.Proofs.Binary
import DwarfScope.Variable

/-!
# Bytes in memory

What a write leaves in the file, byte by byte, and when a variable can be read, set and written.
-/

namespace DwarfScope

/-! ## Files -/

namespace Contents

variable {file : Contents} {bytes : List UInt8} {last address start size i : Nat} {offset : Int64}

theorem position_eq_ok (h : position last address offset = .ok start) :
    (start : Int) = address - offset.toInt := by
  unfold position Address.position? at h
  dsimp only at h
  split at h
  · cases h
  · rename_i hposition
    split at hposition
    · rename_i hrange
      split at h
      · obtain rfl : _ = start := by simpa using h
        obtain rfl : ((address : Int) - offset.toInt).toNat = _ := by simpa using hposition
        exact Int.toNat_of_nonneg hrange.1
      · cases h
    · cases hposition

def reach (last position : Nat) : Except Error Nat :=
  if position ≤ last then .ok position else .error (.file .positionTooLarge)

theorem position_of_eq {address q : Nat} {offset : Int64} (h : (address : Int) - offset.toInt = q)
    (hq : q < 2 ^ 64) : position last address offset = reach last q := by
  have hword : Address.position? address offset = some q := by
    unfold Address.position?
    rw [h]
    exact if_pos ⟨Int.natCast_nonneg q, Int.ofNat_lt.mpr hq⟩
  unfold position
  rw [hword]
  rfl

theorem read_eq_ok :
    file.read start size = .ok bytes ↔
      bytes.length = size ∧ ∀ i < size, file[start + i]? = bytes[i]? := by
  unfold read
  dsimp only
  have hget : ∀ i < size, (file.extract start (start + size)).toList[i]? = file[start + i]? := by
    intro i hi
    rw [Array.getElem?_toList, Array.getElem?_extract]
    split
    · rfl
    · rw [Array.getElem?_eq_none]
      omega
  constructor
  · intro h
    split at h
    · rename_i hlength
      obtain rfl : (file.extract start (start + size)).toList = bytes := by simpa using h
      exact ⟨hlength, fun i hi => (hget i hi).symm⟩
    · cases h
  · rintro ⟨hlength, hbytes⟩
    have hextract : (file.extract start (start + size)).toList = bytes := by
      apply List.ext_getElem?
      intro i
      by_cases hi : i < size
      · rw [hget i hi, hbytes i hi]
      · rw [List.getElem?_eq_none (by simp; omega), List.getElem?_eq_none (by omega)]
    rw [hextract, if_pos hlength]

/-- A file that is long enough to be written at a position. -/
def padded (file : Contents) (start : Nat) : Contents :=
  file ++ Array.replicate (start - file.size) 0

theorem size_padded (file : Contents) (start : Nat) :
    (file.padded start).size = max file.size start := by
  simp only [padded, Array.size_append, Array.size_replicate]
  omega

theorem getElem?_padded :
    (file.padded start)[i]? = if file.size ≤ i ∧ i < start then some 0 else file[i]? := by
  simp only [padded, Array.getElem?_append, Array.getElem?_replicate]
  by_cases hi : i < file.size
  · rw [if_pos hi, if_neg (by omega)]
  · rw [if_neg hi]
    by_cases hstart : i < start
    · rw [if_pos (by omega), if_pos (by omega)]
    · rw [if_neg (by omega), if_neg (by omega), Array.getElem?_eq_none (by omega)]

theorem write_eq (h : bytes ≠ []) :
    file.write start bytes =
      (file.padded start).extract 0 start ++ bytes.toArray
        ++ (file.padded start).extract (start + bytes.length) (file.padded start).size := by
  unfold write
  rw [if_neg (by simpa using h)]
  rfl

/-- A write puts its bytes in their place, fills a gap in front of them with zeros, and changes
nothing else. -/
theorem getElem?_write :
    (file.write start bytes)[i]? =
      if start ≤ i ∧ i < start + bytes.length then bytes[i - start]?
      else if bytes ≠ [] ∧ file.size ≤ i ∧ i < start then some 0
      else file[i]? := by
  by_cases hbytes : bytes = []
  · subst hbytes
    rw [if_neg (by simp), if_neg (by simp)]
    rfl
  have hsize := size_padded file start
  have hfront : ((file.padded start).extract 0 start).size = start := by
    simp only [Array.size_extract]
    omega
  rw [write_eq hbytes, Array.append_assoc, Array.getElem?_append, hfront]
  by_cases hstart : i < start
  · rw [if_pos hstart, if_neg (by omega), Array.getElem?_extract, if_pos (by omega), Nat.zero_add,
      getElem?_padded]
    simp [hbytes, hstart]
  rw [if_neg hstart, Array.getElem?_append, List.size_toArray]
  by_cases hstop : i < start + bytes.length
  · rw [if_pos (by omega), if_pos (by omega), List.getElem?_toArray]
  · rw [if_neg (by omega), if_neg (by omega), if_neg (by omega), Array.getElem?_extract]
    split
    · rw [getElem?_padded, if_neg (by omega)]
      congr 1
      omega
    · rw [Array.getElem?_eq_none (by omega)]

theorem write_unchanged_iff {p : Nat → Prop}
    (hp : ∀ i, p i → start ≤ i ∧ i < start + bytes.length) :
    (∀ i, ¬ p i → (file.write start bytes)[i]? = file[i]?) ↔
      (bytes = [] ∨ start ≤ file.size) ∧
      ∀ i < bytes.length, ¬ p (start + i) → file[start + i]? = bytes[i]? := by
  constructor
  · intro h
    constructor
    · by_cases hbytes : bytes = []
      · exact .inl hbytes
      · right
        apply Nat.le_of_not_lt
        intro hgap
        have hzero := h file.size (fun hin => by have := hp _ hin; omega)
        rw [getElem?_write, if_neg (by omega), if_pos ⟨hbytes, by omega, by omega⟩,
          Array.getElem?_eq_none (by omega)] at hzero
        cases hzero
    · intro i hi hout
      rw [← h _ hout, getElem?_write, if_pos (by omega), Nat.add_sub_cancel_left]
  · rintro ⟨hgap, hrest⟩ i hout
    rw [getElem?_write]
    by_cases hin : start ≤ i ∧ i < start + bytes.length
    · obtain ⟨k, rfl⟩ := Nat.exists_eq_add_of_le hin.1
      rw [if_pos hin, Nat.add_sub_cancel_left, hrest k (by omega) hout]
    · rw [if_neg hin, if_neg]
      rintro ⟨hbytes, hsize, hstart⟩
      rcases hgap with hgap | hgap
      · exact hbytes hgap
      · omega

theorem read_write : (file.write start bytes).read start bytes.length = .ok bytes := by
  rw [read_eq_ok]
  refine ⟨rfl, fun i hi => ?_⟩
  rw [getElem?_write, if_pos (by omega), Nat.add_sub_cancel_left]

end Contents

/-! ## Fields -/

namespace Variable

def overwrite (bytes : List UInt8) (s : Span) (n : UInt64) : List UInt8 :=
  bytes.take s.start ++ Binary.bigEndianBytes s.length n.toNat ++ bytes.drop (s.start + s.length)

section

variable {bytes : List UInt8} {s : Span} {n : UInt64} {i : Nat}

theorem length_overwrite (h : s.start + s.length ≤ bytes.length) :
    (overwrite bytes s n).length = bytes.length := by
  simp only [overwrite, List.length_append, List.length_take, List.length_drop,
    Binary.length_bigEndianBytes]
  omega

theorem getElem?_overwrite (h : s.start + s.length ≤ bytes.length) :
    (overwrite bytes s n)[i]? =
      if s.start ≤ i ∧ i < s.start + s.length then
        (Binary.bigEndianBytes s.length n.toNat)[i - s.start]?
      else bytes[i]? := by
  have hlength := Binary.length_bigEndianBytes s.length n.toNat
  have hfront : (bytes.take s.start).length = s.start := by
    rw [List.length_take]
    omega
  rw [overwrite, List.append_assoc, List.getElem?_append, hfront]
  by_cases hstart : i < s.start
  · rw [if_pos hstart, if_neg (by omega), List.getElem?_take, if_pos hstart]
  rw [if_neg hstart, List.getElem?_append, hlength]
  by_cases hstop : i < s.start + s.length
  · rw [if_pos (by omega), if_pos (by omega)]
  · rw [if_neg (by omega), if_neg (by omega), List.getElem?_drop]
    congr 1
    omega

end

/-! ## Variables -/

variable {v w : Variable} {m m' : Memory} {bytes : List UInt8} {field : String} {n : UInt64}

theorem get_eq_ok : v.get = .ok bytes ↔ v.value = some bytes := by
  unfold get
  cases v.value <;> simp

theorem clientIn_eq_ok {c : Client} : v.clientIn m = .ok c ↔ m.clientOf? v.client = some c := by
  unfold clientIn
  cases m.clientOf? v.client <;> simp

theorem set_eq_ok :
    v.set bytes = .ok w ↔
      8 * bytes.length ≤ v.layout.bitSize ∧ w = { v with value := some bytes } := by
  unfold set
  split
  · simp
    omega
  · simp [eq_comm]
    omega

theorem setField_eq_ok :
    v.setField field n = .ok w ↔
      ∃ s bytes, v.span field = .ok s ∧ v.value = some bytes ∧
        s.start + s.length ≤ bytes.length ∧ w = { v with value := some (overwrite bytes s n) } := by
  unfold setField
  cases hs : v.span field with
  | error e => simp [bind, Except.bind]
  | ok s =>
    cases hv : v.value with
    | none => simp [bind, Except.bind, get, hv]
    | some bytes =>
      simp only [bind, Except.bind, get, hv]
      by_cases h : s.start + s.length ≤ bytes.length
      · simp [h, overwrite, eq_comm, pure, Except.pure]
      · simp [h, throw, throwThe, MonadExceptOf.throw]

theorem read_eq_ok :
    v.read m = .ok w ↔
      ∃ c start bytes, m.clientOf? v.client = some c ∧
        Contents.position m.lastPosition v.address c.offset = .ok start ∧
        m.contents.read start (v.layout.bitSize / 8) = .ok bytes ∧
        w = { v with value := some bytes } := by
  unfold read Memory.read
  simp only [bind, Except.bind, ← clientIn_eq_ok]
  cases hc : v.clientIn m with
  | error e => simp
  | ok c =>
    dsimp only
    cases hp : Contents.position m.lastPosition v.address c.offset with
    | error e => simp [hp]
    | ok start =>
      dsimp only
      cases hr : m.contents.read start (v.layout.bitSize / 8) with
      | error e => simp [hp, hr]
      | ok bytes =>
        have hlength := (Contents.read_eq_ok.mp hr).1
        have hfits : 8 * bytes.length ≤ v.layout.bitSize := by omega
        simp [hp, hr, set_eq_ok, hfits]

theorem write_eq_ok :
    v.write m = .ok m' ↔
      ∃ c start bytes, m.clientOf? v.client = some c ∧
        Contents.position m.lastPosition v.address c.offset = .ok start ∧ v.value = some bytes ∧
        m' = { m with file := some (m.contents.write start bytes) } := by
  unfold write Memory.write
  simp only [bind, Except.bind, ← clientIn_eq_ok, ← get_eq_ok]
  cases hc : v.clientIn m with
  | error e => simp
  | ok c =>
    dsimp only
    cases hv : v.get with
    | error e => simp
    | ok bytes =>
      dsimp only
      cases hp : Contents.position m.lastPosition v.address c.offset with
      | error e => simp [hp]
      | ok start => simp [hp, pure, Except.pure, eq_comm]

end Variable
end DwarfScope
