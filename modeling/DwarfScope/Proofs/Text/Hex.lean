import DwarfScope.Text.Hex
import Mathlib.Data.Char

/-!
# Hexadecimal digits

Which characters are digits, and which text some bytes are read from: the text they are written as,
but for the case of its letters.
-/

namespace DwarfScope.Hex

variable {c x y : Char} {d p : Nat} {text : List Char} {bytes : List UInt8} {b : UInt8}

/-! ## Digits -/

/-- The character stands for a number below sixteen. The letters may be of either case. -/
def IsDigit (c : Char) (d : Nat) : Prop := d < 16 ∧ c.toLower = digit d

theorem isDigit_ascii : ∀ n < 128,
    (∀ d ∈ value? (Char.ofNat n), d < 16) ∧
    ∀ d < 16, value? (Char.ofNat n) = some d ↔ (Char.ofNat n).toLower = digit d := by
  decide +kernel

theorem digit_lt : ∀ d < 16, (digit d).toNat < 128 := by
  decide

theorem value?_of_le (h : 128 ≤ c.toNat) : value? c = none := by
  have hlt (last : Char) (hlast : last.toNat < 128) : ¬ c ≤ last := by
    rw [Char.le_def, UInt32.le_iff_toNat_le]
    exact Nat.not_le.mpr (Nat.lt_of_lt_of_le hlast h)
  unfold value?
  rw [if_neg fun hc => hlt '9' (by decide) hc.2, if_neg fun hc => hlt 'f' (by decide) hc.2,
    if_neg fun hc => hlt 'F' (by decide) hc.2]

theorem toLower_of_le (h : 128 ≤ c.toNat) : c.toLower = c := by
  unfold Char.toLower
  rw [dif_neg]
  rintro ⟨-, hle⟩
  have : c.toNat ≤ 90 := UInt32.le_iff_toNat_le.mp hle
  omega

theorem value?_eq_some_iff : value? c = some d ↔ IsDigit c d := by
  rcases Nat.lt_or_ge c.toNat 128 with hlt | hge
  · obtain ⟨hbound, hvalue⟩ := isDigit_ascii c.toNat hlt
    rw [Char.ofNat_toNat] at hbound hvalue
    constructor
    · intro h
      exact ⟨hbound d h, (hvalue d (hbound d h)).mp h⟩
    · rintro ⟨hd, hc⟩
      exact (hvalue d hd).mpr hc
  · rw [value?_of_le hge]
    constructor
    · intro h
      cases h
    · rintro ⟨hd, hc⟩
      rw [toLower_of_le hge] at hc
      have := digit_lt d hd
      rw [← hc] at this
      omega

theorem value?_digit (h : d < 16) : value? (digit d) = some d := by
  revert d
  decide

theorem isDigit_digit (h : d < 16) : IsDigit (digit d) d := value?_eq_some_iff.mp (value?_digit h)

theorem not_isDigit (h : value? c = none) : ¬ IsDigit c d := by
  intro hd
  rw [value?_eq_some_iff.mpr hd] at h
  cases h

/-! ## Bytes -/

theorem encodeChars_cons :
    encodeChars (b :: bytes) =
      digit (b.toNat / 16) :: digit (b.toNat % 16) :: encodeChars bytes := rfl

theorem length_encodeChars (bytes : List UInt8) :
    (encodeChars bytes).length = 2 * bytes.length := by
  induction bytes with
  | nil => rfl
  | cons b bytes ih =>
    rw [encodeChars_cons, List.length_cons, List.length_cons, ih, List.length_cons]
    omega

theorem high_lt (b : UInt8) : b.toNat / 16 < 16 := by
  have := b.toNat_lt
  omega

theorem low_lt (b : UInt8) : b.toNat % 16 < 16 := Nat.mod_lt _ (by decide)

theorem halves_ofNat {high low : Nat} (hhigh : high < 16) (hlow : low < 16) :
    (UInt8.ofNat (16 * high + low)).toNat / 16 = high ∧
      (UInt8.ofNat (16 * high + low)).toNat % 16 = low := by
  have hlt : 16 * high + low < 256 := by omega
  rw [UInt8.toNat_ofNat_of_lt' hlt]
  omega

theorem exists_of_mem_encodeChars (h : c ∈ encodeChars bytes) : ∃ d < 16, c = digit d := by
  obtain ⟨b, -, hc⟩ := List.mem_flatMap.mp h
  simp only [encodeByte, List.mem_cons, List.not_mem_nil, or_false] at hc
  rcases hc with rfl | rfl
  · exact ⟨_, high_lt b, rfl⟩
  · exact ⟨_, low_lt b, rfl⟩

/-- The text is that of the bytes, but its letters may be of either case. -/
def Spells (text : List Char) (bytes : List UInt8) : Prop :=
  text.map Char.toLower = encodeChars bytes

theorem spells_cons :
    Spells (x :: y :: text) (b :: bytes) ↔
      IsDigit x (b.toNat / 16) ∧ IsDigit y (b.toNat % 16) ∧ Spells text bytes := by
  simp [Spells, encodeChars_cons, IsDigit, high_lt, low_lt]

theorem spells_encodeChars (bytes : List UInt8) : Spells (encodeChars bytes) bytes := by
  induction bytes with
  | nil => rfl
  | cons b bytes ih =>
    exact spells_cons.mpr ⟨isDigit_digit (high_lt b), isDigit_digit (low_lt b), ih⟩

theorem Spells.length_eq (h : Spells text bytes) : text.length = 2 * bytes.length := by
  rw [← length_encodeChars, ← h, List.length_map]

theorem Spells.exists_digit (h : Spells text bytes) (hc : c ∈ text) : ∃ d, IsDigit c d := by
  have hmem : c.toLower ∈ encodeChars bytes := by
    rw [← h]
    exact List.mem_map_of_mem hc
  obtain ⟨d, hd, hlower⟩ := exists_of_mem_encodeChars hmem
  exact ⟨d, hd, hlower⟩

theorem decodeFrom_of_spells (h : Spells text bytes) : decodeFrom p text = .ok bytes := by
  induction bytes generalizing text p with
  | nil =>
    obtain rfl : text = [] := List.length_eq_zero_iff.mp h.length_eq
    rfl
  | cons b bytes ih =>
    match text, h.length_eq with
    | x :: y :: text, _ =>
      obtain ⟨hx, hy, htext⟩ := spells_cons.mp h
      have hbyte : 16 * (b.toNat / 16) + b.toNat % 16 = b.toNat := Nat.div_add_mod ..
      simp only [decodeFrom, value?_eq_some_iff.mpr hx, value?_eq_some_iff.mpr hy, ih htext,
        Except.map, hbyte, UInt8.ofNat_toNat]

theorem spells_of_decodeFrom (h : decodeFrom p text = .ok bytes) : Spells text bytes := by
  induction p, text using decodeFrom.induct generalizing bytes with
  | case1 =>
    cases h
    rfl
  | case2 p x hx => simp [decodeFrom, hx] at h
  | case3 p x d hx => simp [decodeFrom, hx] at h
  | case4 p x y text hx => simp [decodeFrom, hx] at h
  | case5 p x y text d hy hx => simp [decodeFrom, hx, hy] at h
  | case6 p x y text high low hy hx ih =>
    simp only [decodeFrom, hx, hy] at h
    cases hrest : decodeFrom (p + 2) text with
    | error e =>
      rw [hrest] at h
      cases h
    | ok rest =>
      rw [hrest] at h
      obtain rfl : UInt8.ofNat (16 * high + low) :: rest = bytes := Except.ok.inj h
      have hhigh := value?_eq_some_iff.mp hx
      have hlow := value?_eq_some_iff.mp hy
      obtain ⟨hdiv, hmod⟩ := halves_ofNat hhigh.1 hlow.1
      rw [spells_cons, hdiv, hmod]
      exact ⟨hhigh, hlow, ih hrest⟩

theorem IsDigit.utf8Size (h : IsDigit c d) : c.utf8Size = 1 := by
  rcases Nat.lt_or_ge c.toNat 128 with hlt | hge
  · exact Char.utf8Size_eq_one_iff.mpr (UInt32.le_iff_toNat_le.mpr (Nat.le_of_lt_succ hlt))
  · exact absurd h (not_isDigit (value?_of_le hge))

theorem byteLength_eq (h : ∀ c ∈ text, ∃ d, IsDigit c d) : byteLength text = text.length := by
  induction text with
  | nil => rfl
  | cons c text ih =>
    obtain ⟨d, hd⟩ := h c List.mem_cons_self
    rw [byteLength, hd.utf8Size, ih fun c hc => h c (List.mem_cons_of_mem _ hc), List.length_cons,
      Nat.add_comm]

/-- Bytes are read from what they are written as, in letters of either case, and from nothing
else. -/
theorem decodeChars_eq_ok : decodeChars text = .ok bytes ↔ Spells text bytes := by
  unfold decodeChars
  constructor
  · intro h
    split at h
    · cases h
    · exact spells_of_decodeFrom h
  · intro h
    rw [if_neg, decodeFrom_of_spells h]
    rw [byteLength_eq fun c hc => h.exists_digit hc, h.length_eq]
    omega

end DwarfScope.Hex
