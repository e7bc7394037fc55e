import DwarfScope.Command.Line
import DwarfScope.Proofs.Text.Numeral
import Mathlib.Algebra.Group.Int.Defs

/-!
# Numbers in typed commands

Which words are read as a number and which as an offset. The words of an offset are the numerals of
the signed numbers of 64 bits, but for those of the lowest number.
-/

namespace DwarfScope.Command

/-- A numeral of base sixteen behind `0x`, or else one of base ten. -/
inductive Magnitude : List Char → Nat → Prop
  | hex {text : List Char} {n : Nat} : Numeral.Unsigned 16 text n → Magnitude ('0' :: 'x' :: text) n
  | decimal {text : List Char} {n : Nat} : Numeral.Unsigned 10 text n → Magnitude text n

/-- A magnitude with an optional minus sign in front. -/
inductive Signed : List Char → Int → Prop
  | plain {text : List Char} {n : Nat} : Magnitude text n → Signed text n
  | minus {text : List Char} {n : Nat} : Magnitude text n → Signed ('-' :: text) (-n)

variable {word rest magnitude : List Char} {n : Nat} {i : Int} {k : Int64} {e : Error}
  {negative : Bool} {bytes : List UInt8}

/-! ## Magnitudes -/

theorem afterHexMark?_eq_some : afterHexMark? word = some rest ↔ word = '0' :: 'x' :: rest := by
  unfold afterHexMark?
  constructor
  · intro h
    split at h
    · rw [Option.some.inj h]
    · cases h
  · rintro rfl
    rfl

theorem magnitude_hex : Magnitude ('0' :: 'x' :: rest) n ↔ Numeral.Unsigned 16 rest n := by
  constructor
  · intro h
    cases h with
    | hex h => exact h
    | decimal h =>
      have hx : 'x' ∈ '0' :: 'x' :: rest := by simp
      rcases h.mem_cases hx with hplus | ⟨d, hd, -⟩
      · cases hplus
      · exact absurd hd (Hex.not_isDigit rfl)
  · exact .hex

theorem magnitude_of_ne (h : ∀ rest, word ≠ '0' :: 'x' :: rest) :
    Magnitude word n ↔ Numeral.Unsigned 10 word n := by
  constructor
  · intro hn
    cases hn with
    | hex => exact absurd rfl (h _)
    | decimal hn => exact hn
  · exact .decimal

theorem readWord_eq_ok : readWord word = .ok n ↔ Magnitude word n ∧ n < 2 ^ 64 := by
  unfold readWord
  cases hmark : afterHexMark? word with
  | some digits =>
    obtain rfl := afterHexMark?_eq_some.mp hmark
    rw [magnitude_hex, ← Numeral.readUnsigned_eq_ok (by decide)]
    dsimp only
    split <;> simp [*]
  | none =>
    have hne : ∀ rest, word ≠ '0' :: 'x' :: rest := by
      intro rest h
      rw [afterHexMark?_eq_some.mpr h] at hmark
      cases hmark
    rw [magnitude_of_ne hne, ← Numeral.readUnsigned_eq_ok (by decide)]
    dsimp only
    split <;> simp [*]

theorem badInput_of_readWord (h : readWord word = .error e) : ∃ fault, e = .badInput fault := by
  unfold readWord at h
  dsimp only at h
  split at h
  · cases h
  · cases h
    exact ⟨_, rfl⟩

/-! ## Bytes -/

theorem readBytes_eq_decode :
    readBytes word = .ok bytes ↔
      Hex.decodeChars ((afterHexMark? word).getD word) = .ok bytes := by
  unfold readBytes
  split <;> simp [*]

theorem readBytes_eq_ok :
    readBytes word = .ok bytes ↔
      ∃ digits, Hex.Spells digits bytes ∧ (word = digits ∨ word = '0' :: 'x' :: digits) := by
  rw [readBytes_eq_decode, Hex.decodeChars_eq_ok]
  cases hmark : afterHexMark? word with
  | some rest =>
    obtain rfl := afterHexMark?_eq_some.mp hmark
    constructor
    · intro h
      exact ⟨rest, h, .inr rfl⟩
    · rintro ⟨digits, h, rfl | heq⟩
      · obtain ⟨d, hd⟩ := h.exists_digit (c := 'x') (by simp)
        exact absurd hd (Hex.not_isDigit rfl)
      · obtain rfl : rest = digits := by simpa using heq
        exact h
  | none =>
    constructor
    · intro h
      exact ⟨word, h, .inl rfl⟩
    · rintro ⟨digits, h, rfl | heq⟩
      · exact h
      · rw [afterHexMark?_eq_some.mpr heq] at hmark
        cases hmark

/-! ## Offsets -/

def signed (negative : Bool) (n : Nat) : Int := if negative then -n else n

/-- What is read for a word with its sign and its magnitude told apart. -/
def offsetOf (word : List Char) (negative : Bool) (n : Nat) : Except Error Int64 :=
  if n < Binary.signedLimit then .ok (Int64.ofInt (signed negative n))
  else .error (.badInput (.outOfRange (String.ofList word)))

theorem readOffset_minus :
    readOffset ('-' :: rest) = (readWord rest).bind (offsetOf ('-' :: rest) true) := rfl

theorem readOffset_of_ne (h : ∀ rest, word ≠ '-' :: rest) :
    readOffset word = (readWord word).bind (offsetOf word false) := by
  unfold readOffset
  split
  rename_i heq
  split at heq
  · exact absurd rfl (h _)
  · cases heq
    rfl

theorem signed_minus : Signed ('-' :: rest) i ↔ ∃ n, Magnitude rest n ∧ i = signed true n := by
  constructor
  · intro h
    cases h with
    | plain h =>
      cases h with
      | decimal h =>
        rcases h.mem_cases List.mem_cons_self with hplus | ⟨d, hd, -⟩
        · cases hplus
        · exact absurd hd (Hex.not_isDigit rfl)
    | minus h => exact ⟨_, h, rfl⟩
  · rintro ⟨n, h, rfl⟩
    exact .minus h

theorem signed_of_ne (h : ∀ rest, word ≠ '-' :: rest) :
    Signed word i ↔ ∃ n, Magnitude word n ∧ i = signed false n := by
  constructor
  · intro hi
    cases hi with
    | plain hi => exact ⟨_, hi, rfl⟩
    | minus => exact absurd rfl (h _)
  · rintro ⟨n, hn, rfl⟩
    exact .plain hn

theorem natAbs_signed : (signed negative n).natAbs = n := by
  cases negative <;> simp [signed]

theorem offsetOf_eq_ok :
    offsetOf word negative n = .ok k ↔ k.toInt = signed negative n ∧ k.toInt ≠ -2 ^ 63 := by
  have hlimit : Binary.signedLimit = 2 ^ 63 := rfl
  have hle := k.le_toInt
  have hlt := k.toInt_lt
  have habs : (signed negative n).natAbs = n := natAbs_signed
  unfold offsetOf
  split
  · have hk : (Int64.ofInt (signed negative n)).toInt = signed negative n :=
      Int64.toInt_ofInt_of_le (by omega) (by omega)
    constructor
    · intro h
      obtain rfl := Except.ok.inj h
      exact ⟨hk, by omega⟩
    · rintro ⟨h, -⟩
      rw [← h, Int64.ofInt_toInt]
  · constructor
    · intro h
      cases h
    · rintro ⟨h, hne⟩
      omega

theorem readWord_bind_offsetOf :
    (readWord magnitude).bind (offsetOf word negative) = .ok k ↔
      (∃ n, Magnitude magnitude n ∧ k.toInt = signed negative n) ∧ k.toInt ≠ -2 ^ 63 := by
  constructor
  · intro h
    cases hread : readWord magnitude with
    | error e =>
      rw [hread] at h
      cases h
    | ok n =>
      rw [hread] at h
      obtain ⟨hk, hne⟩ := offsetOf_eq_ok.mp h
      exact ⟨⟨n, (readWord_eq_ok.mp hread).1, hk⟩, hne⟩
  · rintro ⟨⟨n, hn, hk⟩, hne⟩
    have hle := k.le_toInt
    have hlt := k.toInt_lt
    have habs : (signed negative n).natAbs = n := natAbs_signed
    rw [readWord_eq_ok.mpr ⟨hn, by omega⟩]
    exact offsetOf_eq_ok.mpr ⟨hk, hne⟩

theorem readOffset_eq_ok : readOffset word = .ok k ↔ Signed word k.toInt ∧ k.toInt ≠ -2 ^ 63 := by
  by_cases h : ∃ rest, word = '-' :: rest
  · obtain ⟨rest, rfl⟩ := h
    rw [readOffset_minus, signed_minus]
    exact readWord_bind_offsetOf
  · have hne : ∀ rest, word ≠ '-' :: rest := fun rest hrest => h ⟨rest, hrest⟩
    rw [readOffset_of_ne hne, signed_of_ne hne]
    exact readWord_bind_offsetOf

theorem badInput_of_bind (h : (readWord magnitude).bind (offsetOf word negative) = .error e) :
    ∃ fault, e = .badInput fault := by
  cases hread : readWord magnitude with
  | error e' =>
    rw [hread] at h
    obtain rfl : e' = e := Except.error.inj h
    exact badInput_of_readWord hread
  | ok n =>
    rw [hread] at h
    simp only [Except.bind, offsetOf] at h
    split at h
    · cases h
    · cases h
      exact ⟨_, rfl⟩

theorem badInput_of_readOffset (h : readOffset word = .error e) : ∃ fault, e = .badInput fault := by
  by_cases hminus : ∃ rest, word = '-' :: rest
  · obtain ⟨rest, rfl⟩ := hminus
    exact badInput_of_bind (readOffset_minus.symm.trans h)
  · exact badInput_of_bind ((readOffset_of_ne fun rest hrest => hminus ⟨rest, hrest⟩).symm.trans h)

theorem signed_toString (i : Int) : Signed (toString i).toList i := by
  have hdecimal (n : Nat) : Magnitude (Nat.toDigits 10 n) n :=
    .decimal (.bare (Numeral.digits_toDigits (by decide) (by decide) n))
  cases i with
  | ofNat n =>
    have htext : toString (Int.ofNat n) = String.ofList (Nat.toDigits 10 n) := rfl
    rw [htext, String.toList_ofList]
    exact .plain (hdecimal n)
  | negSucc n =>
    have htext : toString (Int.negSucc n) = "-" ++ String.ofList (Nat.toDigits 10 (n + 1)) := rfl
    simp only [htext, String.toList_append, String.toList_ofList]
    exact .minus (hdecimal (n + 1))

theorem ofWords_offset_eq (w : String) :
    ofWords ["offset", w] = (readOffset w.toList).map fun k => .command (.setOffset k) := by
  rfl

/-- A word is taken for the offset it is a numeral of, unless that is the lowest number of 64 bits,
which is refused as all other words are. -/
theorem ofWords_offset (w : String) :
    (∀ k, ofWords ["offset", w] = .ok (.command (.setOffset k)) ↔
      Signed w.toList k.toInt ∧ k.toInt ≠ -2 ^ 63) ∧
    ((∃ k, ofWords ["offset", w] = .ok (.command (.setOffset k))) ∨
      ∃ fault, ofWords ["offset", w] = .error (.badInput fault)) ∧
    ∀ k : Int64, ofWords ["offset", toString k.toInt] = .ok (.command (.setOffset k)) ↔
      k.toInt ≠ -2 ^ 63 := by
  have hoffset (w : String) (k : Int64) : ofWords ["offset", w] = .ok (.command (.setOffset k)) ↔
      Signed w.toList k.toInt ∧ k.toInt ≠ -2 ^ 63 := by
    rw [← readOffset_eq_ok, ofWords_offset_eq]
    cases readOffset w.toList <;> simp [Except.map]
  refine ⟨hoffset w, ?_, fun k => ?_⟩
  · rw [ofWords_offset_eq]
    cases hread : readOffset w.toList with
    | ok k => exact .inl ⟨k, rfl⟩
    | error e =>
      obtain ⟨fault, rfl⟩ := badInput_of_readOffset hread
      exact .inr ⟨fault, rfl⟩
  · rw [hoffset, and_iff_right (signed_toString k.toInt)]

/-- The lowest number of 64 bits has a numeral, and it is refused. -/
theorem ofWords_offset_lowest :
    Signed "-9223372036854775808".toList (-2 ^ 63) ∧
      ofWords ["offset", "-9223372036854775808"] =
        .error (.badInput (.outOfRange "-9223372036854775808")) := by
  have htext : toString (-2 ^ 63 : Int) = "-9223372036854775808" := rfl
  refine ⟨?_, rfl⟩
  rw [← htext]
  exact signed_toString (-2 ^ 63)

end DwarfScope.Command
