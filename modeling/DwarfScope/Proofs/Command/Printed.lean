import DwarfScope.Feedback
import DwarfScope.Proofs.Command.Line

/-!
# Printed values

What is printed for the field of a variable, or for its value, can be typed again to set it.
-/

namespace DwarfScope.Command

/-- The words that set the variable of a name, or else the current one. -/
def setWords (target : Option String) (value : String) : List String :=
  match target with
  | none => ["set", value]
  | some name => ["set", name, value]

/-- The command that is typed with this word for the value sets these bytes. -/
def Sets (target : Option String) (word : String) (bytes : List UInt8) : Prop :=
  ofWords (setWords target word) = .ok (.command (.setVariable target bytes))

/-- The command that is typed with this word for the value sets this number. -/
def SetsField (name word : String) (n : UInt64) : Prop :=
  ofWords ["field", name, word] = .ok (.command (.setField name n))

variable {target : Option String} {name word text : String} {bytes : List UInt8} {n : UInt64}

/-! ## Numbers -/

/-- The text has a number in base sixteen, and the same number in base ten behind it. -/
structure PrintsNumber (text hex decimal : String) (n : Nat) : Prop where
  text_eq : text = hex ++ " (" ++ decimal ++ ")"
  hex : ∃ digits, hex.toList = '0' :: 'x' :: digits ∧ Numeral.Digits 16 digits n
  decimal : Numeral.Digits 10 decimal.toList n

theorem describe_field (n : UInt64) :
    PrintsNumber (Feedback.field n).describe (Hex.number n.toNat) (toString n.toNat) n.toNat where
  text_eq := by
    rw [String.append_assoc, String.append_assoc]
    rfl
  hex := by
    have hdigits : Numeral.Digits 16 (Nat.toDigits 16 n.toNat) n.toNat :=
      Numeral.digits_toDigits (by decide) (by decide) n.toNat
    exact ⟨_, by simp [Hex.number, Hex.digits], hdigits⟩
  decimal := by
    have htext : toString n.toNat = String.ofList (Nat.toDigits 10 n.toNat) := rfl
    rw [htext, String.toList_ofList]
    exact Numeral.digits_toDigits (by decide) (by decide) n.toNat

theorem setsField_of_magnitude (h : Magnitude word.toList n.toNat) : SetsField name word n := by
  have hread : readWord word.toList = .ok n.toNat := readWord_eq_ok.mpr ⟨h, n.toNat_lt⟩
  have hwords : ofWords ["field", name, word] =
      (readWord word.toList).map fun m => .command (.setField name (UInt64.ofNat m)) := rfl
  rw [SetsField, hwords, hread, Except.map, UInt64.ofNat_toNat]

theorem PrintsNumber.setsField {hex decimal : String} (h : PrintsNumber text hex decimal n.toNat)
    (name : String) : SetsField name hex n ∧ SetsField name decimal n := by
  obtain ⟨digits, hhex, hdigits⟩ := h.hex
  constructor
  · apply setsField_of_magnitude
    rw [hhex]
    exact .hex (.bare hdigits)
  · exact setsField_of_magnitude (.decimal (.bare h.decimal))

/-! ## Bytes -/

theorem sets_iff : Sets target word bytes ↔ readBytes word.toList = .ok bytes := by
  have hwords : ofWords (setWords target word) =
      (readBytes word.toList).map fun value => .command (.setVariable target value) := by
    cases target <;> rfl
  rw [Sets, hwords]
  cases readBytes word.toList <;> simp [Except.map]

theorem view_value {v : Variable} (h : v.value = some bytes) :
    v.view.value = some (Hex.encode bytes) := by
  rw [Variable.view, h]
  rfl

theorem toList_toLower (text : String) : text.toLower.toList = text.toList.map Char.toLower :=
  String.toList_map

theorem spells_iff_toLower : Hex.Spells word.toList bytes ↔ word.toLower = Hex.encode bytes := by
  rw [← String.toList_inj, toList_toLower, Hex.encode, String.toList_ofList]
  rfl

/-- A value is set by what is written for its bytes, in letters of either case and with or without
the mark, and by no other word. -/
theorem sets_iff_toLower :
    Sets target word bytes ↔
      ∃ digits : String, digits.toLower = Hex.encode bytes ∧
        (word = digits ∨ word = "0x" ++ digits) := by
  rw [sets_iff, readBytes_eq_ok]
  constructor
  · rintro ⟨digits, h, hword⟩
    refine ⟨String.ofList digits, ?_, ?_⟩
    · rwa [← spells_iff_toLower, String.toList_ofList]
    · rw [← String.toList_inj, ← String.toList_inj, String.toList_append, String.toList_ofList]
      exact hword
  · rintro ⟨digits, h, rfl | rfl⟩
    · exact ⟨_, spells_iff_toLower.mpr h, .inl rfl⟩
    · exact ⟨_, spells_iff_toLower.mpr h, .inr String.toList_append⟩

theorem toLower_encode (bytes : List UInt8) : (Hex.encode bytes).toLower = Hex.encode bytes := by
  rw [← spells_iff_toLower, Hex.encode, String.toList_ofList]
  exact Hex.spells_encodeChars bytes

theorem length_of_toLower {digits : String} (h : digits.toLower = text) :
    digits.length = text.length := by
  rw [← h, ← String.length_toList, ← String.length_toList, toList_toLower, List.length_map]

theorem length_marked (text : String) : ("0x" ++ text).length = text.length + 2 := by
  rw [String.length_append, Nat.add_comm]
  rfl

/-- The bytes are set by the text, with or without the mark, and by no other word of that length
except for the case of its letters. -/
structure TypedBack (target : Option String) (text : String) (bytes : List UInt8) : Prop where
  plain : Sets target text bytes
  marked : Sets target ("0x" ++ text) bytes
  plain_unique : ∀ word : String, word.length = text.length → Sets target word bytes →
    word.toLower = text
  marked_unique : ∀ word : String, word.length = ("0x" ++ text).length → Sets target word bytes →
    ∃ digits, word = "0x" ++ digits ∧ digits.toLower = text

theorem typedBack_encode (target : Option String) (bytes : List UInt8) :
    TypedBack target (Hex.encode bytes) bytes where
  plain := sets_iff_toLower.mpr ⟨_, toLower_encode bytes, .inl rfl⟩
  marked := sets_iff_toLower.mpr ⟨_, toLower_encode bytes, .inr rfl⟩
  plain_unique word hlength h := by
    obtain ⟨digits, hdigits, rfl | rfl⟩ := sets_iff_toLower.mp h
    · exact hdigits
    · rw [length_marked, length_of_toLower hdigits] at hlength
      omega
  marked_unique word hlength h := by
    obtain ⟨digits, hdigits, rfl | rfl⟩ := sets_iff_toLower.mp h
    · rw [length_marked, length_of_toLower hdigits] at hlength
      omega
    · exact ⟨digits, rfl, hdigits⟩

/-! ## What is printed -/

/-- The numbers that are printed for a field set it to the same value, and the text that is shown
for the value of a variable sets the same bytes. -/
theorem printed_typedBack :
    (∀ (n : UInt64) (name : String), ∃ hex decimal,
      PrintsNumber (Feedback.field n).describe hex decimal n.toNat ∧
        SetsField name hex n ∧ SetsField name decimal n) ∧
    ∀ (v : Variable) (bytes : List UInt8), v.value = some bytes →
      ∃ text, v.view.value = some text ∧ ∀ target, TypedBack target text bytes := by
  constructor
  · intro n name
    exact ⟨_, _, describe_field n, (describe_field n).setsField name⟩
  · intro v bytes h
    exact ⟨_, view_value h, fun target => typedBack_encode target bytes⟩

/-- The field of a date, and a value of two bytes that is typed in capitals. -/
theorem printed_typedBack_date :
    let v : Variable := {
      name := "date", layout := default, address := 0, value := some [0xfe, 0xed] }
    (∃ hex decimal, PrintsNumber "0x7e5 (2021)" hex decimal 2021 ∧
      SetsField "year" hex 2021 ∧ SetsField "year" decimal 2021) ∧
    v.view.value = some "feed" ∧ Sets none "FEed" [0xfe, 0xed] ∧ "FEed".toLower = "feed" := by
  intro v
  have hdescribe : (Feedback.field 2021).describe = "0x7e5 (2021)" := rfl
  have hsets : Sets none "FEed" [0xfe, 0xed] := rfl
  obtain ⟨hnumber, hvalue⟩ := printed_typedBack
  obtain ⟨text, htext, hback⟩ := hvalue v [0xfe, 0xed] rfl
  obtain rfl : "feed" = text := Option.some.inj htext
  exact ⟨hdescribe ▸ hnumber 2021 "year", htext, hsets,
    (hback none).plain_unique "FEed" rfl hsets⟩

end DwarfScope.Command
