import DwarfScope.Proofs.Text.Hex
import DwarfScope.Text.Numeral
import Mathlib.Algebra.Group.Nat.Defs
import Mathlib.Data.List.Induction

/-!
# Numerals

The numerals of a base and the numbers they stand for. Exactly the numerals of numbers of 64 bits
are read, and what is written for a number is a numeral of it.
-/

namespace DwarfScope.Numeral

variable {base n m d acc : Nat} {c : Char} {text rest : List Char}

/-- Digits of a base, the highest first, and the number they stand for. There is at least one. -/
inductive Digits (base : Nat) : List Char → Nat → Prop
  | one {c : Char} {d : Nat} : Hex.IsDigit c d → d < base → Digits base [c] d
  | more {text : List Char} {c : Char} {n d : Nat} : Digits base text n → Hex.IsDigit c d →
      d < base → Digits base (text ++ [c]) (base * n + d)

/-- Digits with an optional plus sign in front. -/
inductive Unsigned (base : Nat) : List Char → Nat → Prop
  | bare {text : List Char} {n : Nat} : Digits base text n → Unsigned base text n
  | plus {text : List Char} {n : Nat} : Digits base text n → Unsigned base ('+' :: text) n

/-! ## Digits -/

theorem digitValue?_eq_some : digitValue? base c = some d ↔ Hex.IsDigit c d ∧ d < base := by
  rw [digitValue?, Option.filter_eq_some_iff, Hex.value?_eq_some_iff, decide_eq_true_eq]

theorem Digits.ne_nil (h : Digits base text n) : text ≠ [] := by
  cases h <;> simp

theorem Digits.exists_digit (h : Digits base text n) (hc : c ∈ text) :
    ∃ d, Hex.IsDigit c d ∧ d < base := by
  induction h with
  | one hd hlt =>
    obtain rfl := List.mem_singleton.mp hc
    exact ⟨_, hd, hlt⟩
  | more _ hd hlt ih =>
    rcases List.mem_append.mp hc with hc | hc
    · exact ih hc
    · obtain rfl := List.mem_singleton.mp hc
      exact ⟨_, hd, hlt⟩

theorem digits_one : Digits base [c] n ↔ Hex.IsDigit c n ∧ n < base := by
  constructor
  · intro h
    generalize hwhole : [c] = whole at h
    cases h with
    | one hd hlt =>
      obtain rfl := List.singleton_inj.mp hwhole
      exact ⟨hd, hlt⟩
    | more h =>
      have hwhole : [] ++ [c] = _ ++ _ := hwhole
      obtain ⟨htext, -⟩ := List.append_inj' hwhole rfl
      exact absurd htext.symm h.ne_nil
  · rintro ⟨hd, hlt⟩
    exact .one hd hlt

theorem digits_concat (hne : text ≠ []) :
    Digits base (text ++ [c]) n ↔
      ∃ m d, Digits base text m ∧ Hex.IsDigit c d ∧ d < base ∧ n = base * m + d := by
  constructor
  · intro h
    generalize hwhole : text ++ [c] = whole at h
    cases h with
    | one =>
      have hwhole : text ++ [c] = [] ++ _ := hwhole
      obtain ⟨htext, -⟩ := List.append_inj' hwhole rfl
      exact absurd htext hne
    | more h hd hlt =>
      obtain ⟨rfl, hc⟩ := List.append_inj' hwhole rfl
      obtain rfl := List.singleton_inj.mp hc
      exact ⟨_, _, h, hd, hlt, rfl⟩
  · rintro ⟨m, d, h, hd, hlt, rfl⟩
    exact .more h hd hlt

theorem digits_toDigits (hbase : 1 < base) (hle : base ≤ 16) (n : Nat) :
    Digits base (Nat.toDigits base n) n := by
  induction n using Nat.strongRecOn with
  | ind n ih =>
    rw [Nat.toDigits_eq_if hbase]
    split
    case isTrue hlt => exact .one (Hex.isDigit_digit (by omega)) hlt
    case isFalse hge =>
      have hlast : n % base < base := Nat.mod_lt n (by omega)
      have hsmaller : n / base < n := Nat.div_lt_self (by omega) hbase
      have h := (ih (n / base) hsmaller).more (Hex.isDigit_digit (by omega)) hlast
      rwa [Nat.div_add_mod] at h

/-! ## Signs -/

theorem Digits.not_mem (h : Digits base text n) (hc : Hex.value? c = none) : c ∉ text := by
  intro hmem
  obtain ⟨d, hd, -⟩ := h.exists_digit hmem
  exact Hex.not_isDigit hc hd

theorem unsigned_plus : Unsigned base ('+' :: rest) n ↔ Digits base rest n := by
  constructor
  · intro h
    cases h with
    | bare h => exact absurd List.mem_cons_self (h.not_mem (c := '+') rfl)
    | plus h => exact h
  · exact .plus

theorem unsigned_of_ne (h : ∀ rest, text ≠ '+' :: rest) :
    Unsigned base text n ↔ Digits base text n := by
  constructor
  · intro hn
    cases hn with
    | bare hn => exact hn
    | plus hn => exact absurd rfl (h _)
  · exact .bare

theorem Unsigned.mem_cases (h : Unsigned base text n) (hc : c ∈ text) :
    c = '+' ∨ ∃ d, Hex.IsDigit c d ∧ d < base := by
  cases h with
  | bare h => exact .inr (h.exists_digit hc)
  | plus h =>
    rcases List.mem_cons.mp hc with rfl | hc
    · exact .inl rfl
    · exact .inr (h.exists_digit hc)

/-! ## Reading -/

theorem readDigits_concat :
    readDigits base acc (text ++ [c]) =
      (readDigits base acc text).bind fun m => readDigits base m [c] := by
  induction text generalizing acc with
  | nil => rfl
  | cons x text ih =>
    simp only [List.cons_append, readDigits]
    split
    · rfl
    · split
      · exact ih
      · rfl

theorem readDigits_one :
    readDigits base m [c] = .ok n ↔
      ∃ d, Hex.IsDigit c d ∧ d < base ∧ n = base * m + d ∧ n < 2 ^ 64 := by
  have hsize : UInt64.size = 2 ^ 64 := rfl
  simp only [readDigits]
  constructor
  · intro h
    split at h
    · cases h
    · rename_i d hd
      obtain ⟨hd, hlt⟩ := digitValue?_eq_some.mp hd
      split at h
      · cases h
        exact ⟨d, hd, hlt, rfl, by omega⟩
      · cases h
  · rintro ⟨d, hd, hlt, rfl, hn⟩
    rw [digitValue?_eq_some.mpr ⟨hd, hlt⟩]
    exact if_pos (hsize ▸ hn)

theorem readDigits_eq_ok (hbase : 0 < base) (hne : text ≠ []) :
    readDigits base 0 text = .ok n ↔ Digits base text n ∧ n < 2 ^ 64 := by
  -- From the last digit, as those before it are the number that has been read so far.
  induction text using List.reverseRecOn generalizing n with
  | nil => exact absurd rfl hne
  | append_singleton text c ih =>
    by_cases htext : text = []
    · subst htext
      rw [List.nil_append, readDigits_one, digits_one]
      constructor
      · rintro ⟨d, hd, hlt, hn, hn64⟩
        obtain rfl : n = d := by omega
        exact ⟨⟨hd, hlt⟩, hn64⟩
      · rintro ⟨⟨hd, hlt⟩, hn64⟩
        exact ⟨n, hd, hlt, by omega, hn64⟩
    · rw [readDigits_concat, digits_concat htext]
      constructor
      · intro h
        cases hm : readDigits base 0 text with
        | error fault =>
          rw [hm] at h
          cases h
        | ok m =>
          rw [hm] at h
          obtain ⟨d, hd, hlt, rfl, hn⟩ := readDigits_one.mp h
          obtain ⟨hdigits, -⟩ := (ih htext).mp hm
          exact ⟨⟨m, d, hdigits, hd, hlt, rfl⟩, hn⟩
      · rintro ⟨⟨m, d, h, hd, hlt, rfl⟩, hn⟩
        have hle : m ≤ base * m := Nat.le_mul_of_pos_left m hbase
        rw [(ih htext).mpr ⟨h, by omega⟩]
        exact readDigits_one.mpr ⟨d, hd, hlt, rfl, hn⟩

/-- Exactly the numerals of numbers of 64 bits are read. -/
theorem readUnsigned_eq_ok (hbase : 0 < base) :
    readUnsigned base text = .ok n ↔ Unsigned base text n ∧ n < 2 ^ 64 := by
  unfold readUnsigned
  split
  case h_1 =>
    rw [unsigned_of_ne (by simp)]
    constructor
    · intro h
      cases h
    · rintro ⟨h, -⟩
      exact absurd rfl h.ne_nil
  case h_2 =>
    rw [unsigned_plus]
    constructor
    · intro h
      cases h
    · rintro ⟨h, -⟩
      exact absurd rfl h.ne_nil
  case h_3 rest hrest =>
    rw [unsigned_plus]
    exact readDigits_eq_ok hbase fun h => hrest (by rw [h])
  case h_4 text hne hone hplus =>
    rw [unsigned_of_ne hplus]
    exact readDigits_eq_ok hbase hne

end DwarfScope.Numeral
