import DwarfScope.Json.Reader
import DwarfScope.Proofs.Text.Hex

/-!
# Text of JSON values

Written text is read back as the value it was written from. Numbers, strings and values are read
with some text behind them, which stays. Written text has no control characters, so a value takes
one line.
-/

namespace DwarfScope.Json

variable {c : Char} {n : Nat} {text rest : List Char}

/-! ## Steps that succeed -/

@[simp] theorem ok_bind {ε α β : Type} (a : α) (f : α → Except ε β) : (.ok a >>= f) = f a := rfl

@[simp] theorem ok_map {ε α β : Type} (f : α → β) (a : α) :
    f <$> (.ok a : Except ε α) = .ok (f a) := rfl

/-! ## Numbers -/

/-- No number goes on with what follows. -/
def EndsNumber (rest : List Char) : Prop :=
  ∀ c ∈ rest.head?, isDigit c = false ∧ c ≠ '.' ∧ c ≠ 'e' ∧ c ≠ 'E'

theorem isDigit_of_mem_toDigits (h : c ∈ Nat.toDigits 10 n) : isDigit c = true :=
  Nat.isDigit_of_mem_toDigits (by decide) (by decide) h

theorem exists_toDigits (n : Nat) : ∃ d ds, Nat.toDigits 10 n = d :: ds ∧ isDigit d = true := by
  obtain ⟨d, ds, hds⟩ := List.exists_cons_of_ne_nil (Nat.toDigits_ne_nil (n := n) (b := 10))
  exact ⟨d, ds, hds, isDigit_of_mem_toDigits (n := n) (by rw [hds]; exact .head _)⟩

theorem digitsValue_toDigits (n : Nat) : digitsValue (Nat.toDigits 10 n) = n :=
  Nat.ofDigitChars_ten_toDigits

theorem toDigits_zero_cons {ds : List Char} (h : Nat.toDigits 10 n = '0' :: ds) : n = 0 := by
  induction n using Nat.strongRecOn generalizing ds with
  | ind n ih =>
    rw [Nat.toDigits_eq_if (by decide)] at h
    split at h
    case isTrue hlt =>
      have hzero : ∀ d < 10, Nat.digitChar d = '0' → d = 0 := by decide
      exact hzero n hlt (List.cons.inj h).1
    case isFalse hge =>
      obtain ⟨d, rest, hds, -⟩ := exists_toDigits (n / 10)
      rw [hds] at h
      obtain rfl : d = '0' := (List.cons.inj h).1
      have := ih (n / 10) (by omega) hds
      omega

theorem readDigits_append {digits : List Char} (hne : digits ≠ [])
    (hdigits : ∀ c ∈ digits, isDigit c = true) (hrest : ∀ c ∈ rest.head?, isDigit c = false) :
    readDigits (digits ++ rest) = .ok (digits, rest) := by
  have hstop : rest.takeWhile isDigit = [] ∧ rest.dropWhile isDigit = rest := by
    cases rest with
    | nil => simp
    | cons c rest => simp [hrest c rfl]
  unfold readDigits
  rw [List.takeWhile_append_of_pos hdigits, List.dropWhile_append_of_pos hdigits, hstop.1, hstop.2,
    List.append_nil]
  cases digits with
  | nil => exact absurd rfl hne
  | cons d ds => rfl

theorem readDigits_toDigits (n : Nat) (hrest : ∀ c ∈ rest.head?, isDigit c = false) :
    readDigits (Nat.toDigits 10 n ++ rest) = .ok (Nat.toDigits 10 n, rest) :=
  readDigits_append Nat.toDigits_ne_nil (fun _ => isDigit_of_mem_toDigits) hrest

theorem readWhole_toDigits (n : Nat) (hrest : ∀ c ∈ rest.head?, isDigit c = false) :
    readWhole (Nat.toDigits 10 n ++ rest) = .ok (Nat.toDigits 10 n, rest) := by
  unfold readWhole
  split
  case h_1 ds heq =>
    obtain ⟨d, ds', hds, -⟩ := exists_toDigits n
    rw [hds] at heq
    obtain ⟨rfl, rfl⟩ := List.cons.inj heq
    obtain rfl := toDigits_zero_cons hds
    obtain rfl : [] = ds' := by simpa using hds
    rfl
  case h_2 => exact readDigits_toDigits n hrest

theorem readMagnitude_toDigits (negative : Bool) (n : Nat)
    (hrest : ∀ c ∈ rest.head?, isDigit c = false) :
    readMagnitude negative (Nat.toDigits 10 n ++ rest) = (do
      let (fraction, text) ← readFraction rest
      let (exponent, text) ← readExponent text
      return (numberValue negative (Nat.toDigits 10 n) fraction exponent, text)) := by
  unfold readMagnitude
  rw [readWhole_toDigits n hrest]
  rfl

theorem readFraction_of_ends (h : EndsNumber rest) : readFraction rest = .ok ([], rest) := by
  unfold readFraction
  split
  · exact absurd rfl (h '.' rfl).2.1
  · rfl

theorem readExponent_of_ends (h : EndsNumber rest) : readExponent rest = .ok (none, rest) := by
  cases rest with
  | nil => rfl
  | cons c rest =>
    obtain ⟨-, -, he, hE⟩ := h c rfl
    simp [readExponent, he, hE]

theorem numberValue_int (n : Nat) :
    numberValue false (Nat.toDigits 10 n) [] none = int n ∧
      numberValue true (Nat.toDigits 10 (n + 1)) [] none = int (.negSucc n) := by
  constructor
  · simp [numberValue, digitsValue_toDigits]
  · have hne : (n : Int) + 1 ≠ 0 := by omega
    simp [numberValue, digitsValue_toDigits, hne, Int.negSucc_eq]

theorem readNumber_toDigits (n : Nat) :
    readNumber (Nat.toDigits 10 n ++ rest) = readMagnitude false (Nat.toDigits 10 n ++ rest) := by
  obtain ⟨d, ds, hds, hd⟩ := exists_toDigits n
  unfold readNumber
  split
  case h_1 heq =>
    rw [hds] at heq
    obtain ⟨rfl, -⟩ := List.cons.inj heq
    cases hd
  case h_2 => rfl

theorem readNumber_int (n : Int) (h : EndsNumber rest) :
    readNumber (renderInt n ++ rest) = .ok (int n, rest) := by
  have hdigit : ∀ c ∈ rest.head?, isDigit c = false := fun c hc => (h c hc).1
  cases n with
  | ofNat n =>
    rw [renderInt, readNumber_toDigits, readMagnitude_toDigits _ _ hdigit,
      readFraction_of_ends h]
    simp only [ok_bind, readExponent_of_ends h, (numberValue_int n).1]
    rfl
  | negSucc n =>
    change readMagnitude true (Nat.toDigits 10 (n + 1) ++ rest) = _
    rw [readMagnitude_toDigits _ _ hdigit, readFraction_of_ends h]
    simp only [ok_bind, readExponent_of_ends h, (numberValue_int n).2]
    rfl

theorem readExponent_render (e : Int) (hrest : ∀ c ∈ rest.head?, isDigit c = false) :
    readExponent ('e' :: (renderInt e ++ rest)) = .ok (some e, rest) := by
  cases e with
  | ofNat n =>
    obtain ⟨d, ds, hds, hd⟩ := exists_toDigits n
    have hread := readDigits_toDigits n hrest
    have hvalue := digitsValue_toDigits n
    have hminus : d ≠ '-' := by rintro rfl; cases hd
    have hplus : d ≠ '+' := by rintro rfl; cases hd
    rw [hds] at hread hvalue
    simp only [List.cons_append] at hread
    simp [readExponent, renderInt, hds, hread, hvalue, pure, Except.pure, hminus, hplus]
  | negSucc n =>
    have hread := readDigits_toDigits (n + 1) hrest
    simp [readExponent, renderInt, hread, digitsValue_toDigits, pure, Except.pure, Int.negSucc_eq]

theorem numberValue_decimal (n : Nat) (e : Int) :
    numberValue false (Nat.toDigits 10 n) [] (some e) = decimal n e ∧
      numberValue true (Nat.toDigits 10 (n + 1)) [] (some e) = decimal (.negSucc n) e := by
  constructor
  · simp [numberValue, digitsValue_toDigits]
  · simp [numberValue, digitsValue_toDigits, Int.negSucc_eq]

theorem readNumber_decimal (m e : Int) (hrest : ∀ c ∈ rest.head?, isDigit c = false) :
    readNumber (renderInt m ++ 'e' :: (renderInt e ++ rest)) = .ok (decimal m e, rest) := by
  have hdigit : ∀ c ∈ ('e' :: (renderInt e ++ rest)).head?, isDigit c = false := by
    rintro c ⟨⟩
    rfl
  have hfraction :
      readFraction ('e' :: (renderInt e ++ rest)) = .ok ([], 'e' :: (renderInt e ++ rest)) :=
    rfl
  cases m with
  | ofNat n =>
    rw [renderInt, readNumber_toDigits, readMagnitude_toDigits _ _ hdigit, hfraction]
    simp only [ok_bind, readExponent_render e hrest, (numberValue_decimal n e).1]
    rfl
  | negSucc n =>
    change readMagnitude true (Nat.toDigits 10 (n + 1) ++ _) = _
    rw [readMagnitude_toDigits _ _ hdigit, hfraction]
    simp only [ok_bind, readExponent_render e hrest, (numberValue_decimal n e).2]
    rfl

/-! ## Strings -/

theorem escape_ne_nil (c : Char) : escape c ≠ [] := by
  unfold escape
  repeat' split
  all_goals simp

theorem readUnit_digits (hn : n < 0x100) :
    readUnit ('0' :: '0' :: Hex.encodeByte (UInt8.ofNat n) ++ rest) = .ok (n, rest) := by
  have hbyte : (UInt8.ofNat n).toNat = n := by simp; omega
  have hhigh := Hex.value?_digit (d := n / 16) (by omega)
  have hlow := Hex.value?_digit (d := n % 16) (by omega)
  have hzero : Hex.value? '0' = some 0 := rfl
  have hsum : ((16 * 0 + 0) * 16 + n / 16) * 16 + n % 16 = n := by omega
  simp only [Hex.encodeByte, hbyte, List.cons_append, List.nil_append, readUnit, hzero, hhigh, hlow,
    hsum]

theorem readCodePoint_control (hc : c.toNat < 0x20) :
    readCodePoint ('0' :: '0' :: Hex.encodeByte (UInt8.ofNat c.toNat) ++ rest) =
      .ok (some c, rest) := by
  have hhigh : ¬(0xdc00 ≤ c.toNat ∧ c.toNat < 0xe000) := by omega
  have hlow : ¬(0xd800 ≤ c.toNat ∧ c.toNat < 0xdc00) := by omega
  simp only [readCodePoint, readUnit_digits (show c.toNat < 0x100 by omega), ok_bind, hhigh, hlow,
    if_false, Char.ofNat_toNat]
  rfl

theorem readStringTail_backslash (k : Nat) :
    readStringTail (k + 1) ('\\' :: text) = (do
      let (d, rest) ← readEscape text
      let (ds, rest) ← readStringTail k rest
      return (cons? d ds, rest)) := rfl

theorem readStringTail_escape (c : Char) (k : Nat) :
    readStringTail (k + 1) (escape c ++ rest) =
      (do let (ds, rest) ← readStringTail k rest; return (cons? (some c) ds, rest)) := by
  unfold escape
  split_ifs with hquote hbackslash hb hf hn hr ht hc
  iterate 7
    · subst_vars
      rfl
  · have hescape :
        readEscape ('u' :: '0' :: '0' :: (Hex.encodeByte (UInt8.ofNat c.toNat) ++ rest)) =
        .ok (some c, rest) :=
      readCodePoint_control hc
    simp only [List.cons_append, List.nil_append, readStringTail_backslash, hescape, ok_bind]
  · simp only [List.cons_append, List.nil_append, readStringTail, hquote, hbackslash, hc, if_false]

theorem readStringTail_render (cs : List Char) {k : Nat} (hk : cs.length < k) :
    readStringTail k (cs.flatMap escape ++ '"' :: rest) = .ok (some cs, rest) := by
  induction cs generalizing k with
  | nil =>
    cases k with
    | zero => cases hk
    | succ k => rfl
  | cons c cs ih =>
    cases k with
    | zero => cases hk
    | succ k =>
      rw [List.flatMap_cons, List.append_assoc, readStringTail_escape,
        ih (Nat.lt_of_succ_lt_succ hk)]
      rfl

theorem length_le_flatMap_escape (cs : List Char) : cs.length ≤ (cs.flatMap escape).length := by
  induction cs with
  | nil => simp
  | cons c cs ih =>
    have := List.length_pos_iff.2 (escape_ne_nil c)
    simp only [List.flatMap_cons, List.length_append, List.length_cons]
    omega

theorem readString_render (s : String) :
    readString (s.toList.flatMap escape ++ '"' :: rest) = .ok (some s, rest) := by
  have hlong : s.toList.length < (s.toList.flatMap escape ++ '"' :: rest).length := by
    have := length_le_flatMap_escape s.toList
    simp only [List.length_append, List.length_cons]
    omega
  simp only [readString, readStringTail_render _ hlong, ok_bind, Option.map_some,
    String.ofList_toList]
  rfl

/-! ## Values -/

@[simp] theorem endsNumber_cons (hc : isDigit c = false ∧ c ≠ '.' ∧ c ≠ 'e' ∧ c ≠ 'E') :
    EndsNumber (c :: rest) := by
  rintro d ⟨⟩
  exact hc

theorem skipBlanks_cons (hc : isBlank c = false) : skipBlanks (c :: rest) = c :: rest := by
  simp [skipBlanks, hc]

theorem isBlank_eq_true_iff : isBlank c = true ↔ c ∈ [' ', '\n', '\t', '\r'] := by
  simp [isBlank, or_assoc]

theorem renderInt_head (n : Int) : ∃ c cs, renderInt n = c :: cs ∧ isBlank c = false ∧
    c ∉ ['n', 't', 'f', '"', '[', ']', '\x7b'] := by
  have hblank : ∀ c ∈ [' ', '\n', '\t', '\r'], isDigit c = false := by simp [isDigit]
  have hother : ∀ c ∈ ['n', 't', 'f', '"', '[', ']', '\x7b'], isDigit c = false := by simp [isDigit]
  cases n with
  | ofNat n =>
    obtain ⟨d, ds, hds, hd⟩ := exists_toDigits n
    refine ⟨d, ds, hds, ?_, fun hmem => ?_⟩
    · rw [Bool.eq_false_iff]
      intro h
      rw [hblank d (isBlank_eq_true_iff.1 h)] at hd
      cases hd
    · rw [hother d hmem] at hd
      cases hd
  | negSucc n => exact ⟨'-', _, rfl, rfl, by decide⟩

theorem readValue_number (k : Nat) (n : Int) :
    readValue (k + 1) (renderInt n ++ rest) = readNumber (renderInt n ++ rest) := by
  obtain ⟨c, cs, hcs, hblank, hc⟩ := renderInt_head n
  simp only [List.mem_cons, not_or] at hc
  obtain ⟨hn, ht, hf, hquote, hlist, -, hobject, -⟩ := hc
  rw [hcs, List.cons_append, readValue, skipBlanks_cons hblank]
  simp only [hn, ht, hf, hquote, hlist, hobject, if_false]

theorem renderChars_head (j : Json) :
    ∃ c cs, j.renderChars = c :: cs ∧ isBlank c = false ∧ c ≠ ']' := by
  have hnumber (n : Int) (more : List Char) :
      ∃ c cs, renderInt n ++ more = c :: cs ∧ isBlank c = false ∧ c ≠ ']' := by
    obtain ⟨c, cs, hcs, hblank, hc⟩ := renderInt_head n
    refine ⟨c, cs ++ more, by rw [hcs]; rfl, hblank, ?_⟩
    rintro rfl
    simp at hc
  cases j with
  | bool b => cases b <;> exact ⟨_, _, rfl, rfl, by decide⟩
  | int n =>
    rw [renderChars, ← List.append_nil (renderInt n)]
    exact hnumber n []
  | decimal m e => exact hnumber m _
  | _ => exact ⟨_, _, rfl, rfl, by decide⟩

theorem renderItems_head (j : Json) (items : List Json) :
    ∃ c cs, renderItems (j :: items) = c :: cs ∧ isBlank c = false ∧ c ≠ ']' := by
  obtain ⟨c, cs, hcs, hc⟩ := renderChars_head j
  cases items with
  | nil => exact ⟨c, cs ++ [']'], by rw [renderItems, hcs]; rfl, hc⟩
  | cons j' items => exact ⟨c, _, by simp only [renderItems, hcs]; rfl, hc⟩

theorem renderFields_head (name : String) (j : Json) (fields : List (String × Json)) :
    ∃ cs, renderFields ((name, j) :: fields) = '"' :: cs := by
  cases fields with
  | nil => exact ⟨_, rfl⟩
  | cons field fields => exact ⟨_, rfl⟩

theorem readValue_string (k : Nat) :
    readValue (k + 1) ('"' :: text) =
      (do let (s, rest) ← readString text; return (s.elim garbled str, rest)) := rfl

theorem readValue_object (k : Nat) :
    readValue (k + 1) ('\x7b' :: '"' :: text) =
      (do let (fields, rest) ← readFields k ('"' :: text)
          return (fields.elim garbled obj, rest)) := rfl

theorem readValue_list (k : Nat) (hblank : isBlank c = false) (hc : c ≠ ']') :
    readValue (k + 1) ('[' :: c :: rest) =
      (do let (items, rest) ← readItems k (c :: rest); return (arr items, rest)) := by
  have hskip : skipBlanks ('[' :: c :: rest) = '[' :: c :: rest := rfl
  simp only [readValue, hskip, skipBlanks_cons hblank]
  simp [hc]

theorem readItems_last {k : Nat} {j : Json} (h : readValue k text = .ok (j, ']' :: rest)) :
    readItems (k + 1) text = .ok ([j], rest) := by
  rw [readItems, h]
  rfl

theorem readItems_next {k : Nat} {j : Json} (h : readValue k text = .ok (j, ',' :: rest)) :
    readItems (k + 1) text =
      (do let (items, rest) ← readItems k rest; return (j :: items, rest)) := by
  rw [readItems, h]
  rfl

theorem readFields_name (k : Nat) (name : String) :
    readFields (k + 1) (renderString name ++ ':' :: text) = (do
      let (j, rest) ← readValue k text
      match skipBlanks rest with
      | [] => .error .endOfText
      | c :: rest =>
        if c = '\x7d' then return (some [(name, j)], rest)
        else if c = ',' then do
          let (fields, rest) ← readFields k rest
          return (cons? (some (name, j)) fields, rest)
        else .error (.unexpected c)) := by
  have hname : renderString name ++ ':' :: text =
      '"' :: (name.toList.flatMap escape ++ '"' :: ':' :: text) := by
    simp [renderString]
  rw [hname, readFields]
  have hquote (text : List Char) : expect '"' (skipBlanks ('"' :: text)) = .ok text := rfl
  have hcolon : expect ':' (skipBlanks (':' :: text)) = .ok text := rfl
  simp only [hquote, ok_bind, readString_render, hcolon]
  rfl

theorem readFields_last {k : Nat} {j : Json} (name : String)
    (h : readValue k text = .ok (j, '\x7d' :: rest)) :
    readFields (k + 1) (renderString name ++ ':' :: text) = .ok (some [(name, j)], rest) := by
  rw [readFields_name, h]
  rfl

theorem readFields_next {k : Nat} {j : Json} (name : String)
    (h : readValue k text = .ok (j, ',' :: rest)) :
    readFields (k + 1) (renderString name ++ ':' :: text) =
      (do let (fields, rest) ← readFields k rest
          return (cons? (some (name, j)) fields, rest)) := by
  rw [readFields_name, h]
  rfl

/-- Whatever takes less than `k` calls to read is read back as it was written. -/
structure ReadsBack (k : Nat) : Prop where
  value : ∀ (j : Json) (rest : List Char), 2 * j.renderChars.length < k → EndsNumber rest →
    readValue k (j.renderChars ++ rest) = .ok (j, rest)
  items : ∀ (j : Json) (items : List Json) (rest : List Char),
    2 * (renderItems (j :: items)).length < k →
    readItems k (renderItems (j :: items) ++ rest) = .ok (j :: items, rest)
  fields : ∀ (name : String) (j : Json) (fields : List (String × Json)) (rest : List Char),
    2 * (renderFields ((name, j) :: fields)).length < k →
    readFields k (renderFields ((name, j) :: fields) ++ rest) =
      .ok (some ((name, j) :: fields), rest)

namespace ReadsBack

variable {k : Nat}

theorem value_succ (ih : ReadsBack k) (j : Json) (hk : 2 * j.renderChars.length < k + 1)
    (hrest : EndsNumber rest) : readValue (k + 1) (j.renderChars ++ rest) = .ok (j, rest) := by
  cases j with
  | null => rfl
  | bool b => cases b <;> rfl
  | int n => rw [renderChars, readValue_number, readNumber_int n hrest]
  | decimal m e =>
    rw [renderChars, List.append_assoc, List.cons_append, readValue_number,
      readNumber_decimal m e fun c hc => (hrest c hc).1]
  | str s =>
    rw [renderChars, renderString]
    simp only [List.cons_append, List.append_assoc, List.nil_append, readValue_string,
      readString_render]
    rfl
  | garbled => rfl
  | arr items =>
    cases items with
    | nil => rfl
    | cons j items =>
      simp only [renderChars, List.length_cons] at hk
      have hitems := ih.items j items rest (by omega)
      obtain ⟨c, cs, hcs, hblank, hc⟩ := renderItems_head j items
      rw [hcs, List.cons_append] at hitems
      rw [renderChars, hcs, List.cons_append, List.cons_append, readValue_list k hblank hc, hitems]
      rfl
  | obj fields =>
    cases fields with
    | nil => rfl
    | cons field fields =>
      obtain ⟨name, j⟩ := field
      simp only [renderChars, List.length_cons] at hk
      have hfields := ih.fields name j fields rest (by omega)
      obtain ⟨cs, hcs⟩ := renderFields_head name j fields
      rw [hcs, List.cons_append] at hfields
      rw [renderChars, hcs, List.cons_append, List.cons_append, readValue_object, hfields]
      rfl

theorem items_succ (ih : ReadsBack k) (j : Json) (items : List Json)
    (hk : 2 * (renderItems (j :: items)).length < k + 1) :
    readItems (k + 1) (renderItems (j :: items) ++ rest) = .ok (j :: items, rest) := by
  cases items with
  | nil =>
    simp only [renderItems, List.append_assoc, List.singleton_append, List.length_append,
      List.length_singleton] at hk ⊢
    exact readItems_last (ih.value j _ (by omega) (endsNumber_cons (by decide)))
  | cons j' items =>
    simp only [renderItems, List.append_assoc, List.cons_append, List.length_append,
      List.length_cons] at hk ⊢
    rw [readItems_next (ih.value j _ (by omega) (endsNumber_cons (by decide))),
      ih.items j' items rest (by omega)]
    rfl

theorem fields_succ (ih : ReadsBack k) (name : String) (j : Json) (fields : List (String × Json))
    (hk : 2 * (renderFields ((name, j) :: fields)).length < k + 1) :
    readFields (k + 1) (renderFields ((name, j) :: fields) ++ rest) =
      .ok (some ((name, j) :: fields), rest) := by
  cases fields with
  | nil =>
    simp only [renderFields, List.append_assoc, List.cons_append, List.nil_append,
      List.length_append, List.length_cons] at hk ⊢
    exact readFields_last name (ih.value j _ (by omega) (endsNumber_cons (by decide)))
  | cons field fields =>
    obtain ⟨name', j'⟩ := field
    simp only [renderFields, List.append_assoc, List.cons_append, List.length_append,
      List.length_cons] at hk ⊢
    rw [readFields_next name (ih.value j _ (by omega) (endsNumber_cons (by decide))),
      ih.fields name' j' fields rest (by omega)]
    rfl

end ReadsBack

theorem readsBack (k : Nat) : ReadsBack k := by
  induction k with
  | zero =>
    constructor
    all_goals
      intros
      omega
  | succ k ih =>
    exact ⟨fun j _ hk hrest => ih.value_succ j hk hrest,
      fun j items _ hk => ih.items_succ j items hk,
      fun name j fields _ hk => ih.fields_succ name j fields hk⟩

/-- Written text is read back as the value it was written from, of whatever kind. -/
theorem parse_render (j : Json) : parse j.render = .ok j := by
  have hread := (readsBack (2 * j.renderChars.length + 1)).value j [] (by omega)
    (fun _ h => by cases h)
  rw [List.append_nil] at hread
  simp only [parse, render, String.toList_ofList, parseChars, hread, ok_bind]
  rfl

/-! ## Control characters -/

/-- Text without control characters, so without line breaks. -/
def Unbroken (text : List Char) : Prop := ∀ c ∈ text, 0x20 ≤ c.toNat

@[simp] theorem unbroken_nil : Unbroken [] := by simp [Unbroken]

@[simp] theorem unbroken_cons : Unbroken (c :: text) ↔ 0x20 ≤ c.toNat ∧ Unbroken text := by
  simp [Unbroken]

@[simp] theorem unbroken_append {more : List Char} :
    Unbroken (text ++ more) ↔ Unbroken text ∧ Unbroken more := by
  simp [Unbroken, or_imp, forall_and]

theorem unbroken_encodeByte (b : UInt8) : Unbroken (Hex.encodeByte b) := by
  have hdigit : ∀ n < 16, 0x20 ≤ (Hex.digit n).toNat := by decide
  have := b.toNat_lt
  simp only [Hex.encodeByte, unbroken_cons, unbroken_nil, and_true]
  exact ⟨hdigit _ (by omega), hdigit _ (by omega)⟩

theorem unbroken_escape (c : Char) : Unbroken (escape c) := by
  unfold escape
  split_ifs with _ _ _ _ _ _ _ hc
  iterate 7
    · simp
  · have := unbroken_encodeByte (UInt8.ofNat c.toNat)
    simpa using this
  · simpa using hc

theorem unbroken_renderString (s : String) : Unbroken (renderString s) := by
  have : Unbroken (s.toList.flatMap escape) := by
    intro c hc
    obtain ⟨d, -, hd⟩ := List.mem_flatMap.1 hc
    exact unbroken_escape d c hd
  simpa [renderString] using this

theorem unbroken_toDigits (n : Nat) : Unbroken (Nat.toDigits 10 n) := by
  intro c hc
  have hdigit := isDigit_of_mem_toDigits hc
  simp only [isDigit, Bool.and_eq_true, decide_eq_true_eq] at hdigit
  have : 48 ≤ c.toNat := hdigit.1
  omega

theorem unbroken_renderInt (n : Int) : Unbroken (renderInt n) := by
  cases n with
  | ofNat n => exact unbroken_toDigits n
  | negSucc n => simpa [renderInt] using unbroken_toDigits (n + 1)

mutual

theorem unbroken_renderChars : ∀ j : Json, Unbroken j.renderChars
  | null | bool true | bool false | garbled => by simp [renderChars]
  | int n => unbroken_renderInt n
  | decimal m e => by simp [renderChars, unbroken_renderInt]
  | str s => unbroken_renderString s
  | arr items => by simpa [renderChars] using unbroken_renderItems items
  | obj fields => by simpa [renderChars] using unbroken_renderFields fields

theorem unbroken_renderItems : ∀ items : List Json, Unbroken (renderItems items)
  | [] => by simp [renderItems]
  | [j] => by simpa [renderItems] using unbroken_renderChars j
  | j :: j' :: items => by
    simpa [renderItems] using ⟨unbroken_renderChars j, unbroken_renderItems (j' :: items)⟩

theorem unbroken_renderFields : ∀ fields : List (String × Json), Unbroken (renderFields fields)
  | [] => by simp [renderFields]
  | [(name, j)] => by
    simpa [renderFields] using ⟨unbroken_renderString name, unbroken_renderChars j⟩
  | (name, j) :: field :: fields => by
    simpa [renderFields] using
      ⟨unbroken_renderString name, unbroken_renderChars j, unbroken_renderFields (field :: fields)⟩

end

theorem unbroken_render (j : Json) : Unbroken j.render.toList := by
  rw [render, String.toList_ofList]
  exact unbroken_renderChars j

end DwarfScope.Json
