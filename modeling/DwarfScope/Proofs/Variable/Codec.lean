import DwarfScope.Proofs.Variable.Operations

/-!
# Fields as numbers

A field that is set holds the number, as far as it has room for it, and nothing else of the value
changes.
-/

namespace DwarfScope.Variable

open Effect

variable {v w : Variable} {m : Memory} {bytes other part : List UInt8} {field : String} {s t : Span}
  {n : UInt64} {e : Error} {i : Nat}

/-! ## Spans -/

def Span.Covers (s : Span) (i : Nat) : Prop := s.start ≤ i ∧ i < s.start + s.length

def Span.Apart (s t : Span) : Prop := ∀ i, s.Covers i → ¬ t.Covers i

theorem slice?_eq_none : slice? bytes s = none ↔ bytes.length < s.start + s.length := by
  unfold slice?
  split <;> simp <;> omega

theorem slice?_congr (hlength : other.length = bytes.length)
    (h : ∀ i, s.Covers i → other[i]? = bytes[i]?) : slice? other s = slice? bytes s := by
  cases hslice : slice? bytes s with
  | none =>
    rw [slice?_eq_none] at hslice ⊢
    rw [hlength]
    exact hslice
  | some part =>
    obtain ⟨hfits, rfl⟩ := slice?_eq_some.mp hslice
    rw [slice?_eq_some]
    refine ⟨by omega, ?_⟩
    apply List.ext_getElem?
    intro i
    simp only [List.getElem?_take, List.getElem?_drop]
    split
    case isTrue hi => rw [h (s.start + i) ⟨by omega, by omega⟩]
    case isFalse => rfl

theorem slice?_overwrite (h : s.start + s.length ≤ bytes.length) :
    slice? (overwrite bytes s n) s = some (Binary.bigEndianBytes s.length n.toNat) := by
  have hlength := length_overwrite (n := n) h
  rw [slice?_eq_some]
  refine ⟨by omega, ?_⟩
  apply List.ext_getElem?
  intro i
  rw [List.getElem?_take, List.getElem?_drop]
  by_cases hi : i < s.length
  · rw [if_pos hi, getElem?_overwrite h, if_pos (by omega), Nat.add_sub_cancel_left]
  · rw [if_neg hi, List.getElem?_eq_none]
    rw [Binary.length_bigEndianBytes]
    omega

theorem getElem?_overwrite_outside (h : s.start + s.length ≤ bytes.length) (hi : ¬ s.Covers i) :
    (overwrite bytes s n)[i]? = bytes[i]? := by
  rw [getElem?_overwrite h]
  exact if_neg hi

theorem slice?_overwrite_of_apart (h : s.start + s.length ≤ bytes.length) (hapart : s.Apart t) :
    slice? (overwrite bytes s n) t = slice? bytes t :=
  slice?_congr (length_overwrite h) fun i hi =>
    getElem?_overwrite_outside h fun hs => hapart i hs hi

/-! ## Reading a field -/

theorem getField_of_span_error (h : v.span field = .error e) : v.getField field = .error e := by
  unfold getField
  rw [h]
  rfl

theorem getField_eq (h : v.span field = .ok s) :
    v.getField field =
      if 8 < s.length then .error (.fieldTooWide field (8 * s.length))
      else match v.value with
        | none => .error (.uninitialized v.name)
        | some bytes => match slice? bytes s with
          | some part => .ok (UInt64.ofNat (Binary.value .big part))
          | none => .error (.fieldOutOfRange field s.start s.length bytes.length) := by
  unfold getField
  rw [h]
  by_cases hwide : 8 < s.length
  · simp [bind, Except.bind, hwide, throw, throwThe, MonadExceptOf.throw]
  · cases hvalue : v.value with
    | none => simp [bind, Except.bind, hwide, Variable.get, hvalue]
    | some bytes =>
      cases hslice : slice? bytes s <;>
        simp [bind, Except.bind, hwide, pure, Except.pure, Variable.get, hvalue, hslice, throw,
          throwThe, MonadExceptOf.throw]

theorem getField_eq_ok :
    v.getField field = .ok n ↔
      ∃ s bytes part, v.span field = .ok s ∧ s.length ≤ 8 ∧ v.value = some bytes ∧
        slice? bytes s = some part ∧ n.toNat = Binary.value .big part := by
  cases hs : v.span field with
  | error e => simp [getField_of_span_error hs]
  | ok s =>
    rw [getField_eq hs]
    by_cases hwide : s.length ≤ 8
    case neg => simp [hwide, Nat.lt_of_not_le hwide]
    have hnarrow : ¬ 8 < s.length := Nat.not_lt.mpr hwide
    cases hvalue : v.value with
    | none => simp [hnarrow]
    | some bytes =>
      cases hslice : slice? bytes s with
      | none => simp [hnarrow, hslice]
      | some part =>
        have hlt := Binary.value_lt .big part
        have hpow : 256 ^ part.length ≤ 256 ^ 8 :=
          Nat.pow_le_pow_right (by decide) (by rw [length_of_slice? hslice]; omega)
        have hword : (UInt64.ofNat (Binary.value .big part)).toNat = Binary.value .big part :=
          UInt64.toNat_ofNat_of_lt (Nat.lt_of_lt_of_le hlt hpow)
        simp [hwide, hnarrow, hslice, ← UInt64.toNat_inj, hword, eq_comm]

/-! ## Setting a field -/

/-- The number has been put into the span, and nothing else has changed. -/
structure Encodes (bytes other : List UInt8) (s : Span) (n : UInt64) : Prop where
  length : other.length = bytes.length
  outside : ∀ i, ¬ s.Covers i → other[i]? = bytes[i]?
  holds : ∃ part, slice? other s = some part ∧ Binary.value .big part = n.toNat % 256 ^ s.length ∧
    ∀ i, i + 8 < s.length → part[i]? = some 0

theorem encodes_overwrite (h : s.start + s.length ≤ bytes.length) :
    Encodes bytes (overwrite bytes s n) s n where
  length := length_overwrite h
  outside _ hi := getElem?_overwrite_outside h hi
  holds := by
    refine ⟨_, slice?_overwrite h, Binary.value_bigEndianBytes _ _, fun i hi => ?_⟩
    exact Binary.getElem?_bigEndianBytes_zero (k := 8) n.toNat_lt hi

theorem span_eq_ok_iff_find? :
    v.span field = .ok s ↔
      ∃ l, v.layout.members.find? (·.name = field) = some l ∧ l.structOffset % 8 = 0 ∧
        l.bitSize % 8 = 0 ∧ s = ⟨l.structOffset / 8, l.bitSize / 8⟩ := by
  rw [span_eq_ok]
  unfold Layout.member
  cases v.layout.members.find? (·.name = field) <;> simp

theorem span_of_value (v : Variable) (value : Option (List UInt8)) (field : String) :
    { v with value }.span field = v.span field := rfl

theorem getField_of_setField (h : v.setField field n = .ok w) (hs : v.span field = .ok s)
    (hwide : s.length ≤ 8) :
    ∃ r, w.getField field = .ok r ∧ r.toNat = n.toNat % 256 ^ s.length := by
  obtain ⟨s', bytes, hs', hbytes, hfits, rfl⟩ := setField_eq_ok.mp h
  obtain rfl := Except.ok.inj (hs.symm.trans hs')
  have hvalue := Binary.value_bigEndianBytes s.length n.toNat
  have hlt : n.toNat % 256 ^ s.length < UInt64.size :=
    Nat.lt_of_le_of_lt (Nat.mod_le _ _) n.toNat_lt
  have hword : (UInt64.ofNat (n.toNat % 256 ^ s.length)).toNat = n.toNat % 256 ^ s.length :=
    UInt64.toNat_ofNat_of_lt hlt
  refine ⟨UInt64.ofNat (n.toNat % 256 ^ s.length), ?_, hword⟩
  rw [getField_eq_ok]
  exact ⟨s, _, _, hs, hwide, rfl, slice?_overwrite hfits, by rw [hword, hvalue]⟩

theorem getField_of_apart {other : String} (h : v.setField field n = .ok w)
    (hs : v.span field = .ok s) (hapart : ∀ t, v.span other = .ok t → s.Apart t) :
    w.getField other = v.getField other := by
  obtain ⟨s', bytes, hs', hbytes, hfits, rfl⟩ := setField_eq_ok.mp h
  obtain rfl := Except.ok.inj (hs.symm.trans hs')
  cases ht : v.span other with
  | error e =>
    rw [getField_of_span_error ht]
    exact getField_of_span_error ((span_of_value v _ other).trans ht)
  | ok t =>
    rw [getField_eq ht, getField_eq ((span_of_value v _ other).trans ht), hbytes]
    simp only [slice?_overwrite_of_apart hfits (hapart t ht), length_overwrite hfits]

/-- A field can be set exactly if it begins at a byte, is made of whole bytes, and these bytes are
cached. Then they hold the number as far as there is room for it, with zeros in front of it if
there is more room, the other bytes are what they were, and all fields are read accordingly. If it
cannot be set, the variable stays what it is. -/
theorem setField_codec (v : Variable) (field : String) (n : UInt64) :
    ((∃ w, v.setField field n = .ok w) ↔
      ∃ l bytes, v.layout.members.find? (·.name = field) = some l ∧ l.structOffset % 8 = 0 ∧
        l.bitSize % 8 = 0 ∧ v.value = some bytes ∧
        l.structOffset / 8 + l.bitSize / 8 ≤ bytes.length) ∧
    (∀ w, v.setField field n = .ok w →
      ∃ s bytes bytes', v.span field = .ok s ∧ v.value = some bytes ∧
        w = { v with value := some bytes' } ∧ Encodes bytes bytes' s n ∧
        (s.length ≤ 8 → ∃ r, w.getField field = .ok r ∧ r.toNat = n.toNat % 256 ^ s.length) ∧
        (8 < s.length → w.getField field = .error (.fieldTooWide field (8 * s.length))) ∧
        ∀ other, (∀ t, v.span other = .ok t → s.Apart t) →
          w.getField other = v.getField other) ∧
    ∀ e, v.setField field n = .error e →
      ∀ m, (Operation.setField field n).perform (v, m) = .error e (v, m) := by
  refine ⟨?_, fun w h => ?_, fun e h m => ?_⟩
  · simp only [setField_eq_ok, span_eq_ok_iff_find?]
    constructor
    · rintro ⟨_, _, bytes, ⟨l, hl, hoffset, hsize, rfl⟩, hbytes, hfits, -⟩
      exact ⟨l, bytes, hl, hoffset, hsize, hbytes, hfits⟩
    · rintro ⟨l, bytes, hl, hoffset, hsize, hbytes, hfits⟩
      exact ⟨_, _, bytes, ⟨l, hl, hoffset, hsize, rfl⟩, hbytes, hfits, rfl⟩
  · obtain ⟨s, bytes, hs, hbytes, hfits, hw⟩ := setField_eq_ok.mp h
    refine ⟨s, bytes, _, hs, hbytes, hw, encodes_overwrite hfits, getField_of_setField h hs,
      fun hwide => ?_, fun other hapart => getField_of_apart h hs hapart⟩
    rw [hw, getField_eq ((span_of_value v _ field).trans hs), if_pos hwide]
  · simp only [Operation.perform, update_eq_error]
    exact ⟨h, trivial⟩

/-- Three fields side by side, and one over all of them that is wider than a word. -/
def packed : Variable where
  name := "packed"
  layout := {
    name := "Packed", bitSize := 80
    members := [
      { name := "foo", bitSize := 8 },
      { name := "bar", bitSize := 32, structOffset := 8 },
      { name := "baz", bitSize := 40, structOffset := 40 },
      { name := "all", bitSize := 80 }] }
  address := 0x40
  value := some [0xfe, 0xed, 0xbe, 0xef, 0xaa, 0xbb, 0xcc, 0xdd, 0xee, 0xff]

theorem setField_codec_packed :
    (∃ w r, packed.setField "bar" 0x101020304 = .ok w ∧ w.getField "bar" = .ok r ∧
      r.toNat = 0x01020304 ∧ w.getField "baz" = packed.getField "baz") ∧
    (∃ w, packed.setField "all" 0x0102 = .ok w ∧
      w.getField "all" = .error (.fieldTooWide "all" 80)) ∧
    (Operation.setField "qux" 1).perform (packed, {}) =
      .error (.fieldNotFound "qux" "Packed") (packed, {}) := by
  refine ⟨?_, ?_, ?_⟩
  · obtain ⟨hsettable, hset, -⟩ := setField_codec packed "bar" 0x101020304
    obtain ⟨w, hw⟩ := hsettable.mpr ⟨_, _, rfl, rfl, rfl, rfl, by decide⟩
    obtain ⟨s, _, _, hs, -, -, -, hread, -, hrest⟩ := hset w hw
    obtain rfl : (⟨1, 4⟩ : Span) = s := Except.ok.inj hs
    obtain ⟨r, hr, hvalue⟩ := hread (by decide)
    refine ⟨w, r, hw, hr, hvalue, hrest "baz" fun t ht => ?_⟩
    obtain rfl : (⟨5, 5⟩ : Span) = t := Except.ok.inj ht
    rintro i ⟨-, hbar⟩ ⟨hbaz, -⟩
    simp only at hbar hbaz
    omega
  · obtain ⟨hsettable, hset, -⟩ := setField_codec packed "all" 0x0102
    obtain ⟨w, hw⟩ := hsettable.mpr ⟨_, _, rfl, rfl, rfl, rfl, by decide⟩
    obtain ⟨s, _, _, hs, -, -, -, -, hwide, -⟩ := hset w hw
    obtain rfl : (⟨0, 10⟩ : Span) = s := Except.ok.inj hs
    exact ⟨w, hw, hwide (by decide)⟩
  · obtain ⟨-, -, hfails⟩ := setField_codec packed "qux" 1
    exact hfails _ rfl {}

end DwarfScope.Variable
