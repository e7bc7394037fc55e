import DwarfScope.Binary.Word
import Mathlib.Algebra.Group.Nat.Defs
import Mathlib.Data.List.Induction

/-!
# Numbers in bytes

Which number some bytes are, and which bytes a number is cut down to.
-/

namespace DwarfScope.Binary

/-! ## Bytes of files -/

theorem toList_loop (data : ByteArray) (i : Nat) (read : List UInt8) :
    ByteArray.toList.loop data i read = read.reverse ++ data.data.toList.drop i := by
  induction i, read using ByteArray.toList.loop.induct data with
  | case1 i read hi ih =>
    have hi' : i < data.data.toList.length := hi
    rw [ByteArray.toList.loop, if_pos hi, ih, List.drop_eq_getElem_cons hi', List.reverse_cons,
      List.append_assoc]
    simp [ByteArray.get!, hi]
  | case2 i read hi =>
    have hi' : data.data.toList.length ≤ i := Nat.not_lt.mp hi
    rw [ByteArray.toList.loop, if_neg hi, List.drop_eq_nil_of_le hi', List.append_nil]

theorem toList_eq (data : ByteArray) : data.toList = data.data.toList := by
  simp [ByteArray.toList, toList_loop]

theorem value_lt (order : ByteOrder) (bytes : List UInt8) :
    value order bytes < 256 ^ bytes.length := by
  cases order with
  | little =>
    simp only [value]
    induction bytes with
    | nil => simp
    | cons b rest ih =>
      have hb := b.toNat_lt
      simp only [List.foldr_cons, List.length_cons, pow_succ]
      omega
  | big =>
    simp only [value]
    induction bytes using List.reverseRecOn with
    | nil => simp
    | append_singleton bytes b ih =>
      have hb := b.toNat_lt
      simp only [List.foldl_append, List.foldl_cons, List.foldl_nil, List.length_append,
        List.length_cons, List.length_nil, pow_succ]
      omega

theorem lt_of_word? {data : ByteArray} {order : ByteOrder} {start length a : Nat}
    (h : word? data order start length = some a) : a < 256 ^ length := by
  obtain ⟨bytes, hslice, rfl⟩ := Option.map_eq_some_iff.mp h
  unfold slice? at hslice
  split at hslice
  case isTrue hle =>
    obtain rfl := Option.some.inj hslice
    have hlength : (data.extract start (start + length)).toList.length = length := by
      rw [toList_eq, Array.length_toList, ByteArray.size_data, ByteArray.size_extract]
      omega
    have hlt := value_lt order (data.extract start (start + length)).toList
    rwa [hlength] at hlt
  case isFalse => cases hslice

/-! ## Bytes of numbers -/

theorem value_concat (bytes : List UInt8) (b : UInt8) :
    value .big (bytes ++ [b]) = 256 * value .big bytes + b.toNat := by
  simp [value, List.foldl_append]

theorem length_bigEndianBytes (length n : Nat) : (bigEndianBytes length n).length = length := by
  induction length generalizing n with
  | zero => rfl
  | succ length ih => simp [bigEndianBytes, ih]

theorem value_bigEndianBytes (length n : Nat) :
    value .big (bigEndianBytes length n) = n % 256 ^ length := by
  induction length generalizing n with
  | zero => simp [bigEndianBytes, value, Nat.mod_one]
  | succ length ih =>
    have hbyte : (UInt8.ofNat n).toNat = n % 256 := UInt8.toNat_ofNat'
    rw [bigEndianBytes, value_concat, ih, hbyte, pow_succ', Nat.mod_mul, Nat.add_comm]

theorem getElem?_bigEndianBytes {length n i : Nat} (h : i < length) :
    (bigEndianBytes length n)[i]? = some (UInt8.ofNat (n / 256 ^ (length - 1 - i))) := by
  induction length generalizing n with
  | zero => omega
  | succ length ih =>
    have hlength := length_bigEndianBytes length (n / 256)
    rw [bigEndianBytes, List.getElem?_append, hlength]
    by_cases hi : i < length
    · have hpow : 256 * 256 ^ (length - 1 - i) = 256 ^ (length + 1 - 1 - i) := by
        rw [← pow_succ']
        congr 1
        omega
      rw [if_pos hi, ih hi, Nat.div_div_eq_div_mul, hpow]
    · obtain rfl : i = length := by omega
      simp

theorem getElem?_bigEndianBytes_zero {length n k i : Nat} (hn : n < 256 ^ k) (h : i + k < length) :
    (bigEndianBytes length n)[i]? = some 0 := by
  have hpow : 256 ^ k ≤ 256 ^ (length - 1 - i) := Nat.pow_le_pow_right (by decide) (by omega)
  rw [getElem?_bigEndianBytes (by omega), Nat.div_eq_of_lt (Nat.lt_of_lt_of_le hn hpow)]
  rfl

end DwarfScope.Binary
