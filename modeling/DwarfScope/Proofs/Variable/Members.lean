import DwarfScope.Proofs.Variable.Codec

/-!
# Members of members

A member at the end of a path of names lies where the offsets on the way add up to, and has its
part of what is cached. The bytes that it takes over, that a field is read from, and that the memory
holds in its place are the same.
-/

namespace DwarfScope

/-! ## Parts of memory -/

namespace Contents

variable {file : Contents} {bytes part : List UInt8} {last : Fin Binary.signedLimit}
  {address start k size : Nat} {offset : Int64}

theorem position_add (h : position last address offset = .ok start) (hk : start + k ≤ last) :
    position last (address + k) offset = .ok (start + k) := by
  have hstart := position_eq_ok h
  have hlimit : Binary.signedLimit = 2 ^ 63 := rfl
  have hlast := last.isLt
  rw [position_of_eq (q := start + k) (by omega) (by omega)]
  exact if_pos hk

theorem read_slice {s : Variable.Span} (h : file.read start size = .ok bytes)
    (hpart : Variable.slice? bytes s = some part) :
    file.read (start + s.start) s.length = .ok part := by
  obtain ⟨hlength, hbytes⟩ := read_eq_ok.mp h
  obtain ⟨hfits, -⟩ := Variable.slice?_eq_some.mp hpart
  rw [read_eq_ok]
  refine ⟨Variable.length_of_slice? hpart, fun i hi => ?_⟩
  rw [Variable.getElem?_of_slice? hpart hi, Nat.add_assoc]
  exact hbytes _ (by omega)

theorem le_size_of_read (h : file.read start size = .ok bytes) (hsize : 0 < size) :
    start + size ≤ file.size := by
  obtain ⟨hlength, hbytes⟩ := read_eq_ok.mp h
  have hlast := hbytes (size - 1) (by omega)
  rw [List.getElem?_eq_getElem (by omega)] at hlast
  obtain ⟨hlt, -⟩ := Array.getElem?_eq_some_iff.mp hlast
  omega

end Contents

/-! ## Paths -/

namespace Layout

def along : Layout → List String → Except Error (List Layout)
  | _, [] => .ok []
  | l, field :: path => do
    let m ← l.member field
    return m :: (← m.along path)

/-- How far the last of these members is from the beginning, in bytes: the sum of the offsets. -/
def distance : List Layout → Nat
  | [] => 0
  | l :: rest => l.structOffset / 8 + distance rest

/-- Each of these members lies in the bytes of the one before it, the first one in the bytes that
are available. -/
def Covered : Nat → List Layout → Prop
  | _, [] => True
  | available, l :: rest =>
    l.structOffset / 8 + l.bitSize / 8 ≤ available ∧ Covered (l.bitSize / 8) rest

theorem Covered.fits {available : Nat} {ls : List Layout} {l : Layout} (h : Covered available ls)
    (hlast : ls.getLast? = some l) : distance ls + l.bitSize / 8 ≤ available := by
  induction ls generalizing available with
  | nil => cases hlast
  | cons first rest ih =>
    obtain ⟨hfirst, hrest⟩ := h
    cases rest with
    | nil =>
      obtain rfl : first = l := by simpa using hlast
      simpa [distance] using hfirst
    | cons second rest =>
      rw [List.getLast?_cons_cons] at hlast
      have hinner := ih hrest hlast
      have hsum : distance (first :: second :: rest) =
          first.structOffset / 8 + distance (second :: rest) := rfl
      omega

end Layout

namespace Variable

open Layout

variable {v w u : Variable} {m : Memory} {bytes part : List UInt8} {field : String}
  {path : List String} {s t : Span} {n : UInt64}

def descend : Variable → List String → Except Error Variable
  | v, [] => .ok v
  | v, field :: path => do (← v.member field).descend path

theorem slice?_slice? (h : slice? bytes s = some part) (ht : t.start + t.length ≤ s.length) :
    slice? part t = slice? bytes ⟨s.start + t.start, t.length⟩ := by
  have hlength := length_of_slice? h
  obtain ⟨hfits, rfl⟩ := slice?_eq_some.mp h
  have hpart : slice? ((bytes.drop s.start).take s.length) t =
      some ((((bytes.drop s.start).take s.length).drop t.start).take t.length) :=
    slice?_eq_some.mpr ⟨by omega, rfl⟩
  rw [hpart, eq_comm, slice?_eq_some]
  refine ⟨by simp only; omega, ?_⟩
  rw [List.drop_take, List.take_take, List.drop_drop, Nat.min_eq_left (by omega)]

/-- What a path leads to: the last member on it, at the sum of the offsets, with its part of the
value if all members on the way lie in what is cached. -/
structure Descent (v w : Variable) (ls : List Layout) : Prop where
  layout : ls.getLast? = some w.layout
  address : w.address = v.address + distance ls
  client : w.client = v.client
  value : ∀ part, w.value = some part ↔ ∃ bytes, v.value = some bytes ∧
    Covered bytes.length ls ∧ slice? bytes ⟨distance ls, w.layout.bitSize / 8⟩ = some part

theorem descent_of_member (h : v.member field = .ok w) :
    v.layout.member field = .ok w.layout ∧ Descent v w [w.layout] := by
  obtain ⟨s, l, hs, hl, rfl⟩ := member_eq_ok.mp h
  obtain ⟨l', hl', -, -, rfl⟩ := span_eq_ok.mp hs
  obtain rfl := Except.ok.inj (hl.symm.trans hl')
  refine ⟨hl, rfl, by simp [distance], rfl, fun part => ?_⟩
  simp only [Option.bind_eq_some_iff, Covered, and_true, distance, Nat.add_zero]
  constructor
  · rintro ⟨bytes, hbytes, hpart⟩
    exact ⟨bytes, hbytes, (slice?_eq_some.mp hpart).1, hpart⟩
  · rintro ⟨bytes, hbytes, -, hpart⟩
    exact ⟨bytes, hbytes, hpart⟩

theorem Descent.cons {ls : List Layout} (h : Descent v u [u.layout]) (hrest : Descent u w ls) :
    Descent v w (u.layout :: ls) := by
  have hne : ls ≠ [] := by
    rintro rfl
    cases hrest.layout
  have hdistance : distance (u.layout :: ls) = distance [u.layout] + distance ls := by
    simp [distance]
  constructor
  case layout =>
    obtain ⟨second, rest, rfl⟩ := List.exists_cons_of_ne_nil hne
    rw [List.getLast?_cons_cons]
    exact hrest.layout
  case address =>
    have hfirst := h.address
    have hlast := hrest.address
    omega
  case client => rw [hrest.client, h.client]
  case value =>
    -- A part of what the first step takes over is a part of the whole value, at both distances.
    intro part
    rw [hrest.value, hdistance]
    constructor
    · rintro ⟨middle, hmiddle, hcovered, hpart⟩
      obtain ⟨bytes, hbytes, ⟨hfirst, -⟩, hslice⟩ := (h.value middle).mp hmiddle
      have hlength : middle.length = u.layout.bitSize / 8 := length_of_slice? hslice
      rw [hlength] at hcovered
      have hparts := slice?_slice? (t := ⟨distance ls, w.layout.bitSize / 8⟩) hslice
        (hcovered.fits hrest.layout)
      exact ⟨bytes, hbytes, ⟨hfirst, hcovered⟩, hparts.symm.trans hpart⟩
    · rintro ⟨bytes, hbytes, ⟨hfirst, hcovered⟩, hpart⟩
      have hslice : slice? bytes ⟨distance [u.layout], u.layout.bitSize / 8⟩ =
          some ((bytes.drop (distance [u.layout])).take (u.layout.bitSize / 8)) :=
        slice?_eq_some.mpr ⟨by simpa [distance] using hfirst, rfl⟩
      have hlength := length_of_slice? hslice
      have hparts := slice?_slice? (t := ⟨distance ls, w.layout.bitSize / 8⟩) hslice
        (hcovered.fits hrest.layout)
      refine ⟨_, (h.value _).mpr ⟨bytes, hbytes, ⟨hfirst, trivial⟩, hslice⟩, ?_, hparts.trans hpart⟩
      rw [hlength]
      exact hcovered

theorem exists_descent (h : v.descend (field :: path) = .ok w) :
    ∃ ls, v.layout.along (field :: path) = .ok ls ∧ Descent v w ls := by
  induction path generalizing v field with
  | nil =>
    cases hu : v.member field with
    | error e => simp [descend, hu, bind, Except.bind] at h
    | ok u =>
      obtain rfl : u = w := by simpa [descend, hu, bind, Except.bind] using h
      obtain ⟨hl, hdescent⟩ := descent_of_member hu
      exact ⟨_, by simp [along, hl, bind, Except.bind, pure, Except.pure], hdescent⟩
  | cons next path ih =>
    cases hu : v.member field with
    | error e => simp [descend, hu, bind, Except.bind] at h
    | ok u =>
      have hrest : u.descend (next :: path) = .ok w := by
        simpa only [descend, hu, bind, Except.bind] using h
      obtain ⟨hl, hdescent⟩ := descent_of_member hu
      obtain ⟨ls, hls, hbelow⟩ := ih hrest
      refine ⟨u.layout :: ls, ?_, hdescent.cons hbelow⟩
      rw [along, hl]
      simp only [bind, Except.bind, hls, pure, Except.pure]

/-! ## Three ways to the same bytes -/

theorem getField_of_member (h : v.getField field = .ok n) :
    ∃ w part, v.member field = .ok w ∧ w.value = some part ∧
      n.toNat = Binary.value .big part := by
  obtain ⟨s, bytes, part, hs, -, hbytes, hpart, hn⟩ := getField_eq_ok.mp h
  obtain ⟨l, hl, -, -, -⟩ := span_eq_ok.mp hs
  refine ⟨_, part, member_eq_ok.mpr ⟨s, l, hs, hl, rfl⟩, ?_, hn⟩
  rw [hbytes]
  exact hpart

theorem read_of_descent {ls : List Layout} (h : Descent v w ls) (hread : u.read m = .ok v)
    (hsize : m.contents.size ≤ m.lastPosition) (hpart : w.value = some part) :
    w.read m = .ok w := by
  obtain ⟨c, start, bytes, hc, hstart, hbytes, rfl⟩ := read_eq_ok.mp hread
  obtain ⟨_, ⟨⟩, hcovered, hslice⟩ := (h.value part).mp hpart
  have hfits := hcovered.fits h.layout
  have hlength := (Contents.read_eq_ok.mp hbytes).1
  have hposition :
      Contents.position m.lastPosition w.address c.offset = .ok (start + distance ls) := by
    rw [h.address]
    rcases Nat.eq_zero_or_pos (distance ls) with hzero | hpos
    · rw [hzero]
      exact hstart
    · have hend := Contents.le_size_of_read hbytes (by omega)
      exact Contents.position_add hstart (by omega)
  rw [read_eq_ok]
  refine ⟨c, _, part, ?_, hposition, Contents.read_slice hbytes hslice, ?_⟩
  · rw [h.client]
    exact hc
  · rw [← hpart]

/-- The member at the end of a path has the type that the layout gives it there, an address as far
from that of the variable as the offsets on the way add up to, and those bytes of what is cached
there, or none if a member on the way is not covered. A field is read as the number that the member
has for its bytes, and what was taken over from a variable that was just read is what a read of the
member itself gives. No file is larger than the last position, as it has to end somewhere. -/
theorem descend_coherent (h : v.descend (field :: path) = .ok w) :
    (∃ ls, v.layout.along (field :: path) = .ok ls ∧ ls.getLast? = some w.layout ∧
      w.address = v.address + distance ls ∧
      (∀ bytes, v.value = some bytes → Covered bytes.length ls →
        w.value = some ((bytes.drop (distance ls)).take (w.layout.bitSize / 8))) ∧
      ((∀ bytes, v.value = some bytes → ¬ Covered bytes.length ls) → w.value = none)) ∧
    (∀ name n, v.getField name = .ok n →
      ∃ c part, v.member name = .ok c ∧ c.value = some part ∧ n.toNat = Binary.value .big part) ∧
    ∀ (u : Variable) (m : Memory) (part : List UInt8), u.read m = .ok v →
      m.contents.size ≤ m.lastPosition → w.value = some part → w.read m = .ok w := by
  obtain ⟨ls, hls, hdescent⟩ := exists_descent h
  refine ⟨⟨ls, hls, hdescent.layout, hdescent.address,
      fun bytes hbytes hcovered => ?_, fun hnot => ?_⟩,
    fun name n hn => getField_of_member hn,
    fun u m part hread hsize hpart => read_of_descent hdescent hread hsize hpart⟩
  · rw [hdescent.value]
    refine ⟨bytes, hbytes, hcovered, slice?_eq_some.mpr ⟨?_, rfl⟩⟩
    exact hcovered.fits hdescent.layout
  · rw [Option.eq_none_iff_forall_ne_some]
    intro part hpart
    obtain ⟨bytes, hbytes, hcovered, -⟩ := (hdescent.value part).mp hpart
    exact hnot bytes hbytes hcovered

/-- A pair in a record, at the address where the file begins. -/
def record : Variable where
  name := "record"
  layout := {
    name := "Record", bitSize := 48
    members := [{
      name := "pair", bitSize := 32, structOffset := 8
      members := [{ name := "first", bitSize := 16 },
        { name := "second", bitSize := 16, structOffset := 16 }] }] }
  address := 0x40
  client := some 0

def sixBytes : Memory := { file := some #[1, 2, 3, 4, 5, 6], client := some ⟨0, 0x40⟩, issued := 1 }

theorem descend_coherent_record :
    ∃ v w, record.read sixBytes = .ok v ∧ v.descend ["pair", "second"] = .ok w ∧
      w.address = 0x43 ∧ w.value = some [4, 5] ∧ w.read sixBytes = .ok w ∧
      (∃ n p, v.getField "pair" = .ok n ∧ v.member "pair" = .ok p ∧ p.value = some [2, 3, 4, 5] ∧
        n.toNat = 0x02030405) := by
  let v : Variable := { record with value := some [1, 2, 3, 4, 5, 6] }
  have hread : record.read sixBytes = .ok v := rfl
  obtain ⟨w, hw⟩ : ∃ w, v.descend ["pair", "second"] = .ok w := ⟨_, rfl⟩
  obtain ⟨⟨ls, hls, hlast, haddress, hvalue, -⟩, hfield, hagain⟩ := descend_coherent hw
  obtain rfl := Except.ok.inj hls
  have hlayout := Option.some.inj hlast
  rw [← hlayout] at hvalue
  have hcached : w.value = some [4, 5] := hvalue _ rfl ⟨by decide, by decide, trivial⟩
  obtain ⟨n, hn⟩ : ∃ n, v.getField "pair" = .ok n := ⟨_, rfl⟩
  obtain ⟨p, part, hp, hpart, hnumber⟩ := hfield "pair" n hn
  have hpair : p.value = some [2, 3, 4, 5] := by
    rw [← Except.ok.inj hp]
    rfl
  obtain rfl := Option.some.inj (hpart.symm.trans hpair)
  exact ⟨v, w, hread, hw, haddress, hcached,
    hagain record sixBytes [4, 5] hread (by decide) hcached, n, p, hn, hp, hpair, hnumber⟩

end Variable
end DwarfScope
