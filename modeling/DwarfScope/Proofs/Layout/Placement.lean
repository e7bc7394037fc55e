import DwarfScope.Proofs.Layout.Members
import DwarfScope.Proofs.Layout.Outline
import DwarfScope.Stream.Builder

/-!
# Where members start

The place of a member is one number, in any of three encodings. It is computed in steps of 64 bits.
One of them, the end of the storage unit of a bit field, may be too large where the place is not.
-/

namespace DwarfScope

/-! ## Numbers of 64 bits -/

def IsWord (n : Int) : Prop := 0 ≤ n ∧ n < UInt64.size

instance (n : Int) : Decidable (IsWord n) := inferInstanceAs (Decidable (_ ∧ _))

theorem AttrValue.isWord_of_unsigned? {value : AttrValue} {n : Nat}
    (h : value.unsigned? = some n) : IsWord n := by
  refine ⟨Int.natCast_nonneg n, ?_⟩
  cases value with
  | udata m =>
    obtain rfl : m.toNat = n := Option.some.inj h
    exact_mod_cast m.toNat_lt
  | sdata m =>
    have hlt := m.toInt_lt
    simp only [unsigned?] at h
    split at h
    · obtain rfl : m.toInt.toNat = n := Option.some.inj h
      simp only [UInt64.size]
      omega
    · cases h
  | _ => cases h

namespace Entry

theorem isWord_of_dataBitOffset? {e : Entry} {n : Nat} (h : e.dataBitOffset? = some n) :
    IsWord n := by
  obtain ⟨value, -, hvalue⟩ := Option.bind_eq_some_iff.mp h
  exact AttrValue.isWord_of_unsigned? hvalue

/-! ## The exact place -/

variable (e : Entry) (typeBits width : Nat)

def base : Nat := 8 * e.memberLocation?.getD 0

def storage : Nat :=
  match e.byteSize? with
  | some bytes => 8 * bytes
  | none => typeBits

/-- Where a member of a width starts. The bit offset of a bit field says how far below the end of
its storage unit it ends. -/
def exactOffset : Int :=
  match e.dataBitOffset?, e.bitOffset? with
  | some bits, _ => bits
  | none, some fromTop => e.base + e.storage typeBits - fromTop - width
  | none, none => e.base

/-- The member counts from the most significant bit of its storage unit. -/
def FromTop : Prop := e.dataBitOffset? = none ∧ e.bitOffset?.isSome = true

/-- The location, the size of the storage unit or the place itself does not fit into 64 bits. -/
def Exceeds : Prop :=
  e.dataBitOffset? = none ∧ ¬ IsWord e.base ∨ e.FromTop ∧ ¬ IsWord (e.storage typeBits) ∨
    ¬ IsWord (e.exactOffset typeBits width)

/-- The end of the storage unit does not fit into 64 bits. -/
def StopExceeds : Prop := e.FromTop ∧ ¬ IsWord (e.base + e.storage typeBits)

instance : Decidable e.FromTop := inferInstanceAs (Decidable (_ ∧ _))

instance : Decidable (e.Exceeds typeBits width) := inferInstanceAs (Decidable (_ ∨ _))

instance : Decidable (e.StopExceeds typeBits) := inferInstanceAs (Decidable (_ ∧ _))

end Entry

namespace Stream

open Effect

variable {s : Stream} {k o bits width : Nat} {e e' t : Entry} {c d : Cursor}

theorem word?_eq_some {n : Int} : word? n = some o ↔ IsWord n ∧ (o : Int) = n := by
  cases n with
  | ofNat m =>
    simp only [word?, IsWord, Int.ofNat_eq_natCast]
    split
    · simp only [Option.some.injEq]
      omega
    · simp only [reduceCtorEq, false_iff]
      omega
  | negSucc m =>
    simp only [word?, reduceCtorEq, false_iff, IsWord]
    omega

theorem word?_natCast {m : Nat} : word? (m : Int) = some o ↔ IsWord m ∧ o = m := by
  rw [word?_eq_some, Int.natCast_inj]

theorem cast_base (e : Entry) : (8 * (e.memberLocation?.getD 0 : Nat) : Int) = e.base := by
  simp [Entry.base]

theorem structOffset?_location (hdata : e.dataBitOffset? = none) (htop : e.bitOffset? = none) :
    structOffset? e bits width = some o ↔ IsWord e.base ∧ (o : Int) = e.base := by
  simp only [structOffset?, hdata, htop, Option.bind_eq_bind, Option.pure_def, cast_base]
  rw [Option.bind_fun_some, word?_eq_some]

/-- Only the first of the three steps may be too large and only the last one negative, so the one
between them need not be checked. -/
theorem steps_eq_some {base storage fromTop : Nat} :
    ((word? (base + storage)).bind fun stop => (word? (stop - fromTop)).bind fun top =>
        word? (top - width)) = some o ↔
      IsWord (base + storage) ∧ IsWord (base + storage - fromTop - width) ∧
        (o : Int) = base + storage - fromTop - width := by
  simp only [Option.bind_eq_some_iff, word?_eq_some]
  constructor
  · rintro ⟨stop, ⟨hstop, heq⟩, top, ⟨-, heq'⟩, hplace, ho⟩
    rw [heq', heq] at hplace ho
    exact ⟨hstop, hplace, ho⟩
  · rintro ⟨hstop, hplace, ho⟩
    unfold IsWord at *
    refine ⟨base + storage, ⟨hstop, ?_⟩, o + width, ⟨?_, ?_⟩, ?_, ?_⟩ <;> omega

theorem structOffset?_fromTop {fromTop : Nat} (hdata : e.dataBitOffset? = none)
    (htop : e.bitOffset? = some fromTop) :
    structOffset? e bits width = some o ↔
      IsWord e.base ∧ IsWord (e.storage bits) ∧ IsWord (e.base + e.storage bits) ∧
        IsWord (e.base + e.storage bits - fromTop - width) ∧
        (o : Int) = e.base + e.storage bits - fromTop - width := by
  rcases hbytes : e.byteSize? with _ | bytes
  · simp only [structOffset?, hdata, htop, hbytes, Option.bind_eq_bind, cast_base, Entry.storage,
      Option.bind_some]
    rw [Option.bind_eq_some_iff]
    simp only [steps_eq_some, word?_natCast]
    constructor
    · rintro ⟨_, ⟨hbase, rfl⟩, hstop, hplace⟩
      -- What is added to the location is not larger than the sum.
      have hstorage : IsWord bits := by
        unfold IsWord at *
        omega
      exact ⟨hbase, hstorage, hstop, hplace⟩
    · rintro ⟨hbase, -, hstop, hplace⟩
      exact ⟨_, ⟨hbase, rfl⟩, hstop, hplace⟩
  · have hcast : (8 * (bytes : Int)) = ((8 * bytes : Nat) : Int) := by simp
    simp only [structOffset?, hdata, htop, hbytes, Option.bind_eq_bind, cast_base, Entry.storage,
      hcast]
    rw [Option.bind_eq_some_iff]
    simp only [Option.bind_eq_some_iff (x := word? ((8 * bytes : Nat) : Int)), steps_eq_some,
      word?_natCast]
    constructor
    · rintro ⟨_, ⟨hbase, rfl⟩, _, ⟨hstorage, rfl⟩, hstop, hplace⟩
      exact ⟨hbase, hstorage, hstop, hplace⟩
    · rintro ⟨hbase, hstorage, hstop, hplace⟩
      exact ⟨_, ⟨hbase, rfl⟩, _, ⟨hstorage, rfl⟩, hstop, hplace⟩

theorem structOffset?_eq_some :
    structOffset? e bits width = some o ↔
      (o : Int) = e.exactOffset bits width ∧ ¬ e.Exceeds bits width ∧
        ¬ e.StopExceeds bits := by
  unfold Entry.Exceeds Entry.StopExceeds Entry.FromTop Entry.exactOffset
  rcases hdata : e.dataBitOffset? with _ | place
  · rcases htop : e.bitOffset? with _ | fromTop
    · rw [structOffset?_location hdata htop]
      simp [and_comm]
    · rw [structOffset?_fromTop hdata htop]
      simp only [Option.isSome_some, and_self, true_and, not_or, not_not]
      tauto
  · have hplace := Entry.isWord_of_dataBitOffset? hdata
    simp only [structOffset?, hdata, Option.some.injEq, hplace, reduceCtorEq, false_and, or_self,
      not_true_eq_false, not_false_eq_true, and_true, Int.natCast_inj]
    exact eq_comm

theorem structOffset?_eq_none :
    structOffset? e bits width = none ↔
      e.Exceeds bits width ∨ e.StopExceeds bits := by
  constructor
  · intro h
    by_contra hfits
    obtain ⟨hplace, hstop⟩ := not_or.mp hfits
    have hword : IsWord (e.exactOffset bits width) := by
      by_contra hword
      exact hplace (.inr (.inr hword))
    have hsome : structOffset? e bits width = some (e.exactOffset bits width).toNat :=
      structOffset?_eq_some.mpr ⟨Int.toNat_of_nonneg hword.1, hplace, hstop⟩
    rw [h] at hsome
    cases hsome
  · intro h
    rw [Option.eq_none_iff_forall_not_mem]
    intro o ho
    obtain ⟨-, hplace, hstop⟩ := structOffset?_eq_some.mp ho
    exact h.elim hplace hstop

theorem structOffset_eq_error {name : String} :
    structOffset name e bits width = .error (.layout (.overflow name)) ↔
      e.Exceeds bits width ∨ e.StopExceeds bits := by
  rw [← structOffset?_eq_none, structOffset]
  rcases structOffset? e bits width with _ | o <;> simp

/-! ## Members that have a place -/

/-- The references of a member lead to a type that has a size. -/
structure Sized (s : Stream) (e : Entry) (k : Nat) (t : Entry) (bits : Nat) : Prop where
  tag : e.tag = .member
  endsAt : s.EndsAt e k
  entryAt : s.EntryAt k t
  isType : t.tag.isType = true
  bits : typeBits "" t = .ok bits

theorem Sized.nonnull (h : s.Sized e k t bits) : e.isNull = false := by
  simp [Entry.isNull, h.tag]

theorem Sized.place?_eq (h : s.Sized e k t bits) :
    place? e t = (structOffset? e bits (e.bitSize?.getD bits)).map (e.bitSize?.getD bits, ·) := by
  simp [place?, h.isType, h.bits, h.tag, Except.toOption, Option.map_eq_bind]

theorem Sized.placedAt?_eq (h : s.Sized e k t bits) (ranges : List Nat) :
    s.placedAt? e ranges k =
      (structOffset? e bits (e.bitSize?.getD bits)).bind fun structOffset =>
        ((s.members (2 * s.size + 2) (s.size + 1) "" t).outcome (.behind k)).toOption.map
          fun (members, _) => {
            name := "", bitSize := e.bitSize?.getD bits, structOffset, members
            arrayRanges := if ranges.isEmpty then [0] else ranges } := by
  simp [placedAt?, h.entryAt.get, h.place?_eq, Option.map_eq_bind, Option.bind_assoc]

theorem Sized.exists_unnamed_resolve (h : s.Sized e k t bits) (c : Cursor) :
    ∃ ranges, unnamedOf? ((s.resolve e).outcome c) = s.placedAt? e ranges k := by
  obtain ⟨ranges, hreach⟩ := h.endsAt
  refine ⟨ranges, ?_⟩
  rw [unnamed_resolve h.nonnull, hreach]
  rfl

theorem Sized.of_ok {l : Layout} (h : s.Sized e k t bits) (hl : s.resolve e c = .ok l d) :
    structOffset? e bits (e.bitSize?.getD bits) = some l.structOffset ∧
      l.bitSize = e.bitSize?.getD bits := by
  obtain ⟨ranges, hfound⟩ := h.exists_unnamed_resolve c
  rw [unnamedOf?_of_ok hl, h.placedAt?_eq] at hfound
  obtain ⟨o, ho, hfound⟩ := Option.bind_eq_some_iff.mp hfound.symm
  obtain ⟨ms, -, hlayout⟩ := Option.map_eq_some_iff.mp hfound
  simp only [Layout.unnamed, Layout.mk.injEq, true_and] at hlayout
  obtain ⟨hbits, hoffset, -⟩ := hlayout
  exact ⟨by rw [ho, hoffset], hbits.symm⟩

theorem Sized.exists_resolve_iff (h : s.Sized e k t bits)
    (ho : structOffset? e bits (e.bitSize?.getD bits) = some o) :
    (∃ l d, s.resolve e c = .ok l d) ↔
      ((s.members (2 * s.size + 2) (s.size + 1) "" t).outcome
        (.behind k)).toOption.isSome = true := by
  obtain ⟨ranges, hfound⟩ := h.exists_unnamed_resolve c
  rw [← isSome_unnamedOf?, hfound, h.placedAt?_eq, ho, Option.bind_some, Option.isSome_map]

theorem Sized.frame_overflow {l : Layers} (h : s.Sized e k l.entry bits)
    (ho : structOffset? e bits (e.bitSize?.getD bits) = none) :
    ∃ name, frame e l = .error (.layout (.overflow name)) := by
  have hbits : typeBits ((l.name <|> e.name?).getD "") l.entry = .ok bits := by
    rw [← toOption_eq_some, typeBits_name _ "", h.bits]
    rfl
  refine ⟨(l.name <|> e.name?).getD "", ?_⟩
  simp only [frame, h.isType, if_true, hbits, h.tag, bind, Except.bind, structOffset, ho]

theorem Sized.resolve_overflow (h : s.Sized e k t bits)
    (ho : structOffset? e bits (e.bitSize?.getD bits) = none) (c : Cursor) :
    ∃ name d, s.resolve e c = .error (Error.layout (.overflow name)) d := by
  obtain ⟨ranges, hreach⟩ := h.endsAt
  have hreached := reached_arrive (show s.size ≤ 2 * s.size + 2 by omega) e c
  rw [hreach] at hreached
  obtain ⟨own, t', ht', hok⟩ := hreached
  obtain rfl := h.entryAt.unique ht'
  obtain ⟨name, hframe⟩ := Sized.frame_overflow (l := ⟨own, [] ++ ranges, t⟩) h ho
  exact ⟨name, Walk.outcome_eq_error.mp (outcome_resolveWithin_misfit h.nonnull hok hframe)⟩

/-- A member starts at the exact place. Its place cannot be computed if that or what it is computed
from does not fit into 64 bits, but also if the end of the storage unit does not. Otherwise a bit
field that counts from the top of its storage unit is like one that counts from the start of the
aggregate. -/
theorem resolve_placement (h : s.Sized e k t bits) (c : Cursor) :
    let width := e.bitSize?.getD bits
    (∀ l d, s.resolve e c = .ok l d →
      (l.structOffset : Int) = e.exactOffset bits width ∧ l.bitSize = width) ∧
    (∀ name, structOffset name e bits width = .error (.layout (.overflow name)) ↔
      e.Exceeds bits width ∨ e.StopExceeds bits) ∧
    (e.Exceeds bits width ∨ e.StopExceeds bits →
      ∃ name d, s.resolve e c = .error (Error.layout (.overflow name)) d) ∧
    ∀ e' place, s.Sized e' k t bits → e'.bitSize? = e.bitSize? → e'.dataBitOffset? = some place →
      (place : Int) = e.exactOffset bits width →
        (¬ e.Exceeds bits width → ¬ e.StopExceeds bits →
          ((∃ l d, s.resolve e c = .ok l d) ↔ ∃ l d, s.resolve e' c = .ok l d)) ∧
        ∀ l d l' d', s.resolve e c = .ok l d → s.resolve e' c = .ok l' d' →
          l.structOffset = l'.structOffset ∧ l.bitSize = l'.bitSize := by
  intro width
  refine ⟨fun l d hl => ?_, fun name => structOffset_eq_error, fun hfails => ?_, ?_⟩
  · obtain ⟨ho, hbits⟩ := h.of_ok hl
    exact ⟨(structOffset?_eq_some.mp ho).1, hbits⟩
  · exact h.resolve_overflow (structOffset?_eq_none.mpr hfails) c
  · intro e' place h' hwidth hdata hplace
    have ho' : ∀ width', structOffset? e' bits width' = some place := by
      intro width'
      simp [structOffset?, hdata]
    constructor
    · intro hfits hstop
      have ho : structOffset? e bits width = some place :=
        structOffset?_eq_some.mpr ⟨hplace, hfits, hstop⟩
      rw [h.exists_resolve_iff ho, h'.exists_resolve_iff (ho' _)]
    · intro l d l' d' hl hl'
      obtain ⟨ho, hbits⟩ := h.of_ok hl
      obtain ⟨ho'', hbits'⟩ := h'.of_ok hl'
      obtain ⟨hexact, -⟩ := structOffset?_eq_some.mp ho
      obtain rfl := Option.some.inj ((ho' _).symm.trans ho'')
      exact ⟨Int.natCast_inj.mp (hexact.trans hplace.symm), by rw [hbits, hbits', hwidth]⟩

/-- Two bit fields of three bits in a byte at a location, one that counts from the top of the byte
and one that counts from the start of the aggregate. -/
def bitFields (location : UInt64) : Stream :=
  let char : Attr × AttrValue := (.type, .ref 12)
  ((((({} : Builder).begin .compileUnit []).leaf .baseType [(.byteSize, .udata 1)]).begin
    .structureType [(.byteSize, .udata 8)]).leaf
    .member [char, (.dataMemberLocation, .udata location), (.byteSize, .udata 1),
      (.bitOffset, .udata 2), (.bitSize, .udata 3)]).leaf
    .member [char, (.dataBitOffset, .udata (8 * location + 3)), (.bitSize, .udata 3)] |>.build

theorem resolve_placement_byte :
    let s := bitFields 4
    ∃ l d l' d', s.resolve s.entries[3]! {} = .ok l d ∧ s.resolve s.entries[4]! {} = .ok l' d' ∧
      l.structOffset = 35 ∧ l.structOffset = l'.structOffset ∧ l.bitSize = l'.bitSize := by
  intro s
  have hfields : (∃ l d, s.resolve s.entries[3]! {} = .ok l d) ∧
      ∃ l d, s.resolve s.entries[4]! {} = .ok l d := ⟨⟨_, _, rfl⟩, ⟨_, _, rfl⟩⟩
  obtain ⟨⟨l, d, hl⟩, l', d', hl'⟩ := hfields
  have hfirst : s.Sized s.entries[3]! 1 s.entries[1]! 8 :=
    ⟨rfl, ⟨[], by decide⟩, ⟨rfl, rfl⟩, rfl, rfl⟩
  have hsecond : s.Sized s.entries[4]! 1 s.entries[1]! 8 :=
    ⟨rfl, ⟨[], by decide⟩, ⟨rfl, rfl⟩, rfl, rfl⟩
  obtain ⟨hok, -, -, hsame⟩ := resolve_placement hfirst {}
  have hexact : (l.structOffset : Int) = (35 : Nat) := (hok l d hl).1.trans (by decide)
  obtain ⟨-, hsame⟩ := hsame s.entries[4]! 35 hsecond rfl (by decide) (by decide)
  exact ⟨l, d, l', d', hl, hl', Int.natCast_inj.mp hexact, hsame l d l' d' hl hl'⟩

/-- The byte ends where 64 bits end, so that the first of the two bit fields has no place. -/
theorem resolve_placement_end :
    let s := bitFields 0x1fffffffffffffff
    ¬ s.entries[3]!.Exceeds 8 3 ∧
      (∃ name d, s.resolve s.entries[3]! {} = .error (Error.layout (.overflow name)) d) ∧
      ∃ l d, s.resolve s.entries[4]! {} = .ok l d ∧
        (l.structOffset : Int) = s.entries[3]!.exactOffset 8 3 := by
  intro s
  exact ⟨by decide, ⟨_, _, rfl⟩, ⟨_, _, rfl, by decide⟩⟩

end Stream
end DwarfScope
