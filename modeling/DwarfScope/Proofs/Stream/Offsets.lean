import DwarfScope.Proofs.Stream.Siblings
import DwarfScope.Stream.Builder

/-!
# Offsets that find their entry

A reader can only come back to an entry if the offset of the entry finds it. That is so in a stream
whose offsets grow from entry to entry, such as every stream a builder has put together and every
part of it from the start on.
-/

namespace DwarfScope.Stream

/-- To seek an entry by its offset leads to this very entry. -/
def Addressed (s : Stream) : Prop := ∀ i e, s.EntryAt i e → s.locate? e.offset = some i

variable {s : Stream} {i j offset : Nat} {e : Entry}

/-! ## The index of a stream -/

theorem fold_indexOf (n : Nat) (hn : n ≤ s.entries.size) :
    Nat.fold n (fun k h found =>
      if s.entries[k].offset = offset ∧ !s.entries[k].isNull then some k
      else found) none = some i ↔
    i < n ∧ (∃ e, s.EntryAt i e ∧ e.offset = offset) ∧
      ∀ k e, k < n → s.EntryAt k e → e.offset = offset → k ≤ i := by
  induction n with
  | zero => simp
  | succ n ih =>
    have hlt : n < s.entries.size := by omega
    have hget : s.entries[n]? = some s.entries[n] := Array.getElem?_eq_getElem hlt
    rw [Nat.fold_succ]
    split
    · -- A later entry takes the place of those found before it.
      rename_i hp
      have hat : s.EntryAt n s.entries[n] := ⟨hget, by simpa using hp.2⟩
      constructor
      · intro h
        obtain rfl : n = i := by simpa using h
        exact ⟨by omega, ⟨_, hat, hp.1⟩, fun k _ hk _ _ => by omega⟩
      · rintro ⟨hi, -, hlast⟩
        have := hlast n _ (by omega) hat hp.1
        simp only [Option.some.injEq]
        omega
    · rename_i hp
      have hno : ∀ e, s.EntryAt n e → e.offset ≠ offset := by
        intro e he hoff
        apply hp
        obtain rfl : s.entries[n] = e := Option.some.inj (hget.symm.trans he.get)
        exact ⟨hoff, by simp [he.nonnull]⟩
      rw [ih (by omega)]
      constructor
      · rintro ⟨hi, hat, hlast⟩
        refine ⟨by omega, hat, fun k e hk he hoff => ?_⟩
        rcases Nat.lt_succ_iff_lt_or_eq.mp hk with hk | rfl
        · exact hlast k e hk he hoff
        · exact absurd hoff (hno e he)
      · rintro ⟨hi, ⟨e, he, hoff⟩, hlast⟩
        rcases Nat.lt_succ_iff_lt_or_eq.mp hi with hi | rfl
        · exact ⟨hi, ⟨e, he, hoff⟩, fun k e hk => hlast k e (by omega)⟩
        · exact absurd hoff (hno e he)

theorem indexOf?_eq_some_iff :
    s.indexOf? offset = some i ↔
      (∃ e, s.EntryAt i e ∧ e.offset = offset) ∧
        ∀ k e, s.EntryAt k e → e.offset = offset → k ≤ i := by
  refine (fold_indexOf s.entries.size (Nat.le_refl _)).trans ?_
  constructor
  · rintro ⟨-, hat, hlast⟩
    exact ⟨hat, fun k e he => hlast k e he.lt_size he⟩
  · rintro ⟨⟨e, he, hoff⟩, hlast⟩
    exact ⟨he.lt_size, ⟨e, he, hoff⟩, fun k e _ => hlast k e⟩

/-! ## Growing offsets -/

/-- The offsets grow, and none is that of the start. -/
structure Ordered (s : Stream) : Prop where
  pos : ∀ e ∈ s.entries.toList, e.isNull = false → 0 < e.offset
  lt : s.entries.toList.Pairwise fun a b =>
    a.isNull = false → b.isNull = false → a.offset < b.offset

theorem Ordered.offset_lt {e' : Entry} (h : s.Ordered) (hi : s.EntryAt i e) (hj : s.EntryAt j e')
    (hij : i < j) : e.offset < e'.offset := by
  obtain ⟨hi', rfl⟩ := List.getElem?_eq_some_iff.mp (Array.getElem?_toList.trans hi.get)
  obtain ⟨hj', rfl⟩ := List.getElem?_eq_some_iff.mp (Array.getElem?_toList.trans hj.get)
  exact List.pairwise_iff_getElem.mp h.lt i j hi' hj' hij hi.nonnull hj.nonnull

theorem Ordered.addressed (h : s.Ordered) : s.Addressed := by
  intro i e he
  have hmem : e ∈ s.entries.toList := by
    simpa using Array.mem_of_getElem? he.get
  have hpos := h.pos e hmem he.nonnull
  rw [locate?, if_neg (by omega), indexOf?_eq_some_iff]
  refine ⟨⟨e, he, rfl⟩, fun k e' he' hoff => ?_⟩
  rcases Nat.lt_or_ge i k with hlt | hle
  · have := h.offset_lt he he' hlt
    omega
  · exact hle

theorem Ordered.of_prefix {t : Stream} (h : t.Ordered)
    (hp : s.entries.toList <+: t.entries.toList) : s.Ordered where
  pos e he := h.pos e (hp.subset he)
  lt := h.lt.sublist hp.sublist

theorem Ordered.append_null {t : Stream} (h : s.Ordered) (nulls : List Entry)
    (ht : t.entries.toList = s.entries.toList ++ nulls) (hnulls : ∀ e ∈ nulls, e.isNull = true) :
    t.Ordered := by
  refine ⟨fun e he hn => ?_, ?_⟩
  · rcases List.mem_append.mp (ht ▸ he) with he | he
    · exact h.pos e he hn
    · simp [hnulls e he] at hn
  · rw [ht]
    refine List.pairwise_append.mpr ⟨h.lt, ?_, fun a _ b hb _ hn => ?_⟩
    · exact List.pairwise_of_forall_mem_list fun a ha b _ hn => by simp [hnulls a ha] at hn
    · simp [hnulls b hb] at hn

/-! ## Built streams -/

namespace Builder

/-- A builder after any steps that add no null entry. -/
inductive Built : Builder → Prop
  | empty : Built {}
  | begin {b : Builder} (tag : Tag) (attrs : List (Attr × AttrValue)) :
      tag ≠ .null → Built b → Built (b.begin tag attrs)
  | leaf {b : Builder} (tag : Tag) (attrs : List (Attr × AttrValue)) :
      tag ≠ .null → Built b → Built (b.leaf tag attrs)
  | close {b : Builder} : Built b → Built b.close

/-- A builder after any steps at all. It may have been given null entries of its own. -/
inductive Assembled : Builder → Prop
  | empty : Assembled {}
  | begin {b : Builder} (tag : Tag) (attrs : List (Attr × AttrValue)) :
      Assembled b → Assembled (b.begin tag attrs)
  | leaf {b : Builder} (tag : Tag) (attrs : List (Attr × AttrValue)) :
      Assembled b → Assembled (b.leaf tag attrs)
  | close {b : Builder} : Assembled b → Assembled b.close

theorem Built.assembled {b : Builder} (h : b.Built) : b.Assembled := by
  induction h with
  | empty => exact .empty
  | begin tag attrs _ _ ih => exact .begin tag attrs ih
  | leaf tag attrs _ _ ih => exact .leaf tag attrs ih
  | close _ ih => exact .close ih

/-- The entries of a builder are ordered, and the next offset is behind all of them. -/
structure Orderly (b : Builder) : Prop where
  ordered : Stream.Ordered ⟨b.entries⟩
  below : ∀ e ∈ b.entries.toList, e.isNull = false → e.offset < b.nextOffset
  next_pos : 0 < b.nextOffset

theorem setAll_offset (e : Entry) (attrs : List (Attr × AttrValue)) :
    (e.setAll attrs).offset = e.offset := by
  induction attrs generalizing e with
  | nil => rfl
  | cons a rest ih => exact (ih _).trans rfl

theorem Orderly.push {b : Builder} (h : b.Orderly) (tag : Tag) (children : Bool)
    (attrs : List (Attr × AttrValue)) : (b.push tag children attrs).Orderly := by
  have hnext := h.next_pos
  have hmem : ∀ e, e ∈ (b.push tag children attrs).entries.toList →
      e ∈ b.entries.toList ∨ e.offset = b.nextOffset := by
    intro e he
    simp only [Builder.push, Array.toList_push, List.mem_append, List.mem_singleton] at he
    rcases he with he | rfl
    · exact .inl he
    · exact .inr (setAll_offset _ _)
  refine ⟨⟨fun e he hn => ?_, ?_⟩, fun e he hn => ?_, Nat.succ_pos _⟩
  · rcases hmem e he with he | he
    · exact h.ordered.pos e he hn
    · omega
  · simp only [Builder.push, Array.toList_push, List.pairwise_append, List.mem_singleton]
    refine ⟨h.ordered.lt, List.pairwise_singleton _ _, ?_⟩
    rintro a ha _ rfl hn -
    rw [setAll_offset]
    exact h.below a ha hn
  · show e.offset < b.nextOffset + 1
    rcases hmem e he with he | he
    · have := h.below e he hn
      omega
    · omega

theorem Orderly.close {b : Builder} (h : b.Orderly) : b.close.Orderly := by
  unfold Builder.close
  split
  · exact h
  · refine ⟨?_, fun e he hn => ?_, h.next_pos⟩
    · exact h.ordered.append_null [.null] (Array.toList_push ..)
        (by simp [Entry.null, Entry.isNull])
    · simp only [Array.toList_push, List.mem_append, List.mem_singleton] at he
      rcases he with he | rfl
      · exact h.below e he hn
      · simp [Entry.null, Entry.isNull] at hn

theorem Assembled.orderly {b : Builder} (h : b.Assembled) : b.Orderly := by
  induction h with
  | empty => exact ⟨⟨by simp, by simp⟩, by simp, by decide⟩
  | begin tag attrs _ ih =>
    have h := ih.push tag true attrs
    exact ⟨h.ordered, h.below, h.next_pos⟩
  | leaf tag attrs _ ih => exact ih.push tag false attrs
  | close _ ih => exact ih.close

theorem Assembled.ordered {b : Builder} (h : b.Assembled)
    (hp : s.entries.toList <+: b.build.entries.toList) : s.Ordered := by
  have hbuild : b.build.Ordered :=
    h.orderly.ordered.append_null (List.replicate b.depth .null) (by simp [build])
      (by simp [Entry.null, Entry.isNull])
  exact hbuild.of_prefix hp

theorem Built.ordered {b : Builder} (h : b.Built)
    (hp : s.entries.toList <+: b.build.entries.toList) : s.Ordered :=
  h.assembled.ordered hp

theorem Assembled.addressed {b : Builder} (h : b.Assembled)
    (hp : s.entries.toList <+: b.build.entries.toList) : s.Addressed :=
  (h.ordered hp).addressed

theorem Built.addressed {b : Builder} (h : b.Built)
    (hp : s.entries.toList <+: b.build.entries.toList) : s.Addressed :=
  h.assembled.addressed hp

end Builder
end DwarfScope.Stream
