import DwarfScope.Proofs.Stream.Forest
import DwarfScope.Proofs.Stream.Search

/-!
# Searches that come back

A search for a name goes from the entry it has found to the compile unit of the entry, and from
there back to the entry. In a built stream the unit began there or before, and the way back leads to
this very entry, so the next search goes on behind it.
-/

namespace DwarfScope.Stream

open Effect

variable {s t : Stream} {i n m offset : Nat} {e : Entry} {name : String} {c : Cursor}

/-- From every entry that has a name there is a way to its unit and back. -/
def Revisits (s : Stream) : Prop :=
  ∀ (i : Nat) (e : Entry), s.entries[i]? = some e → e.name?.isSome = true →
    e.tag = .compileUnit ∨ (s.locate? e.unit).isSome = true ∧ s.locate? e.offset = some i

theorem Revisits.seekable (h : s.Revisits) (he : s.entries[i]? = some e)
    (hname : e.name? = some name) : s.Seekable e := by
  rcases h i e he (by rw [hname]; rfl) with htag | ⟨hunit, hi⟩
  · exact .inl htag
  · exact .inr ⟨hunit, by rw [hi]; rfl⟩

theorem Revisits.findEntry (h : s.Revisits) (hi : s.Found name c.position i)
    (he : s.entries[i]? = some e) : ∃ unit, s.findEntry name c = .ok (e, unit) (.behind i) := by
  obtain ⟨e', he', hname⟩ := hi.named
  obtain rfl := Option.some.inj (he.symm.trans he')
  suffices hunit : ∃ unit, s.enclosingUnit e (.behind i) = .ok unit (.behind i) by
    obtain ⟨unit, hunit⟩ := hunit
    exact ⟨unit, findEntry_eq_ok.mpr ⟨i, hi, he, hunit⟩⟩
  by_cases htag : e.tag = .compileUnit
  · exact ⟨_, enclosingUnit_self htag⟩
  · obtain ⟨hunit, hback⟩ := (h i e he (by rw [hname]; rfl)).resolve_left htag
    obtain ⟨k, hk⟩ := Option.isSome_iff_exists.mp hunit
    refine ⟨_, (enclosingUnit_eq_ok htag).mpr ⟨k, i, hk, hback, rfl, ?_⟩⟩
    rw [he]
    exact Walk.outcome_eq_ok.mp (outcome_next_some he)

/-! ## Streams in which every unit is there -/

/-- The offset is that of the start, or some entry has it. -/
def HasOffset (s : Stream) (offset : Nat) : Prop :=
  offset = 0 ∨ ∃ k u, s.EntryAt k u ∧ u.offset = offset

theorem HasOffset.continues (h : s.HasOffset offset) (ht : s.Continues t) : t.HasOffset offset := by
  rcases h with rfl | ⟨k, u, hu, hoffset⟩
  · exact .inl rfl
  · exact .inr ⟨k, u, hu.continues ht, hoffset⟩

theorem HasOffset.locate (h : s.HasOffset offset) (ha : s.Addressed) :
    (s.locate? offset).isSome = true := by
  rcases h with rfl | ⟨k, u, hu, rfl⟩
  · rfl
  · rw [ha k u hu]
    rfl

/-- A null entry has nothing, any other has a unit. -/
def Belongs (s : Stream) (e : Entry) : Prop := e = .null ∨ e.isNull = false ∧ s.HasOffset e.unit

theorem revisits_of_belongs (ha : s.Addressed)
    (h : ∀ (i : Nat) (e : Entry), s.entries[i]? = some e → s.Belongs e) : s.Revisits := by
  intro i e he hname
  rcases h i e he with rfl | ⟨hnull, hunit⟩
  · cases hname
  · exact .inr ⟨hunit.locate ha, ha i e ⟨he, hnull⟩⟩

/-! ## Where units begin -/

/-- The offset is that of the start, or of a compile unit among the first `n` entries. -/
def BeganBefore (s : Stream) (n offset : Nat) : Prop :=
  offset = 0 ∨ ∃ j u, j < n ∧ s.EntryAt j u ∧ u.tag = .compileUnit ∧ u.offset = offset

theorem BeganBefore.hasOffset (h : s.BeganBefore n offset) : s.HasOffset offset := by
  rcases h with rfl | ⟨j, u, -, hu, -, hoffset⟩
  · exact .inl rfl
  · exact .inr ⟨j, u, hu, hoffset⟩

theorem BeganBefore.continues (h : s.BeganBefore n offset) (ht : s.Continues t) (hnm : n ≤ m) :
    t.BeganBefore m offset := by
  rcases h with rfl | ⟨j, u, hj, hu, htag, hoffset⟩
  · exact .inl rfl
  · exact .inr ⟨j, u, Nat.lt_of_lt_of_le hj hnm, hu.continues ht, htag, hoffset⟩

/-- A null entry has nothing, and the unit of any other at the index began there or before. -/
def Begun (s : Stream) (i : Nat) (e : Entry) : Prop :=
  e = .null ∨ e.isNull = false ∧ s.BeganBefore (i + 1) e.unit

theorem Begun.continues (h : s.Begun i e) (ht : s.Continues t) : t.Begun i e :=
  h.imp_right fun ⟨hnull, hunit⟩ => ⟨hnull, hunit.continues ht (Nat.le_refl _)⟩

theorem Begun.belongs (h : s.Begun i e) : s.Belongs e :=
  h.imp_right fun ⟨hnull, hunit⟩ => ⟨hnull, hunit.hasOffset⟩

namespace Builder

variable {b : Builder} {tag : Tag}

/-- The units of all entries, and that of the next one, have begun. -/
structure Grouped (b : Builder) : Prop where
  entries : ∀ (i : Nat) (e : Entry), b.entries[i]? = some e → Begun ⟨b.entries⟩ i e
  unit : BeganBefore ⟨b.entries⟩ b.entries.size b.unit

theorem begun_push {es : Array Entry}
    (h : ∀ (i : Nat) (x : Entry), es[i]? = some x → Begun ⟨es⟩ i x)
    (he : Begun ⟨es.push e⟩ es.size e) (i : Nat) (x : Entry) (hx : (es.push e)[i]? = some x) :
    Begun ⟨es.push e⟩ i x := by
  rw [Array.getElem?_push] at hx
  split at hx
  · obtain rfl := Option.some.inj hx
    subst i
    exact he
  · exact (h i x hx).continues (continues_push es e)

theorem Grouped.push (h : b.Grouped) (htag : tag ≠ .null) (children : Bool)
    (attrs : List (Attr × AttrValue)) : (b.push tag children attrs).Grouped := by
  obtain ⟨e, hentries, hnull, -, hoffset, rfl, hunit⟩ := b.push_entries htag children attrs
  have hnext : BeganBefore ⟨b.entries.push e⟩ (b.entries.size + 1)
      (b.push e.tag children attrs).unit := by
    show BeganBefore _ _ (if e.tag = .compileUnit then b.nextOffset else b.unit)
    split
    · exact .inr ⟨_, e, Nat.lt_succ_self _, entryAt_push_self b.entries hnull, ‹_›, hoffset⟩
    · exact h.unit.continues (continues_push b.entries e) (Nat.le_succ _)
  constructor
  · rw [hentries]
    exact begun_push h.entries (.inr ⟨hnull, by rw [hunit]; exact hnext⟩)
  · rw [hentries, Array.size_push]
    exact hnext

theorem Grouped.close (h : b.Grouped) : b.close.Grouped := by
  unfold Builder.close
  split
  · exact h
  · refine ⟨begun_push h.entries (.inl rfl), ?_⟩
    show BeganBefore ⟨b.entries.push .null⟩ (b.entries.push .null).size b.unit
    rw [Array.size_push]
    exact h.unit.continues (continues_push b.entries .null) (Nat.le_succ _)

theorem Built.grouped (h : b.Built) : b.Grouped := by
  induction h with
  | empty => exact ⟨by simp, .inl rfl⟩
  | begin tag attrs htag _ ih =>
    have h := ih.push htag true attrs
    exact ⟨h.entries, h.unit⟩
  | leaf tag attrs htag _ ih => exact ih.push htag false attrs
  | close _ ih => exact ih.close

theorem Built.begun (h : b.Built) (he : b.build.entries[i]? = some e) : b.build.Begun i e := by
  have hget : (b.entries ++ Array.replicate b.depth .null)[i]? = some e := he
  rw [Array.getElem?_append] at hget
  split at hget
  · exact (h.grouped.entries i e hget).continues (continues_append _ _)
  · exact .inl (Array.eq_of_mem_replicate (Array.mem_of_getElem? hget))

theorem Built.revisits (h : b.Built) : b.build.Revisits :=
  revisits_of_belongs h.tidy.addressed fun _ _ he => (h.begun he).belongs

end Builder
end DwarfScope.Stream
