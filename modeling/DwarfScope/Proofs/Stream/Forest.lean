import DwarfScope.Proofs.Stream.Offsets

/-!
# Built streams as trees

A builder always stands inside of the lists that are still open, and when they are closed at the
end the whole stream is one list of trees. Each entry names the compile unit that began last.
-/

namespace DwarfScope.Stream

variable {s t : Stream} {a p q i j k m d : Nat} {js ks : List Nat} {e u : Entry}

/-! ## Siblings -/

theorem Siblings.suffix (h : s.Siblings a js p) (h' : s.Siblings a ks q) (hpq : p ≤ q) :
    ∃ rest, s.Siblings p rest q := by
  induction h generalizing ks with
  | nil => exact ⟨ks, h'⟩
  | leaf he hc hrest ih =>
    have := hrest.le
    cases h' with
    | nil => omega
    | leaf _ _ hrest' => exact ih hrest' hpq
    | node he' hc' => simp [he.unique he', hc'] at hc
  | node he hc hbelow hm hrest ih ih' =>
    have := hbelow.le
    have := hrest.le
    cases h' with
    | nil => omega
    | leaf he' hc' => simp [he.unique he', hc'] at hc
    | node _ _ hbelow' hm' hrest' =>
      obtain rfl := hbelow.end_unique hm hbelow' hm'
      exact ih' hrest' hpq

theorem Siblings.mem_lt {p : Nat} (h : s.Siblings p js q) (hj : j ∈ js) : j < q := by
  induction h with
  | nil => cases hj
  | leaf _ _ hrest ih =>
    have := hrest.le
    rcases List.mem_cons.mp hj with rfl | hj
    · omega
    · exact ih hj
  | node _ _ hbelow _ hrest _ ih =>
    have := hbelow.le
    have := hrest.le
    rcases List.mem_cons.mp hj with rfl | hj
    · omega
    · exact ih hj

theorem Siblings.afterItem_le (h : s.Siblings a js j) (h' : s.Siblings a ks k)
    (he : s.EntryAt j e) (hjk : j < k) : s.afterItem j e ≤ k := by
  obtain ⟨rest, hrest⟩ := h.suffix h' (Nat.le_of_lt hjk)
  cases hrest with
  | nil => omega
  | leaf he' hc hbehind =>
    obtain rfl := he.unique he'
    rw [afterItem_leaf hc]
    exact hbehind.le
  | node he' hc hbelow hm hbehind =>
    obtain rfl := he.unique he'
    rw [afterItem_node hc hbelow hm]
    exact hbehind.le

theorem Siblings.closed (h : s.Siblings p js q) (hpi : p ≤ i) (hiq : i < q) (he : s.EntryAt i e)
    (hc : e.children = true) : s.Closed (i + 1) := by
  induction h with
  | nil => omega
  | leaf he' hc' _ ih =>
    rcases Nat.eq_or_lt_of_le hpi with rfl | hlt
    · simp [he'.unique he, hc] at hc'
    · exact ih hlt hiq
  | @node p m q ks js e' _ _ hbelow hm _ ih ih' =>
    rcases Nat.eq_or_lt_of_le hpi with rfl | hlt
    · exact ⟨ks, m, hbelow, hm⟩
    rcases Nat.lt_trichotomy i m with him | rfl | hmi
    · exact ih hlt him
    · exact absurd hm he.not_null
    · exact ih' hmi hiq

/-! ## Longer streams -/

/-- The stream goes on with further entries. -/
def Continues (s t : Stream) : Prop :=
  ∀ (i : Nat) (e : Entry), s.entries[i]? = some e → t.entries[i]? = some e

theorem EntryAt.continues (h : s.EntryAt i e) (ht : s.Continues t) : t.EntryAt i e :=
  ⟨ht i e h.get, h.nonnull⟩

theorem NullAt.continues (h : s.NullAt i) (ht : s.Continues t) : t.NullAt i := by
  obtain ⟨e, he, hn⟩ := h
  exact ⟨e, ht i e he, hn⟩

theorem Siblings.continues (h : s.Siblings p js q) (ht : s.Continues t) : t.Siblings p js q := by
  induction h with
  | nil => exact .nil _
  | leaf he hc _ ih => exact .leaf (he.continues ht) hc ih
  | node he hc _ hm _ ih ih' => exact .node (he.continues ht) hc ih (hm.continues ht) ih'

/-! ## Lists that are still open -/

/-- Between `p` and `q` so many lists of children have been opened and not closed. -/
inductive Unclosed (s : Stream) : Nat → Nat → Nat → Prop where
  | flat {p q : Nat} {js : List Nat} : s.Siblings p js q → Unclosed s p 0 q
  | inside {p k q d : Nat} {js : List Nat} {e : Entry} : s.Siblings p js k → s.EntryAt k e →
      e.children = true → Unclosed s (k + 1) d q → Unclosed s p (d + 1) q

theorem Unclosed.continues (h : s.Unclosed p d q) (ht : s.Continues t) : t.Unclosed p d q := by
  induction h with
  | flat h => exact .flat (h.continues ht)
  | inside h he hc _ ih => exact .inside (h.continues ht) (he.continues ht) hc ih

theorem Unclosed.leaf (h : s.Unclosed p d q) (he : s.EntryAt q e) (hc : e.children = false) :
    s.Unclosed p d (q + 1) := by
  induction h with
  | flat h => exact .flat (h.trans (.leaf he hc (.nil _)))
  | inside h hk hopen _ ih => exact .inside h hk hopen (ih he)

theorem Unclosed.begin (h : s.Unclosed p d q) (he : s.EntryAt q e) (hc : e.children = true) :
    s.Unclosed p (d + 1) (q + 1) := by
  induction h with
  | flat h => exact .inside h he hc (.flat (.nil _))
  | inside h hk hopen _ ih => exact .inside h hk hopen (ih he)

theorem Unclosed.close (h : s.Unclosed p (d + 1) q) (hq : s.NullAt q) :
    s.Unclosed p d (q + 1) := by
  induction d generalizing p with
  | zero =>
    cases h with
    | inside h hk hopen hinner =>
      cases hinner with
      | flat hbelow => exact .flat (h.trans (.node hk hopen hbelow hq (.nil _)))
  | succ d ih =>
    cases h with
    | inside h hk hopen hinner => exact .inside h hk hopen (ih hinner)

theorem Unclosed.closeAll (h : s.Unclosed p d q) (hnulls : ∀ i < d, s.NullAt (q + i)) :
    ∃ js, s.Siblings p js (q + d) := by
  induction d generalizing q with
  | zero =>
    cases h with
    | flat h => exact ⟨_, h⟩
  | succ d ih =>
    have hrest := ih (h.close (hnulls 0 (Nat.succ_pos d))) fun i hi => by
      rw [Nat.add_assoc, Nat.add_comm 1 i]
      exact hnulls (i + 1) (Nat.succ_lt_succ hi)
    rw [Nat.add_assoc, Nat.add_comm 1 d] at hrest
    exact hrest

/-! ## The compile unit that began last -/

/-- The last compile unit up to the index `i` stands at `j`. -/
structure LastUnit (s : Stream) (i j : Nat) (u : Entry) : Prop where
  le : j ≤ i
  entryAt : s.EntryAt j u
  tag : u.tag = .compileUnit
  last : ∀ j' u', j < j' → j' ≤ i → s.EntryAt j' u' → u'.tag ≠ .compileUnit

/-- Every entry names the compile unit that began last. -/
def Tracked (s : Stream) : Prop :=
  ∀ i e j u, s.EntryAt i e → s.LastUnit i j u → e.unit = u.offset

/-- The stream is a list of trees, and its entries find themselves and their compile unit. -/
structure Tidy (s : Stream) : Prop where
  forest : ∃ js, s.Siblings 0 js s.size
  addressed : s.Addressed
  tracked : s.Tracked

theorem Tidy.closed (h : s.Tidy) (he : s.EntryAt i e) (hc : e.children = true) :
    s.Closed (i + 1) := by
  obtain ⟨js, hjs⟩ := h.forest
  exact hjs.closed (Nat.zero_le i) he.lt_size he hc

theorem LastUnit.restrict (h : t.LastUnit i j u) (ht : s.Continues t) (hj : s.EntryAt j u)
    (hjk : j ≤ k) (hki : k ≤ i) : s.LastUnit k j u where
  le := hjk
  entryAt := hj
  tag := h.tag
  last j' u' hlt hle he := h.last j' u' hlt (Nat.le_trans hle hki) (he.continues ht)

/-! ## Further entries -/

section

variable {es nulls : Array Entry}

theorem continues_push (es : Array Entry) (e : Entry) : Continues ⟨es⟩ ⟨es.push e⟩ := by
  intro i x hx
  have hlt : i < es.size := (Array.getElem?_eq_some_iff.mp hx).1
  rw [Array.getElem?_push, if_neg (by omega)]
  exact hx

theorem continues_append (es nulls : Array Entry) : Continues ⟨es⟩ ⟨es ++ nulls⟩ := by
  intro i x hx
  obtain ⟨hlt, -⟩ := Array.getElem?_eq_some_iff.mp hx
  rw [Array.getElem?_append, if_pos hlt]
  exact hx

theorem entryAt_push_self (es : Array Entry) (he : e.isNull = false) :
    EntryAt ⟨es.push e⟩ es.size e :=
  ⟨by simp, he⟩

theorem EntryAt.of_push {x : Entry} (h : EntryAt ⟨es.push e⟩ i x) :
    EntryAt ⟨es⟩ i x ∨ i = es.size ∧ x = e := by
  have hget := h.get
  rw [Array.getElem?_push] at hget
  split at hget
  · exact .inr ⟨‹_›, (Option.some.inj hget).symm⟩
  · exact .inl ⟨hget, h.nonnull⟩

theorem EntryAt.of_append (hnulls : ∀ e ∈ nulls, e.isNull = true)
    (h : EntryAt ⟨es ++ nulls⟩ i e) : EntryAt ⟨es⟩ i e := by
  have hget := h.get
  rw [Array.getElem?_append] at hget
  split at hget
  · exact ⟨hget, h.nonnull⟩
  · have hnull := hnulls e (Array.mem_of_getElem? hget)
    simp [h.nonnull] at hnull

theorem Tracked.append (h : Tracked ⟨es⟩) (hnulls : ∀ e ∈ nulls, e.isNull = true) :
    Tracked ⟨es ++ nulls⟩ := by
  intro i e j u he hu
  have hj := hu.entryAt.of_append hnulls
  exact h i e j u (he.of_append hnulls)
    (hu.restrict (continues_append es nulls) hj hu.le (Nat.le_refl i))

end

end DwarfScope.Stream

namespace DwarfScope

theorem Entry.setAll_eq (e : Entry) (attrs : List (Attr × AttrValue)) :
    ∃ attrs', e.setAll attrs = { e with attrs := attrs' } := by
  induction attrs generalizing e with
  | nil => exact ⟨e.attrs, rfl⟩
  | cons a rest ih => exact ih (e.set a.1 a.2)

namespace Stream.Builder

variable {b : Builder} {tag : Tag}

theorem push_entries (b : Builder) (htag : tag ≠ .null) (children : Bool)
    (attrs : List (Attr × AttrValue)) :
    ∃ e, (b.push tag children attrs).entries = b.entries.push e ∧ e.isNull = false ∧
      e.children = children ∧ e.offset = b.nextOffset ∧ e.tag = tag ∧
      e.unit = (b.push tag children attrs).unit := by
  let bare : Entry := {
    offset := b.nextOffset, tag, children
    unit := if tag = .compileUnit then b.nextOffset else b.unit }
  obtain ⟨attrs', hset⟩ := bare.setAll_eq attrs
  refine ⟨{ bare with attrs := attrs' }, ?_, ?_, rfl, rfl, rfl, rfl⟩
  · rw [← hset]
    rfl
  · simpa [Entry.isNull, bare] using htag

/-! ## One list of trees -/

theorem Built.unclosed (h : b.Built) : Unclosed ⟨b.entries⟩ 0 b.depth b.entries.size := by
  induction h with
  | empty => exact .flat (.nil 0)
  | @begin b tag attrs htag _ ih =>
    obtain ⟨e, hentries, hnull, hchildren, -, -, -⟩ := b.push_entries htag true attrs
    have hopen :=
      (ih.continues (continues_push b.entries e)).begin (entryAt_push_self _ hnull) hchildren
    show Unclosed ⟨(b.push tag true attrs).entries⟩ 0 (b.depth + 1)
      (b.push tag true attrs).entries.size
    rw [hentries, Array.size_push]
    exact hopen
  | @leaf b tag attrs htag _ ih =>
    obtain ⟨e, hentries, hnull, hchildren, -, -, -⟩ := b.push_entries htag false attrs
    have hleaf :=
      (ih.continues (continues_push b.entries e)).leaf (entryAt_push_self _ hnull) hchildren
    show Unclosed ⟨(b.push tag false attrs).entries⟩ 0 b.depth (b.push tag false attrs).entries.size
    rw [hentries, Array.size_push]
    exact hleaf
  | @close b _ ih =>
    unfold Builder.close
    split
    · exact ih
    · rename_i depth hdepth
      rw [hdepth] at ih
      have hnull : NullAt ⟨b.entries.push .null⟩ b.entries.size := ⟨.null, by simp, rfl⟩
      have hclosed := (ih.continues (continues_push b.entries .null)).close hnull
      show Unclosed ⟨b.entries.push .null⟩ 0 depth (b.entries.push .null).size
      rw [Array.size_push]
      exact hclosed

theorem Built.forest (h : b.Built) : ∃ js, b.build.Siblings 0 js b.build.size := by
  have hsize : b.build.size = b.entries.size + b.depth := by simp [build, Stream.size]
  rw [hsize]
  apply (h.unclosed.continues (continues_append b.entries (Array.replicate b.depth .null))).closeAll
  intro i hi
  refine ⟨.null, ?_, rfl⟩
  rw [Array.getElem?_append_right (by omega), Nat.add_sub_cancel_left]
  simp [hi]

/-! ## Compile units -/

/-- The entries know their compile unit, and the builder knows that of the next entry. -/
structure Tracks (b : Builder) : Prop where
  entries : Tracked ⟨b.entries⟩
  unit : ∀ j u, LastUnit ⟨b.entries⟩ b.entries.size j u → b.unit = u.offset

theorem Tracks.push (h : b.Tracks) (htag : tag ≠ .null) (children : Bool)
    (attrs : List (Attr × AttrValue)) : (b.push tag children attrs).Tracks := by
  obtain ⟨e, hentries, hnull, -, hoffset, rfl, hunit⟩ := b.push_entries htag children attrs
  have hcontinues := continues_push b.entries e
  have hself := entryAt_push_self b.entries hnull
  -- The unit of the new entry is the last one up to it.
  have hlast : ∀ i j u, b.entries.size ≤ i → LastUnit ⟨b.entries.push e⟩ i j u →
      e.unit = u.offset := by
    intro i j u hi hu
    have hbuilder : (b.push e.tag children attrs).unit =
        if e.tag = .compileUnit then b.nextOffset else b.unit := rfl
    rw [hunit, hbuilder]
    rcases hu.entryAt.of_push with hj | ⟨rfl, rfl⟩
    · have hlt : j < b.entries.size := hj.lt_size
      rw [if_neg (hu.last _ e hlt hi hself)]
      exact h.unit j u (hu.restrict hcontinues hj (Nat.le_of_lt hlt) hi)
    · rw [if_pos hu.tag, hoffset]
  constructor
  · rw [hentries]
    intro i x j u hx hu
    rcases hx.of_push with hx | ⟨rfl, rfl⟩
    · have hi : i < b.entries.size := hx.lt_size
      rcases hu.entryAt.of_push with hj | ⟨rfl, -⟩
      · exact h.entries i x j u hx (hu.restrict hcontinues hj hu.le (Nat.le_refl i))
      · have := hu.le
        omega
    · exact hlast _ j u (Nat.le_refl _) hu
  · rw [hentries, Array.size_push, ← hunit]
    intro j u hu
    exact hlast _ j u (Nat.le_succ _) hu

theorem Tracks.close (h : b.Tracks) : b.close.Tracks := by
  unfold Builder.close
  split
  · exact h
  · have hnulls : ∀ e ∈ #[Entry.null], e.isNull = true := by simp [Entry.null, Entry.isNull]
    constructor
    · show Tracked ⟨b.entries.push .null⟩
      rw [Array.push_eq_append]
      exact h.entries.append hnulls
    · show ∀ j u, LastUnit ⟨b.entries.push .null⟩ (b.entries.push .null).size j u →
          b.unit = u.offset
      rw [Array.size_push]
      intro j u hu
      rw [Array.push_eq_append] at hu
      have hj := hu.entryAt.of_append hnulls
      exact h.unit j u
        (hu.restrict (continues_append _ _) hj (Nat.le_of_lt hj.lt_size) (Nat.le_succ _))

theorem Built.tracks (h : b.Built) : b.Tracks := by
  induction h with
  | empty =>
    constructor
    · intro i e j u he
      exact absurd he.lt_size (Nat.not_lt_zero i)
    · intro j u hu
      exact absurd hu.entryAt.lt_size (Nat.not_lt_zero j)
  | begin tag attrs htag _ ih =>
    have h := ih.push htag true attrs
    exact ⟨h.entries, h.unit⟩
  | leaf tag attrs htag _ ih => exact ih.push htag false attrs
  | close _ ih => exact ih.close

theorem Built.tracked (h : b.Built) : b.build.Tracked :=
  h.tracks.entries.append (by simp [Entry.null, Entry.isNull])

theorem Built.tidy (h : b.Built) : b.build.Tidy :=
  ⟨h.forest, h.addressed List.prefix_rfl, h.tracked⟩

end Stream.Builder
end DwarfScope
