import DwarfScope.Entry.Basic
import Mathlib.Data.List.Forall2
import Mathlib.Data.List.Nodup
import Mathlib.Data.List.Perm.Basic
import Mathlib.Data.Option.Basic

/-!
# Spellings of an entry

The same entry can be written down in more than one way. The order of its attributes says nothing,
and a number from 0 on that fits in 63 bits can be signed or unsigned. No accessor of an entry tells
one spelling from the other.
-/

namespace DwarfScope

theorem rel_cases {α β : Type} {R : α → β → Prop} {a? : Option α} {b? : Option β}
    (h : Option.Rel R a? b?) :
    a? = none ∧ b? = none ∨ ∃ a b, a? = some a ∧ b? = some b ∧ R a b := by
  cases h with
  | none => exact .inl ⟨rfl, rfl⟩
  | some hab => exact .inr ⟨_, _, rfl, rfl, hab⟩

/-! ## Values -/

/-- Equal values, or a number that is unsigned on one side and signed on the other. -/
inductive AttrValue.Respelled : AttrValue → AttrValue → Prop
  | refl (v : AttrValue) : Respelled v v
  | signed {n : UInt64} {m : Int64} : (n.toNat : Int) = m.toInt → Respelled (udata n) (sdata m)
  | unsigned {n : UInt64} {m : Int64} : (n.toNat : Int) = m.toInt → Respelled (sdata m) (udata n)

namespace AttrValue.Respelled

variable {v v' : AttrValue}

theorem symm (h : Respelled v v') : Respelled v' v := by
  cases h with
  | refl => exact .refl _
  | signed h => exact .unsigned h
  | unsigned h => exact .signed h

theorem unsigned?_eq (h : Respelled v v') : v'.unsigned? = v.unsigned? := by
  cases h with
  | refl => rfl
  | signed h => simp [unsigned?, ← h]
  | unsigned h => simp [unsigned?, ← h]

theorem toNat_lt_signedLimit {n : UInt64} {m : Int64} (h : (n.toNat : Int) = m.toInt) :
    n.toNat < Binary.signedLimit := by
  have := m.toInt_lt
  simp only [Binary.signedLimit]
  omega

theorem signed?_eq (h : Respelled v v') : v'.signed? = v.signed? := by
  cases h with
  | refl => rfl
  | signed h => simp [signed?, toNat_lt_signedLimit h, h]
  | unsigned h => simp [signed?, toNat_lt_signedLimit h, h]

theorem text?_eq (h : Respelled v v') : v'.text? = v.text? := by
  cases h <;> rfl

theorem ref?_eq (h : Respelled v v') : v'.ref? = v.ref? := by
  cases h <;> rfl

end AttrValue.Respelled

/-! ## Entries -/

namespace Entry

/-- The entries have the same attributes, each of them once, in any order and with their numbers in
any spelling. They agree on everything else. -/
structure Respelled (e e' : Entry) : Prop where
  offset : e'.offset = e.offset
  tag : e'.tag = e.tag
  children : e'.children = e.children
  unit : e'.unit = e.unit
  once : (e.attrs.map Prod.fst).Nodup
  attrs : ∃ attrs, e.attrs.Perm attrs ∧
    List.Forall₂ (fun a b => b.1 = a.1 ∧ a.2.Respelled b.2) attrs e'.attrs

theorem map_eq_of_forall₂ {α β γ : Type} {R : α → β → Prop} {f : α → γ} {g : β → γ} {as : List α}
    {bs : List β} (h : List.Forall₂ R as bs) (hfg : ∀ a b, R a b → g b = f a) :
    bs.map g = as.map f := by
  induction h with
  | nil => rfl
  | cons hab _ ih => rw [List.map_cons, List.map_cons, hfg _ _ hab, ih]

theorem lookup_eq_some_iff {attrs : List (Attr × AttrValue)} {attr : Attr} {value : AttrValue}
    (h : (attrs.map Prod.fst).Nodup) : attrs.lookup attr = some value ↔ (attr, value) ∈ attrs := by
  induction attrs with
  | nil => simp
  | cons first rest ih =>
    obtain ⟨a, v⟩ := first
    obtain ⟨hfirst, hrest⟩ : a ∉ rest.map Prod.fst ∧ (rest.map Prod.fst).Nodup := by
      simpa using h
    rw [List.lookup_cons]
    by_cases ha : attr = a
    · subst ha
      have hnot : (attr, value) ∉ rest := fun hmem => hfirst (List.mem_map_of_mem hmem)
      simp [hnot, eq_comm]
    · simp [ha, beq_false_of_ne ha, ih hrest]

theorem lookup_perm {attrs attrs' : List (Attr × AttrValue)} (h : attrs.Perm attrs')
    (honce : (attrs.map Prod.fst).Nodup) (attr : Attr) :
    attrs'.lookup attr = attrs.lookup attr := by
  ext value
  rw [lookup_eq_some_iff honce, lookup_eq_some_iff ((h.map Prod.fst).nodup_iff.mp honce), h.mem_iff]

theorem lookup_respelled {attrs attrs' : List (Attr × AttrValue)}
    (h : List.Forall₂ (fun a b => b.1 = a.1 ∧ a.2.Respelled b.2) attrs attrs') (attr : Attr) :
    Option.Rel AttrValue.Respelled (attrs.lookup attr) (attrs'.lookup attr) := by
  induction h with
  | nil => exact .none
  | @cons a b _ _ hab _ ih =>
    obtain ⟨key, value⟩ := a
    obtain ⟨key', value'⟩ := b
    obtain ⟨rfl, hvalue⟩ := hab
    rw [List.lookup_cons, List.lookup_cons]
    cases attr == key' with
    | true => exact .some hvalue
    | false => exact ih

namespace Respelled

variable {e e' : Entry}

theorem refl (h : (e.attrs.map Prod.fst).Nodup) : e.Respelled e :=
  ⟨rfl, rfl, rfl, rfl, h, e.attrs, .refl _, List.forall₂_same.mpr fun _ _ => ⟨rfl, .refl _⟩⟩

theorem symm (h : e.Respelled e') : e'.Respelled e := by
  obtain ⟨attrs, hperm, hattrs⟩ := h.attrs
  have hkeys : e'.attrs.map Prod.fst = attrs.map Prod.fst :=
    map_eq_of_forall₂ hattrs fun _ _ hab => hab.1
  obtain ⟨respelled, hrespelled, hback⟩ := List.perm_comp_forall₂ hperm hattrs
  refine ⟨h.offset.symm, h.tag.symm, h.children.symm, h.unit.symm, ?_, respelled, hback.symm, ?_⟩
  · rw [hkeys]
    exact (hperm.map Prod.fst).nodup_iff.mp h.once
  · exact hrespelled.flip.imp fun _ _ hab => ⟨hab.1.symm, hab.2.symm⟩

theorem attr? (h : e.Respelled e') (attr : Attr) :
    Option.Rel AttrValue.Respelled (e.attr? attr) (e'.attr? attr) := by
  obtain ⟨attrs, hperm, hattrs⟩ := h.attrs
  rw [Entry.attr?, ← lookup_perm hperm h.once]
  exact lookup_respelled hattrs attr

theorem read {α : Type} (h : e.Respelled e') (attr : Attr) {read : AttrValue → Option α}
    (hread : ∀ v v', AttrValue.Respelled v v' → read v' = read v) :
    (e'.attr? attr).bind read = (e.attr? attr).bind read := by
  rcases rel_cases (h.attr? attr) with ⟨hv, hv'⟩ | ⟨v, v', hv, hv', hre⟩
  · rw [hv, hv']
  · rw [hv, hv']
    exact hread v v' hre

theorem unsigned? (h : e.Respelled e') (attr : Attr) :
    (e'.attr? attr).bind AttrValue.unsigned? = (e.attr? attr).bind AttrValue.unsigned? :=
  h.read attr fun _ _ hv => hv.unsigned?_eq

theorem signed? (h : e.Respelled e') (attr : Attr) :
    (e'.attr? attr).bind AttrValue.signed? = (e.attr? attr).bind AttrValue.signed? :=
  h.read attr fun _ _ hv => hv.signed?_eq

theorem name? (h : e.Respelled e') : e'.name? = e.name? := h.read .name fun _ _ hv => hv.text?_eq

theorem typeRef? (h : e.Respelled e') : e'.typeRef? = e.typeRef? :=
  h.read .type fun _ _ hv => hv.ref?_eq

theorem byteSize? (h : e.Respelled e') : e'.byteSize? = e.byteSize? := h.unsigned? .byteSize

theorem bitSize? (h : e.Respelled e') : e'.bitSize? = e.bitSize? := h.unsigned? .bitSize

theorem memberLocation? (h : e.Respelled e') : e'.memberLocation? = e.memberLocation? :=
  h.unsigned? .dataMemberLocation

theorem dataBitOffset? (h : e.Respelled e') : e'.dataBitOffset? = e.dataBitOffset? :=
  h.unsigned? .dataBitOffset

theorem bitOffset? (h : e.Respelled e') : e'.bitOffset? = e.bitOffset? := h.unsigned? .bitOffset

theorem elementCount? (h : e.Respelled e') : e'.elementCount? = e.elementCount? := by
  unfold Entry.elementCount?
  rw [h.unsigned? .count, h.signed? .upperBound, h.signed? .lowerBound]

theorem lowPc? (h : e.Respelled e') : e'.lowPc? = e.lowPc? := by
  unfold Entry.lowPc?
  rcases rel_cases (h.attr? .lowPc) with ⟨hv, hv'⟩ | ⟨v, v', hv, hv', hre⟩
  · rw [hv, hv']
  · rw [hv, hv']
    cases hre with
    | refl => rfl
    | signed h => exact (AttrValue.Respelled.signed h).unsigned?_eq
    | unsigned h => exact (AttrValue.Respelled.unsigned h).unsigned?_eq

theorem location? (h : e.Respelled e') : e'.location? = e.location? := by
  unfold Entry.location?
  rcases rel_cases (h.attr? .location) with ⟨hv, hv'⟩ | ⟨v, v', hv, hv', hre⟩
  · rw [hv, hv']
  · rw [hv, hv']
    cases hre <;> rfl

theorem isNull (h : e.Respelled e') : e'.isNull = e.isNull := by
  rw [Entry.isNull, Entry.isNull, h.tag]

theorem label (h : e.Respelled e') : e'.label = e.label := by
  unfold Entry.label
  rw [h.name?, h.tag, h.offset]

theorem isExplorable (h : e.Respelled e') : e'.isExplorable = e.isExplorable := by
  unfold Entry.isExplorable
  rw [h.name?, h.tag]

end Respelled
end Entry
end DwarfScope
