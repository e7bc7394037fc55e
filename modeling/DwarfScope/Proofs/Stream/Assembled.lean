import DwarfScope.Proofs.Stream.Forest

/-!
# Surplus null entries

A builder may be given null entries of its own. Each of them closes the innermost open list, if
there is one, and the builder does not take notice of it. So in the end there may be more null
entries than lists, but no list stays open.
-/

namespace DwarfScope.Stream

variable {s t : Stream} {i d n p q : Nat} {e : Entry} {es : Array Entry}

theorem Closed.continues (h : s.Closed i) (ht : s.Continues t) : t.Closed i := by
  obtain ⟨js, r, hjs, hr⟩ := h
  exact ⟨js, r, hjs.continues ht, hr.continues ht⟩

theorem Unclosed.le (h : s.Unclosed p d q) : p ≤ q := by
  induction h with
  | flat h => exact h.le
  | inside h _ _ _ ih =>
    have := h.le
    omega

/-- Before the place `p` no list is open, and behind it so many are. -/
structure Settled (s : Stream) (p d : Nat) : Prop where
  before : ∀ i e, i < p → s.EntryAt i e → e.children = true → s.Closed (i + 1)
  behind : s.Unclosed p d s.size

namespace Settled

theorem closed (h : s.Settled p 0) (he : s.EntryAt i e) (hc : e.children = true) :
    s.Closed (i + 1) := by
  rcases Nat.lt_or_ge i p with hlt | hle
  · exact h.before i e hlt he hc
  · cases h.behind with
    | flat hjs => exact hjs.closed hle he.lt_size he hc

theorem before_push (h : Settled ⟨es⟩ p d) (e : Entry) :
    ∀ i x, i < p → EntryAt ⟨es.push e⟩ i x → x.children = true → Closed ⟨es.push e⟩ (i + 1) := by
  intro i x hi hx hc
  have hp : p ≤ es.size := h.behind.le
  rcases hx.of_push with hx | ⟨rfl, -⟩
  · exact (h.before i x hi hx hc).continues (continues_push es e)
  · omega

theorem behind_push (h : Settled ⟨es⟩ p d) (e : Entry) : Unclosed ⟨es.push e⟩ p d es.size :=
  h.behind.continues (continues_push es e)

theorem leaf (h : Settled ⟨es⟩ p d) (hn : e.isNull = false) (hc : e.children = false) :
    Settled ⟨es.push e⟩ p d where
  before := h.before_push e
  behind := by
    rw [Stream.size, Array.size_push]
    exact (h.behind_push e).leaf (entryAt_push_self es hn) hc

theorem begin (h : Settled ⟨es⟩ p d) (hn : e.isNull = false) (hc : e.children = true) :
    Settled ⟨es.push e⟩ p (d + 1) where
  before := h.before_push e
  behind := by
    rw [Stream.size, Array.size_push]
    exact (h.behind_push e).begin (entryAt_push_self es hn) hc

/-- A null entry closes the innermost open list. If none is open, all are closed up to here, and
what comes next stands behind the null entry. -/
theorem null (h : Settled ⟨es⟩ p d) (hn : e.isNull = true) :
    ∃ p', Settled ⟨es.push e⟩ p' (d - 1) := by
  have hnull : NullAt ⟨es.push e⟩ es.size := ⟨e, by simp, hn⟩
  have hsize : Stream.size ⟨es.push e⟩ = es.size + 1 := Array.size_push ..
  cases d with
  | zero =>
    refine ⟨es.size + 1, fun i x _ hx hc => ?_, ?_⟩
    · rcases hx.of_push with hx' | ⟨rfl, -⟩
      · exact (h.closed hx' hc).continues (continues_push es e)
      · exact absurd hnull hx.not_null
    · rw [hsize]
      exact .flat (.nil _)
  | succ d =>
    refine ⟨p, h.before_push e, ?_⟩
    rw [hsize]
    exact (h.behind_push e).close hnull

theorem nulls (h : Settled ⟨es⟩ p d) (n : Nat) :
    ∃ p', Settled ⟨es ++ Array.replicate n .null⟩ p' (d - n) := by
  induction n with
  | zero => exact ⟨p, by simpa using h⟩
  | succ n ih =>
    obtain ⟨p', h'⟩ := ih
    rw [Array.replicate_succ, Array.append_push]
    exact h'.null rfl

end Settled

namespace Builder

variable {b : Builder}

theorem push_null_entries (b : Builder) (children : Bool) (attrs : List (Attr × AttrValue)) :
    ∃ e, (b.push .null children attrs).entries = b.entries.push e ∧ e.isNull = true := by
  let bare : Entry := { offset := b.nextOffset, tag := .null, children, unit := b.unit }
  obtain ⟨attrs', hset⟩ := bare.setAll_eq attrs
  refine ⟨{ bare with attrs := attrs' }, ?_, rfl⟩
  rw [← hset]
  rfl

theorem exists_settled_push (h : Settled ⟨b.entries⟩ p d) (tag : Tag) (children : Bool)
    (attrs : List (Attr × AttrValue)) :
    ∃ p' d', d' ≤ d + children.toNat ∧ Settled ⟨(b.push tag children attrs).entries⟩ p' d' := by
  by_cases htag : tag = .null
  · subst htag
    obtain ⟨e, hentries, hnull⟩ := b.push_null_entries children attrs
    obtain ⟨p', h'⟩ := h.null hnull
    rw [hentries]
    exact ⟨p', d - 1, by omega, h'⟩
  · obtain ⟨e, hentries, hnull, hchildren, -⟩ := b.push_entries htag children attrs
    rw [hentries]
    cases children with
    | false => exact ⟨p, d, Nat.le_refl d, h.leaf hnull hchildren⟩
    | true => exact ⟨p, d + 1, Nat.le_refl _, h.begin hnull hchildren⟩

theorem Assembled.exists_settled (h : b.Assembled) :
    ∃ p d, d ≤ b.depth ∧ Settled ⟨b.entries⟩ p d := by
  induction h with
  | empty => exact ⟨0, 0, Nat.le_refl 0, by simp, .flat (.nil 0)⟩
  | begin tag attrs _ ih =>
    obtain ⟨p, d, hd, h⟩ := ih
    obtain ⟨p', d', hd', h'⟩ := exists_settled_push h tag true attrs
    exact ⟨p', d', Nat.le_trans hd' (Nat.succ_le_succ hd), h'⟩
  | leaf tag attrs _ ih =>
    obtain ⟨p, d, hd, h⟩ := ih
    obtain ⟨p', d', hd', h'⟩ := exists_settled_push h tag false attrs
    exact ⟨p', d', Nat.le_trans hd' hd, h'⟩
  | @close b _ ih =>
    obtain ⟨p, d, hd, h⟩ := ih
    unfold Builder.close
    split
    · exact ⟨p, d, hd, h⟩
    · obtain ⟨p', h'⟩ := h.null (e := .null) rfl
      exact ⟨p', d - 1, by dsimp only; omega, h'⟩

theorem Assembled.closed (h : b.Assembled) (he : b.build.EntryAt i e) (hc : e.children = true) :
    b.build.Closed (i + 1) := by
  obtain ⟨p, d, hd, hsettled⟩ := h.exists_settled
  obtain ⟨p', hbuild⟩ := hsettled.nulls b.depth
  rw [Nat.sub_eq_zero_of_le hd] at hbuild
  exact hbuild.closed he hc

end Builder
end DwarfScope.Stream
