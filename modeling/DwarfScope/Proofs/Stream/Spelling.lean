import DwarfScope.Proofs.Spelling
import DwarfScope.Proofs.Stream.Offsets
import DwarfScope.Stream.Lookup

/-!
# Spellings of a stream

Two streams whose entries are the same but for their spelling cannot be told apart by a walk. From
every cursor, both runs pass the same entries and find entries that are the same but for their
spelling, or they fail with the same error.
-/

namespace DwarfScope

/-! ## Walks side by side -/

namespace Walk

variable {α β α' β' : Type} {Q : α → α' → Prop} {R : β → β' → Prop}

/-- Related answers or the same failure, with the cursor at the same place. -/
inductive Agree (R : β → β' → Prop) :
    EStateM.Result Failure Cursor β → EStateM.Result Failure Cursor β' → Prop
  | ok {b : β} {b' : β'} (c : Cursor) : R b b' → Agree R (.ok b c) (.ok b' c)
  | error (err : Failure) (c : Cursor) : Agree R (.error err c) (.error err c)

/-- From every cursor, the walks end in the same way. -/
def Mirrors (R : β → β' → Prop) (w : Walk β) (w' : Walk β') : Prop := ∀ c, Agree R (w c) (w' c)

theorem Mirrors.pure {b : β} {b' : β'} (h : R b b') :
    Mirrors R (pure b : Walk β) (pure b' : Walk β') := fun c => .ok c h

theorem Mirrors.throw (err : Error) : Mirrors R (throw err : Walk β) (throw err : Walk β') :=
  fun c => .error err c

theorem Mirrors.diverge :
    Mirrors R (throwThe Failure .endless : Walk β) (throwThe Failure .endless : Walk β') :=
  fun c => .error .endless c

theorem Mirrors.refl (w : Walk β) : Mirrors Eq w w := by
  intro c
  cases w c with
  | ok b d => exact .ok d rfl
  | error err d => exact .error err d

theorem Mirrors.eq {w w' : Walk β} (h : Mirrors Eq w w') : w' = w := by
  funext c
  have hc := h c
  generalize w c = r at hc ⊢
  generalize w' c = r' at hc ⊢
  cases hc with
  | ok d hb => rw [hb]
  | error => rfl

theorem Mirrors.bind {w : Walk α} {w' : Walk α'} {f : α → Walk β} {f' : α' → Walk β'}
    (hw : Mirrors Q w w') (hf : ∀ a a', Q a a' → Mirrors R (f a) (f' a')) :
    Mirrors R (w >>= f) (w' >>= f') := by
  intro c
  have hc := hw c
  simp only [Bind.bind, EStateM.bind]
  revert hc
  generalize w c = r
  generalize w' c = r'
  rintro (⟨d, ha⟩ | ⟨err, d⟩)
  · exact hf _ _ ha d
  · exact .error err d

theorem Mirrors.after (w : Walk α) {f : α → Walk β} {f' : α → Walk β'}
    (hf : ∀ a, Mirrors R (f a) (f' a)) : Mirrors R (w >>= f) (w >>= f') :=
  .bind (.refl w) fun a _ h => h ▸ hf a

theorem Mirrors.map {w : Walk α} {w' : Walk α'} {f : α → β} {f' : α' → β'} (hw : Mirrors Q w w')
    (hf : ∀ a a', Q a a' → R (f a) (f' a')) :
    Mirrors R (do return f (← w)) (do return f' (← w')) :=
  .bind hw fun a a' h => .pure (hf a a' h)

end Walk

/-! ## Streams -/

namespace Stream

open Walk

/-- The streams have the same entries in the same order, each in any spelling. -/
def Respelled (s s' : Stream) : Prop :=
  List.Forall₂ Entry.Respelled s.entries.toList s'.entries.toList

variable {s s' : Stream} {i n offset : Nat} {e e' : Entry} {name : String}

namespace Respelled

theorem symm (h : s.Respelled s') : s'.Respelled s := h.flip.imp fun _ _ he => he.symm

theorem size_eq (h : s.Respelled s') : s'.size = s.size := by
  simpa [size] using h.length_eq.symm

theorem get (h : s.Respelled s') (i : Nat) :
    Option.Rel Entry.Respelled s.entries[i]? s'.entries[i]? := by
  rw [← Array.getElem?_toList, ← Array.getElem?_toList]
  unfold Respelled at h
  generalize s.entries.toList = es at h ⊢
  generalize s'.entries.toList = es' at h ⊢
  induction h generalizing i with
  | nil => exact .none
  | cons he _ ih =>
    cases i with
    | zero => exact .some he
    | succ i => exact ih i

theorem read {α : Type} (h : s.Respelled s') (i : Nat) {read read' : Entry → Option α}
    (hread : ∀ e e', e.Respelled e' → read' e' = read e) :
    (s'.entries[i]?).bind read' = (s.entries[i]?).bind read := by
  rcases rel_cases (h.get i) with ⟨hi, hi'⟩ | ⟨e, e', hi, hi', hre⟩
  · rw [hi, hi']
    rfl
  · rw [hi, hi']
    exact hread e e' hre

theorem exists_get (h : s.Respelled s') (he : s.entries[i]? = some e) :
    ∃ e', s'.entries[i]? = some e' ∧ e.Respelled e' := by
  rcases rel_cases (h.get i) with ⟨hi, -⟩ | ⟨u, e', hi, hi', hre⟩
  · simp [he] at hi
  · obtain rfl : e = u := Option.some.inj (he.symm.trans hi)
    exact ⟨e', hi', hre⟩

theorem entryAt (h : s.Respelled s') (he : s.EntryAt i e) :
    ∃ e', s'.EntryAt i e' ∧ e.Respelled e' := by
  obtain ⟨e', he', hre⟩ := h.exists_get he.get
  exact ⟨e', ⟨he', hre.isNull.trans he.nonnull⟩, hre⟩

theorem indexOf?_le (h : s.Respelled s') (hi : s.indexOf? offset = some i) :
    s'.indexOf? offset = some i := by
  rw [indexOf?_eq_some_iff] at hi ⊢
  obtain ⟨⟨e, he, hoffset⟩, hlast⟩ := hi
  obtain ⟨e', he', hre⟩ := h.entryAt he
  refine ⟨⟨e', he', hre.offset.trans hoffset⟩, fun k u hu hoff => ?_⟩
  obtain ⟨v, hv, hrv⟩ := h.symm.entryAt hu
  exact hlast k v hv (hrv.offset.trans hoff)

theorem indexOf?_eq (h : s.Respelled s') (offset : Nat) :
    s'.indexOf? offset = s.indexOf? offset := by
  ext i
  exact ⟨h.symm.indexOf?_le, h.indexOf?_le⟩

theorem locate?_eq (h : s.Respelled s') (offset : Nat) : s'.locate? offset = s.locate? offset := by
  unfold locate?
  rw [h.indexOf?_eq]

theorem closing_eq (h : s.Respelled s') (depth n p : Nat) :
    s'.closing depth n p = s.closing depth n p := by
  induction n generalizing depth p with
  | zero => rfl
  | succ n ih =>
    unfold closing
    rcases rel_cases (h.get p) with ⟨hp, hp'⟩ | ⟨e, e', hp, hp', hre⟩
    · simp only [hp, hp']
    · simp only [hp, hp', hre.isNull, hre.children, ih]

/-! ## Moving the cursor -/

theorem next (h : s.Respelled s') : Mirrors (Option.Rel Entry.Respelled) s.next s'.next := by
  intro c
  unfold Stream.next
  rcases rel_cases (h.get c.position) with ⟨hp, hp'⟩ | ⟨e, e', hp, hp', hre⟩
  · rw [hp, hp']
    exact .ok _ .none
  · rw [hp, hp']
    exact .ok _ (.some hre)

theorem seek_eq (h : s.Respelled s') (offset : Nat) : s'.seek offset = s.seek offset := by
  unfold Stream.seek
  rw [h.locate?_eq]

theorem skipChildren_eq (h : s.Respelled s') : s'.skipChildren = s.skipChildren := by
  funext c
  unfold Stream.skipChildren ahead
  rcases c.last with _ | i
  · rfl
  simp only [Option.bind_some, h.closing_eq, h.size_eq]
  rcases rel_cases (h.get i) with ⟨hi, hi'⟩ | ⟨e, e', hi, hi', hre⟩
  · rw [hi, hi']
  · simp only [hi, hi', hre.children]

/-! ## Lookups -/

theorem indexOfName?_eq (h : s.Respelled s') (name : String) (n p : Nat) :
    s'.indexOfName? name n p = s.indexOfName? name n p := by
  induction n generalizing p with
  | zero => rfl
  | succ n ih =>
    unfold indexOfName?
    rcases rel_cases (h.get p) with ⟨hp, hp'⟩ | ⟨e, e', hp, hp', hre⟩
    · simp only [hp, hp']
    · simp only [hp, hp', hre.name?, ih]

theorem findAhead (h : s.Respelled s') (name : String) :
    Mirrors (Option.Rel Entry.Respelled) (s.findAhead name) (s'.findAhead name) := by
  intro c
  unfold Stream.findAhead ahead
  rw [h.indexOfName?_eq, h.size_eq]
  rcases s.indexOfName? name (s.size - c.position) c.position with _ | i
  · exact .ok _ .none
  · exact .ok _ (h.get i)

theorem enclosingUnit (h : s.Respelled s') (he : e.Respelled e') :
    Mirrors (Option.Rel Entry.Respelled) (s.enclosingUnit e) (s'.enclosingUnit e') := by
  unfold Stream.enclosingUnit
  rw [h.seek_eq, h.seek_eq, he.tag, he.unit, he.offset]
  split
  · exact .pure (.some he)
  refine .after _ fun _ => .bind h.next fun unit unit' hunit => ?_
  refine .after _ fun _ => .bind h.next fun _ _ _ => .pure ?_
  cases hunit with
  | none => exact .none
  | some hre =>
    simp only [Option.filter_some, hre.tag]
    split
    · exact .some hre
    · exact .none

theorem findEntry (h : s.Respelled s') (name : String) :
    Mirrors (fun r r' => r.1.Respelled r'.1 ∧ Option.Rel Entry.Respelled r.2 r'.2)
      (s.findEntry name) (s'.findEntry name) := by
  have hunit : ∀ e e', e.Respelled e' →
      Mirrors (fun r r' => r.1.Respelled r'.1 ∧ Option.Rel Entry.Respelled r.2 r'.2)
        (do return (e, ← s.enclosingUnit e)) (do return (e', ← s'.enclosingUnit e')) :=
    fun e e' he => .map (h.enclosingUnit he) fun _ _ hu => ⟨he, hu⟩
  unfold Stream.findEntry
  refine .bind (h.findAhead name) fun found found' hfound => ?_
  cases hfound with
  | some he => simpa using hunit _ _ he
  | none =>
    refine .after _ fun _ => .bind (h.findAhead name) fun found found' hfound => ?_
    cases hfound with
    | some he => simpa using hunit _ _ he
    | none => exact .throw _

theorem unitsFrom (h : s.Respelled s') (n : Nat) :
    Mirrors (List.Forall₂ Entry.Respelled) (s.unitsFrom n) (s'.unitsFrom n) := by
  induction n with
  | zero => exact .pure .nil
  | succ n ih =>
    refine .bind h.next fun found found' hfound => ?_
    cases hfound with
    | none => exact .pure .nil
    | some he =>
      dsimp only
      rw [he.tag, h.skipChildren_eq]
      split
      · exact .after _ fun _ => .map ih fun _ _ hrest => .cons he hrest
      · exact ih

theorem compileUnits (h : s.Respelled s') :
    Mirrors (List.Forall₂ Entry.Respelled) s.compileUnits s'.compileUnits := by
  unfold Stream.compileUnits
  rw [h.size_eq]
  exact .after _ fun _ => h.unitsFrom _

theorem childrenFrom (h : s.Respelled s') {p : Entry → Bool}
    (hp : ∀ e e', e.Respelled e' → p e' = p e) (label : String) (n : Nat) :
    Mirrors (List.Forall₂ Entry.Respelled) (s.childrenFrom label p n)
      (s'.childrenFrom label p n) := by
  induction n with
  | zero => exact .throw _
  | succ n ih =>
    refine .bind h.next fun found found' hfound => ?_
    cases hfound with
    | none => exact .throw _
    | @some e e' he =>
      dsimp only
      rw [he.isNull, h.skipChildren_eq]
      split
      · exact .pure .nil
      refine .after _ fun _ => .bind ih fun others others' hothers => ?_
      rw [hp e e' he]
      split
      · exact .pure (.cons he hothers)
      · exact .pure hothers

theorem children (h : s.Respelled s') (he : e.Respelled e') {p : Entry → Bool}
    (hp : ∀ e e', e.Respelled e' → p e' = p e) :
    Mirrors (List.Forall₂ Entry.Respelled) (s.children e p) (s'.children e' p) := by
  unfold Stream.children
  rw [h.seek_eq, he.offset, he.children, he.label, h.size_eq]
  refine .after _ fun _ => .bind h.next fun _ _ _ => ?_
  split
  · exact h.childrenFrom hp _ _
  · exact .pure .nil

end Respelled
end Stream
end DwarfScope
