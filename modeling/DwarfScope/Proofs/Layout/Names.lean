import DwarfScope.Proofs.Effect
import DwarfScope.Proofs.Layout.Steps

/-!
# Names of layouts

A variable is described by the name of its type, and any other entry by its own. But every qualifier
that is taken off gives the name of the entry directly beneath it, also to a member.
-/

namespace DwarfScope.Stream

open Effect

variable {s : Stream} {i j k n : Nat} {js : List Nat} {e t : Entry} {c d : Cursor} {name : String}

/-! ## Names on the way to a type -/

def nameAt? (s : Stream) (i : Nat) : Option String := (s.entries[i]?).bind Entry.name?

/-- The name of the entry directly beneath the qualifier at an index. -/
def beneathName? (s : Stream) (i : Nat) : Option String := do
  let t ← s.entries[i]?
  if t.tag.isQualifier then s.nameAt? (← s.typeIndex? t) else none

/-- The last name that an entry directly beneath a qualifier gives, from the type entry at an index
on. There are fewer than `n` layers. -/
def givenWithin? (s : Stream) : Nat → Nat → Option String
  | 0, _ => none
  | n + 1, i =>
    if s.entries[i]?.any Entry.isLayer then
      (s.beneath? i).bind (s.givenWithin? n) <|> s.beneathName? i
    else none

/-- The last name that an entry directly beneath a qualifier gives, from the type entry at an index
on. There is room for as many layers as in a resolution. -/
def given? (s : Stream) (i : Nat) : Option String := s.givenWithin? (2 * s.size + 2) i

theorem nameAt?_eq (he : s.EntryAt i e) : s.nameAt? i = e.name? := by
  simp [nameAt?, he.get]

theorem givenWithin?_bottom (he : s.EntryAt i e) (h : e.isLayer = false) :
    s.givenWithin? n i = none := by
  cases n with
  | zero => rfl
  | succ n => simp [givenWithin?, he.get, h]

theorem givenWithin?_layer (he : s.EntryAt i e) (h : e.isLayer = true)
    (hj : s.beneath? i = some j) :
    s.givenWithin? (n + 1) i = (s.givenWithin? n j <|> s.beneathName? i) := by
  simp [givenWithin?, he.get, h, hj]

/-! ## The name of a layout -/

/-- A layer that is taken off leaves the name as it is, unless it is a qualifier with a named entry
directly beneath it. -/
theorem nextLayer_name {l l' : Layers} (hl : s.EntryAt i l.entry)
    (h : s.nextLayer l c = .ok (some l') d) :
    l.entry.isLayer = true ∧ ∃ j, s.beneath? i = some j ∧ s.EntryAt j l'.entry ∧
      l'.name = (s.beneathName? i <|> l.name) := by
  unfold nextLayer at h
  split at h
  · cases h
  rename_i hr
  have hr : l.entry.typeRef?.isSome = true := by simpa [Option.isSome_iff_ne_none] using hr
  split at h
  · rename_i hq
    obtain ⟨u, c₁, hfirst, h⟩ := bind_eq_ok.mp h
    obtain ⟨x, hx, hu, rfl⟩ := typeEntry_eq_ok.mp hfirst
    obtain ⟨t, c₂, hsecond, h⟩ := bind_eq_ok.mp h
    obtain ⟨j, hj, ht, rfl⟩ := typeEntry_eq_ok.mp hsecond
    obtain ⟨⟨⟩, -⟩ := pure_eq_ok.mp h
    refine ⟨by simp [Entry.isLayer, hr, hq], j, ?_, ht, ?_⟩
    · simp [beneath?, hl.get, hx, hq, hu.get, hj]
    · simp [beneathName?, hl.get, hq, hx, nameAt?_eq hu]
  rename_i hq
  have hbeneath : s.beneath? i = s.typeIndex? l.entry := by simp [beneath?, hl.get, hq]
  have hname : s.beneathName? i = none := by simp [beneathName?, hl.get, hq]
  simp only [hbeneath, hname]
  split at h
  · rename_i hk
    obtain ⟨t, c₁, hnext, h⟩ := bind_eq_ok.mp h
    obtain ⟨j, hj, ht, rfl⟩ := typeEntry_eq_ok.mp hnext
    obtain ⟨⟨⟩, -⟩ := pure_eq_ok.mp h
    exact ⟨by simp [Entry.isLayer, hr, hk], j, hj, ht, rfl⟩
  split at h
  · rename_i hk
    obtain ⟨ranges, c₁, -, h⟩ := bind_eq_ok.mp h
    obtain ⟨t, c₂, hnext, h⟩ := bind_eq_ok.mp h
    obtain ⟨j, hj, ht, rfl⟩ := typeEntry_eq_ok.mp hnext
    obtain ⟨⟨⟩, -⟩ := pure_eq_ok.mp h
    exact ⟨by simp [Entry.isLayer, hr, hk], j, hj, ht, rfl⟩
  · cases h

theorem isLayer_of_nextLayer_none {l : Layers} (h : s.nextLayer l c = .ok none d) :
    l.entry.isLayer = false := by
  cases hlayer : l.entry.isLayer with
  | false => rfl
  | true =>
    obtain ⟨hr, hkind⟩ := Entry.kind_of_isLayer hlayer
    unfold nextLayer at h
    rw [if_neg (by simpa [Option.isSome_iff_ne_none] using hr)] at h
    split at h
    · obtain ⟨_, _, -, h⟩ := bind_eq_ok.mp h
      obtain ⟨_, _, -, ⟨⟩⟩ := bind_eq_ok.mp h
    split at h
    · obtain ⟨_, _, -, ⟨⟩⟩ := bind_eq_ok.mp h
    split at h
    · obtain ⟨_, _, -, h⟩ := bind_eq_ok.mp h
      obtain ⟨_, _, -, ⟨⟩⟩ := bind_eq_ok.mp h
    · simp_all

theorem unwrap_name {l l' : Layers} (hl : s.EntryAt i l.entry)
    (h : s.unwrap n l c = .ok l' d) : l'.name = (s.givenWithin? n i <|> l.name) := by
  induction n generalizing i l c with
  | zero => cases h
  | succ n ih =>
    unfold unwrap at h
    obtain ⟨next, c', hnext, h⟩ := bind_eq_ok.mp h
    cases next with
    | none =>
      obtain ⟨rfl, -⟩ := pure_eq_ok.mp h
      rw [givenWithin?_bottom hl (isLayer_of_nextLayer_none hnext)]
      rfl
    | some l₁ =>
      obtain ⟨hlayer, j, hj, hl₁, hname⟩ := nextLayer_name hl hnext
      rw [ih hl₁ h, hname, givenWithin?_layer hl hlayer hj]
      simp [Option.or_assoc]

theorem firstLayer_name {l : Layers} (h : s.firstLayer e c = .ok l d) :
    ∃ i, s.Begins e i ∧ s.EntryAt i l.entry ∧
      l.name = ((if e.tag.isVariable then none else e.name?) <|> s.nameAt? i) := by
  have hreached := reached_firstLayer (s := s) e c
  rcases hi : (s.typeIndex? e).bind s.startAt? with _ | ⟨ranges, i⟩
  · rw [hi] at hreached
    obtain ⟨err, herr⟩ := hreached
    rw [Walk.outcome_eq_ok.mpr h] at herr
    cases herr
  rw [hi] at hreached
  obtain ⟨name, t, ht, hok⟩ := hreached
  rw [Walk.outcome_eq_ok.mpr h] at hok
  cases hok
  refine ⟨i, ⟨ranges, hi⟩, ht, ?_⟩
  rw [nameAt?_eq ht]
  unfold firstLayer at h
  obtain ⟨first, c', -, h⟩ := bind_eq_ok.mp h
  split at h
  · obtain ⟨_, _, -, h⟩ := bind_eq_ok.mp h
    obtain ⟨_, _, -, h⟩ := bind_eq_ok.mp h
    obtain ⟨⟨⟩, -⟩ := pure_eq_ok.mp h
    rfl
  · obtain ⟨⟨⟩, -⟩ := pure_eq_ok.mp h
    rfl

theorem frame_name {l : Layers} {f : Layout} (h : frame e l = .ok f) :
    f.name = (l.name <|> e.name?).getD "" := by
  have hframe := toOption_frame e l
  rw [h] at hframe
  obtain ⟨_, -, rfl⟩ := Option.map_eq_some_iff.mp hframe.symm
  rfl

/-- The name that a qualifier gives counts first, then that of an entry that is no variable, then
that of the type entry where the layers begin, and last that of a variable. -/
theorem resolve_name {l : Layout} (h : s.resolve e c = .ok l d) :
    ∃ i, s.Begins e i ∧ l.name = ((s.given? i <|>
      ((if e.tag.isVariable then none else e.name?) <|> s.nameAt? i)) <|> e.name?).getD "" := by
  obtain ⟨-, layers, c', f, harrive, hf, -, hl⟩ :=
    outcome_resolveWithin_eq_ok.mp (Walk.outcome_eq_ok.mpr h)
  obtain ⟨first, c₁, hfirst, hunwrap⟩ := bind_eq_ok.mp (Walk.outcome_eq_ok.mp harrive)
  obtain ⟨i, hi, hat, hname⟩ := firstLayer_name hfirst
  refine ⟨i, hi, ?_⟩
  rw [hl]
  show f.name = _
  rw [frame_name hf, unwrap_name hat hunwrap, hname]
  rfl

end DwarfScope.Stream
