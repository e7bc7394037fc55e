import DwarfScope.Proofs.Layout.Layers

/-!
# The parts of a resolution

A resolution arrives at the entry that is left when all layers are off, gives the layout its frame,
and fills in the members. With more room it does the same, unless it ran out of room before.
-/

namespace DwarfScope.Stream

variable {s : Stream} {i j k n limit depth : Nat} {e t : Entry} {c d : Cursor}

/-! ## One level -/

def arrive (s : Stream) (limit : Nat) (e : Entry) : Walk Layers := do
  s.unwrap limit (← s.firstLayer e)

def frame (e : Entry) (l : Layers) : Except Error Layout :=
  if l.entry.tag.isType then do
    let name := (l.name <|> e.name?).getD ""
    let typeBits ← typeBits name l.entry
    let bitSize := if e.tag = .member then e.bitSize?.getD typeBits else typeBits
    let structOffset ← structOffset name e typeBits bitSize
    return { name, bitSize, structOffset
             arrayRanges := if l.ranges.isEmpty then [0] else l.ranges }
  else throw (.layout (.notAType e.label l.entry.tag))

def members (s : Stream) (limit depth : Nat) (name : String) (t : Entry) : Walk (List Layout) :=
  if t.tag.isAggregate && t.children then
    s.membersFrom name (s.resolveWithin limit depth) limit
  else pure []

theorem resolveWithin_succ (he : e.isNull = false) :
    s.resolveWithin limit (depth + 1) e = do
      let l ← s.arrive limit e
      let f ← ofExcept (frame e l)
      return { f with members := ← s.members limit depth f.name l.entry } := by
  rw [resolveWithin, arrive, if_neg (by simp [he])]
  simp only [pure_bind, bind_assoc]
  congr! 4 with first l
  cases ht : l.entry.tag.isType with
  | false =>
    simp only [frame, ht]
    rfl
  | true =>
    simp only [frame, ht, if_true, members]
    rcases typeBits _ l.entry with err | bits
    · rfl
    change (((ofExcept (structOffset _ e bits _) : Walk Nat) >>= _ : Walk Layout)) =
      ((ofExcept ((structOffset _ e bits _ >>= _ : Except Error Layout)) : Walk Layout) >>= _)
    rcases structOffset _ e bits _ with err | offset
    · rfl
    cases l.entry.tag.isAggregate && l.entry.children <;> rfl

theorem outcome_resolveWithin_null (he : e.isNull = true) :
    (s.resolveWithin limit (depth + 1) e).outcome c =
      .error (Error.layout (.notAType e.label e.tag)) := by
  rw [resolveWithin, if_pos he]
  exact Walk.outcome_bind_of_error (Walk.outcome_throw _ _)

theorem outcome_resolveWithin_frame {l : Layers} {f : Layout} (he : e.isNull = false)
    (h : (s.arrive limit e).outcome c = .ok (l, d)) (hf : frame e l = .ok f) :
    (s.resolveWithin limit (depth + 1) e).outcome c =
      ((s.members limit depth f.name l.entry).outcome d).map fun (ms, d) =>
        ({ f with members := ms }, d) := by
  rw [resolveWithin_succ he, Walk.outcome_bind_of_ok h, hf,
    Walk.outcome_bind_of_ok (Walk.outcome_ofExcept _ _), Walk.outcome_bind]
  rfl

theorem outcome_resolveWithin_misfit {l : Layers} {err : Error} (he : e.isNull = false)
    (h : (s.arrive limit e).outcome c = .ok (l, d)) (hf : frame e l = .error err) :
    (s.resolveWithin limit (depth + 1) e).outcome c = .error err := by
  rw [resolveWithin_succ he, Walk.outcome_bind_of_ok h, hf]
  exact Walk.outcome_bind_of_error (Walk.outcome_ofExcept _ _)

theorem outcome_resolveWithin_lost {err : Failure} (he : e.isNull = false)
    (h : (s.arrive limit e).outcome c = .error err) :
    (s.resolveWithin limit (depth + 1) e).outcome c = .error err := by
  rw [resolveWithin_succ he, Walk.outcome_bind_of_error h]

theorem outcome_resolveWithin_eq_ok {l : Layout} :
    (s.resolveWithin limit (depth + 1) e).outcome c = .ok (l, d) ↔
      e.isNull = false ∧ ∃ layers d' f, (s.arrive limit e).outcome c = .ok (layers, d') ∧
        frame e layers = .ok f ∧
        (s.members limit depth f.name layers.entry).outcome d' = .ok (l.members, d) ∧
        l = { f with members := l.members } := by
  cases he : e.isNull with
  | true => simp [outcome_resolveWithin_null he]
  | false =>
    rcases ha : (s.arrive limit e).outcome c with err | ⟨layers, d'⟩
    · simp [outcome_resolveWithin_lost he ha]
    rcases hf : frame e layers with err | f
    · simp [outcome_resolveWithin_misfit he ha hf, hf]
    rw [outcome_resolveWithin_frame he ha hf]
    rcases hm : (s.members limit depth f.name layers.entry).outcome d' with err | ⟨ms, d₂⟩
    · simp [Except.map, hf, hm]
    constructor
    · intro h
      obtain ⟨rfl, rfl⟩ : { f with members := ms } = l ∧ d₂ = d := by simpa [Except.map] using h
      exact ⟨rfl, layers, d', f, rfl, hf, hm, rfl⟩
    · rintro ⟨-, _, _, _, ⟨⟩, hf', hm', hl⟩
      obtain rfl : f = _ := Except.ok.inj (hf.symm.trans hf')
      rw [hm] at hm'
      obtain ⟨rfl, rfl⟩ : ms = l.members ∧ d₂ = d := by simpa using hm'
      rw [hl]
      rfl

/-! ## Names do not matter -/

theorem typeBits_name (name name' : String) (t : Entry) :
    (typeBits name t).toOption = (typeBits name' t).toOption := by
  unfold typeBits
  rcases t.bitSize? with _ | bits
  · rcases t.byteSize? with _ | bytes
    · rfl
    · dsimp only
      rcases word? (8 * bytes) with _ | bits <;> rfl
  · rfl

/-- The width of an entry and where it starts, if its type entry gives them. -/
def place? (e t : Entry) : Option (Nat × Nat) := do
  if t.tag.isType then
    let typeBits ← (typeBits "" t).toOption
    let bitSize := if e.tag = .member then e.bitSize?.getD typeBits else typeBits
    return (bitSize, ← structOffset? e typeBits bitSize)
  else none

theorem toOption_frame (e : Entry) (l : Layers) :
    (frame e l).toOption = (place? e l.entry).map fun (bitSize, structOffset) => {
      name := (l.name <|> e.name?).getD "", bitSize, structOffset
      arrayRanges := if l.ranges.isEmpty then [0] else l.ranges } := by
  unfold frame place?
  cases l.entry.tag.isType with
  | false => rfl
  | true =>
    simp only [if_true]
    rw [typeBits_name "" ((l.name <|> e.name?).getD "")]
    rcases typeBits ((l.name <|> e.name?).getD "") l.entry with err | bits
    · rfl
    simp only [bind, Except.bind, Except.toOption, Option.bind, structOffset]
    rcases structOffset? e bits _ with _ | offset <;> rfl

theorem membersFrom_name (resolve : Entry → Walk Layout) (name name' : String) (n : Nat)
    (c : Cursor) :
    ((s.membersFrom name resolve n).outcome c).toOption =
      ((s.membersFrom name' resolve n).outcome c).toOption := by
  induction n generalizing c with
  | zero => rfl
  | succ n ih =>
    unfold membersFrom
    rw [Walk.toOption_outcome_bind, Walk.toOption_outcome_bind]
    refine Option.bind_congr fun ⟨e?, d⟩ _ => ?_
    rcases e? with _ | e
    · rfl
    dsimp only
    split
    · rfl
    split
    · simp only [Walk.toOption_outcome_bind, ih]
    · simp only [Walk.toOption_outcome_bind, ih]

theorem members_name (limit depth : Nat) (name name' : String) (t : Entry) (c : Cursor) :
    ((s.members limit depth name t).outcome c).toOption =
      ((s.members limit depth name' t).outcome c).toOption := by
  unfold members
  split
  · exact membersFrom_name _ name name' limit c
  · rfl

/-- The type entry gives the entry a size and a place. -/
def Fits (e t : Entry) : Prop := ∃ f, frame e { name := none, ranges := [], entry := t } = .ok f

theorem exists_frame {l : Layers} :
    (∃ f, frame e l = .ok f) ↔ (place? e l.entry).isSome = true := by
  have h : (frame e l).toOption.isSome = (place? e l.entry).isSome := by
    rw [toOption_frame, Option.isSome_map]
  rw [← h]
  cases frame e l <;> simp [Except.toOption]

theorem fits_iff : Fits e t ↔ (place? e t).isSome = true := exists_frame

theorem fits_of_frame {l : Layers} {f : Layout} (h : frame e l = .ok f) : Fits e l.entry :=
  fits_iff.mpr (exists_frame.mp ⟨f, h⟩)

theorem frame_of_fits {l : Layers} (h : Fits e l.entry) : ∃ f, frame e l = .ok f :=
  exists_frame.mpr (fits_iff.mp h)

theorem typeBits_error {name : String} {err : Error} (h : typeBits name t = .error err) :
    err = .layout (.missingSize name) ∨ err = .layout (.overflow name) := by
  revert h
  unfold typeBits
  rcases t.bitSize? with _ | bits
  · rcases t.byteSize? with _ | bytes
    · rintro ⟨⟩
      exact .inl rfl
    · dsimp only
      rcases word? (8 * bytes) with _ | bits
      · rintro ⟨⟩
        exact .inr rfl
      · rintro ⟨⟩
  · rintro ⟨⟩

theorem structOffset_error {name : String} {bits bitSize : Nat} {err : Error}
    (h : structOffset name e bits bitSize = .error err) : err = .layout (.overflow name) := by
  revert h
  unfold structOffset
  rcases structOffset? e bits bitSize with _ | offset
  · rintro ⟨⟩
    rfl
  · rintro ⟨⟩

theorem frame_error {l : Layers} {err : Error} (h : frame e l = .error err) :
    err = .layout (.notAType e.label l.entry.tag) ∨
      ∃ name, err = .layout (.missingSize name) ∨ err = .layout (.overflow name) := by
  unfold frame at h
  split at h
  · right
    dsimp only at h
    rcases hbits : typeBits ((l.name <|> e.name?).getD "") l.entry with err' | bits
    · rw [hbits] at h
      cases h
      exact ⟨_, typeBits_error hbits⟩
    rw [hbits] at h
    simp only [bind, Except.bind] at h
    rcases hoffset : structOffset ((l.name <|> e.name?).getD "") e bits _ with err' | offset
    · rw [hoffset] at h
      cases h
      exact ⟨_, .inr (structOffset_error hoffset)⟩
    · rw [hoffset] at h
      cases h
  · cases h
    exact .inl rfl

/-! ## The cursor -/

theorem outcome_arrive_cursor (e : Entry) (c d : Cursor) :
    (s.arrive limit e).outcome c = (s.arrive limit e).outcome d := by
  unfold arrive
  rw [Walk.outcome_bind, Walk.outcome_bind, outcome_firstLayer_cursor e c d]

theorem outcome_resolveWithin_cursor (e : Entry) (c d : Cursor) :
    (s.resolveWithin limit depth e).outcome c = (s.resolveWithin limit depth e).outcome d := by
  cases depth with
  | zero => rfl
  | succ depth =>
    cases he : e.isNull with
    | true => rw [outcome_resolveWithin_null he, outcome_resolveWithin_null he]
    | false =>
      rw [resolveWithin_succ he, Walk.outcome_bind, Walk.outcome_bind, outcome_arrive_cursor e c d]

/-! ## Where a resolution arrives -/

/-- The dimensions of an entry and the index of the entry that carries its size. -/
def reach? (s : Stream) (e : Entry) : Option (List Nat × Nat) := do
  let (ranges, i) ← s.startAt? (← s.typeIndex? e)
  let (more, k) ← s.ending? i
  return (ranges ++ more, k)

theorem reached_arrive (hlimit : s.size ≤ limit) (e : Entry) (c : Cursor) :
    s.Reached [] (s.reach? e) ((s.arrive limit e).outcome c) := by
  have hfirst := reached_firstLayer (s := s) e c
  unfold arrive reach?
  rcases hi : s.typeIndex? e with _ | i
  · rw [hi] at hfirst
    obtain ⟨err, herr⟩ := hfirst
    exact ⟨err, Walk.outcome_bind_of_error herr⟩
  rw [hi, Option.bind_some] at hfirst
  rcases hj : s.startAt? i with _ | ⟨ranges, j⟩
  · rw [hj] at hfirst
    obtain ⟨err, herr⟩ := hfirst
    simp only [Option.bind_eq_bind, Option.bind_some, hj, Option.bind_none]
    exact ⟨err, Walk.outcome_bind_of_error herr⟩
  rw [hj] at hfirst
  obtain ⟨name, t, ht, hok⟩ := hfirst
  rw [Walk.outcome_bind_of_ok hok]
  have hrest := reached_unwrap limit { name, ranges, entry := t } j ht
  rw [endingWithin_eq hlimit] at hrest
  simp only [Option.bind_eq_bind, Option.bind_some, hj]
  rcases hk : s.ending? j with _ | ⟨more, k⟩
  · rw [hk] at hrest
    exact hrest
  · rw [hk] at hrest
    simpa [Reached] using hrest

/-! ## More room -/

variable {limit' depth' m : Nat}

theorem unwrap_extendedBy (h : n ≤ m) (l : Layers) :
    (s.unwrap n l).ExtendedBy (s.unwrap m l) := by
  induction n generalizing m l with
  | zero => exact .endless _
  | succ n ih =>
    obtain ⟨m, rfl⟩ : ∃ m', m = m' + 1 := ⟨m - 1, by omega⟩
    unfold unwrap
    refine .bind (.refl _) fun l? => ?_
    rcases l? with _ | l
    · exact .refl _
    · exact ih (by omega) l

theorem arrive_extendedBy (h : limit ≤ limit') (e : Entry) :
    (s.arrive limit e).ExtendedBy (s.arrive limit' e) :=
  .bind (.refl _) fun l => unwrap_extendedBy h l

theorem membersFrom_extendedBy {resolve resolve' : Entry → Walk Layout}
    (hr : ∀ e, (resolve e).ExtendedBy (resolve' e)) (h : n ≤ m) (name : String) :
    (s.membersFrom name resolve n).ExtendedBy (s.membersFrom name resolve' m) := by
  induction n generalizing m with
  | zero => exact .endless _
  | succ n ih =>
    obtain ⟨m, rfl⟩ : ∃ m', m = m' + 1 := ⟨m - 1, by omega⟩
    have ih := ih (m := m) (by omega)
    unfold membersFrom
    refine .bind (.refl _) fun e? => ?_
    rcases e? with _ | e
    · exact .refl _
    dsimp only
    split
    · exact .refl _
    split
    · exact .bind (hr e) fun _ => .bind (.refl _) fun _ => .bind (.refl _) fun _ =>
        .bind (.refl _) fun _ => .bind ih fun _ => .refl _
    · exact .bind (.refl _) fun _ => ih

/-- More room changes no outcome but one for lack of room. -/
theorem resolveWithin_extendedBy (hl : limit ≤ limit') (hd : depth ≤ depth') (e : Entry) :
    (s.resolveWithin limit depth e).ExtendedBy (s.resolveWithin limit' depth' e) := by
  induction depth generalizing depth' e with
  | zero => exact .endless _
  | succ depth ih =>
    obtain ⟨depth', rfl⟩ : ∃ m, depth' = m + 1 := ⟨depth' - 1, by omega⟩
    cases he : e.isNull with
    | true =>
      intro c
      rw [outcome_resolveWithin_null he, outcome_resolveWithin_null he]
      exact .inr rfl
    | false =>
      rw [resolveWithin_succ he, resolveWithin_succ he]
      refine .bind (arrive_extendedBy hl e) fun l => .bind (.refl _) fun f =>
        .bind ?_ fun _ => .refl _
      unfold members
      split
      · exact membersFrom_extendedBy (fun e => ih (by omega) e) hl f.name
      · exact .refl _

/-! ## One member after the other -/

variable {name : String} {resolve : Entry → Walk Layout}

theorem outcome_membersFrom_end (h : s.entries[c.position]? = none) :
    (s.membersFrom name resolve (n + 1)).outcome c = .error (Error.layout (.truncated name)) := by
  rw [membersFrom, Walk.outcome_bind_of_ok (outcome_next_none h)]
  rfl

theorem outcome_membersFrom_null (h : s.NullAt c.position) :
    (s.membersFrom name resolve (n + 1)).outcome c = .ok ([], .behind c.position) := by
  obtain ⟨e, he, hn⟩ := h
  rw [membersFrom, Walk.outcome_bind_of_ok (outcome_next_some he)]
  simp [hn]

theorem outcome_membersFrom_other (he : s.EntryAt c.position e) (ht : e.tag ≠ .member) :
    (s.membersFrom name resolve (n + 1)).outcome c =
      (s.membersFrom name resolve n).outcome { position := s.afterItem c.position e } := by
  rw [membersFrom, Walk.outcome_bind_of_ok (outcome_next_some he.get)]
  simp only [he.nonnull, ht, if_false, Bool.false_eq_true]
  rw [Walk.outcome_bind_of_ok (outcome_skipChildren he.get)]

theorem outcome_membersFrom_error {err : Failure} (he : s.EntryAt c.position e)
    (ht : e.tag = .member) (hr : (resolve e).outcome (.behind c.position) = .error err) :
    (s.membersFrom name resolve (n + 1)).outcome c = .error err := by
  rw [membersFrom, Walk.outcome_bind_of_ok (outcome_next_some he.get)]
  simp only [he.nonnull, ht, if_false, if_true, Bool.false_eq_true]
  exact Walk.outcome_bind_of_error hr

theorem outcome_membersFrom_lost {l : Layout} (ha : s.locate? e.offset = none)
    (he : s.EntryAt c.position e) (ht : e.tag = .member)
    (hr : (resolve e).outcome (.behind c.position) = .ok (l, d)) :
    (s.membersFrom name resolve (n + 1)).outcome c = .error (Error.noSuchOffset e.offset) := by
  rw [membersFrom, Walk.outcome_bind_of_ok (outcome_next_some he.get)]
  simp only [he.nonnull, ht, if_false, if_true, Bool.false_eq_true]
  rw [Walk.outcome_bind_of_ok hr, Walk.outcome_bind_of_error (outcome_seek_none ha)]

theorem outcome_membersFrom_sought {u : Entry} {l : Layout} (ha : s.locate? e.offset = some k)
    (hu : s.entries[k]? = some u) (he : s.EntryAt c.position e) (ht : e.tag = .member)
    (hr : (resolve e).outcome (.behind c.position) = .ok (l, d)) :
    (s.membersFrom name resolve (n + 1)).outcome c =
      ((s.membersFrom name resolve n).outcome { position := s.afterItem k u }).map
        fun (ls, d) => (l :: ls, d) := by
  rw [membersFrom, Walk.outcome_bind_of_ok (outcome_next_some he.get)]
  simp only [he.nonnull, ht, if_false, if_true, Bool.false_eq_true]
  rw [Walk.outcome_bind_of_ok hr, Walk.outcome_bind_of_ok (outcome_seek ha),
    Walk.outcome_bind_of_ok (outcome_next_some (c := { position := k }) hu),
    Walk.outcome_bind_of_ok (outcome_skipChildren hu), Walk.outcome_bind]
  rcases (s.membersFrom name resolve n).outcome _ with err | ⟨ls, d⟩ <;> rfl

theorem outcome_membersFrom_member {l : Layout} (ha : s.locate? e.offset = some c.position)
    (he : s.EntryAt c.position e) (ht : e.tag = .member)
    (hr : (resolve e).outcome (.behind c.position) = .ok (l, d)) :
    (s.membersFrom name resolve (n + 1)).outcome c =
      ((s.membersFrom name resolve n).outcome { position := s.afterItem c.position e }).map
        fun (ls, d) => (l :: ls, d) :=
  outcome_membersFrom_sought ha he.get he ht hr

end DwarfScope.Stream
