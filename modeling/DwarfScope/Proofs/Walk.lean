import DwarfScope.Proofs.Effect
import DwarfScope.Stream.Basic

/-!
# Outcomes of walks

What a walk answers and where it leaves the cursor, or why it answers nothing. Nobody reads the
cursor of a walk that failed, so an outcome does not have one.
-/

namespace DwarfScope

open Effect (FailsWith)

/-- The cursor that has just passed the entry at an index. -/
def Cursor.behind (i : Nat) : Cursor := { position := i + 1, last := some i }

@[simp] theorem Cursor.behind_position (i : Nat) : (Cursor.behind i).position = i + 1 := rfl

namespace Walk

variable {α β : Type}

def outcome (w : Walk α) (c : Cursor) : Except Failure (α × Cursor) :=
  match w c with
  | .ok a d => .ok (a, d)
  | .error f _ => .error f

theorem outcome_eq_ok {w : Walk α} {c d : Cursor} {a : α} :
    w.outcome c = .ok (a, d) ↔ w c = .ok a d := by
  unfold outcome
  cases w c <;> simp

theorem outcome_eq_error {w : Walk α} {c : Cursor} {f : Failure} :
    w.outcome c = .error f ↔ ∃ d, w c = .error f d := by
  unfold outcome
  cases w c <;> simp

/-! ## Steps of a walk -/

@[simp] theorem outcome_pure (a : α) (c : Cursor) : outcome (pure a) c = .ok (a, c) := rfl

@[simp] theorem outcome_throw (e : Error) (c : Cursor) :
    outcome (throw e : Walk α) c = .error e := rfl

@[simp] theorem outcome_set (d c : Cursor) : outcome (set d) c = .ok ((), d) := rfl

@[simp] theorem outcome_ofExcept (x : Except Error α) (c : Cursor) :
    outcome (ofExcept x) c = (x.map (·, c)).mapError .reported := by
  cases x <;> rfl

theorem outcome_bind (w : Walk α) (f : α → Walk β) (c : Cursor) :
    outcome (w >>= f) c = (outcome w c).bind fun p => outcome (f p.1) p.2 := by
  simp only [outcome, bind, EStateM.bind]
  cases w c <;> rfl

theorem outcome_bind_of_ok {w : Walk α} {f : α → Walk β} {c d : Cursor} {a : α}
    (h : w.outcome c = .ok (a, d)) : outcome (w >>= f) c = outcome (f a) d := by
  rw [outcome_bind, h]
  rfl

theorem outcome_bind_of_error {w : Walk α} {f : α → Walk β} {c : Cursor} {e : Failure}
    (h : w.outcome c = .error e) : outcome (w >>= f) c = .error e := by
  rw [outcome_bind, h]
  rfl

theorem toOption_outcome_bind (w : Walk α) (f : α → Walk β) (c : Cursor) :
    (outcome (w >>= f) c).toOption =
      (outcome w c).toOption.bind fun p => (outcome (f p.1) p.2).toOption := by
  rw [outcome_bind]
  cases outcome w c <;> rfl

/-! ## Walks that end -/

def Endless (w : Walk α) (c : Cursor) : Prop := w.outcome c = .error .endless

/-- From wherever it starts, the walk answers or reports an error. -/
def Ends (w : Walk α) : Prop := ∀ c, ¬ w.Endless c

theorem endless_bind {w : Walk α} {f : α → Walk β} {c : Cursor} :
    Endless (w >>= f) c ↔
      w.Endless c ∨ ∃ a d, w.outcome c = .ok (a, d) ∧ (f a).Endless d := by
  unfold Endless
  rcases ho : w.outcome c with e | ⟨a, d⟩
  · rw [outcome_bind_of_error ho]
    simp
  · rw [outcome_bind_of_ok ho]
    constructor
    · intro h
      exact .inr ⟨a, d, rfl, h⟩
    · rintro (he | ⟨_, _, ⟨⟩, h⟩)
      · cases he
      · exact h

/-! ## What a walk may fail with -/

variable {P : Failure → Prop} {w : Walk α}

theorem failsWith_iff : FailsWith P w ↔ ∀ c f, w.outcome c = .error f → P f := by
  constructor
  · intro h c f hf
    obtain ⟨d, hd⟩ := outcome_eq_error.mp hf
    exact h c f d hd
  · intro h c f d hd
    exact h c f (outcome_eq_error.mpr ⟨d, hd⟩)

theorem Ends.of_failsWith (h : FailsWith (· ≠ .endless) w) : w.Ends :=
  fun c ho => failsWith_iff.mp h c .endless ho rfl

/-! ## Walks with more room -/

/-- The second walk does what the first one does, unless that one finds no end. -/
def ExtendedBy (w w' : Walk α) : Prop :=
  ∀ c, w.Endless c ∨ w.outcome c = w'.outcome c

theorem ExtendedBy.refl (w : Walk α) : w.ExtendedBy w := fun _ => .inr rfl

theorem ExtendedBy.endless (w : Walk α) : ExtendedBy (throwThe Failure .endless) w :=
  fun _ => .inl rfl

theorem ExtendedBy.trans {w w' w'' : Walk α} (h : w.ExtendedBy w') (h' : w'.ExtendedBy w'') :
    w.ExtendedBy w'' := by
  intro c
  rcases h c with hend | heq
  · exact .inl hend
  · rcases h' c with hend | heq'
    · exact .inl (heq.trans hend)
    · exact .inr (heq.trans heq')

theorem ExtendedBy.bind {w w' : Walk α} {f f' : α → Walk β} (hw : w.ExtendedBy w')
    (hf : ∀ a, (f a).ExtendedBy (f' a)) : ExtendedBy (w >>= f) (w' >>= f') := by
  intro c
  rcases hw c with ho | heq
  · exact .inl (outcome_bind_of_error ho)
  · rcases ho : w.outcome c with e | ⟨a, d⟩
    · right
      rw [outcome_bind_of_error ho, outcome_bind_of_error (heq ▸ ho)]
    · rcases hf a d with hend | heq'
      · exact .inl (endless_bind.mpr (.inr ⟨a, d, ho, hend⟩))
      · right
        rw [outcome_bind_of_ok ho, outcome_bind_of_ok (heq ▸ ho), heq']

theorem ExtendedBy.ok {w w' : Walk α} {c : Cursor} {r : α × Cursor} (h : w.ExtendedBy w')
    (hr : w.outcome c = .ok r) : w'.outcome c = .ok r := by
  rcases h c with ho | heq
  · cases hr.symm.trans ho
  · rw [← heq, hr]

end Walk

/-! ## Moving the cursor -/

namespace Stream

variable {s : Stream} {c : Cursor} {e : Entry}

theorem outcome_next_some (h : s.entries[c.position]? = some e) :
    Walk.outcome s.next c = .ok (some e, .behind c.position) := by
  simp [Walk.outcome, next, h, Cursor.behind]

theorem outcome_next_none (h : s.entries[c.position]? = none) :
    Walk.outcome s.next c = .ok (none, { c with last := none }) := by
  simp [Walk.outcome, next, h]

theorem outcome_seek {offset i : Nat} (h : s.locate? offset = some i) :
    (s.seek offset).outcome c = .ok ((), { position := i }) := by
  simp [Walk.outcome, seek, h]

theorem outcome_seek_none {offset : Nat} (h : s.locate? offset = none) :
    (s.seek offset).outcome c = .error (Error.noSuchOffset offset) := by
  simp [Walk.outcome, seek, h]

theorem next_failsWith {P : Failure → Prop} : FailsWith P s.next := by
  refine .of_ok fun c => ?_
  unfold next
  split
  · exact ⟨_, _, rfl⟩
  · exact ⟨_, _, rfl⟩

theorem seek_failsWith {P : Failure → Prop} {offset : Nat} (h : P (Error.noSuchOffset offset)) :
    FailsWith P (s.seek offset) := by
  intro c f d hf
  unfold seek at hf
  split at hf
  · cases hf
    exact h
  · cases hf

theorem skipChildren_failsWith {P : Failure → Prop} : FailsWith P s.skipChildren := by
  refine .of_ok fun c => ?_
  unfold skipChildren
  split
  · split
    · exact ⟨_, _, rfl⟩
    · exact ⟨_, _, rfl⟩
  · exact ⟨_, _, rfl⟩

/-- The position behind the entry at an index and everything below it. -/
def afterItem (s : Stream) (i : Nat) (e : Entry) : Nat :=
  if e.children then s.closing 0 (s.size - (i + 1)) (i + 1) else i + 1

theorem outcome_skipChildren {i : Nat} (h : s.entries[i]? = some e) :
    Walk.outcome s.skipChildren (.behind i) = .ok ((), { position := s.afterItem i e }) := by
  cases hc : e.children <;>
    simp [Walk.outcome, skipChildren, afterItem, ahead, h, hc, Cursor.behind]

end Stream
end DwarfScope
