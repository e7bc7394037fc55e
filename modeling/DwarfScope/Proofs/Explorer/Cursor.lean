import DwarfScope.Proofs.Explorer.Names

/-!
# The cursor is not seen

A session has one cursor, and every lookup moves it. Yet nobody sees where it stands: all lookups
but the search for a name go to a place of their own before they read, and the search comes to the
same entry from everywhere if the name stands on one entry only.
-/

namespace DwarfScope

open Effect

namespace Walk

variable {α β : Type}

/-- The walk does not look where the cursor stands. -/
def Steady (w : Walk α) : Prop := ∀ c d, w.outcome c = w.outcome d

theorem Steady.bind {w : Walk α} (hw : w.Steady) (f : α → Walk β) : Steady (w >>= f) := by
  intro c d
  rw [outcome_bind, outcome_bind, hw c d]

theorem Steady.answer {w : Walk α} (hw : w.Steady) (c d : Cursor) :
    Effect.answer w c = Effect.answer w d := by
  have hforget : ∀ c, Effect.answer w c = (w.outcome c).map Prod.fst := by
    intro c
    unfold Effect.answer outcome
    cases w c <;> rfl
  rw [hforget c, hforget d, hw c d]

end Walk

namespace Stream

variable {s : Stream} {name : String}

/-! ## Walks -/

theorem seek_steady (offset : Nat) : Walk.Steady (s.seek offset) := by
  intro c d
  cases h : s.locate? offset with
  | none => simp [Walk.outcome, seek, h]
  | some i => rw [outcome_seek h, outcome_seek h]

theorem compileUnits_steady : Walk.Steady s.compileUnits := fun _ _ => rfl

theorem children_steady (parent : Entry) (p : Entry → Bool) : Walk.Steady (s.children parent p) :=
  (seek_steady parent.offset).bind _

theorem resolve_steady (e : Entry) : Walk.Steady (s.resolve e) := outcome_resolveWithin_cursor e

theorem ofEntry_steady (e : Entry) : Walk.Steady (Variable.ofEntry s e) := by
  unfold Variable.ofEntry
  cases e.location? with
  | none => exact fun _ _ => rfl
  | some address => exact (resolve_steady e).bind _

/-- At most one entry has the name. -/
def Once (s : Stream) (name : String) : Prop := ∀ i j, s.Named name i → s.Named name j → i = j

theorem findEntry_steady (h : s.Once name) : Walk.Steady (s.findEntry name) := by
  intro c d
  by_cases hnone : ∀ j, ¬ s.Named name j
  · unfold Walk.outcome
    rw [findEntry_of_none hnone, findEntry_of_none hnone]
  · obtain ⟨i, hi⟩ := Classical.not_forall_not.mp hnone
    have hfound := found_of_once hi fun j hj => h j i hj hi
    obtain ⟨e, he, -⟩ := hi
    unfold Walk.outcome
    rw [findEntry_of_found (hfound c.position) he, findEntry_of_found (hfound d.position) he]

end Stream

/-! ## Moves -/

namespace Navigation

variable {n m : Navigation} {α : Type} {step : Stream → Walk α}

theorem walk_alike (hstep : (step n.stream).Steady) (h : n.shown = m.shown) :
    Alike shown (walk step) n m := by
  have hm : m = { n with cursor := m.cursor } := eq_of_shown_eq h.symm
  have houtcome := hstep n.cursor m.cursor
  rw [hm]
  unfold Walk.outcome at houtcome
  unfold Alike answer after walk
  dsimp only
  cases hn : step n.stream n.cursor with
  | ok a c =>
    cases hd : step n.stream m.cursor with
    | ok b d =>
      simp only [hn, hd, Except.ok.injEq, Prod.mk.injEq] at houtcome
      obtain ⟨rfl, rfl⟩ := houtcome
      exact ⟨rfl, rfl⟩
    | error e d => simp [hn, hd] at houtcome
  | error e c =>
    cases hd : step n.stream m.cursor with
    | ok b d => simp [hn, hd] at houtcome
    | error e' d =>
      simp only [hn, hd, Except.error.injEq] at houtcome
      subst houtcome
      exact ⟨rfl, rfl⟩

theorem walk_blind (hstep : ∀ s, (step s).Steady) : Blind shown (walk step) :=
  fun _ _ h => walk_alike (hstep _) h

theorem walk_next_ok (n : Navigation) : ∃ e m, walk Stream.next n = .ok e m := by
  obtain ⟨d, hd⟩ := n.stream.exists_next n.cursor
  exact ⟨_, _, walk_eq_ok.mpr ⟨d, hd, rfl⟩⟩

theorem passEntry_blind {k : Navigate α} (offset : Nat) (hk : Blind shown k) :
    Blind shown (do walk (·.seek offset); let _ ← walk Stream.next; k) :=
  Blind.bind (walk_blind fun _ => Stream.seek_steady offset) fun _ =>
    Blind.drop (walk_keeps _) walk_next_ok hk

theorem push_blind (level : Level) : Blind shown (push level) := Blind.modify fun _ => rfl

theorem unitNamed_blind (name : String) : Blind shown (unitNamed name) := by
  apply Blind.bind (walk_blind fun _ => Stream.compileUnits_steady)
  intro units
  split
  · exact Blind.throw _
  · exact passEntry_blind _ (Blind.pure _)

theorem entryChild_blind (parent : Entry) (name : String) :
    Blind shown (entryChild parent name) := by
  apply Blind.bind (walk_blind fun _ => Stream.children_steady _ _)
  intro children
  split
  · exact Blind.throw _
  · rename_i e _
    split
    · apply Blind.bind (walk_blind fun _ => Stream.ofEntry_steady e)
      intro v
      exact Blind.get_bind (fun n => Blind.pure _) fun n => rfl
    · exact Blind.bind (walk_blind fun _ => Stream.resolve_steady e) fun _ => Blind.pure _

theorem stepInto_blind (name : String) : Blind shown (stepInto name) := by
  refine Blind.get_bind (fun n => ?_) fun n => rfl
  split
  · exact Blind.bind (unitNamed_blind name) fun _ => push_blind _
  · exact Blind.bind (entryChild_blind _ name) fun _ => push_blind _
  · exact Blind.bind (Blind.ofExcept _) fun _ => push_blind _

theorem back_blind : Blind shown back := by
  refine Blind.get_bind (fun n => ?_) fun n => rfl
  split
  · exact Blind.pure _
  · refine Blind.bind (Blind.modify ?_) fun _ => Blind.get_bind (fun m => ?_) fun m => rfl
    · exact fun _ => rfl
    split
    · exact passEntry_blind _ (Blind.pure _)
    · exact Blind.pure _

theorem reset_blind : Blind shown reset := by
  intro n m h
  rw [eq_of_shown_eq h]
  exact ⟨rfl, rfl⟩

theorem stepToType_blind : Blind shown stepToType := by
  refine Blind.get_bind (fun n => ?_) fun n => rfl
  split
  · exact Blind.bind (push_blind _) fun _ => Blind.pure _
  · exact Blind.pure _
  · exact Blind.throw _

theorem listChildren_blind : Blind shown listChildren := by
  refine Blind.get_bind (fun n => ?_) fun n => rfl
  split
  · exact Blind.bind (walk_blind fun _ => Stream.compileUnits_steady) fun _ => Blind.pure _
  · exact Blind.bind (walk_blind fun _ => Stream.children_steady _ _) fun _ => Blind.pure _
  · exact Blind.pure _

end Navigation

/-! ## Commands -/

def Command.looksUp? : Command → Option String
  | typeOf name | entryInfo name | readVariable (some name) | setVariable (some name) _ => some name
  | _ => none

namespace Explorer

variable {x y : Explorer} {files : Files} {c : Command} {α β : Type}

/-- An explorer without the place of its cursor. Other than in `shown`, the client has its
offset. -/
def withoutCursor (x : Explorer) : Explorer := { x with nav := x.nav.map Navigation.shown }

theorem cases_of_withoutCursor_eq (h : x.withoutCursor = y.withoutCursor) :
    (x.nav = none ∧ y = x) ∨
      ∃ n m, x.nav = some n ∧ n.shown = m.shown ∧ y = { x with nav := some m } := by
  rcases x with ⟨rule, path, nav, memory⟩
  rcases y with ⟨rule', path', nav', memory'⟩
  simp only [withoutCursor, mk.injEq] at h
  obtain ⟨rfl, rfl, hnav, rfl⟩ := h
  cases nav with
  | none =>
    left
    obtain rfl : nav' = none := by simpa using hnav.symm
    exact ⟨rfl, rfl⟩
  | some n =>
    right
    obtain ⟨m, rfl, hshown⟩ : ∃ m, nav' = some m ∧ m.shown = n.shown := by simpa using hnav.symm
    exact ⟨n, m, rfl, hshown.symm, rfl⟩

theorem navigate_alike {step : Navigate α} (h : x.withoutCursor = y.withoutCursor)
    (hstep : ∀ n m, x.nav = some n → n.shown = m.shown → Alike Navigation.shown step n m) :
    Alike withoutCursor (navigate step) x y := by
  obtain ⟨hx, rfl⟩ | ⟨n, m, hn, hshown, rfl⟩ := cases_of_withoutCursor_eq h
  · exact ⟨rfl, rfl⟩
  obtain ⟨hanswer, hafter⟩ := hstep n m hn hshown
  unfold answer at hanswer
  unfold after at hafter
  unfold Alike answer after navigate
  rw [hn]
  dsimp only
  cases hsn : step n with
  | ok a n' =>
    cases hsm : step m with
    | ok b m' =>
      simp only [hsn, hsm] at hanswer hafter
      simp only [withoutCursor, Option.map_some, hafter]
      exact ⟨hanswer, trivial⟩
    | error e m' => simp [hsn, hsm] at hanswer
  | error e n' =>
    cases hsm : step m with
    | ok b m' => simp [hsn, hsm] at hanswer
    | error e' m' =>
      simp only [hsn, hsm] at hanswer hafter
      simp only [withoutCursor, Option.map_some, hafter]
      exact ⟨hanswer, trivial⟩

theorem navigate_blind {step : Navigate α} (hstep : Blind Navigation.shown step) :
    Blind withoutCursor (navigate step) :=
  fun _ _ h => navigate_alike h fun n m _ hshown => hstep n m hshown

theorem walk_blind {step : Stream → Walk α} (hstep : ∀ s, (step s).Steady) :
    Blind withoutCursor (walk step) := navigate_blind (Navigation.walk_blind hstep)

theorem navigate_get_bind {f : Navigation → Explore β} (hf : ∀ n, Blind withoutCursor (f n))
    (hview : ∀ n, f n = f n.shown) : Blind withoutCursor (navigate get >>= f) := by
  intro x y h
  obtain ⟨hx, rfl⟩ | ⟨n, m, hn, hshown, rfl⟩ := cases_of_withoutCursor_eq h
  · exact ⟨rfl, rfl⟩
  have hsame : f n = f m := by rw [hview n, hshown, ← hview m]
  have hgetx : (navigate get >>= f) x = f n x := by
    have hget : navigate get x = .ok n x :=
      navigate_eq_ok.mpr ⟨n, n, hn, get_eq_ok.mpr ⟨rfl, rfl⟩, by rw [← hn]⟩
    simp only [bind, EStateM.bind, hget]
  have hgety : (navigate get >>= f) { x with nav := some m } = f n { x with nav := some m } := by
    rw [hsame]
    rfl
  have hrest := hf n _ _ h
  unfold Alike answer after at hrest ⊢
  rw [hgetx, hgety]
  exact hrest

theorem modifyMemory_blind {f : Explorer → Memory} (hf : ∀ x, f x = f x.withoutCursor) :
    Blind withoutCursor (modify fun x => { x with memory := f x } : Explore Unit) := by
  apply Blind.modify
  intro x
  rw [hf x]
  rcases x with ⟨rule, path, _ | n, memory⟩ <;> rfl

theorem applyOffset_blind (unit : Option Entry) : Blind withoutCursor (applyOffset unit) :=
  modifyMemory_blind fun _ => rfl

theorem currentVariable_blind : Blind withoutCursor currentVariable :=
  navigate_get_bind (fun _ => Blind.bind (applyOffset_blind _) fun _ => Blind.ofExcept _)
    fun _ => rfl

theorem keepVariable_blind (v : Variable) : Blind withoutCursor (keepVariable v) := by
  apply navigate_blind
  apply Blind.modify
  intro n
  unfold Navigation.setCurrentVariable
  dsimp only [Navigation.shown]
  split <;> rfl

theorem writeVariable_blind (v : Variable) : Blind withoutCursor (writeVariable v) :=
  Blind.get_bind
    (fun _ => Blind.bind (Blind.ofExcept _) fun _ => modifyMemory_blind fun _ => rfl) fun _ => rfl

theorem editCurrent_blind (edit : Variable → Except Error Variable) :
    Blind withoutCursor (editCurrent edit) := by
  apply Blind.bind currentVariable_blind
  intro v
  apply Blind.bind (Blind.ofExcept _)
  intro w
  apply Blind.bind (keepVariable_blind w)
  intro _
  exact Blind.bind (writeVariable_blind w) fun _ => Blind.pure _

theorem listUnits_blind : Blind withoutCursor listUnits :=
  Blind.bind (walk_blind fun _ => Stream.compileUnits_steady) fun _ => Blind.pure _

theorem move_blind {step : Navigate Unit} (hstep : Blind Navigation.shown step) :
    Blind withoutCursor (move step) :=
  Blind.bind (navigate_blind hstep) fun _ => navigate_get_bind (fun _ => Blind.pure _) fun _ => rfl

theorem describe_blind : Blind withoutCursor describe := by
  refine navigate_get_bind (fun n => ?_) fun n => rfl
  split
  · exact listUnits_blind
  · exact Blind.pure _
  · exact Blind.pure _
  · exact Blind.pure _

theorem loadDebugFile_blind (path : String) : Blind withoutCursor (loadDebugFile files path) := by
  refine Blind.get_bind (fun x => Blind.bind (Blind.ofExcept _) fun y => ?_) fun _ => rfl
  exact Blind.bind (Blind.set y) fun _ => Blind.pure _

theorem execute_blind (h : c.looksUp? = none) : Blind withoutCursor (execute files c) := by
  cases c with
  | ping => exact Blind.pure _
  | quit => exact Blind.pure _
  | loadDebugFile path => exact loadDebugFile_blind path
  | debugFile =>
    refine Blind.get_bind (fun x => ?_) fun _ => rfl
    split
    · exact Blind.pure _
    · exact Blind.throw _
  | listUnits => exact listUnits_blind
  | listChildren =>
    exact Blind.bind (navigate_blind Navigation.listChildren_blind) fun _ => Blind.pure _
  | stepInto name => exact move_blind (Navigation.stepInto_blind name)
  | back => exact move_blind Navigation.back_blind
  | reset => exact move_blind Navigation.reset_blind
  | path => exact navigate_get_bind (fun _ => Blind.pure _) fun _ => rfl
  | describe => exact describe_blind
  | currentType =>
    exact Blind.bind (navigate_blind Navigation.stepToType_blind) fun _ => Blind.pure _
  | typeOf name => cases h
  | entryInfo name => cases h
  | readVariable name =>
    cases name with
    | some name => cases h
    | none =>
      apply Blind.bind currentVariable_blind
      intro v
      refine Blind.get_bind (fun x => Blind.bind (Blind.ofExcept _) fun w => ?_) fun _ => rfl
      exact Blind.bind (keepVariable_blind w) fun _ => Blind.pure _
  | setVariable name value =>
    cases name with
    | some name => cases h
    | none => exact editCurrent_blind _
  | getField field =>
    refine navigate_get_bind (fun n => Blind.bind (Blind.ofExcept _) fun v => ?_) fun _ => rfl
    exact Blind.bind (Blind.ofExcept _) fun _ => Blind.pure _
  | setField field value => exact editCurrent_blind _
  | setOffset offset =>
    apply Blind.bind
    · apply Blind.modify
      rintro ⟨rule, path, _ | n, memory⟩ <;> rfl
    · intro _
      exact Blind.bind (applyOffset_blind none) fun _ => Blind.pure _

/-! ## Names that stand on one entry -/

theorem findEntry_alike {name : String} (h : x.withoutCursor = y.withoutCursor)
    (honce : ∀ n, x.nav = some n → n.stream.Once name) :
    Alike withoutCursor (walk (·.findEntry name)) x y :=
  navigate_alike h fun n _ hn hshown =>
    Navigation.walk_alike (Stream.findEntry_steady (honce n hn)) hshown

theorem variableNamed_alike {name : String} (h : x.withoutCursor = y.withoutCursor)
    (honce : ∀ n, x.nav = some n → n.stream.Once name) :
    Alike withoutCursor (variableNamed name) x y := by
  apply Alike.bind (findEntry_alike h honce)
  rintro ⟨e, unit⟩
  apply Blind.bind (walk_blind fun _ => Stream.ofEntry_steady e)
  intro v
  apply Blind.bind (applyOffset_blind unit)
  intro _
  exact Blind.get_bind (fun _ => Blind.pure _) fun _ => rfl

/-- The name that a command looks up, if any, stands on at most one entry. -/
def Finds (x : Explorer) (c : Command) : Prop :=
  ∀ n name, x.nav = some n → c.looksUp? = some name → n.stream.Once name

theorem execute_alike (files : Files) (h : x.withoutCursor = y.withoutCursor) (hc : x.Finds c) :
    Alike withoutCursor (execute files c) x y := by
  cases hname : c.looksUp? with
  | none => exact execute_blind hname x y h
  | some name =>
    have honce : ∀ n, x.nav = some n → n.stream.Once name := fun n hn => hc n name hn hname
    unfold Command.looksUp? at hname
    split at hname
    all_goals cases hname
    · apply Alike.bind (findEntry_alike h honce)
      rintro ⟨e, unit⟩
      exact Blind.bind (walk_blind fun _ => Stream.resolve_steady e) fun _ => Blind.pure _
    · apply Alike.bind (findEntry_alike h honce)
      rintro ⟨e, unit⟩
      exact Blind.pure _
    · apply Alike.bind (variableNamed_alike h honce)
      intro v
      exact Blind.get_bind (fun _ => Blind.bind (Blind.ofExcept _) fun _ => Blind.pure _)
        fun _ => rfl
    · apply Alike.bind (variableNamed_alike h honce)
      intro v
      apply Blind.bind (Blind.ofExcept _)
      intro w
      exact Blind.bind (writeVariable_blind w) fun _ => Blind.pure _

/-! ## Sessions -/

/-- The answers to commands carried out one after the other, up to one that never ends. -/
def answers (files : Files) : List Command → Explorer → List Feedback
  | [], _ => []
  | c :: cs, x => match x.run files c with
    | none => []
    | some (fb, y) => fb :: answers files cs y

def moveCursor (move : Cursor → Cursor) (x : Explorer) : Explorer :=
  { x with nav := x.nav.map fun n => { n with cursor := move n.cursor } }

/-- The answers if the cursor is moved before each of the commands. -/
def answersMoving (files : Files) : List ((Cursor → Cursor) × Command) → Explorer → List Feedback
  | [], _ => []
  | (move, c) :: cs, x => match (x.moveCursor move).run files c with
    | none => []
    | some (fb, y) => fb :: answersMoving files cs y

/-- Each name that is looked up on the way stands on at most one entry. -/
def FindsAll (files : Files) : List Command → Explorer → Prop
  | [], _ => True
  | c :: cs, x => x.Finds c ∧ ∀ fb y, x.run files c = some (fb, y) → FindsAll files cs y

theorem run_alike (h : Alike withoutCursor (execute files c) x y) :
    (x.run files c = none ∧ y.run files c = none) ∨
      ∃ fb x' y', x.run files c = some (fb, x') ∧ y.run files c = some (fb, y') ∧
        x'.withoutCursor = y'.withoutCursor := by
  obtain ⟨hanswer, hafter⟩ := h
  unfold answer at hanswer
  unfold after at hafter
  unfold run
  cases hx : execute files c x with
  | ok fb x' =>
    cases hy : execute files c y with
    | ok fb' y' =>
      simp only [hx, hy, Except.ok.injEq] at hanswer hafter
      exact .inr ⟨fb, x', y', rfl, by rw [hanswer], hafter⟩
    | error f' y' => simp [hx, hy] at hanswer
  | error f x' =>
    cases hy : execute files c y with
    | ok fb' y' => simp [hx, hy] at hanswer
    | error f' y' =>
      simp only [hx, hy, Except.error.injEq] at hanswer hafter
      subst hanswer
      cases f with
      | reported e => exact .inr ⟨.error e, x', y', rfl, rfl, hafter⟩
      | endless => exact .inl ⟨rfl, rfl⟩

theorem moveCursor_withoutCursor (move : Cursor → Cursor) (x : Explorer) :
    (x.moveCursor move).withoutCursor = x.withoutCursor := by
  rcases x with ⟨rule, path, _ | n, memory⟩ <;> rfl

theorem answersMoving_eq {ps : List ((Cursor → Cursor) × Command)}
    (h : x.withoutCursor = y.withoutCursor) (hps : FindsAll files (ps.map Prod.snd) x) :
    answersMoving files ps y = answers files (ps.map Prod.snd) x := by
  -- From the first command on the two sessions may differ, but in the cursor only.
  induction ps generalizing x y with
  | nil => rfl
  | cons p ps ih =>
    obtain ⟨move, c⟩ := p
    obtain ⟨hc, hrest⟩ := hps
    have halike := execute_alike files (h.trans (moveCursor_withoutCursor move y).symm) hc
    rcases run_alike halike with ⟨hx, hy⟩ | ⟨fb, x', y', hx, hy, hafter⟩
    · simp only [answersMoving, answers, List.map_cons, hx, hy]
    · simp only [answersMoving, answers, List.map_cons, hx, hy, ih hafter (hrest fb x' hx)]

/-- The place of the cursor is not seen in a session. -/
theorem cursor_unseen :
    (∀ (s : Stream) (e : Entry) (c d : Cursor),
      answer (s.resolve e) c = answer (s.resolve e) d) ∧
    ((∀ name, Blind Navigation.shown (Navigation.stepInto name)) ∧
      Blind Navigation.shown Navigation.back ∧ Blind Navigation.shown Navigation.reset ∧
      Blind Navigation.shown Navigation.stepToType ∧
      Blind Navigation.shown Navigation.listChildren) ∧
    (∀ (s : Stream) (name : String), s.Once name →
      ∀ c d, answer (s.findEntry name) c = answer (s.findEntry name) d) ∧
    ∀ (files : Files) (ps : List ((Cursor → Cursor) × Command)) (x : Explorer),
      FindsAll files (ps.map Prod.snd) x →
      answersMoving files ps x = answers files (ps.map Prod.snd) x := by
  refine ⟨fun s e => (Stream.resolve_steady e).answer, ?_,
    fun s name h => (Stream.findEntry_steady h).answer, fun files ps x => answersMoving_eq rfl⟩
  exact ⟨Navigation.stepInto_blind, Navigation.back_blind, Navigation.reset_blind,
    Navigation.stepToType_blind, Navigation.listChildren_blind⟩

theorem cursor_unseen_bytePair :
    answer (Stream.Builder.bytePair.build.findEntry "pair") { position := 7 } =
      answer (Stream.Builder.bytePair.build.findEntry "pair") {} ∧
    answersMoving noFiles
      [(fun _ => { position := 7 }, .readVariable (some "pair")), (fun _ => {}, .typeOf "pair"),
        (fun c => { c with position := c.position + 3 }, .describe)] bytePair =
      answers noFiles [.readVariable (some "pair"), .typeOf "pair", .describe] bytePair := by
  have honce : Stream.Builder.bytePair.build.Once "pair" := by
    intro i j hi hj
    rw [Stream.named_bytePair hi, Stream.named_bytePair hj]
  have hfinds : ∀ x : Explorer, x.nav.map Navigation.stream = some Stream.Builder.bytePair.build →
      ∀ c : Command, (∀ name, c.looksUp? = some name → name = "pair") → x.Finds c := by
    intro x hx c hc n name hn hname
    rw [hn, Option.map_some, Option.some.injEq] at hx
    rw [hx, hc name hname]
    exact honce
  obtain ⟨-, -, hfind, hsession⟩ := cursor_unseen
  have hread : ((bytePair.run noFiles (.readVariable (some "pair"))).bind fun r =>
      r.2.nav.map Navigation.stream) = some Stream.Builder.bytePair.build := by decide +kernel
  have htype : ((bytePair.runAll noFiles [.readVariable (some "pair"), .typeOf "pair"]).bind
      fun y => y.nav.map Navigation.stream) = some Stream.Builder.bytePair.build := by
    decide +kernel
  refine ⟨hfind _ _ honce _ _, hsession _ _ _ ⟨?_, fun fb y hy => ⟨?_, fun fb' z hz => ⟨?_, ?_⟩⟩⟩⟩
  · exact hfinds _ (by decide +kernel) _ (by rintro _ ⟨⟩; rfl)
  · rw [hy] at hread
    exact hfinds _ hread _ (by rintro _ ⟨⟩; rfl)
  · rw [runAll_cons.mpr ⟨fb, y, hy, runAll_cons.mpr ⟨fb', z, hz, rfl⟩⟩] at htype
    exact hfinds _ htype _ (by rintro _ ⟨⟩)
  · exact fun _ _ _ => trivial

end Explorer
end DwarfScope
