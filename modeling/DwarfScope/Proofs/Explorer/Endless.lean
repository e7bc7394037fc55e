import DwarfScope.Proofs.Explorer.Cursor
import DwarfScope.Proofs.Explorer.Listing
import DwarfScope.Proofs.Layout.Room

/-!
# Commands that do not end

Only where a type is resolved can a command go on without an end. All other walks read an entry at
most as often as the stream is long.
-/

namespace DwarfScope

namespace Effect

variable {σ α β : Type} {x : σ} {m : EStateM Failure σ α} {f : α → EStateM Failure σ β}

/-! ## Runs without an end -/

/-- The run from this state does not end. -/
def Endless (m : EStateM Failure σ α) (x : σ) : Prop := ∃ y, m x = .error .endless y

/-- From wherever it starts, the computation answers or reports an error. -/
def Ends (m : EStateM Failure σ α) : Prop := FailsWith (· ≠ .endless) m

theorem Ends.not_endless (h : Ends m) (x : σ) : ¬ Endless m x := by
  rintro ⟨y, hy⟩
  exact h x .endless y hy rfl

theorem ends_throw (e : Error) : Ends (throw e : EStateM Failure σ α) := .throw nofun

theorem ends_ofExcept (r : Except Error α) : Ends (ofExcept r : EStateM Failure σ α) :=
  .ofExcept fun _ _ => nofun

theorem endless_congr {m' : EStateM Failure σ α} (h : m x = m' x) :
    Endless m x ↔ Endless m' x := by
  simp only [Endless, h]

theorem endless_bind : Endless (m >>= f) x ↔
    Endless m x ∨ ∃ a y, m x = .ok a y ∧ Endless (f a) y := by
  unfold Endless
  simp only [bind_eq_error]
  constructor
  · rintro ⟨z, h | ⟨a, y, ha, hz⟩⟩
    · exact .inl ⟨z, h⟩
    · exact .inr ⟨a, y, ha, z, hz⟩
  · rintro (⟨z, h⟩ | ⟨a, y, ha, z, hz⟩)
    · exact ⟨z, .inl h⟩
    · exact ⟨z, .inr ⟨a, y, ha, hz⟩⟩

theorem endless_first (hf : ∀ a, Ends (f a)) : Endless (m >>= f) x ↔ Endless m x := by
  rw [endless_bind]
  constructor
  · rintro (h | ⟨a, y, -, h⟩)
    · exact h
    · exact absurd h ((hf a).not_endless y)
  · exact .inl

theorem endless_second (hm : Ends m) :
    Endless (m >>= f) x ↔ ∃ a y, m x = .ok a y ∧ Endless (f a) y := by
  rw [endless_bind]
  exact or_iff_right (hm.not_endless x)

end Effect

open Effect

theorem Walk.endless_iff {α : Type} {w : Walk α} {c : Cursor} :
    w.Endless c ↔ Effect.Endless w c := outcome_eq_error

/-! ## Lookups -/

namespace Stream

variable {s : Stream} {e : Entry} {c : Cursor}

theorem findAhead_failsWith {P : Failure → Prop} {name : String} :
    FailsWith P (s.findAhead name) := by
  refine .of_ok fun c => ?_
  unfold findAhead
  split
  · exact ⟨_, _, rfl⟩
  · exact ⟨_, _, rfl⟩

theorem enclosingUnit_ends (e : Entry) : Ends (s.enclosingUnit e) := by
  unfold enclosingUnit
  split
  · exact .pure _
  · refine .bind (seek_failsWith nofun) fun _ => .bind next_failsWith fun _ => ?_
    exact .bind (seek_failsWith nofun) fun _ => .bind next_failsWith fun _ => .pure _

theorem findEntry_ends (name : String) : Ends (s.findEntry name) := by
  have hunit : ∀ e, Ends
      (do return (e, ← s.enclosingUnit e) : Walk (Entry × Option Entry)) :=
    fun e => .bind (enclosingUnit_ends e) fun _ => .pure _
  refine .bind findAhead_failsWith fun found => ?_
  cases found with
  | some e => exact .bind (.pure e) hunit
  | none =>
    refine .bind (.of_ok fun _ => ⟨_, _, rfl⟩) fun _ => .bind findAhead_failsWith fun found => ?_
    cases found with
    | some e => exact .bind (.pure e) hunit
    | none => exact .bind (ends_throw _) hunit

theorem unitsFrom_ends (n : Nat) : Ends (s.unitsFrom n) := by
  induction n with
  | zero => exact .pure _
  | succ n ih =>
    unfold unitsFrom
    refine .bind next_failsWith fun found => ?_
    cases found with
    | none => exact .pure _
    | some e =>
      dsimp only
      split
      · exact .bind skipChildren_failsWith fun _ => .bind ih fun _ => .pure _
      · exact ih

theorem compileUnits_ends : Ends s.compileUnits :=
  .bind (.of_ok fun _ => ⟨_, _, rfl⟩) fun _ => unitsFrom_ends _

theorem childrenFrom_ends (label : String) (p : Entry → Bool) (n : Nat) :
    Ends (s.childrenFrom label p n) := by
  induction n with
  | zero => exact ends_throw _
  | succ n ih =>
    unfold childrenFrom
    refine .bind next_failsWith fun found => ?_
    cases found with
    | none => exact ends_throw _
    | some e =>
      dsimp only
      split
      · exact .pure _
      · exact .bind skipChildren_failsWith fun _ => .bind ih fun _ => .pure _

theorem children_ends (parent : Entry) (p : Entry → Bool) :
    Ends (s.children parent p) := by
  refine .bind (seek_failsWith nofun) fun _ => .bind next_failsWith fun _ => ?_
  split
  · exact childrenFrom_ends _ _ _
  · exact .pure _

/-! ## Types -/

theorem endless_ofEntry :
    (Variable.ofEntry s e).Endless c ↔ e.location?.isSome = true ∧ s.Bottomless e := by
  unfold Variable.ofEntry
  cases e.location? with
  | none =>
    refine iff_of_false ?_ (by simp)
    intro h
    cases h
  | some address =>
    rw [Walk.endless_iff, endless_first fun _ => .pure _, ← Walk.endless_iff, endless_resolve]
    simp

end Stream

/-! ## Moves -/

namespace Navigation

variable {n : Navigation} {α : Type} {step : Stream → Walk α}

theorem endless_walk : Endless (walk step) n ↔ (step n.stream).Endless n.cursor := by
  rw [Walk.endless_iff]
  unfold Endless walk
  cases step n.stream n.cursor <;> simp

theorem push_ends (level : Level) : Ends (push level) := .modify _

theorem unitNamed_ends (name : String) : Ends (unitNamed name) := by
  refine .bind (walk_failsWith fun _ => Stream.compileUnits_ends) fun units => ?_
  split
  · exact ends_throw _
  · exact .bind (walk_failsWith fun _ => Stream.seek_failsWith nofun) fun _ =>
      .bind (walk_failsWith fun _ => Stream.next_failsWith) fun _ => .pure _

theorem back_ends : Ends back := by
  refine .bind .get fun n => ?_
  split
  · exact .pure _
  · refine .bind (.modify _) fun _ => .bind .get fun m => ?_
    split
    · exact .bind (walk_failsWith fun _ => Stream.seek_failsWith nofun) fun _ =>
        .bind (walk_failsWith fun _ => Stream.next_failsWith) fun _ => .pure _
    · exact .pure _

theorem reset_ends : Ends reset :=
  .bind (.modify _) fun _ => walk_failsWith fun _ => .of_ok fun _ => ⟨_, _, rfl⟩

theorem stepToType_ends : Ends stepToType := by
  refine .bind .get fun n => ?_
  split
  · exact .bind (push_ends _) fun _ => .pure _
  · exact .pure _
  · exact ends_throw _

theorem listChildren_ends : Ends listChildren := by
  refine .bind .get fun n => ?_
  split
  · exact .bind (walk_failsWith fun _ => Stream.compileUnits_ends) fun _ => .pure _
  · exact .bind (walk_failsWith fun _ => Stream.children_ends _ _) fun _ => .pure _
  · exact .pure _

/-- The entry that a step leads to, and that it resolves the type of. A variable without a location
is given up before. -/
def StepsTo (n : Navigation) (name : String) (e : Entry) : Prop :=
  ∃ parent es d, n.current = .entry parent ∧
    n.stream.children parent Entry.isExplorable n.cursor = .ok es d ∧
    es.find? (·.name? = some name) = some e ∧ (e.tag.isVariable = true → e.location?.isSome = true)

theorem endless_entryChild {parent : Entry} {name : String} :
    Endless (entryChild parent name) n ↔
      ∃ es d e, n.stream.children parent Entry.isExplorable n.cursor = .ok es d ∧
        es.find? (·.name? = some name) = some e ∧
        (e.tag.isVariable = true → e.location?.isSome = true) ∧ n.stream.Bottomless e := by
  have hchild : ∀ (e : Entry) (m : Navigation), Endless
      (if e.tag.isVariable then do
        let v ← walk (Variable.ofEntry · e)
        return .variable { v with client := (← get).client }
      else return .type (← walk (·.resolve e)) : Navigate Subject) m ↔
      (e.tag.isVariable = true → e.location?.isSome = true) ∧ m.stream.Bottomless e := by
    intro e m
    by_cases hv : e.tag.isVariable = true
    · rw [if_pos hv, endless_first fun _ => .bind .get fun _ => .pure _, endless_walk,
        Stream.endless_ofEntry]
      simp [hv]
    · rw [if_neg hv, endless_first fun _ => .pure _, endless_walk, Stream.endless_resolve]
      simp [hv]
  rw [entryChild_eq_pick, pick, endless_second (walk_failsWith fun _ => Stream.children_ends _ _)]
  simp only [walk_eq_ok]
  constructor
  · rintro ⟨es, _, ⟨d, hes, rfl⟩, h⟩
    cases hfind : es.find? (·.name? = some name) with
    | none =>
      rw [hfind] at h
      exact absurd h ((ends_throw _).not_endless _)
    | some e =>
      rw [hfind] at h
      obtain ⟨hlocation, hends⟩ := (hchild e _).mp h
      exact ⟨es, d, e, hes, hfind, hlocation, hends⟩
  · rintro ⟨es, d, e, hes, hfind, hlocation, hends⟩
    refine ⟨es, _, ⟨d, hes, rfl⟩, ?_⟩
    rw [hfind]
    exact (hchild e _).mpr ⟨hlocation, hends⟩

theorem endless_stepInto {name : String} :
    Endless (stepInto name) n ↔ ∃ e, n.StepsTo name e ∧ n.stream.Bottomless e := by
  rw [endless_congr (stepInto_eq n name)]
  cases hcurrent : n.current with
  | allUnits =>
    refine iff_of_false (Ends.not_endless (.bind (unitNamed_ends name) fun _ => push_ends _) n) ?_
    rintro ⟨e, ⟨parent, _, _, h, -⟩, -⟩
    cases hcurrent.symm.trans h
  | entry parent =>
    rw [endless_first fun _ => push_ends _, endless_entryChild]
    constructor
    · rintro ⟨es, d, e, hes, hfind, hlocation, hends⟩
      exact ⟨e, ⟨parent, es, d, hcurrent, hes, hfind, hlocation⟩, hends⟩
    · rintro ⟨e, ⟨parent', es, d, h, hes, hfind, hlocation⟩, hends⟩
      obtain rfl := Level.entry.inj (hcurrent.symm.trans h)
      exact ⟨es, d, e, hes, hfind, hlocation, hends⟩
  | subject s =>
    refine iff_of_false (Ends.not_endless (.bind (ends_ofExcept _) fun _ => push_ends _) n) ?_
    rintro ⟨e, ⟨parent, _, _, h, -⟩, -⟩
    cases hcurrent.symm.trans h

end Navigation

/-! ## Commands -/

namespace Explorer

variable {x y : Explorer} {files : Files} {c : Command} {α : Type} {name : String}

theorem endless_navigate {step : Navigate α} :
    Endless (navigate step) x ↔ ∃ n, x.nav = some n ∧ Endless step n := by
  unfold Endless navigate
  cases x.nav with
  | none => simp
  | some n => cases hn : step n <;> simp [hn]

theorem navigate_ends {step : Navigate α} (h : Ends step) : Ends (navigate step) := by
  rintro x f y hf rfl
  obtain ⟨n, -, hn⟩ := endless_navigate.mp ⟨y, hf⟩
  exact h.not_endless n hn

theorem move_ends {step : Navigate Unit} (h : Ends step) : Ends (move step) :=
  .bind (navigate_ends h) fun _ => .bind (navigate_ends .get) fun _ => .pure _

theorem endless_move {step : Navigate Unit} :
    Endless (move step) x ↔ ∃ n, x.nav = some n ∧ Endless step n := by
  unfold move
  rw [endless_first fun _ => .bind (navigate_ends .get) fun _ => .pure _, endless_navigate]

theorem writeVariable_ends (v : Variable) : Ends (writeVariable v) :=
  .bind .get fun _ => .bind (ends_ofExcept _) fun _ => .modify _

theorem currentVariable_ends : Ends currentVariable :=
  .bind (navigate_ends .get) fun _ => .bind (.modify _) fun _ => ends_ofExcept _

theorem listUnits_ends : Ends listUnits :=
  .bind (navigate_ends (Navigation.walk_failsWith fun _ => Stream.compileUnits_ends))
    fun _ => .pure _

theorem describe_ends : Ends describe := by
  refine .bind (navigate_ends .get) fun n => ?_
  split
  · exact listUnits_ends
  · exact .pure _
  · exact .pure _
  · exact .pure _

theorem findEntry_ends (name : String) : Ends (walk (·.findEntry name)) :=
  navigate_ends (Navigation.walk_failsWith fun _ => Stream.findEntry_ends name)

/-- The search for a name comes to an entry of the stream. -/
def Searches (x : Explorer) (name : String) (s : Stream) (e : Entry) : Prop :=
  ∃ n unit c, x.nav = some n ∧ n.stream = s ∧ s.findEntry name n.cursor = .ok (e, unit) c

theorem endless_findEntry {k : Entry × Option Entry → Explore α} {P : Stream → Entry → Prop}
    (hk : ∀ e unit y, Endless (k (e, unit)) y ↔ ∃ n, y.nav = some n ∧ P n.stream e) :
    Endless (walk (·.findEntry name) >>= k) x ↔ ∃ s e, x.Searches name s e ∧ P s e := by
  rw [endless_second (findEntry_ends name)]
  simp only [Explorer.walk, navigate_eq_ok, Navigation.walk_eq_ok]
  constructor
  · rintro ⟨⟨e, unit⟩, _, ⟨n, _, hn, ⟨c, hfind, rfl⟩, rfl⟩, h⟩
    obtain ⟨_, ⟨⟩, hP⟩ := (hk e unit _).mp h
    exact ⟨n.stream, e, ⟨n, unit, c, hn, rfl, hfind⟩, hP⟩
  · rintro ⟨_, e, ⟨n, unit, c, hn, rfl, hfind⟩, hP⟩
    exact ⟨(e, unit), _, ⟨n, _, hn, ⟨c, hfind, rfl⟩, rfl⟩, (hk e unit _).mpr ⟨_, rfl, hP⟩⟩

theorem endless_variableNamed : Endless (variableNamed name) x ↔
    ∃ s e, x.Searches name s e ∧ e.location?.isSome = true ∧ s.Bottomless e := by
  refine endless_findEntry (P := fun s e => e.location?.isSome = true ∧ s.Bottomless e) ?_
  intro e unit y
  have hrest : ∀ v : Variable, Ends (do
      applyOffset unit
      return { v with client := (← get).memory.client.map Client.id } : Explore Variable) :=
    fun v => .bind (.modify _) fun _ => .bind .get fun _ => .pure _
  refine (endless_first hrest).trans ?_
  simp only [Explorer.walk, endless_navigate, Navigation.endless_walk, Stream.endless_ofEntry]

theorem endless_typeOf : Endless (execute files (.typeOf name)) x ↔
    ∃ s e, x.Searches name s e ∧ s.Bottomless e := by
  refine endless_findEntry (P := fun s e => s.Bottomless e) ?_
  intro e unit y
  refine (endless_first fun _ => .pure _).trans ?_
  simp only [Explorer.walk, endless_navigate, Navigation.endless_walk, Stream.endless_resolve]

theorem endless_readNamed : Endless (execute files (.readVariable (some name))) x ↔
    ∃ s e, x.Searches name s e ∧ e.location?.isSome = true ∧ s.Bottomless e := by
  have hrest : ∀ v : Variable, Ends (do
      return .variable (← ofExcept (v.read (← get).memory)).view : Explore Feedback) :=
    fun v => .bind .get fun _ => .bind (ends_ofExcept _) fun _ => .pure _
  exact (endless_first hrest).trans endless_variableNamed

theorem endless_setNamed {value : List UInt8} :
    Endless (execute files (.setVariable (some name) value)) x ↔
      ∃ s e, x.Searches name s e ∧ e.location?.isSome = true ∧ s.Bottomless e := by
  have hrest : ∀ v : Variable, Ends (do
      let w ← ofExcept (v.set value)
      writeVariable w
      return .variable w.view : Explore Feedback) :=
    fun v => .bind (ends_ofExcept _) fun w => .bind (writeVariable_ends w) fun _ => .pure _
  exact (endless_first hrest).trans endless_variableNamed

theorem editCurrent_ends (edit : Variable → Except Error Variable) : Ends (editCurrent edit) :=
  .bind currentVariable_ends fun _ => .bind (ends_ofExcept _) fun w =>
    .bind (navigate_ends (.modify _)) fun _ => .bind (writeVariable_ends w) fun _ => .pure _

/-- The command comes to resolve the type of an entry of the stream. -/
inductive Resolves (x : Explorer) : Command → Stream → Entry → Prop
  | type {name : String} {s : Stream} {e : Entry} : x.Searches name s e →
    Resolves x (.typeOf name) s e
  | read {name : String} {s : Stream} {e : Entry} : x.Searches name s e →
    e.location?.isSome = true → Resolves x (.readVariable (some name)) s e
  | set {name : String} {s : Stream} {e : Entry} {value : List UInt8} : x.Searches name s e →
    e.location?.isSome = true → Resolves x (.setVariable (some name) value) s e
  | step {name : String} {n : Navigation} {e : Entry} : x.nav = some n → n.StepsTo name e →
    Resolves x (.stepInto name) n.stream e

/-- The command comes to a type that no room is enough to resolve. -/
def Stalls (x : Explorer) (c : Command) : Prop := ∃ s e, x.Resolves c s e ∧ s.Bottomless e

theorem stalls_of_endless (h : Endless (execute files c) x) : x.Stalls c := by
  -- Only the commands that resolve a type are left when those that end are set aside.
  have hends : Ends (execute files c) → x.Stalls c := fun hc => absurd h (hc.not_endless x)
  cases c with
  | ping => exact hends (.pure _)
  | quit => exact hends (.pure _)
  | loadDebugFile path =>
    exact hends (.bind .get fun _ => .bind (ends_ofExcept _) fun _ =>
      .bind (.of_ok fun _ => ⟨_, _, rfl⟩) fun _ => .pure _)
  | debugFile =>
    refine hends (.bind .get fun y => ?_)
    split
    · exact .pure _
    · exact ends_throw _
  | listUnits => exact hends listUnits_ends
  | listChildren =>
    exact hends (.bind (navigate_ends Navigation.listChildren_ends) fun _ => .pure _)
  | stepInto name =>
    obtain ⟨n, hn, hstep⟩ := endless_move.mp h
    obtain ⟨e, he, hnever⟩ := Navigation.endless_stepInto.mp hstep
    exact ⟨n.stream, e, .step hn he, hnever⟩
  | back => exact hends (move_ends Navigation.back_ends)
  | reset => exact hends (move_ends Navigation.reset_ends)
  | path => exact hends (.bind (navigate_ends .get) fun _ => .pure _)
  | describe => exact hends describe_ends
  | currentType => exact hends (.bind (navigate_ends Navigation.stepToType_ends) fun _ => .pure _)
  | typeOf name =>
    obtain ⟨s, e, he, hnever⟩ := endless_typeOf.mp h
    exact ⟨s, e, .type he, hnever⟩
  | entryInfo name => exact hends (.bind (findEntry_ends name) fun _ => .pure _)
  | readVariable name =>
    cases name with
    | none =>
      exact hends (.bind currentVariable_ends fun _ => .bind .get fun _ =>
        .bind (ends_ofExcept _) fun _ => .bind (navigate_ends (.modify _)) fun _ => .pure _)
    | some name =>
      obtain ⟨s, e, he, hlocation, hnever⟩ := endless_readNamed.mp h
      exact ⟨s, e, .read he hlocation, hnever⟩
  | setVariable name value =>
    cases name with
    | none => exact hends (editCurrent_ends _)
    | some name =>
      obtain ⟨s, e, he, hlocation, hnever⟩ := endless_setNamed.mp h
      exact ⟨s, e, .set he hlocation, hnever⟩
  | getField field =>
    exact hends (.bind (navigate_ends .get) fun _ => .bind (ends_ofExcept _) fun _ =>
      .bind (ends_ofExcept _) fun _ => .pure _)
  | setField field value => exact hends (editCurrent_ends _)
  | setOffset offset => exact hends (.bind (.modify _) fun _ => .bind (.modify _) fun _ => .pure _)

/-- A command does not end exactly if it comes to resolve a type without an end. -/
theorem run_eq_none_iff : x.run files c = none ↔ x.Stalls c := by
  rw [run_eq_none]
  constructor
  · exact stalls_of_endless
  · rintro ⟨s, e, hresolves, hnever⟩
    cases hresolves with
    | type he => exact endless_typeOf.mpr ⟨s, e, he, hnever⟩
    | read he hlocation => exact endless_readNamed.mpr ⟨s, e, he, hlocation, hnever⟩
    | set he hlocation => exact endless_setNamed.mpr ⟨s, e, he, hlocation, hnever⟩
    | step hn he => exact endless_move.mpr ⟨_, hn, Navigation.endless_stepInto.mpr ⟨e, he, hnever⟩⟩

end Explorer
end DwarfScope
