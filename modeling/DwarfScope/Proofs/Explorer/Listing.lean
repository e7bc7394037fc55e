import DwarfScope.Proofs.Explorer.Stack
import DwarfScope.Proofs.Layout.Faults
import DwarfScope.Proofs.Variable.Operations

/-!
# Listings and steps

What can be stepped into is listed. What is listed can be looked for by its name and is found, on
every level. The one exception are compile units without a name: they are listed by a label, and
no step leads to a label.
-/

namespace DwarfScope

open Effect

/-- There is no entry, or no field, of the name that was looked for. -/
def Failure.isMissing : Failure → Bool
  | .reported (.notFound _) | .reported (.fieldNotFound ..) => true
  | _ => false

theorem Entry.label_of_name {e : Entry} {name : String} (h : e.name? = some name) :
    e.label = name := by
  simp [label, h]

/-! ## Members -/

namespace Layout

variable {l m : Layout} {name : String} {e : Error}

theorem mem_memberNames_of_member (h : l.member name = .ok m) : name ∈ l.memberNames := by
  unfold member at h
  split at h
  · rename_i m' hfind
    have hname : m'.name = name := by simpa using List.find?_some hfind
    exact List.mem_map.mpr ⟨m', List.mem_of_find?_eq_some hfind, hname⟩
  · cases h

theorem exists_member (h : name ∈ l.memberNames) : ∃ m, l.member name = .ok m := by
  obtain ⟨m, hm, hname⟩ := List.mem_map.mp h
  have hsome : (l.members.find? (·.name = name)).isSome = true :=
    List.find?_isSome.mpr ⟨m, hm, by simpa using hname⟩
  obtain ⟨m', hfind⟩ := Option.isSome_iff_exists.mp hsome
  exact ⟨m', by simp [member, hfind]⟩

end Layout

namespace Variable

variable {v : Variable} {field : String} {e : Error}

theorem span_error (h : v.span field = .error e) :
    v.layout.member field = .error e ∨
      ∃ bits, e = .notByteAligned field bits ∨ e = .notByteSized field bits := by
  unfold span at h
  cases hl : v.layout.member field with
  | error e' =>
    rw [hl] at h
    cases h
    exact .inl rfl
  | ok l =>
    simp only [hl, bind, Except.bind] at h
    split at h
    · cases h
      exact .inr ⟨_, .inl rfl⟩
    split at h
    · cases h
      exact .inr ⟨_, .inr rfl⟩
    · cases h

theorem member_error (h : v.member field = .error e) : v.span field = .error e := by
  cases hs : v.span field with
  | error e' =>
    simpa [member, hs, bind, Except.bind] using h
  | ok s =>
    obtain ⟨l, hl, -⟩ := span_eq_ok.mp hs
    simp [member_eq_ok.mpr ⟨s, l, hs, hl, rfl⟩] at h

end Variable

namespace Subject

variable {s t : Subject} {field : String} {e : Error}

theorem mem_memberNames_of_member (h : s.member field = .ok t) : field ∈ s.layout.memberNames := by
  rcases s with v | l
  · obtain ⟨w, hw, -⟩ := map_eq_ok.mp h
    obtain ⟨_, l, -, hl, -⟩ := Variable.member_eq_ok.mp hw
    exact Layout.mem_memberNames_of_member hl
  · obtain ⟨m, hm, -⟩ := map_eq_ok.mp h
    exact Layout.mem_memberNames_of_member hm

/-- A member that is listed is there, though it may be a bit field, which is no variable. -/
theorem isMissing_of_member (h : s.member field = .error e)
    (hfield : field ∈ s.layout.memberNames) : (e : Failure).isMissing = false := by
  obtain ⟨l, hl⟩ := Layout.exists_member hfield
  rcases s with v | t
  · have hspan := Variable.member_error (map_eq_error.mp h)
    rcases Variable.span_error hspan with hl' | ⟨bits, rfl | rfl⟩
    · cases hl.symm.trans hl'
    · rfl
    · rfl
  · cases hl.symm.trans (map_eq_error.mp h)

end Subject

/-! ## Lookups by name -/

namespace Navigation

variable {n m : Navigation} {name : String} {α β : Type} {step : Stream → Walk (List Entry)}
  {k : Entry → Navigate α} {es : List Entry} {c : Cursor} {f : Failure}

/-- If the move fails, it is not for a name. -/
def Finds (move : Navigate α) : Prop := FailsWith (·.isMissing = false) move

theorem walk_failsWith {P : Failure → Prop} {step : Stream → Walk α}
    (h : ∀ s, FailsWith P (step s)) : FailsWith P (walk step) := by
  intro n f m hf
  unfold walk at hf
  split at hf
  · cases hf
  · rename_i fault d hfault
    cases hf
    exact h n.stream n.cursor f d hfault

/-- Goes on with the first entry of a name in a listing. -/
def pick (step : Stream → Walk (List Entry)) (name : String) (k : Entry → Navigate α) :
    Navigate α := do
  let es ← walk step
  match es.find? (·.name? = some name) with
  | none => throw (.notFound name)
  | some e => k e

theorem unitNamed_eq_pick (name : String) :
    unitNamed name = pick Stream.compileUnits name fun unit => do
      walk (·.seek unit.offset)
      let _ ← walk Stream.next
      return unit := rfl

theorem entryChild_eq_pick (parent : Entry) (name : String) :
    entryChild parent name = pick (·.children parent Entry.isExplorable) name fun e =>
      if e.tag.isVariable then do
        let v ← walk (Variable.ofEntry · e)
        return .variable { v with client := (← get).client }
      else return .type (← walk (·.resolve e)) := rfl

theorem named_of_pick {a : α} (h : pick step name k n = .ok a m) :
    ∃ es c, step n.stream n.cursor = .ok es c ∧ ∃ e ∈ es, e.name? = some name := by
  simp only [pick, bind_eq_ok, walk_eq_ok] at h
  obtain ⟨es, _, ⟨c, hes, rfl⟩, h⟩ := h
  refine ⟨es, c, hes, ?_⟩
  cases hfind : es.find? (·.name? = some name) with
  | none => simp [hfind] at h
  | some e => exact ⟨e, List.mem_of_find?_eq_some hfind, by simpa using List.find?_some hfind⟩

theorem pick_isMissing_iff (hes : step n.stream n.cursor = .ok es c) (hk : ∀ e, Finds (k e)) :
    (∃ f m, pick step name k n = .error f m ∧ f.isMissing = true) ↔
      ∀ e ∈ es, e.name? ≠ some name := by
  have hwalk : walk step n = .ok es { n with cursor := c } := walk_eq_ok.mpr ⟨c, hes, rfl⟩
  unfold pick
  rw [bind_of_ok hwalk]
  cases hfind : es.find? (·.name? = some name) with
  | none =>
    have hno : ∀ e ∈ es, e.name? ≠ some name := by simpa using List.find?_eq_none.mp hfind
    exact iff_of_true ⟨.reported (.notFound name), _, rfl, rfl⟩ hno
  | some x =>
    have hx : x.name? = some name := by simpa using List.find?_some hfind
    refine iff_of_false ?_ fun hno => hno x (List.mem_of_find?_eq_some hfind) hx
    rintro ⟨e, m, he, hmissing⟩
    simp [hk x _ e m he] at hmissing

/-! ## Listings and steps -/

def Lists (n : Navigation) (name : String) : Prop :=
  ∃ names m, listChildren n = .ok names m ∧ name ∈ names

/-- The step fails as there is nothing of the name. -/
def Misses (n : Navigation) (name : String) : Prop :=
  ∃ f m, stepInto name n = .error f m ∧ f.isMissing = true

/-- On the level of all units the label of a unit without a name is listed, and no unit has it for
its name. -/
def Nameless (n : Navigation) (name : String) : Prop :=
  n.current = .allUnits ∧ ∃ units c, n.stream.compileUnits n.cursor = .ok units c ∧
    (∃ u ∈ units, u.name? = none ∧ u.label = name) ∧ ∀ u ∈ units, u.name? ≠ some name

theorem listChildren_eq (n : Navigation) :
    listChildren n =
      (match n.current with
        | .allUnits => walk Stream.compileUnits >>= fun es => pure (es.map Entry.label)
        | .entry parent =>
          walk (·.children parent Entry.isExplorable) >>= fun es => pure (es.map Entry.label)
        | .subject s => pure s.layout.memberNames) n := by
  unfold listChildren
  refine (bind_of_ok (get_eq_ok.mpr ⟨rfl, rfl⟩)).trans ?_
  cases n.current <;> rfl

theorem lists_labels
    (h : listChildren n = (walk step >>= fun es => pure (es.map Entry.label)) n) :
    n.Lists name ↔ ∃ es c, step n.stream n.cursor = .ok es c ∧ ∃ e ∈ es, e.label = name := by
  simp only [Lists, h, bind_eq_ok, walk_eq_ok, pure_eq_ok]
  constructor
  · rintro ⟨_, m, ⟨es, z, ⟨c, hes, rfl⟩, rfl, rfl⟩, hname⟩
    exact ⟨es, c, hes, List.mem_map.mp hname⟩
  · rintro ⟨es, c, hes, hname⟩
    exact ⟨_, _, ⟨es, _, ⟨c, hes, rfl⟩, rfl, rfl⟩, List.mem_map.mpr hname⟩

theorem lists_units (h : n.current = .allUnits) :
    n.Lists name ↔ ∃ units c, n.stream.compileUnits n.cursor = .ok units c ∧
      ∃ u ∈ units, u.label = name := by
  apply lists_labels
  rw [listChildren_eq, h]

theorem lists_children {parent : Entry} (h : n.current = .entry parent) :
    n.Lists name ↔ ∃ es c, n.stream.children parent Entry.isExplorable n.cursor = .ok es c ∧
      ∃ e ∈ es, e.label = name := by
  refine lists_labels (?_ : _ = (walk (·.children parent Entry.isExplorable) >>= _) n)
  rw [listChildren_eq, h]

theorem lists_members {s : Subject} (h : n.current = .subject s) :
    n.Lists name ↔ name ∈ s.layout.memberNames := by
  simp only [Lists, listChildren_eq, h, pure_eq_ok]
  constructor
  · rintro ⟨_, _, ⟨rfl, rfl⟩, hname⟩
    exact hname
  · intro hname
    exact ⟨_, _, ⟨rfl, rfl⟩, hname⟩

theorem stepInto_eq (n : Navigation) (name : String) :
    stepInto name n =
      (match n.current with
        | .allUnits => unitNamed name >>= fun unit => push (.entry unit)
        | .entry parent => entryChild parent name >>= fun s => push (.subject s)
        | .subject s => ofExcept (s.member name) >>= fun t => push (.subject t)) n := by
  unfold stepInto
  refine (bind_of_ok (get_eq_ok.mpr ⟨rfl, rfl⟩)).trans ?_
  cases n.current <;> rfl

theorem exists_of_push {lookup : Navigate α} {level : α → Level}
    (h : (lookup >>= fun a => push (level a)) n = .ok () m) : ∃ a z, lookup n = .ok a z := by
  obtain ⟨a, z, ha, -⟩ := bind_eq_ok.mp h
  exact ⟨a, z, ha⟩

theorem push_eq_error {lookup : Navigate α} {level : α → Level} :
    (lookup >>= fun a => push (level a)) n = .error f m ↔ lookup n = .error f m := by
  rw [bind_eq_error]
  constructor
  · rintro (h | ⟨_, _, -, ⟨⟩⟩)
    exact h
  · exact .inl

theorem finds_unit (unit : Entry) : Finds (do
    walk (·.seek unit.offset)
    let _ ← walk Stream.next
    return unit) :=
  .bind (walk_failsWith fun _ => Stream.seek_failsWith rfl) fun _ =>
    .bind (walk_failsWith fun _ => Stream.next_failsWith) fun _ => .pure _

theorem finds_resolve (e : Entry) : Finds (walk (·.resolve e)) := by
  refine walk_failsWith fun s c f d hf => ?_
  cases Stream.resolve_failsWith e c f d hf <;> rfl

theorem finds_ofEntry (e : Entry) : Finds (walk (Variable.ofEntry · e)) := by
  refine walk_failsWith fun s => ?_
  unfold Variable.ofEntry
  split
  · exact .throw rfl
  · refine .bind (fun c f d hf => ?_) fun _ => .pure _
    cases Stream.resolve_failsWith e c f d hf <;> rfl

theorem finds_child (e : Entry) : Finds (
    if e.tag.isVariable then do
      let v ← walk (Variable.ofEntry · e)
      return .variable { v with client := (← get).client }
    else return .type (← walk (·.resolve e)) : Navigate Subject) := by
  split
  · exact .bind (finds_ofEntry e) fun _ => .bind .get fun _ => .pure _
  · exact .bind (finds_resolve e) fun _ => .pure _

theorem lists_of_stepInto (h : stepInto name n = .ok () m) : n.Lists name := by
  rw [stepInto_eq] at h
  cases hcurrent : n.current with
  | allUnits =>
    rw [hcurrent] at h
    obtain ⟨unit, z, hunit⟩ := exists_of_push h
    obtain ⟨units, c, hunits, u, hu, hname⟩ := named_of_pick hunit
    exact (lists_units hcurrent).mpr ⟨units, c, hunits, u, hu, Entry.label_of_name hname⟩
  | entry parent =>
    rw [hcurrent] at h
    obtain ⟨s, z, hs⟩ := exists_of_push h
    obtain ⟨es, c, hes, e, he, hname⟩ := named_of_pick hs
    exact (lists_children hcurrent).mpr ⟨es, c, hes, e, he, Entry.label_of_name hname⟩
  | subject s =>
    rw [hcurrent] at h
    obtain ⟨t, z, ht⟩ := exists_of_push h
    exact (lists_members hcurrent).mpr (Subject.mem_memberNames_of_member (ofExcept_eq_ok.mp ht).1)

theorem misses_units (hcurrent : n.current = .allUnits) (h : n.Lists name) :
    n.Misses name ↔ n.Nameless name := by
  obtain ⟨units, c, hunits, u, hu, hlabel⟩ := (lists_units hcurrent).mp h
  have hmisses : n.Misses name ↔ ∀ u ∈ units, u.name? ≠ some name := by
    unfold Misses
    rw [stepInto_eq, hcurrent]
    simp only [push_eq_error, unitNamed_eq_pick]
    exact pick_isMissing_iff hunits finds_unit
  rw [hmisses]
  constructor
  · intro hno
    refine ⟨hcurrent, units, c, hunits, ⟨u, hu, ?_, hlabel⟩, hno⟩
    cases hname : u.name? with
    | none => rfl
    | some x =>
      rw [Entry.label_of_name hname] at hlabel
      exact absurd (hlabel ▸ hname) (hno u hu)
  · rintro ⟨-, units', c', hunits', -, hno⟩
    cases hunits.symm.trans hunits'
    exact hno

theorem not_misses_children {parent : Entry} (hcurrent : n.current = .entry parent)
    (h : n.Lists name) : ¬ n.Misses name := by
  obtain ⟨es, c, hes, e, he, hlabel⟩ := (lists_children hcurrent).mp h
  unfold Misses
  rw [stepInto_eq, hcurrent]
  simp only [push_eq_error, entryChild_eq_pick]
  rw [pick_isMissing_iff hes finds_child]
  intro hno
  -- Only what has a name is explorable, and then that is its label.
  have hexplorable := Stream.of_mem_children hes he
  cases hname : e.name? with
  | none => simp [Entry.isExplorable, hname] at hexplorable
  | some x =>
    rw [Entry.label_of_name hname] at hlabel
    exact hno e he (hlabel ▸ hname)

theorem not_misses_members {s : Subject} (hcurrent : n.current = .subject s) (h : n.Lists name) :
    ¬ n.Misses name := by
  rintro ⟨f, m, hf, hmissing⟩
  rw [stepInto_eq, hcurrent] at hf
  obtain ⟨e, hmember, rfl, -⟩ := ofExcept_eq_error.mp (push_eq_error.mp hf)
  simp [Subject.isMissing_of_member hmember ((lists_members hcurrent).mp h)] at hmissing

/-- Whatever can be stepped into is listed. A step to what is listed fails for its name only if
that is the label of a compile unit without a name. -/
theorem stepInto_lists (n : Navigation) (name : String) :
    ((∃ m, stepInto name n = .ok () m) → n.Lists name) ∧
      (n.Lists name → (n.Misses name ↔ n.Nameless name)) := by
  constructor
  · rintro ⟨m, h⟩
    exact lists_of_stepInto h
  · intro h
    cases hcurrent : n.current with
    | allUnits => exact misses_units hcurrent h
    | entry parent =>
      refine iff_of_false (not_misses_children hcurrent h) ?_
      rintro ⟨hunits, -⟩
      cases hcurrent.symm.trans hunits
    | subject s =>
      refine iff_of_false (not_misses_members hcurrent h) ?_
      rintro ⟨hunits, -⟩
      cases hcurrent.symm.trans hunits

theorem stepInto_lists_bytePair :
    let n : Navigation := { stream := Stream.Builder.bytePair.build }
    n.Lists "main.c" ∧ ¬ n.Misses "main.c" ∧ ¬ n.Nameless "main.c" := by
  intro n
  obtain ⟨⟨⟩, hstep⟩ := exists_of_succeeds (m := stepInto "main.c") (x := n) (by decide +kernel)
  have hmisses : ¬ n.Misses "main.c" := by
    rintro ⟨e, m, he, -⟩
    cases hstep.symm.trans he
  obtain ⟨hlists, hiff⟩ := stepInto_lists n "main.c"
  exact ⟨hlists ⟨_, hstep⟩, hmisses, fun h => hmisses ((hiff (hlists ⟨_, hstep⟩)).mpr h)⟩

/-- From the start, the only compile unit is listed and cannot be stepped into. -/
theorem stepInto_lists_nameless :
    let s := (({} : Stream.Builder).begin .compileUnit []).build
    let n : Navigation := { stream := s }
    Reached s n ∧ n.Lists "<anonymous compile unit at 0xb>" ∧
      n.Misses "<anonymous compile unit at 0xb>" := by
  intro s n
  have hlisted : result? listChildren n = some ["<anonymous compile unit at 0xb>"] := by
    decide +kernel
  refine ⟨.start, ⟨_, _, ok_of_result? hlisted, List.mem_singleton_self _⟩, ?_⟩
  exact ⟨.reported (.notFound _), _, rfl, rfl⟩

end Navigation
end DwarfScope
