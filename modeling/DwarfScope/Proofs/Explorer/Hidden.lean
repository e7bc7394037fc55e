import DwarfScope.Proofs.Explorer.Paths
import DwarfScope.Proofs.Stream.Assembled
import DwarfScope.Proofs.Stream.Children

/-!
# Hidden variables

The steps from the start through a compile unit lead to a static variable of the unit, unless a
type of the same name stands before it. In C a structure and a variable may share a name, and a
step goes into the one that stands first.
-/

namespace DwarfScope

open Effect

namespace Stream

variable {s : Stream} {i j k m address : Nat} {js : List Nat} {u e x : Entry}
  {unitName name : String} {c : Cursor}

/-! ## The first child of a name -/

/-- Of all the variables and types of one name below an entry, this one stands first. -/
structure FirstChild (s : Stream) (k : Nat) (name : String) (j : Nat) (x : Entry) : Prop where
  child : s.ChildOf k j
  entryAt : s.EntryAt j x
  explorable : x.isExplorable = true
  named : x.name? = some name
  first : ∀ i e, s.ChildOf k i → s.EntryAt i e → e.isExplorable = true → e.name? = some name → j ≤ i

theorem FirstChild.of_find? (hu : s.EntryAt k u) (hc : u.children = true)
    (hjs : s.Siblings (k + 1) js m) (hm : s.NullAt m)
    (hfind : ((s.entriesAt js).filter Entry.isExplorable).find? (·.name? = some name) = some x) :
    ∃ j, s.FirstChild k name j x := by
  have hmem : ∀ j, j ∈ js ↔ s.ChildOf k j := fun j => mem_iff_childOf hu hc hjs hm
  rw [List.find?_filter, entriesAt, List.find?_filterMap, Option.bind_eq_some_iff] at hfind
  obtain ⟨j, hj, hx⟩ := hfind
  obtain ⟨hmatch, before, behind, rfl, hbefore⟩ := List.find?_eq_some_iff_append.mp hj
  simp only [hx, Option.any_some, decide_eq_true_eq] at hmatch
  have hchild : s.ChildOf k j := (hmem j).mp (by simp)
  obtain ⟨y, hy⟩ := hchild.child
  obtain rfl := Option.some.inj (hx.symm.trans hy.get)
  refine ⟨j, hchild, hy, hmatch.1, hmatch.2, fun i e hi he hexplorable hname => ?_⟩
  have hlt := (List.pairwise_append.mp hjs.pairwise_lt.2).2.1
  rcases List.mem_append.mp ((hmem i).mpr hi) with hi | hi
  · have hno := hbefore i hi
    simp [he.get, hexplorable, hname] at hno
  · rcases List.mem_cons.mp hi with rfl | hi
    · exact Nat.le_refl i
    · exact Nat.le_of_lt ((List.pairwise_cons.mp hlt).1 i hi)

/-! ## Static variables -/

/-- A variable with a static location and a layout is a child of a compile unit. All compile units
stand on top, no other unit has the name of this one, and no other variable among its children has
the name of the variable. -/
structure StaticVariable (s : Stream) (k : Nat) (u : Entry) (unitName : String) (i : Nat)
    (e : Entry) (name : String) (address : Nat) : Prop where
  onTop : ∀ j j' u', s.EntryAt j' u' → u'.tag = .compileUnit → ¬ s.ChildOf j j'
  unitAt : s.EntryAt k u
  unitTag : u.tag = .compileUnit
  unitNamed : u.name? = some unitName
  unitOnce : ∀ k' u', s.EntryAt k' u' → u'.tag = .compileUnit → u'.name? = some unitName → k' = k
  child : s.ChildOf k i
  entryAt : s.EntryAt i e
  isVariable : e.tag.isVariable = true
  named : e.name? = some name
  once : ∀ j x, s.ChildOf k j → s.EntryAt j x → x.tag.isVariable = true →
    x.name? = some name → j = i
  located : e.location? = some address
  resolves : ∃ l d, s.resolve e {} = .ok l d

/-- Below the entry at `k`, and before the index `i`, stands a type of the name. -/
def Hidden (s : Stream) (k i : Nat) (name : String) : Prop :=
  ∃ j x, j < i ∧ s.ChildOf k j ∧ s.EntryAt j x ∧ x.tag.isType = true ∧ x.name? = some name

namespace StaticVariable

variable (h : s.StaticVariable k u unitName i e name address)

include h

theorem explorable : e.isExplorable = true := by
  simp [Entry.isExplorable, h.named, h.isVariable]

theorem opens : u.children = true := by
  obtain ⟨u', hu', hc⟩ := h.child.parent
  rw [h.unitAt.unique hu']
  exact hc

/-- The first child of the name is the variable itself, or else a type that hides it. -/
theorem isVariable_iff (hx : s.FirstChild k name j x) :
    x.tag.isVariable = true ↔ ¬ s.Hidden k i name := by
  constructor
  · rintro hvariable ⟨j', x', hlt, hchild, hx', htype, hname⟩
    obtain rfl := h.once j x hx.child hx.entryAt hvariable hx.named
    have := hx.first j' x' hchild hx' (by simp [Entry.isExplorable, hname, htype]) hname
    omega
  · intro hhidden
    by_contra hvariable
    have htype : x.tag.isType = true := by
      have hexplorable := hx.explorable
      simpa [Entry.isExplorable, hx.named, hvariable] using hexplorable
    have hle := hx.first i e h.child h.entryAt h.explorable h.named
    have hne : j ≠ i := by
      rintro rfl
      obtain rfl := hx.entryAt.unique h.entryAt
      exact hvariable h.isVariable
    exact hhidden ⟨j, x, by omega, hx.child, hx.entryAt, htype, hx.named⟩

theorem eq_of_isVariable (hx : s.FirstChild k name j x) (hvariable : x.tag.isVariable = true) :
    x = e := by
  obtain rfl := h.once j x hx.child hx.entryAt hvariable hx.named
  exact hx.entryAt.unique h.entryAt

end StaticVariable

theorem StaticVariable.exists_compileUnits {b : Builder} (hb : b.Assembled)
    (h : b.build.StaticVariable k u unitName i e name address) (c : Cursor) :
    ∃ units d, b.build.compileUnits c = .ok units d ∧
      units.find? (·.name? = some unitName) = some u := by
  obtain ⟨units, d, hunits, honly, hall⟩ := exists_compileUnits_of_apart
    (fun j v k u hv _ hu htag hjk => afterItem_le_of_no_parent hv (hb.closed hv) hu
      (fun i => h.onTop i k u hu htag) hjk) c
  exact ⟨units, d, hunits, find?_unit h.unitAt h.unitTag h.unitNamed h.unitOnce honly hall⟩

theorem StaticVariable.exists_children {b : Builder} (hb : b.Assembled)
    (h : b.build.StaticVariable k u unitName i e name address) (c : Cursor) :
    ∃ children d j x, b.build.children u Entry.isExplorable c = .ok children d ∧
      children.find? (·.name? = some name) = some x ∧ b.build.FirstChild k name j x := by
  obtain ⟨js, m, hjs, hm⟩ := hb.closed h.unitAt h.opens
  have hi : i ∈ js := (mem_iff_childOf h.unitAt h.opens hjs hm).mpr h.child
  have hlisted := children_of_closed (hb.addressed List.prefix_rfl) h.unitAt h.opens hjs hm
    Entry.isExplorable c
  have hsome : (((b.build.entriesAt js).filter Entry.isExplorable).find?
      (·.name? = some name)).isSome = true := by
    rw [List.find?_isSome]
    refine ⟨e, List.mem_filter.mpr ⟨mem_entriesAt.mpr ⟨i, hi, h.entryAt.get⟩, h.explorable⟩, ?_⟩
    simpa using h.named
  obtain ⟨x, hx⟩ := Option.isSome_iff_exists.mp hsome
  obtain ⟨j, hj⟩ := FirstChild.of_find? h.unitAt h.opens hjs hm hx
  exact ⟨_, _, j, x, hlisted, hx, hj⟩

end Stream

/-! ## The steps -/

namespace Navigation

variable {n m : Navigation} {k i address : Nat} {u e : Entry} {unitName name : String}
  {b : Stream.Builder}

theorem entryChild_type {parent x : Entry} {children : List Entry} {c : Cursor} {s : Subject}
    (hc : n.stream.children parent Entry.isExplorable n.cursor = .ok children c)
    (hx : children.find? (·.name? = some name) = some x) (hv : x.tag.isVariable = false)
    (h : entryChild parent name n = .ok s m) : ∃ l, s = .type l := by
  simp only [entryChild, bind_eq_ok, walk_eq_ok] at h
  obtain ⟨_, _, ⟨_, hc', rfl⟩, h⟩ := h
  obtain ⟨rfl, rfl⟩ : children = _ ∧ c = _ := by simpa [hc] using hc'
  simp only [hx, hv, Bool.false_eq_true, if_false, bind_eq_ok, walk_eq_ok, pure_eq_ok] at h
  obtain ⟨l, _, -, rfl, -⟩ := h
  exact ⟨l, rfl⟩

def AtVariable (n : Navigation) (name : String) (address : Nat) : Prop :=
  ∃ v, n.current = .subject (.variable v) ∧ v.name = name ∧ v.address = address

theorem stepInto_atVariable_iff (hb : b.Assembled) (hn : n.stream = b.build)
    (h : b.build.StaticVariable k u unitName i e name address) (hlevels : n.levels = [.entry u]) :
    (∃ m, stepInto name n = .ok () m ∧ m.AtVariable name address) ↔ ¬ b.build.Hidden k i name := by
  obtain ⟨children, c, j, x, hchildren, hfind, hx⟩ := h.exists_children hb n.cursor
  rw [← hn] at hchildren
  rw [← h.isVariable_iff hx]
  constructor
  · rintro ⟨m, hstep, v, hv, -, -⟩
    obtain ⟨s, z, hs, rfl⟩ := (stepInto_entry_eq_ok hlevels).mp hstep
    obtain rfl : s = .variable v := by simpa [current] using hv
    by_contra hnot
    obtain ⟨l, hl⟩ := entryChild_type hchildren hfind (by simpa using hnot) hs
    cases hl
  · intro hvariable
    obtain rfl := h.eq_of_isVariable hx hvariable
    obtain ⟨l, d, hl⟩ := h.resolves
    rw [← hn] at hl
    have hofEntry := Stream.ofEntry_eq_ok.mpr
      ⟨address, l, h.located, Stream.resolve_cursor hl c, rfl⟩
    have hchild := (entryChild_eq_ok hchildren hfind hvariable).mpr ⟨_, d, hofEntry, rfl, rfl⟩
    refine ⟨_, (stepInto_entry_eq_ok hlevels).mpr ⟨_, _, hchild, rfl⟩, _, rfl, ?_, rfl⟩
    simp [Entry.label, h.named]

/-- From the start there is a step into the compile unit of a static variable, and from there one
to the variable exactly if no type of its name stands before it in the unit. -/
theorem stepInto_static (hb : b.Assembled) (hn : n.stream = b.build) (hlevels : n.levels = [])
    (h : b.build.StaticVariable k u unitName i e name address) :
    ∃ m, stepInto unitName n = .ok () m ∧ m.current = .entry u ∧
      ((∃ z, stepInto name m = .ok () z ∧ z.AtVariable name address) ↔
        ¬ b.build.Hidden k i name) := by
  obtain ⟨units, c, hunits, hfind⟩ := h.exists_compileUnits hb n.cursor
  have hunit := h.unitAt
  have hseek := hb.addressed List.prefix_rfl k u h.unitAt
  rw [← hn] at hunits hunit hseek
  refine ⟨_, stepInto_found hlevels hunits hfind hunit hseek, rfl, ?_⟩
  exact stepInto_atVariable_iff hb hn h rfl

end Navigation

/-- A compile unit with a variable and a structure of one name, one after the other. -/
def Stream.Builder.points (structFirst : Bool) : Builder :=
  let unit := (({} : Builder).begin .compileUnit [(.name, .text "main.c")]).leaf
    .baseType [(.name, .text "byte"), (.byteSize, .udata 1)]
  let struct (b : Builder) := b.leaf .structureType [(.name, .text "point"), (.byteSize, .udata 1)]
  let var (b : Builder) := b.leaf
    .var [(.name, .text "point"), (.type, .ref 12), (.location, .address 0)]
  (if structFirst then var (struct unit) else struct (var unit)).close

theorem Stream.Builder.assembled_points (structFirst : Bool) : (points structFirst).Assembled := by
  cases structFirst with
  | false => exact .close <| .leaf _ _ <| .leaf _ _ <| .leaf _ _ <| .begin _ _ .empty
  | true => exact .close <| .leaf _ _ <| .leaf _ _ <| .leaf _ _ <| .begin _ _ .empty

theorem Stream.staticVariable_points (structFirst : Bool) :
    let s := (Builder.points structFirst).build
    let i := if structFirst then 3 else 2
    s.StaticVariable 0 s.entries[0]! "main.c" i s.entries[i]! "point" 0 := by
  intro s i
  have hsize : s.size = 5 := by cases structFirst <;> rfl
  have hunit : ∀ i e, s.EntryAt i e → e.tag = .compileUnit → i = 0 := by
    intro i e he htag
    have hall : ∀ i < 5, s.entries[i]?.map Entry.tag = some .compileUnit → i = 0 := by
      cases structFirst <;> decide +kernel
    exact hall i (hsize ▸ he.lt_size) (by rw [he.get, ← htag]; rfl)
  constructor
  case onTop =>
    intro j j' u hu htag hchild
    obtain ⟨_, hbehind⟩ := hchild.behind
    have := hbehind.le
    have := hunit j' u hu htag
    omega
  case unitOnce => exact fun k u hu htag _ => hunit k u hu htag
  case child =>
    cases structFirst with
    | false => exact ⟨⟨_, ⟨rfl, rfl⟩, rfl⟩, ⟨[1], .leaf ⟨rfl, rfl⟩ rfl (.nil 2)⟩, ⟨_, rfl, rfl⟩⟩
    | true =>
      exact ⟨⟨_, ⟨rfl, rfl⟩, rfl⟩,
        ⟨[1, 2], .leaf ⟨rfl, rfl⟩ rfl (.leaf ⟨rfl, rfl⟩ rfl (.nil 3))⟩, ⟨_, rfl, rfl⟩⟩
  case once =>
    intro j x _ hx hvariable _
    have hall : ∀ j < 5, s.entries[j]?.any (·.tag.isVariable) = true → j = i := by
      cases structFirst <;> decide +kernel
    exact hall j (hsize ▸ hx.lt_size) (by rw [hx.get]; exact hvariable)
  case resolves =>
    obtain ⟨l, hl⟩ := exists_of_succeeds (m := s.resolve s.entries[i]!) (x := {}) (by
      cases structFirst <;> decide +kernel)
    exact ⟨l, _, hl⟩
  all_goals cases structFirst <;> first | rfl | exact ⟨rfl, rfl⟩

namespace Navigation

/-- A structure that stands behind the variable does not hide it. -/
theorem stepInto_static_points :
    let n : Navigation := { stream := (Stream.Builder.points false).build }
    ∃ m z, stepInto "main.c" n = .ok () m ∧ stepInto "point" m = .ok () z ∧
      z.AtVariable "point" 0 := by
  intro n
  obtain ⟨m, hm, -, hiff⟩ := stepInto_static (n := n)
    (Stream.Builder.assembled_points false) rfl rfl (Stream.staticVariable_points false)
  obtain ⟨z, hz, hvariable⟩ := hiff.mpr <| by
    rintro ⟨j, x, hj, -, hx, htype, hname⟩
    have hall : ∀ j < 2, (n.stream.entries[j]?).any (·.name? = some "point") = false := by
      decide +kernel
    have hno := hall j hj
    simp [n, hx.get, hname] at hno
  exact ⟨m, z, hm, hz, hvariable⟩

def typeOf? : Level → Option Layout
  | .subject (.type l) => some l
  | _ => none

theorem typeOf?_eq_some {level : Level} {l : Layout} (h : typeOf? level = some l) :
    level = .subject (.type l) := by
  rcases level with _ | e | v | l'
  · cases h
  · cases h
  · cases h
  · rw [Option.some.inj h]

/-- A structure that stands before the variable hides it. The step to the name leads to a type. -/
theorem stepInto_static_hidden :
    let s := (Stream.Builder.points true).build
    s.StaticVariable 0 s.entries[0]! "main.c" 3 s.entries[3]! "point" 0 ∧
      ∃ m z l, stepInto "main.c" { stream := s } = .ok () m ∧ stepInto "point" m = .ok () z ∧
        z.current = .subject (.type l) ∧ ¬ z.AtVariable "point" 0 := by
  intro s
  obtain ⟨⟨⟩, hm⟩ := exists_of_succeeds (m := stepInto "main.c") (x := { stream := s })
    (by decide +kernel)
  obtain ⟨⟨⟩, hz⟩ := exists_of_succeeds (m := stepInto "point")
    (x := after (stepInto "main.c") { stream := s }) (by decide +kernel)
  have htype : (typeOf? (after (stepInto "point")
      (after (stepInto "main.c") { stream := s })).current).isSome = true := by decide +kernel
  obtain ⟨l, hl⟩ := Option.isSome_iff_exists.mp htype
  refine ⟨Stream.staticVariable_points true, _, _, l, hm, hz, typeOf?_eq_some hl, ?_⟩
  rintro ⟨v, hv, -⟩
  cases hv.symm.trans (typeOf?_eq_some hl)

end Navigation
end DwarfScope
