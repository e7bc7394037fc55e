import DwarfScope.Proofs.Explorer.Names
import DwarfScope.Proofs.Stream.Enclosing

/-!
# By name and by navigation

The two ways to a variable of a compile unit, the search for its name and the steps from the start
through its unit, come to the same variable and the same place in memory.
-/

namespace DwarfScope

open Effect

namespace Stream

variable {s : Stream} {k i q j : Nat} {js : List Nat} {u e : Entry} {unitName name : String}
  {c : Cursor}

theorem find?_of_once {α : Type} {l : List α} {p : α → Bool} {a : α} (ha : a ∈ l) (hp : p a = true)
    (honce : ∀ b ∈ l, p b = true → b = a) : l.find? p = some a := by
  have hsome : (l.find? p).isSome = true := List.find?_isSome.mpr ⟨a, ha, hp⟩
  obtain ⟨b, hb⟩ := Option.isSome_iff_exists.mp hsome
  rw [hb, honce b (List.mem_of_find?_eq_some hb) (List.find?_some hb)]

theorem find?_unit {units : List Entry} (hu : s.EntryAt k u) (htag : u.tag = .compileUnit)
    (hname : u.name? = some unitName)
    (honce : ∀ k' u', s.EntryAt k' u' → u'.tag = .compileUnit → u'.name? = some unitName → k' = k)
    (honly : ∀ u' ∈ units, ∃ k', s.EntryAt k' u' ∧ u'.tag = .compileUnit)
    (hall : ∀ k' u', s.EntryAt k' u' → u'.tag = .compileUnit → u' ∈ units) :
    units.find? (·.name? = some unitName) = some u := by
  refine find?_of_once (hall k u hu htag) (by simpa using hname) ?_
  intro u' hu' hname'
  obtain ⟨k', hk', htag'⟩ := honly u' hu'
  obtain rfl := honce k' u' hk' htag' (by simpa using hname')
  exact hk'.unique hu

/-- A variable stands directly in a compile unit. All compile units stand on top, no other unit has
the name of this one, and no other entry has the name of the variable. -/
structure UnitVariable (s : Stream) (k : Nat) (u : Entry) (unitName : String) (i : Nat) (e : Entry)
    (name : String) : Prop where
  onTop : s.UnitsOnTop
  unitAt : s.EntryAt k u
  unitTag : u.tag = .compileUnit
  unitNamed : u.name? = some unitName
  unitOnce : ∀ k' u', s.EntryAt k' u' → u'.tag = .compileUnit → u'.name? = some unitName → k' = k
  opens : u.children = true
  below : ∃ js, s.Siblings (k + 1) js i
  entryAt : s.EntryAt i e
  isVariable : e.tag.isVariable = true
  named : e.name? = some name
  once : ∀ j, s.Named name j → j = i

namespace UnitVariable

variable (h : s.UnitVariable k u unitName i e name)

include h

theorem not_unit : e.tag ≠ .compileUnit := by
  intro htag
  have hvariable := h.isVariable
  rw [htag] at hvariable
  cases hvariable

theorem closed (ht : s.Tidy) : ∃ ks m, s.Siblings (k + 1) ks m ∧ s.NullAt m ∧ i ∈ ks := by
  obtain ⟨ks, m, hks, hm⟩ := ht.closed h.unitAt h.opens
  obtain ⟨_, hbelow⟩ := h.below
  exact ⟨ks, m, hks, hm, hbelow.mem_closed h.entryAt hks hm⟩

theorem inside : s.Inside k i := .single ⟨⟨u, h.unitAt, h.opens⟩, h.below, ⟨e, h.entryAt⟩⟩

theorem exists_enclosingUnit (ht : s.Tidy) (c : Cursor) :
    ∃ d, s.enclosingUnit e c = .ok (some u) d := by
  obtain ⟨d, hd⟩ := s.exists_next { position := i }
  have hi := ht.addressed i e h.entryAt
  refine ⟨d, (enclosingUnit_eq_ok h.not_unit).mpr ⟨k, i, ?_, hi, ?_, hd⟩⟩
  · rw [ht.tracked i e k u h.entryAt (h.inside.lastUnit h.onTop h.unitAt h.unitTag)]
    exact ht.addressed k u h.unitAt
  · rw [h.unitAt.get]
    simp [Option.filter, h.unitTag]

theorem found (p : Nat) : s.Found name p i :=
  found_of_once ⟨e, h.entryAt.get, h.named⟩ h.once p

theorem exists_compileUnits (c : Cursor) :
    ∃ units d, s.compileUnits c = .ok units d ∧
      units.find? (·.name? = some unitName) = some u := by
  obtain ⟨units, d, hunits, honly, hall⟩ := Stream.exists_compileUnits h.onTop c
  exact ⟨units, d, hunits, find?_unit h.unitAt h.unitTag h.unitNamed h.unitOnce honly hall⟩

theorem exists_children (ht : s.Tidy) (c : Cursor) :
    ∃ children d, s.children u Entry.isExplorable c = .ok children d ∧
      children.find? (·.name? = some name) = some e := by
  obtain ⟨ks, m, hks, hm, hi⟩ := h.closed ht
  have hlisted := children_of_closed ht.addressed h.unitAt h.opens hks hm Entry.isExplorable c
  refine ⟨_, _, hlisted, find?_of_once ?_ (by simpa using h.named) ?_⟩
  · rw [List.mem_filter]
    refine ⟨mem_entriesAt.mpr ⟨i, hi, h.entryAt.get⟩, ?_⟩
    simp [Entry.isExplorable, h.named, h.isVariable]
  · intro e' he' hname
    obtain ⟨j, -, hj⟩ := mem_entriesAt.mp (List.mem_filter.mp he').1
    obtain rfl := h.once j ⟨e', hj, by simpa using hname⟩
    exact Option.some.inj (hj.symm.trans h.entryAt.get)

end UnitVariable

theorem Builder.built_bytePair : bytePair.Built :=
  .close <| .leaf _ _ (by decide) <| .close <| .leaf _ _ (by decide) <| .leaf _ _ (by decide) <|
    .begin _ _ (by decide) <| .leaf _ _ (by decide) <| .begin _ _ (by decide) .empty

theorem unitVariable_bytePair :
    let s := Builder.bytePair.build
    s.UnitVariable 0 s.entries[0]! "main.c" 6 s.entries[6]! "pair" := by
  intro s
  have hunit : ∀ i e, s.EntryAt i e → e.tag = .compileUnit → i = 0 := by
    intro i e he htag
    have hlt : i < 8 := he.lt_size
    have hall : ∀ i < 8, s.entries[i]?.map Entry.tag = some .compileUnit → i = 0 := by
      decide +kernel
    apply hall i hlt
    rw [he.get, ← htag]
    rfl
  have hpair : s.Siblings 3 [3, 4] 5 := .leaf ⟨rfl, rfl⟩ rfl (.leaf ⟨rfl, rfl⟩ rfl (.nil 5))
  constructor
  case onTop =>
    intro i e he htag
    rw [hunit i e he htag]
    exact ⟨[], .nil 0⟩
  case unitOnce =>
    intro i e he htag _
    exact hunit i e he htag
  case below =>
    exact ⟨[1, 2], .leaf ⟨rfl, rfl⟩ rfl (.node ⟨rfl, rfl⟩ rfl hpair ⟨.null, rfl, rfl⟩ (.nil 6))⟩
  case once => exact fun j hj => named_bytePair hj
  case unitAt => exact ⟨rfl, rfl⟩
  case entryAt => exact ⟨rfl, rfl⟩
  all_goals rfl

end Stream

/-! ## The steps -/

namespace Navigation

variable {n m : Navigation} {k i : Nat} {u e : Entry} {unitName name : String}

theorem stepInto_unit (h : n.stream.UnitVariable k u unitName i e name) (ht : n.stream.Tidy)
    (hlevels : n.levels = []) :
    stepInto unitName n = .ok () { n with levels := [.entry u], cursor := .behind k } := by
  obtain ⟨units, d, hunits, hfind⟩ := h.exists_compileUnits n.cursor
  exact stepInto_found hlevels hunits hfind h.unitAt (ht.addressed k u h.unitAt)

theorem stepInto_variable (h : n.stream.UnitVariable k u unitName i e name) (ht : n.stream.Tidy)
    (hlevels : n.levels = [.entry u]) :
    stepInto name n = .ok () m ↔
      ∃ address l d, e.location? = some address ∧ n.stream.resolve e {} = .ok l d ∧
        m = { n with
          cursor := d
          levels := [.subject (.variable
            { name := e.label, layout := l, address, client := n.client }), .entry u] } := by
  obtain ⟨children, c, hchildren, hfind⟩ := h.exists_children ht n.cursor
  rw [stepInto_entry_eq_ok hlevels]
  simp only [entryChild_eq_ok hchildren hfind h.isVariable, Stream.ofEntry_eq_ok]
  constructor
  · rintro ⟨_, _, ⟨_, d, ⟨address, l, haddress, hl, rfl⟩, rfl, rfl⟩, rfl⟩
    refine ⟨address, l, d, haddress, Stream.resolve_cursor hl {}, ?_⟩
    rw [hlevels]
  · rintro ⟨address, l, d, haddress, hl, rfl⟩
    refine ⟨_, _, ⟨_, d, ⟨address, l, haddress, Stream.resolve_cursor hl c, rfl⟩, rfl, rfl⟩, ?_⟩
    rw [hlevels]

end Navigation

namespace Explorer

variable {x y : Explorer} {files : Files} {n : Navigation} {k i : Nat} {u e : Entry}
  {unitName name : String} {value : List UInt8} {v : Variable} {fb : Feedback}

/-- All the commands succeed, one after the other, and lead from one explorer to the other. -/
def Leads (files : Files) : List Command → Explorer → Explorer → Prop
  | [], x, y => y = x
  | c :: cs, x, y => ∃ fb z, execute files c x = .ok fb z ∧ Leads files cs z y

def wayTo (unitName name : String) : List Command := [.reset, .stepInto unitName, .stepInto name]

/-- The variable an entry stands for, with the attached client. -/
def Declared (x : Explorer) (s : Stream) (e : Entry) (v : Variable) (d : Cursor) : Prop :=
  ∃ address l, e.location? = some address ∧ s.resolve e {} = .ok l d ∧
    v = { name := e.label, layout := l, address, client := x.memory.client.map Client.id }

theorem variableNamed_iff_declared (hn : x.nav = some n)
    (h : n.stream.UnitVariable k u unitName i e name) (ht : n.stream.Tidy) :
    variableNamed name x = .ok v y ↔
      ∃ d, x.Declared n.stream e v d ∧
        y = { x with nav := some { n with cursor := d }, memory := x.memoryAt (some u) } := by
  obtain ⟨c, hunit⟩ := h.exists_enclosingUnit ht (.behind i)
  have hfind : n.stream.findEntry name n.cursor = .ok (e, some u) c :=
    Stream.findEntry_eq_ok.mpr ⟨i, h.found _, h.entryAt.get, hunit⟩
  rw [variableNamed_eq_ok]
  constructor
  · rintro ⟨n', e', unit, c', w, d, hn', hfind', hw, rfl, rfl⟩
    obtain rfl := Option.some.inj (hn.symm.trans hn')
    cases hfind.symm.trans hfind'
    obtain ⟨address, l, haddress, hl, rfl⟩ := Stream.ofEntry_eq_ok.mp hw
    exact ⟨d, ⟨address, l, haddress, Stream.resolve_cursor hl {}, rfl⟩, rfl⟩
  · rintro ⟨d, ⟨address, l, haddress, hl, rfl⟩, rfl⟩
    have hw := Stream.ofEntry_eq_ok.mpr ⟨address, l, haddress, Stream.resolve_cursor hl c, rfl⟩
    exact ⟨n, e, some u, c, _, d, hn, hfind, hw, rfl, rfl⟩

theorem leads_iff_declared (hx : x.Sound) (hn : x.nav = some n)
    (h : n.stream.UnitVariable k u unitName i e name) (ht : n.stream.Tidy) :
    Leads files (wayTo unitName name) x y ↔
      ∃ v d, x.Declared n.stream e v d ∧
        y = { x with nav := some { n with
          cursor := d, levels := [.subject (.variable v), .entry u] } } := by
  have hreset := Navigation.reset_eq_ok n
  have hunit := Navigation.stepInto_unit (n := { n with levels := [], cursor := {} }) h ht rfl
  have hvariable (m : Navigation) := Navigation.stepInto_variable (m := m)
    (n := { n with levels := [.entry u], cursor := .behind k }) h ht rfl
  have hclient := hx.client n hn
  constructor
  · rintro ⟨_, x₁, h₁, _, x₂, h₂, _, x₃, h₃, rfl⟩
    obtain ⟨n₁, m₁, hn₁, hm₁, -, rfl⟩ := move_eq_ok.mp h₁
    obtain rfl := Option.some.inj (hn.symm.trans hn₁)
    cases hreset.symm.trans hm₁
    obtain ⟨_, m₂, ⟨⟩, hm₂, -, rfl⟩ := move_eq_ok.mp h₂
    cases hunit.symm.trans hm₂
    obtain ⟨_, m₃, ⟨⟩, hm₃, -, rfl⟩ := move_eq_ok.mp h₃
    obtain ⟨address, l, d, haddress, hl, rfl⟩ := (hvariable m₃).mp hm₃
    refine ⟨_, d, ⟨address, l, haddress, hl, rfl⟩, ?_⟩
    rw [← hclient]
  · rintro ⟨_, d, ⟨address, l, haddress, hl, rfl⟩, rfl⟩
    have hstep := (hvariable _).mpr ⟨address, l, d, haddress, hl, rfl⟩
    refine ⟨_, _, move_eq_ok.mpr ⟨n, _, hn, hreset, rfl, rfl⟩,
      _, _, move_eq_ok.mpr ⟨_, _, rfl, hunit, rfl, rfl⟩,
      _, _, move_eq_ok.mpr ⟨_, _, rfl, hstep, rfl, rfl⟩, ?_⟩
    rw [← hclient]
    rfl

theorem currentUnit?_of_levels (htag : u.tag = .compileUnit)
    (hlevels : n.levels = [.subject (.variable v), .entry u]) : n.currentUnit? = some u := by
  simp [Navigation.currentUnit?, hlevels, htag]

/-! ## The two ways -/

theorem readNamed_iff (hn : x.nav = some n) (h : n.stream.UnitVariable k u unitName i e name)
    (ht : n.stream.Tidy) :
    (∃ y, execute files (.readVariable (some name)) x = .ok fb y) ↔
      ∃ v d w, x.Declared n.stream e v d ∧ v.read (x.memoryAt (some u)) = .ok w ∧
        fb = .variable w.view := by
  simp only [readNamed_eq_ok, variableNamed_iff_declared hn h ht]
  constructor
  · rintro ⟨_, v, w, ⟨d, hv, rfl⟩, hw, rfl⟩
    exact ⟨v, d, w, hv, hw, rfl⟩
  · rintro ⟨v, d, w, hv, hw, rfl⟩
    exact ⟨_, v, w, ⟨d, hv, rfl⟩, hw, rfl⟩

theorem setNamed_iff (hn : x.nav = some n) (h : n.stream.UnitVariable k u unitName i e name)
    (ht : n.stream.Tidy) {file : Option Contents} :
    (∃ y, execute files (.setVariable (some name) value) x = .ok fb y ∧ y.memory.file = file) ↔
      ∃ v d w m, x.Declared n.stream e v d ∧ v.set value = .ok w ∧
        w.write (x.memoryAt (some u)) = .ok m ∧ fb = .variable w.view ∧ m.file = file := by
  simp only [setNamed_eq_ok, variableNamed_iff_declared hn h ht]
  constructor
  · rintro ⟨_, ⟨v, _, w, m, ⟨d, hv, rfl⟩, hw, hm, rfl, rfl⟩, hfile⟩
    exact ⟨v, d, w, m, hv, hw, hm, rfl, hfile⟩
  · rintro ⟨v, d, w, m, hv, hw, hm, rfl, hfile⟩
    exact ⟨_, ⟨v, _, w, m, ⟨d, hv, rfl⟩, hw, hm, rfl, rfl⟩, hfile⟩

theorem readAtEnd_iff (hx : x.Sound) (hn : x.nav = some n)
    (h : n.stream.UnitVariable k u unitName i e name) (ht : n.stream.Tidy) :
    (∃ y z, Leads files (wayTo unitName name) x y ∧
        execute files (.readVariable none) y = .ok fb z) ↔
      ∃ v d w, x.Declared n.stream e v d ∧ v.read (x.memoryAt (some u)) = .ok w ∧
        fb = .variable w.view := by
  simp only [leads_iff_declared hx hn h ht, readCurrent_eq_ok]
  constructor
  · rintro ⟨_, _, ⟨v, d, hv, rfl⟩, _, v', w, ⟨⟩, hcurrent, hw, rfl, -⟩
    obtain ⟨_, hlevels⟩ := Navigation.currentVariable_eq_ok.mp hcurrent
    cases hlevels
    rw [currentUnit?_of_levels h.unitTag rfl] at hw
    exact ⟨v, d, w, hv, hw, rfl⟩
  · rintro ⟨v, d, w, hv, hw, rfl⟩
    refine ⟨_, _, ⟨v, d, hv, rfl⟩, _, v, w, rfl, rfl, ?_, rfl, rfl⟩
    rw [currentUnit?_of_levels h.unitTag rfl]
    exact hw

theorem setAtEnd_iff (hx : x.Sound) (hn : x.nav = some n)
    (h : n.stream.UnitVariable k u unitName i e name) (ht : n.stream.Tidy)
    {file : Option Contents} :
    (∃ y z, Leads files (wayTo unitName name) x y ∧
        execute files (.setVariable none value) y = .ok fb z ∧ z.memory.file = file) ↔
      ∃ v d w m, x.Declared n.stream e v d ∧ v.set value = .ok w ∧
        w.write (x.memoryAt (some u)) = .ok m ∧ fb = .variable w.view ∧ m.file = file := by
  simp only [leads_iff_declared hx hn h ht, execute_setCurrent, editCurrent_eq_ok]
  constructor
  · rintro ⟨_, _, ⟨v, d, hv, rfl⟩, ⟨_, v', w, m, ⟨⟩, hcurrent, hw, hm, rfl, rfl⟩, hfile⟩
    obtain ⟨_, hlevels⟩ := Navigation.currentVariable_eq_ok.mp hcurrent
    cases hlevels
    rw [currentUnit?_of_levels h.unitTag rfl] at hm
    exact ⟨v, d, w, m, hv, hw, hm, rfl, hfile⟩
  · rintro ⟨v, d, w, m, hv, hw, hm, rfl, hfile⟩
    refine ⟨_, _, ⟨v, d, hv, rfl⟩, ⟨_, v, w, m, rfl, rfl, hw, ?_, rfl, rfl⟩, hfile⟩
    rw [currentUnit?_of_levels h.unitTag rfl]
    exact hm

/-- A variable that stands directly in a compile unit is read, and is set, by its name with just
the same answer and the same memory as when one goes there through the unit. -/
theorem named_iff_steps {b : Stream.Builder} (files : Files) (hx : x.Reachable)
    (hn : x.nav = some n)
    (hb : b.Built) (hstream : n.stream = b.build)
    (h : b.build.UnitVariable k u unitName i e name) :
    (∀ fb, (∃ y, execute files (.readVariable (some name)) x = .ok fb y) ↔
      ∃ y z, Leads files (wayTo unitName name) x y ∧
        execute files (.readVariable none) y = .ok fb z) ∧
    ∀ value fb file,
      (∃ y, execute files (.setVariable (some name) value) x = .ok fb y ∧ y.memory.file = file) ↔
      ∃ y z, Leads files (wayTo unitName name) x y ∧
        execute files (.setVariable none value) y = .ok fb z ∧ z.memory.file = file := by
  have ht := hb.tidy
  rw [← hstream] at h ht
  constructor
  · intro fb
    rw [readNamed_iff hn h ht, readAtEnd_iff hx.sound hn h ht]
  · intro value fb file
    rw [setNamed_iff hn h ht, setAtEnd_iff hx.sound hn h ht]

theorem named_iff_steps_bytePair :
    (∃ fb y, execute noFiles (.readVariable (some "pair")) bytePair = .ok fb y ∧
      ∃ y z, Leads noFiles (wayTo "main.c" "pair") bytePair y ∧
        execute noFiles (.readVariable none) y = .ok fb z) ∧
    ∃ fb y, execute noFiles (.setVariable (some "pair") [1, 2]) bytePair = .ok fb y ∧
      ∃ y' z, Leads noFiles (wayTo "main.c" "pair") bytePair y' ∧
        execute noFiles (.setVariable none [1, 2]) y' = .ok fb z ∧
          z.memory.file = y.memory.file := by
  have hstream : bytePair.nav.map Navigation.stream = some Stream.Builder.bytePair.build := by
    decide +kernel
  obtain ⟨n, hn, hstream⟩ := Option.map_eq_some_iff.mp hstream
  obtain ⟨hread, hset⟩ := named_iff_steps noFiles reachable_bytePair hn
    Stream.Builder.built_bytePair hstream Stream.unitVariable_bytePair
  obtain ⟨fb, hfb⟩ := exists_of_succeeds
    (m := execute noFiles (.readVariable (some "pair"))) (x := bytePair) (by decide +kernel)
  obtain ⟨fb', hfb'⟩ := exists_of_succeeds
    (m := execute noFiles (.setVariable (some "pair") [1, 2])) (x := bytePair) (by decide +kernel)
  exact ⟨⟨fb, _, hfb, (hread fb).mp ⟨_, hfb⟩⟩, ⟨fb', _, hfb', (hset _ fb' _).mp ⟨_, hfb', rfl⟩⟩⟩

end Explorer
end DwarfScope
