import DwarfScope.Proofs.Explorer.Session
import DwarfScope.Proofs.Layout.Resolving

/-!
# Variables by name

A variable that is set by its name is found again if the search comes to the same address and type
from where it was left. This is sure only if the name stands on one entry.
-/

namespace DwarfScope

open Effect

namespace Stream

variable {s : Stream} {e : Entry} {l : Layout} {c d : Cursor} {v : Variable}

/-- Whether an entry has a layout does not depend on the cursor, nor does the layout. -/
theorem resolve_cursor (h : s.resolve e c = .ok l d) (c' : Cursor) : s.resolve e c' = .ok l d := by
  rw [← Walk.outcome_eq_ok] at h ⊢
  rw [← h]
  exact outcome_resolveWithin_cursor e c' c

theorem ofEntry_eq_ok :
    Variable.ofEntry s e c = .ok v d ↔
      ∃ address l, e.location? = some address ∧ s.resolve e c = .ok l d ∧
        v = { name := e.label, layout := l, address } := by
  unfold Variable.ofEntry
  cases e.location? with
  | none => simp
  | some address =>
    simp only [bind_eq_ok, pure_eq_ok]
    constructor
    · rintro ⟨l, _, hl, rfl, rfl⟩
      exact ⟨address, l, rfl, hl, rfl⟩
    · rintro ⟨_, l, ⟨⟩, hl, rfl⟩
      exact ⟨l, d, hl, rfl, rfl⟩

/-- A search for the name that starts at `p` comes to a variable with this address and layout. -/
def Offers (s : Stream) (name : String) (p address : Nat) (l : Layout) : Prop :=
  ∃ i e d, s.Found name p i ∧ s.entries[i]? = some e ∧ s.Seekable e ∧
    e.location? = some address ∧ s.resolve e {} = .ok l d

theorem Offers.of_once {name : String} {p address : Nat} (h : s.Offers name p address l)
    (honce : ∀ i j, s.Named name i → s.Named name j → i = j) (p' : Nat) :
    s.Offers name p' address l := by
  obtain ⟨i, e, d, hi, hrest⟩ := h
  have hfound := found_of_once hi.named (fun j hj => honce j i hj hi.named) p'
  exact ⟨i, e, d, hfound, hrest⟩

end Stream

namespace Memory

variable {m : Memory} {id : Option Nat} {c : Client}

theorem client_of_clientOf? (h : m.clientOf? id = some c) : m.client = some c :=
  (Option.filter_eq_some_iff.mp h).1

theorem clientOf?_own (h : m.client = some c) :
    m.clientOf? (m.client.map Client.id) = some c := by
  unfold clientOf?
  rw [h]
  simp [Option.filter]

end Memory

namespace Explorer

variable {x y : Explorer} {files : Files} {name : String} {value : List UInt8} {v : Variable}
  {view : VariableView}

/-! ## The variable of a name -/

theorem offers_of_variableNamed {n : Navigation} (hn : x.nav = some n)
    (h : variableNamed name x = .ok v y) :
    n.stream.Offers name n.cursor.position v.address v.layout ∧
      v.client = x.memory.client.map Client.id ∧
      ∃ unit d, y = { x with nav := some { n with cursor := d }, memory := x.memoryAt unit } := by
  obtain ⟨n', e, unit, c, w, d, hn', hfind, hw, rfl, rfl⟩ := variableNamed_eq_ok.mp h
  obtain rfl := Option.some.inj (hn.symm.trans hn')
  obtain ⟨i, hi, he, hunit⟩ := Stream.findEntry_eq_ok.mp hfind
  obtain ⟨address, l, haddress, hl, rfl⟩ := Stream.ofEntry_eq_ok.mp hw
  have hseek := Stream.exists_enclosingUnit.mp ⟨unit, c, hunit⟩
  refine ⟨⟨i, e, d, hi, he, hseek, haddress, Stream.resolve_cursor hl {}⟩, rfl, unit, d, rfl⟩

theorem variableNamed_of_offers {n : Navigation} {address : Nat} {l : Layout} (hn : x.nav = some n)
    (h : n.stream.Offers name n.cursor.position address l) :
    ∃ v y unit, variableNamed name x = .ok v y ∧ v.address = address ∧ v.layout = l ∧
      v.client = x.memory.client.map Client.id ∧ y.memory = x.memoryAt unit := by
  obtain ⟨i, e, d, hi, he, hseek, haddress, hl⟩ := h
  obtain ⟨unit, c, hunit⟩ := Stream.exists_enclosingUnit.mpr hseek
  have hfind := Stream.findEntry_eq_ok.mpr ⟨i, hi, he, hunit⟩
  have hw := Stream.ofEntry_eq_ok.mpr ⟨address, l, haddress, Stream.resolve_cursor hl c, rfl⟩
  exact ⟨_, _, unit, variableNamed_eq_ok.mpr ⟨n, e, unit, c, _, d, hn, hfind, hw, rfl, rfl⟩,
    rfl, rfl, rfl, rfl⟩

/-! ## Set, then read -/

def ReadsAs (files : Files) (x : Explorer) (name : String) (address : Nat) (l : Layout)
    (value : List UInt8) : Prop :=
  ∃ w z, execute files (.readVariable (some name)) x = .ok (.variable w) z ∧
    w.address = address ∧ w.layout = l ∧ w.value = some (Hex.encode value)

theorem offers_of_readsAs {n : Navigation} {address : Nat} {l : Layout} (hn : x.nav = some n)
    (h : x.ReadsAs files name address l value) :
    n.stream.Offers name n.cursor.position address l := by
  obtain ⟨_, z, hread, rfl, rfl, -⟩ := h
  obtain ⟨v, w, hv, hw, hview⟩ := readNamed_eq_ok.mp hread
  obtain ⟨_, _, bytes, -, -, -, rfl⟩ := Variable.read_eq_ok.mp hw
  obtain rfl := Feedback.variable.inj hview
  exact (offers_of_variableNamed hn hv).1

theorem readsAs_of_offers {n : Navigation} {address start : Nat} {l : Layout} {offset : Int64}
    {c : Client} (hn : x.nav = some n) (h : n.stream.Offers name n.cursor.position address l)
    (hrule : x.offsetRule = .fixed offset) (hc : x.memory.client = some c)
    (hstart : Contents.position x.memory.lastPosition address offset = .ok start)
    (hvalue : x.memory.contents.read start (l.bitSize / 8) = .ok value) :
    x.ReadsAs files name address l value := by
  obtain ⟨v, y, unit, hv, rfl, rfl, hclient, hmemory⟩ := variableNamed_of_offers hn h
  have hcopy : (x.memoryAt unit).client = some { c with offset } := by
    simp [memoryAt, Memory.setOffset, hc, hrule, OffsetRule.offsetFor]
  have hown : y.memory.clientOf? v.client = some { c with offset } := by
    rw [hmemory, hclient, ← memoryAt_client_id unit]
    exact Memory.clientOf?_own hcopy
  have hread : v.read y.memory = .ok { v with value := some value } := by
    apply Variable.read_eq_ok.mpr
    refine ⟨_, start, value, hown, ?_, ?_, rfl⟩
    · rw [hmemory]
      exact hstart
    · rw [hmemory]
      exact hvalue
  exact ⟨_, y, readNamed_eq_ok.mpr ⟨v, _, hv, hread, rfl⟩, rfl, rfl, rfl⟩

/-- Directly after a variable has been set by its name, it is read by its name with the same
address, type and value exactly if the search now comes to that address and type, which it does if
the name stands on one entry only. -/
theorem read_after_set {offset : Int64} (hrule : x.offsetRule = .fixed offset)
    (h : execute files (.setVariable (some name) value) x = .ok (.variable view) y)
    (hsize : value.length = view.layout.bitSize / 8) :
    ∃ n, y.nav = some n ∧
      (y.ReadsAs files name view.address view.layout value ↔
        n.stream.Offers name n.cursor.position view.address view.layout) ∧
      ((∀ i j, n.stream.Named name i → n.stream.Named name j → i = j) →
        y.ReadsAs files name view.address view.layout value) := by
  obtain ⟨v, z, w, m, hv, hset, hwrite, hview, hy⟩ := setNamed_eq_ok.mp h
  obtain ⟨-, rfl⟩ := Variable.set_eq_ok.mp hset
  obtain rfl := Feedback.variable.inj hview
  obtain ⟨n, _, _, _, _, _, hn, -⟩ := variableNamed_eq_ok.mp hv
  obtain ⟨hoffers, -, unit, d, rfl⟩ := offers_of_variableNamed hn hv
  obtain ⟨c, start, _, hc, hstart, ⟨⟩, rfl⟩ := Variable.write_eq_ok.mp hwrite
  have hnav : y.nav = some { n with cursor := d } := by rw [hy]
  have hrule' : y.offsetRule = .fixed offset := by rw [hy, ← hrule]
  have hclient : y.memory.client = some c := by
    rw [hy]
    exact Memory.client_of_clientOf? hc
  have hoffset : c.offset = offset := by
    rw [offset_of_clientOf? hc, hrule]
    rfl
  have hiff : y.ReadsAs files name v.address v.layout value ↔
      n.stream.Offers name d.position v.address v.layout := by
    constructor
    · exact offers_of_readsAs hnav
    · intro hagain
      have hagainStart : Contents.position y.memory.lastPosition v.address offset = .ok start := by
        rw [hy, ← hoffset]
        exact hstart
      apply readsAs_of_offers hnav hagain hrule' hclient hagainStart
      have hvalue : value.length = v.layout.bitSize / 8 := hsize
      rw [← hvalue, hy]
      exact Contents.read_write
  exact ⟨_, hnav, hiff, fun honce => hiff.mpr (hoffers.of_once honce d.position)⟩

theorem read_after_set_bytePair :
    ∃ view y,
      execute noFiles (.setVariable (some "pair") [1, 2]) bytePair = .ok (.variable view) y ∧
      y.ReadsAs noFiles "pair" view.address view.layout [1, 2] := by
  obtain ⟨fb, h⟩ := exists_of_succeeds
    (m := execute noFiles (.setVariable (some "pair") [1, 2])) (x := bytePair) (by decide +kernel)
  obtain ⟨v, z, w, m, hv, hset, -, rfl, hy⟩ := setNamed_eq_ok.mp h
  have hbits : (result? (variableNamed "pair") bytePair).map (·.layout.bitSize) = some 16 := by
    decide +kernel
  have hsize : [1, 2].length = w.view.layout.bitSize / 8 := by
    rw [result?_of_ok hv, Option.map_some, Option.some.injEq] at hbits
    rw [(Variable.set_eq_ok.mp hset).2]
    show 2 = v.layout.bitSize / 8
    rw [hbits]
  have hrule : bytePair.offsetRule = .fixed 0 := by decide +kernel
  obtain ⟨n, hn, -, honce⟩ := read_after_set hrule h hsize
  have hstream : (after (execute noFiles (.setVariable (some "pair") [1, 2])) bytePair).nav.map
      Navigation.stream = some Stream.Builder.bytePair.build := by decide +kernel
  rw [hn, Option.map_some, Option.some.injEq] at hstream
  refine ⟨w.view, _, h, honce ?_⟩
  rw [hstream]
  intro i j hi hj
  rw [Stream.named_bytePair hi, Stream.named_bytePair hj]

end Explorer

/-- Two compile units with a variable of the same name. The type of the first variable stands
behind it, so that the search goes on from there. -/
def Stream.Builder.twoUnits : Stream.Builder :=
  ((((((({} : Builder).begin .compileUnit [(.name, .text "a.c")]).leaf
    .var [(.name, .text "x"), (.type, .ref 13), (.location, .address 0)]).leaf
    .baseType [(.name, .text "byte"), (.byteSize, .udata 1)]).close).begin
    .compileUnit [(.name, .text "b.c")]).leaf
    .var [(.name, .text "x"), (.type, .ref 13), (.location, .address 1)]).close

def Explorer.twoUnits : Explorer :=
  Explorer.setEntries { memory := { file := some #[0, 0], client := some ⟨0, 0⟩, issued := 1 } }
    Stream.Builder.twoUnits.build

/-- The variable of the first unit is set, and that of the second one is read. -/
theorem Explorer.read_after_set_other_unit :
    twoUnits.Reachable ∧ twoUnits.offsetRule = .fixed 0 ∧
      ∃ view y, execute noFiles (.setVariable (some "x") [5]) twoUnits = .ok (.variable view) y ∧
        [5].length = view.layout.bitSize / 8 ∧
        ¬ y.ReadsAs noFiles "x" view.address view.layout [5] := by
  obtain ⟨fb, h⟩ := exists_of_succeeds
    (m := execute noFiles (.setVariable (some "x") [5])) (x := twoUnits) (by decide +kernel)
  obtain ⟨v, z, w, m, hv, hset, -, rfl, -⟩ := setNamed_eq_ok.mp h
  have hfirst : (result? (variableNamed "x") twoUnits).map
      (fun v => (v.address, v.layout.bitSize)) = some (0, 8) := by decide +kernel
  have hsecond : (result? (variableNamed "x")
      (after (execute noFiles (.setVariable (some "x") [5])) twoUnits)).map (·.address) =
        some 1 := by
    decide +kernel
  rw [result?_of_ok hv, Option.map_some, Option.some.injEq, Prod.mk.injEq] at hfirst
  obtain ⟨haddress, hbits⟩ := hfirst
  obtain ⟨-, rfl⟩ := Variable.set_eq_ok.mp hset
  refine ⟨(Reachable.start _ _).entries _, by decide +kernel, _, _, h, ?_, ?_⟩
  · show 1 = v.layout.bitSize / 8
    rw [hbits]
  · rintro ⟨view, z', hread, hsame, -, -⟩
    obtain ⟨v', w', hv', hw', hview⟩ := readNamed_eq_ok.mp hread
    obtain ⟨_, _, _, -, -, -, rfl⟩ := Variable.read_eq_ok.mp hw'
    obtain rfl := Feedback.variable.inj hview
    rw [result?_of_ok hv', Option.map_some, Option.some.injEq] at hsecond
    have hzero : v'.address = v.address := hsame
    rw [hsecond, haddress] at hzero
    cases hzero

end DwarfScope
