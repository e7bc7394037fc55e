import DwarfScope.Proofs.Explorer.Session

/-!
# Setting a field

A field is set in the cached value of the current variable, and that value is written as a whole.
What the file holds beside the field is lost where the cached value is out of date.
-/

namespace DwarfScope

open Effect

/-- The position holds a byte of the span, in a variable that lies at `start`. -/
def Variable.Span.At (s : Variable.Span) (start i : Nat) : Prop :=
  start + s.start ≤ i ∧ i < start + s.start + s.length

theorem Navigation.currentUnit?_setCurrentVariable (n : Navigation) (v : Variable) :
    (n.setCurrentVariable v).currentUnit? = n.currentUnit? := by
  unfold setCurrentVariable
  split
  · rename_i w rest h
    simp only [currentUnit?, h, List.reverse_cons, List.findSome?_append]
    rfl
  · rfl

theorem Navigation.currentVariable_setCurrentVariable {n : Navigation} {v : Variable}
    (h : n.currentVariable = .ok v) (w : Variable) :
    (n.setCurrentVariable w).currentVariable = .ok w := by
  obtain ⟨rest, hlevels⟩ := currentVariable_eq_ok.mp h
  rw [setCurrentVariable_eq hlevels]
  exact currentVariable_eq_ok.mpr ⟨rest, rfl⟩

namespace Explorer

variable {x y : Explorer} {files : Files} {field : String} {n : UInt64} {fb : Feedback}

/-! ## What is written -/

/-- Where a variable lies in the file. -/
def LiesAt (x : Explorer) (v : Variable) (unit : Option Entry) (start : Nat) : Prop :=
  (start : Int) = v.address - (x.offsetRule.offsetFor unit).toInt

theorem write_eq_ok {v : Variable} {unit : Option Entry} {m : Memory}
    (h : v.write (x.memoryAt unit) = .ok m) :
    ∃ start bytes, x.LiesAt v unit start ∧ v.value = some bytes ∧
      m.contents = x.memory.contents.write start bytes := by
  obtain ⟨c, start, bytes, hc, hstart, hvalue, rfl⟩ := Variable.write_eq_ok.mp h
  refine ⟨start, bytes, ?_, hvalue, rfl⟩
  unfold LiesAt
  rw [← offset_of_clientOf? hc]
  exact Contents.position_eq_ok hstart

theorem setField_writes (h : execute files (.setField field n) x = .ok fb y) :
    ∃ nav v s bytes start, x.nav = some nav ∧ nav.currentVariable = .ok v ∧
      v.span field = .ok s ∧ v.value = some bytes ∧ s.start + s.length ≤ bytes.length ∧
      x.LiesAt v nav.currentUnit? start ∧
      y.memory.contents = x.memory.contents.write start (Variable.overwrite bytes s n) := by
  rw [execute_setField] at h
  obtain ⟨nav, v, w, m, hnav, hv, hw, hm, -, rfl⟩ := editCurrent_eq_ok.mp h
  obtain ⟨s, bytes, hs, hbytes, hfits, rfl⟩ := Variable.setField_eq_ok.mp hw
  obtain ⟨start, _, hstart, ⟨⟩, hm⟩ := write_eq_ok hm
  exact ⟨nav, v, s, bytes, start, hnav, hv, hs, hbytes, hfits, hstart, hm⟩

section

variable {file : Contents} {bytes : List UInt8} {s : Variable.Span} {start i : Nat}

theorem field_written (hfits : s.start + s.length ≤ bytes.length) (hi : i < s.length) :
    (file.write start (Variable.overwrite bytes s n))[start + s.start + i]? =
      (Binary.bigEndianBytes s.length n.toNat)[i]? := by
  have hlength := Variable.length_overwrite (n := n) hfits
  rw [Contents.getElem?_write, if_pos (by omega), Variable.getElem?_overwrite hfits,
    if_pos (by omega)]
  congr 1
  omega

theorem rest_written (hfits : s.start + s.length ≤ bytes.length) (hi : i < bytes.length)
    (hout : ¬ s.At start (start + i)) :
    (file.write start (Variable.overwrite bytes s n))[start + i]? = bytes[i]? := by
  have hlength := Variable.length_overwrite (n := n) hfits
  unfold Variable.Span.At at hout
  rw [Contents.getElem?_write, if_pos (by omega), Variable.getElem?_overwrite hfits,
    if_neg (by omega), Nat.add_sub_cancel_left]

theorem outside_written (hfits : s.start + s.length ≤ bytes.length)
    (hi : i < start ∨ start + bytes.length ≤ i) :
    (file.write start (Variable.overwrite bytes s n))[i]? =
      if bytes ≠ [] ∧ file.size ≤ i ∧ i < start then some 0 else file[i]? := by
  have hlength := Variable.length_overwrite (n := n) hfits
  rw [Contents.getElem?_write, if_neg (by omega)]
  simp only [ne_eq, ← List.length_eq_zero_iff, hlength]

/-- A write of the cached value changes the field only exactly if the file reaches up to the
variable and the rest of the value is what the file holds. -/
theorem only_field_written_iff (hfits : s.start + s.length ≤ bytes.length) :
    (∀ i, ¬ s.At start i →
      (file.write start (Variable.overwrite bytes s n))[i]? = file[i]?) ↔
      (bytes = [] ∨ start ≤ file.size) ∧
      ∀ i < bytes.length, ¬ s.At start (start + i) → file[start + i]? = bytes[i]? := by
  have hlength := Variable.length_overwrite (n := n) hfits
  have hat : ∀ i, s.At start i → start ≤ i ∧ i < start + (Variable.overwrite bytes s n).length := by
    rintro i ⟨hfrom, hto⟩
    omega
  have hrest : ∀ i, ¬ s.At start (start + i) → (Variable.overwrite bytes s n)[i]? = bytes[i]? := by
    intro i hout
    unfold Variable.Span.At at hout
    rw [Variable.getElem?_overwrite hfits, if_neg (by omega)]
  rw [Contents.write_unchanged_iff hat, ← List.length_eq_zero_iff, hlength,
    List.length_eq_zero_iff]
  constructor
  · rintro ⟨hgap, hcached⟩
    exact ⟨hgap, fun i hi hout => by rw [hcached i hi hout, hrest i hout]⟩
  · rintro ⟨hgap, hcached⟩
    exact ⟨hgap, fun i hi hout => by rw [hcached i hi hout, hrest i hout]⟩

end

/-- What the file is after a field has been set: the field has its number, the rest of the variable
has the cached bytes, and outside of the variable only a gap in front of it is filled. So nothing
beside the field changes exactly if there is no gap and the rest of the cached value is what the
file held before. -/
theorem setField_file (h : execute files (.setField field n) x = .ok fb y) :
    ∃ nav v s bytes start, x.nav = some nav ∧ nav.currentVariable = .ok v ∧
      v.span field = .ok s ∧ v.value = some bytes ∧ s.start + s.length ≤ bytes.length ∧
      x.LiesAt v nav.currentUnit? start ∧
      (∀ i < s.length, y.memory.contents[start + s.start + i]? =
        (Binary.bigEndianBytes s.length n.toNat)[i]?) ∧
      (∀ i < bytes.length, ¬ s.At start (start + i) →
        y.memory.contents[start + i]? = bytes[i]?) ∧
      (∀ i, i < start ∨ start + bytes.length ≤ i → y.memory.contents[i]? =
        if bytes ≠ [] ∧ x.memory.contents.size ≤ i ∧ i < start then some 0
        else x.memory.contents[i]?) ∧
      ((∀ i, ¬ s.At start i → y.memory.contents[i]? = x.memory.contents[i]?) ↔
        (bytes = [] ∨ start ≤ x.memory.contents.size) ∧
        ∀ i < bytes.length, ¬ s.At start (start + i) →
          x.memory.contents[start + i]? = bytes[i]?) := by
  obtain ⟨nav, v, s, bytes, start, hnav, hv, hs, hbytes, hfits, hstart, hfile⟩ := setField_writes h
  refine ⟨nav, v, s, bytes, start, hnav, hv, hs, hbytes, hfits, hstart, ?_⟩
  rw [hfile]
  exact ⟨fun i hi => field_written hfits hi, fun i hi hout => rest_written hfits hi hout,
    fun i hi => outside_written hfits hi, only_field_written_iff hfits⟩

theorem setField_file_bytePair :
    ∃ fb y, execute noFiles (.setField "a" 2) bytePair = .ok fb y ∧
      y.memory.contents[0]? = some 2 ∧ y.memory.contents[1]? = some 0 := by
  obtain ⟨fb, h⟩ := exists_of_succeeds
    (m := execute noFiles (.setField "a" 2)) (x := bytePair) (by decide +kernel)
  refine ⟨fb, _, h, ?_⟩
  obtain ⟨nav, v, s, bytes, start, hnav, hv, hs, hbytes, -, hstart, hfield, hrest, -, -⟩ :=
    setField_file h
  have hcurrent : bytePair.current?.map (fun v => (v.address, v.value, (v.span "a").toOption)) =
      some (0, some [0, 0], some ⟨0, 1⟩) := by decide +kernel
  rw [current?_eq_some.mpr ⟨nav, hnav, hv⟩] at hcurrent
  simp only [Option.map_some, hbytes, hs, Except.toOption, Option.some.injEq, Prod.mk.injEq]
    at hcurrent
  obtain ⟨haddress, rfl, rfl⟩ := hcurrent
  have hrule : bytePair.offsetRule = .fixed 0 := by decide +kernel
  obtain rfl : start = 0 := by
    rw [LiesAt, haddress, hrule] at hstart
    simpa [OffsetRule.offsetFor] using hstart
  exact ⟨hfield 0 (by decide), hrest 1 (by decide) (by simp [Variable.Span.At])⟩

/-- The variable has been set by its name, so the cached value is out of date. -/
def outdated : Explorer :=
  (bytePair.runAll noFiles [.setVariable (some "pair") [1, 1]]).get (by decide +kernel)

/-- The field is the first byte. The second byte, which was set by name, is lost. -/
theorem setField_loses_byte :
    outdated.Reachable ∧
      outdated.current?.map (fun v => (v.address, (v.span "a").toOption)) = some (0, some ⟨0, 1⟩) ∧
      outdated.offsetRule = .fixed 0 ∧
      ∃ fb y, execute noFiles (.setField "a" 2) outdated = .ok fb y ∧
        outdated.memory.file = some #[1, 1] ∧ y.memory.file = some #[2, 0] := by
  obtain ⟨fb, h⟩ := exists_of_succeeds
    (m := execute noFiles (.setField "a" 2)) (x := outdated) (by decide +kernel)
  refine ⟨reachable_bytePair.runAll (Option.some_get _).symm, ?_, ?_, fb, _, h, ?_, ?_⟩ <;>
    decide +kernel

/-! ## Values that are up to date -/

/-- The cached value of the current variable is what the memory holds. -/
def Fresh (x : Explorer) : Prop :=
  ∃ nav v bytes start, x.nav = some nav ∧ nav.currentVariable = .ok v ∧ v.value = some bytes ∧
    x.LiesAt v nav.currentUnit? start ∧
    ∀ i < bytes.length, x.memory.contents[start + i]? = bytes[i]?

theorem fresh_of_read (h : execute files (.readVariable none) x = .ok fb y) : y.Fresh := by
  obtain ⟨nav, v, w, hnav, hv, hw, -, rfl⟩ := readCurrent_eq_ok.mp h
  obtain ⟨c, start, bytes, hc, hstart, hread, rfl⟩ := Variable.read_eq_ok.mp hw
  obtain ⟨hlength, hbytes⟩ := Contents.read_eq_ok.mp hread
  refine ⟨_, _, bytes, start, rfl, Navigation.currentVariable_setCurrentVariable hv _, rfl, ?_, ?_⟩
  · rw [Navigation.currentUnit?_setCurrentVariable, LiesAt]
    rw [← offset_of_clientOf? hc]
    exact Contents.position_eq_ok hstart
  · rw [hlength]
    exact hbytes

theorem fresh_of_edit {edit : Variable → Except Error Variable}
    (h : editCurrent edit x = .ok fb y) : y.Fresh := by
  obtain ⟨nav, v, w, m, hnav, hv, -, hm, -, rfl⟩ := editCurrent_eq_ok.mp h
  obtain ⟨start, bytes, hstart, hbytes, hcontents⟩ := write_eq_ok hm
  refine ⟨_, w, bytes, start, rfl, Navigation.currentVariable_setCurrentVariable hv w, hbytes,
    ?_, ?_⟩
  · rw [Navigation.currentUnit?_setCurrentVariable]
    exact hstart
  · intro i hi
    dsimp only
    rw [hcontents, Contents.getElem?_write, if_pos (by omega), Nat.add_sub_cancel_left]

theorem Fresh.of_shown_eq (hx : x.Fresh) (h : y.shown = x.shown) : y.Fresh := by
  obtain ⟨nav, v, bytes, start, hnav, hv, hbytes, hstart, hfile⟩ := hx
  obtain ⟨hrule, -, hshown, hmemory⟩ := shown_eq_shown.mp h
  rw [hnav] at hshown
  obtain ⟨nav', hnav', hsame⟩ := Option.map_eq_some_iff.mp hshown
  have heq := Navigation.eq_of_shown_eq hsame
  have hcontents : (y.memory.setOffset 0).contents = (x.memory.setOffset 0).contents := by
    rw [hmemory]
  refine ⟨nav', v, bytes, start, hnav', ?_, hbytes, ?_, ?_⟩
  · rw [heq]
    exact hv
  · rw [heq, LiesAt, hrule]
    exact hstart
  · intro i hi
    rw [← hfile i hi]
    exact congrArg (·[start + i]?) hcontents

theorem Fresh.runAll {cs : List Command} (hx : x.Fresh) (h : ∀ c ∈ cs, c.asks = true)
    (hy : x.runAll files cs = some y) : y.Fresh := by
  induction cs generalizing x with
  | nil =>
    obtain rfl := Option.some.inj hy
    exact hx
  | cons c cs ih =>
    obtain ⟨fb, z, hz, hy⟩ := runAll_cons.mp hy
    have hc := shown_of_asks (h c List.mem_cons_self) hz
    exact ih (hx.of_shown_eq hc) (fun c' hc' => h c' (List.mem_cons_of_mem c hc')) hy

/-- As long as the cached value is up to date, setting a field changes no other byte. -/
theorem Fresh.setField (hx : x.Fresh) (h : execute files (.setField field n) x = .ok fb y) :
    ∃ nav v s start, x.nav = some nav ∧ nav.currentVariable = .ok v ∧ v.span field = .ok s ∧
      x.LiesAt v nav.currentUnit? start ∧
      (∀ i < s.length, y.memory.contents[start + s.start + i]? =
        (Binary.bigEndianBytes s.length n.toNat)[i]?) ∧
      ∀ i, ¬ s.At start i → y.memory.contents[i]? = x.memory.contents[i]? := by
  obtain ⟨nav, v, s, bytes, start, hnav, hv, hs, hbytes, hfits, hstart, hwritten⟩ :=
    setField_writes h
  obtain ⟨nav', v', bytes', start', hnav', hv', hbytes', hstart', hfile⟩ := hx
  obtain rfl := Option.some.inj (hnav.symm.trans hnav')
  obtain rfl := Except.ok.inj (hv.symm.trans hv')
  obtain rfl := Option.some.inj (hbytes.symm.trans hbytes')
  obtain rfl : start = start' := Int.ofNat.inj (hstart.trans hstart'.symm)
  refine ⟨nav, v, s, start, hnav, hv, hs, hstart, ?_⟩
  rw [hwritten]
  refine ⟨fun i hi => field_written hfits hi, (only_field_written_iff hfits).mpr ?_⟩
  refine ⟨?_, fun i hi _ => hfile i hi⟩
  rcases bytes with _ | ⟨b, bytes⟩
  · exact .inl rfl
  · right
    have hfirst := hfile 0 (by simp)
    obtain ⟨hlt, -⟩ := Array.getElem?_eq_some_iff.mp hfirst
    omega

end Explorer
end DwarfScope
