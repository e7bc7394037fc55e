import DwarfScope.Proofs.Effect
import DwarfScope.Proofs.Memory

/-!
# Variables in use

A variable is set, read, written and taken apart, in any order and in whatever memory there is
then. Its cached value always fits its type, and an operation that fails changes nothing.
-/

namespace DwarfScope.Variable

open Effect

variable {v w : Variable} {m : Memory} {bytes part : List UInt8} {field : String} {s : Span}

/-! ## Parts of a value -/

theorem slice?_eq_some :
    slice? bytes s = some part ↔
      s.start + s.length ≤ bytes.length ∧ part = (bytes.drop s.start).take s.length := by
  unfold slice?
  split
  case isTrue h => simp [h, eq_comm]
  case isFalse h => simp [h]

theorem length_of_slice? (h : slice? bytes s = some part) : part.length = s.length := by
  obtain ⟨hfits, rfl⟩ := slice?_eq_some.mp h
  rw [List.length_take, List.length_drop]
  omega

theorem getElem?_of_slice? {i : Nat} (h : slice? bytes s = some part) (hi : i < s.length) :
    part[i]? = bytes[s.start + i]? := by
  obtain ⟨-, rfl⟩ := slice?_eq_some.mp h
  rw [List.getElem?_take, if_pos hi, List.getElem?_drop]

theorem span_eq_ok :
    v.span field = .ok s ↔
      ∃ l, v.layout.member field = .ok l ∧ l.structOffset % 8 = 0 ∧ l.bitSize % 8 = 0 ∧
        s = ⟨l.structOffset / 8, l.bitSize / 8⟩ := by
  unfold span
  cases v.layout.member field with
  | error e => simp [bind, Except.bind]
  | ok l =>
    by_cases hoffset : l.structOffset % 8 = 0
    · by_cases hsize : l.bitSize % 8 = 0
      · simp [bind, Except.bind, pure, Except.pure, hoffset, hsize, eq_comm]
      · simp [bind, Except.bind, throw, throwThe, MonadExceptOf.throw, hoffset, hsize]
    · simp [bind, Except.bind, throw, throwThe, MonadExceptOf.throw, hoffset]

theorem member_eq_ok :
    v.member field = .ok w ↔
      ∃ s l, v.span field = .ok s ∧ v.layout.member field = .ok l ∧
        w = { name := field, layout := l, address := v.address + s.start,
              value := v.value.bind (slice? · s), client := v.client } := by
  unfold member
  cases v.span field with
  | error e => simp [bind, Except.bind]
  | ok s =>
    cases v.layout.member field with
    | error e => simp [bind, Except.bind]
    | ok l => simp [bind, Except.bind, pure, Except.pure, eq_comm]

/-! ## Operations -/

inductive Operation where
  | set (bytes : List UInt8)
  | setField (field : String) (n : UInt64)
  | read
  | write
  /-- Another client is used from now on. -/
  | attach (client : Option Nat)
  /-- A member is taken. The variable itself stays what it is. -/
  | member (field : String)
  deriving Repr, DecidableEq

abbrev Use := EStateM Error (Variable × Memory)

def update (f : Variable → Memory → Except Error Variable) : Use Unit := do
  let (v, m) ← MonadState.get
  let w ← ofExcept (f v m)
  modify fun x => (w, x.2)

def Operation.perform : Operation → Use Unit
  | set bytes => update fun v _ => v.set bytes
  | setField field n => update fun v _ => v.setField field n
  | read => update fun v m => v.read m
  | write => do
    let (v, m) ← MonadState.get
    let m ← ofExcept (v.write m)
    modify fun x => (x.1, m)
  | attach client => update fun v _ => .ok { v with client }
  | member field => do
    let (v, _) ← MonadState.get
    let _ ← ofExcept (v.member field)

theorem update_eq_ok {f : Variable → Memory → Except Error Variable} {u : Unit}
    {y : Variable × Memory} :
    update f (v, m) = .ok u y ↔ ∃ w, f v m = .ok w ∧ y = (w, m) := by
  simp only [update, bind_eq_ok, Effect.get_eq_ok, Direct.ofExcept_eq_ok, modify_eq_ok]
  constructor
  · rintro ⟨_, _, ⟨rfl, rfl⟩, w, _, ⟨hw, rfl⟩, rfl⟩
    exact ⟨w, hw, rfl⟩
  · rintro ⟨w, hw, rfl⟩
    exact ⟨_, _, ⟨rfl, rfl⟩, w, _, ⟨hw, rfl⟩, rfl⟩

theorem update_eq_error {f : Variable → Memory → Except Error Variable} {e : Error}
    {y : Variable × Memory} :
    update f (v, m) = .error e y ↔ f v m = .error e ∧ y = (v, m) := by
  simp only [update, bind_eq_error, Effect.get_eq_ok, Direct.ofExcept_eq_error]
  constructor
  · rintro (⟨⟨⟩⟩ | ⟨_, _, ⟨rfl, rfl⟩, h | ⟨_, _, -, ⟨⟩⟩⟩)
    exact h
  · rintro h
    exact .inr ⟨_, _, ⟨rfl, rfl⟩, .inl h⟩

theorem update_keepsFailing (f : Variable → Memory → Except Error Variable) :
    KeepsFailing id (update f) := by
  apply KeepsFailing.bind Keeps.get
  rintro ⟨v, m⟩
  apply KeepsFailing.bind (Direct.keeps_ofExcept _)
  rintro w x e y ⟨⟩

theorem Operation.perform_keepsFailing (o : Operation) : KeepsFailing id o.perform := by
  cases o with
  | set bytes => exact update_keepsFailing fun v _ => v.set bytes
  | setField field n => exact update_keepsFailing fun v _ => v.setField field n
  | read => exact update_keepsFailing fun v m => v.read m
  | write =>
    apply KeepsFailing.bind Keeps.get
    rintro ⟨v, m⟩
    apply KeepsFailing.bind (Direct.keeps_ofExcept _)
    rintro m' x e y ⟨⟩
  | attach client => exact update_keepsFailing fun v _ => .ok { v with client }
  | member field =>
    apply KeepsFailing.bind Keeps.get
    rintro ⟨v, m⟩
    exact (Keeps.bind (Direct.keeps_ofExcept _) fun _ => Keeps.pure _).failing

/-! ## The size of a value -/

/-- The cached value, if there is one, is not larger than the type. -/
def Fits (v : Variable) : Prop :=
  ∀ bytes, v.value = some bytes → 8 * bytes.length ≤ v.layout.bitSize

theorem fits_of_set (h : v.set bytes = .ok w) : w.Fits := by
  obtain ⟨hsize, rfl⟩ := set_eq_ok.mp h
  rintro _ ⟨⟩
  exact hsize

theorem fits_of_read (h : v.read m = .ok w) : w.Fits := by
  obtain ⟨_, _, bytes, -, -, hread, rfl⟩ := read_eq_ok.mp h
  obtain ⟨hlength, -⟩ := Contents.read_eq_ok.mp hread
  rintro _ ⟨⟩
  show 8 * bytes.length ≤ v.layout.bitSize
  omega

theorem Fits.setField {n : UInt64} (hv : v.Fits) (h : v.setField field n = .ok w) : w.Fits := by
  obtain ⟨s, bytes, -, hbytes, hfits, rfl⟩ := setField_eq_ok.mp h
  rintro _ ⟨⟩
  rw [length_overwrite hfits]
  exact hv bytes hbytes

/-- A member is made of whole bytes, so its part of the value is just as large as its type. -/
theorem fits_of_member (h : v.member field = .ok w) : w.Fits := by
  obtain ⟨s, l, hs, hl, rfl⟩ := member_eq_ok.mp h
  obtain ⟨l', hl', -, hsize, rfl⟩ := span_eq_ok.mp hs
  obtain rfl := Except.ok.inj (hl.symm.trans hl')
  intro part hpart
  obtain ⟨bytes, -, hslice⟩ := Option.bind_eq_some_iff.mp hpart
  have hlength : part.length = l.bitSize / 8 := length_of_slice? hslice
  show 8 * part.length ≤ l.bitSize
  omega

theorem Fits.perform {o : Operation} {u : Unit} {y : Variable × Memory} (hv : v.Fits)
    (h : o.perform (v, m) = .ok u y) : y.1.Fits := by
  cases o with
  | set bytes =>
    simp only [Operation.perform, update_eq_ok] at h
    obtain ⟨w, hw, rfl⟩ := h
    exact fits_of_set hw
  | setField field n =>
    simp only [Operation.perform, update_eq_ok] at h
    obtain ⟨w, hw, rfl⟩ := h
    exact hv.setField hw
  | read =>
    simp only [Operation.perform, update_eq_ok] at h
    obtain ⟨w, hw, rfl⟩ := h
    exact fits_of_read hw
  | write =>
    simp only [Operation.perform, bind_eq_ok, Effect.get_eq_ok,
      Direct.ofExcept_eq_ok, modify_eq_ok] at h
    obtain ⟨_, _, ⟨rfl, rfl⟩, _, _, ⟨-, rfl⟩, rfl⟩ := h
    exact hv
  | attach client =>
    simp only [Operation.perform, update_eq_ok] at h
    obtain ⟨w, ⟨⟩, rfl⟩ := h
    exact hv
  | member field =>
    simp only [Operation.perform, bind_eq_ok, Effect.get_eq_ok,
      Direct.ofExcept_eq_ok, pure_eq_ok] at h
    obtain ⟨_, _, ⟨rfl, rfl⟩, _, _, ⟨-, rfl⟩, -, rfl⟩ := h
    exact hv

/-! ## All variables -/

/-- The variables that come about: made for an entry or with a known layout, used in whatever
memory there is then, and taken out of other variables. -/
inductive Used : Variable → Prop
  | ofLayout (name : String) (layout : Layout) (address : Nat) : Used { name, layout, address }
  | ofEntry {stream : Stream} {e : Entry} {v : Variable} {c d : Cursor} :
    Variable.ofEntry stream e c = .ok v d → Used v
  | operation {v : Variable} (o : Operation) (m : Memory) : Used v →
    Used (after o.perform (v, m)).1
  | member {v w : Variable} {field : String} : Used v → v.member field = .ok w → Used w

theorem value_of_ofEntry {stream : Stream} {e : Entry} {c d : Cursor}
    (h : Variable.ofEntry stream e c = .ok v d) : v.value = none := by
  unfold ofEntry at h
  cases hlocation : e.location? with
  | none => simp [hlocation] at h
  | some address =>
    simp only [hlocation, bind_eq_ok, pure_eq_ok] at h
    obtain ⟨l, _, -, rfl, -⟩ := h
    rfl

theorem Used.fits (h : v.Used) : v.Fits := by
  induction h with
  | ofLayout name layout address => rintro _ ⟨⟩
  | ofEntry h =>
    intro bytes hbytes
    rw [value_of_ofEntry h] at hbytes
    cases hbytes
  | @operation v o m _ ih =>
    unfold after
    cases hrun : o.perform (v, m) with
    | ok u y => exact ih.perform hrun
    | error e y =>
      obtain rfl : y = (v, m) := o.perform_keepsFailing _ _ _ hrun
      exact ih
  | member _ hw => exact fits_of_member hw

theorem set_eq_error {e : Error} :
    v.set bytes = .error e ↔
      v.layout.bitSize < 8 * bytes.length ∧
        e = .sizeMismatch (8 * bytes.length) v.layout.bitSize := by
  unfold Variable.set
  split
  case isTrue h => simp [h, eq_comm]
  case isFalse h => simp [h]

theorem read_of_answer {c : Client} (hc : v.clientIn m = .ok c)
    (h : m.read c v.address (v.layout.bitSize / 8) = .ok bytes) :
    bytes.length = v.layout.bitSize / 8 ∧ v.read m = .ok { v with value := some bytes } := by
  obtain ⟨start, hstart, hread⟩ : ∃ start,
      Contents.position m.lastPosition v.address c.offset = .ok start ∧
      m.contents.read start (v.layout.bitSize / 8) = .ok bytes := by
    unfold Memory.read at h
    cases hstart : Contents.position m.lastPosition v.address c.offset with
    | error e => simp [hstart, bind, Except.bind] at h
    | ok start => exact ⟨start, rfl, by simpa [hstart, bind, Except.bind] using h⟩
  obtain ⟨hlength, -⟩ := Contents.read_eq_ok.mp hread
  exact ⟨hlength, read_eq_ok.mpr ⟨c, start, bytes, clientIn_eq_ok.mp hc, hstart, hread, rfl⟩⟩

theorem read_eq_error {e : Error} (h : v.read m = .error e) :
    v.clientIn m = .error e ∨
      ∃ c, v.clientIn m = .ok c ∧ m.read c v.address (v.layout.bitSize / 8) = .error e := by
  cases hc : v.clientIn m with
  | error e' =>
    left
    simpa [read, hc, bind, Except.bind] using h
  | ok c =>
    right
    refine ⟨c, rfl, ?_⟩
    cases hread : m.read c v.address (v.layout.bitSize / 8) with
    | error e' => simpa [read, hc, hread, bind, Except.bind] using h
    | ok bytes =>
      rw [(read_of_answer hc hread).2] at h
      cases h

theorem read_ne_sizeMismatch {valueBits typeBits : Nat} :
    v.read m ≠ .error (.sizeMismatch valueBits typeBits) := by
  intro h
  rcases read_eq_error h with hc | ⟨c, -, hread⟩
  · unfold clientIn at hc
    split at hc <;> cases hc
  · unfold Memory.read at hread
    cases hstart : Contents.position m.lastPosition v.address c.offset with
    | error e =>
      obtain rfl : e = .sizeMismatch valueBits typeBits := by
        simpa [hstart, bind, Except.bind] using hread
      unfold Contents.position at hstart
      grind
    | ok start =>
      rw [hstart] at hread
      simp only [bind, Except.bind, Contents.read] at hread
      split at hread <;> cases hread

/-- However a variable came about and was used: its cached value is not larger than its type, it
can be set to just the values that are not, a read that its client answers gives it as many bytes
as its type is long, rounded down, and what fails changes nothing. -/
theorem value_fits (h : v.Used) :
    (∀ bytes, v.value = some bytes → 8 * bytes.length ≤ v.layout.bitSize) ∧
    (∀ bytes e, v.set bytes = .error e ↔
      v.layout.bitSize < 8 * bytes.length ∧
        e = .sizeMismatch (8 * bytes.length) v.layout.bitSize) ∧
    (∀ m c bytes, v.clientIn m = .ok c →
      m.read c v.address (v.layout.bitSize / 8) = .ok bytes →
      bytes.length = v.layout.bitSize / 8 ∧ v.read m = .ok { v with value := some bytes }) ∧
    (∀ m valueBits typeBits, v.read m ≠ .error (.sizeMismatch valueBits typeBits)) ∧
    ∀ (o : Operation) m e y, o.perform (v, m) = .error e y → y = (v, m) := by
  refine ⟨h.fits, fun bytes e => set_eq_error, fun m c bytes hc hread => read_of_answer hc hread,
    fun m valueBits typeBits => read_ne_sizeMismatch, fun o m e y hfails => ?_⟩
  exact o.perform_keepsFailing _ _ _ hfails

/-- A variable of twelve bits, in a memory of two bytes. -/
def twelveBits : Variable where
  name := "odd"
  layout := { name := "odd", bitSize := 12 }
  address := 0

def twoBytes : Memory := { file := some #[7, 9], client := some ⟨0, 0⟩, issued := 1 }

theorem value_fits_twelveBits :
    ∃ v : Variable, v.Used ∧ v.value = some [7] ∧ 8 * [7].length ≤ v.layout.bitSize ∧
      v.set [1, 2] = .error (.sizeMismatch 16 12) := by
  let attached := (after (Operation.attach (some 0)).perform (twelveBits, twoBytes)).1
  have hused : Used (after Operation.read.perform (attached, twoBytes)).1 :=
    .operation .read twoBytes (.operation (.attach (some 0)) twoBytes (.ofLayout _ _ _))
  obtain ⟨hfits, hset, -, -, -⟩ := value_fits hused
  have hvalue : (after Operation.read.perform (attached, twoBytes)).1.value = some [7] := by
    decide +kernel
  have hlong := (hset [1, 2] (.sizeMismatch 16 12)).mpr ⟨by decide +kernel, by decide +kernel⟩
  exact ⟨_, hused, hvalue, hfits [7] hvalue, hlong⟩

end DwarfScope.Variable
