import DwarfScope.Proofs.Dwarf.Loading
import Mathlib.Data.List.ReduceOption

/-!
# Positions of units and entries

The units of a section follow each other without a gap, and within a unit every entry stands
further on than the one before it. So the position of an entry in the section belongs to it alone.
-/

namespace DwarfScope.Dwarf

open Effect

namespace Read

variable {α β : Type} {i j k : Input} {n : Nat}

theorem get_bind {f : Input → Read β} : ((get : Read Input) >>= f) i = f i i := rfl

theorem within_eq_ok {inner : Input} {step : Read α} {a : α} :
    within inner step i = .ok a j ↔ j = i ∧ ∃ k, step inner = .ok a k := by
  unfold within
  cases step inner <;> simp [eq_comm, and_comm]

/-! ## Steps that take a byte at least -/

def Advances (step : Read α) : Prop :=
  ∀ i a j, i.Fits → step i = .ok a j → i.Onward j ∧ i.pos < j.pos

theorem Advances.bind {step : Read α} {rest : α → Read β} (h : step.Advances)
    (hrest : ∀ a, (rest a).Forward) : (step >>= rest).Advances := by
  intro i b k hi hrun
  obtain ⟨a, j, ha, hb⟩ := bind_eq_ok.mp hrun
  obtain ⟨hj, hlt⟩ := h i a j hi ha
  obtain ⟨hk, -⟩ := hrest a j b k (hj.fits hi) hb
  exact ⟨hj.trans hk, Nat.lt_of_lt_of_le hlt hk.le_pos⟩

theorem word_advances (hn : 0 < n) : (word n).Advances := by
  intro i a j hi h
  obtain ⟨hle, -, rfl⟩ := word_eq_ok.mp h
  exact ⟨.advance hi hle, Nat.lt_add_of_pos_right hn⟩

theorem unsigned_advances : unsigned.Advances := by
  refine (word_advances Nat.one_pos).bind fun b => .ite (fun _ => .throw _) fun _ => ?_
  exact .ite (fun _ => .pure trivial) fun _ => (unsignedFrom_forward _ _).map fun _ _ => trivial

theorem initialLength_advances : initialLength.Advances := by
  refine (word_advances (by decide)).bind fun length => .ite (fun _ => .pure trivial) fun _ => ?_
  exact .ite (fun _ => (word_forward 8).map fun _ _ => trivial) fun _ => .throw _

/-! ## Repeating a step -/

/-- The step is taken from `i` to `k`, where nothing is left, and answers one after the other what
is in the list. -/
inductive Repeated (step : Read α) : Input → List α → Input → Prop
  | nil {i : Input} : i.isEmpty = true → Repeated step i [] i
  | cons {i j k : Input} {a : α} {as : List α} : i.isEmpty = false → step i = .ok a j →
      Repeated step j as k → Repeated step i (a :: as) k

theorem untilEmpty_eq_ok {step : Read α} {next : Option α} :
    (do if (← (get : Read Input)).isEmpty then return none else some <$> step) i = .ok next j ↔
      i.isEmpty = true ∧ next = none ∧ j = i ∨
        i.isEmpty = false ∧ ∃ a, step i = .ok a j ∧ next = some a := by
  rw [get_bind]
  cases hempty : i.isEmpty with
  | true => simp [eq_comm]
  | false =>
    simp only [Bool.false_eq_true, if_false, map_eq_pure_bind, bind_eq_ok, pure_eq_ok, false_and,
      true_and, false_or]
    constructor
    · rintro ⟨a, _, ha, rfl, rfl⟩
      exact ⟨a, ha, rfl⟩
    · rintro ⟨a, ha, rfl⟩
      exact ⟨a, j, ha, rfl, rfl⟩

/-- A repetition that may take more steps than there are bytes does not stop early. -/
theorem collect_repeated {step : Read α} (hstep : step.Advances) {found all : Array α}
    (hi : i.Fits) (hn : i.remaining < n)
    (h : collect (do if (← get).isEmpty then return none else some <$> step) n found i =
      .ok all k) :
    ∃ as, all.toList = found.toList ++ as ∧ Repeated step i as k := by
  induction n generalizing i found with
  | zero => cases hn
  | succ n ih =>
    obtain ⟨next, j, hnext, hrest⟩ := bind_eq_ok.mp h
    rcases untilEmpty_eq_ok.mp hnext with ⟨hempty, rfl, hj⟩ | ⟨hempty, a, ha, rfl⟩
    · obtain ⟨rfl, rfl⟩ := pure_eq_ok.mp hrest
      subst hj
      exact ⟨[], by simp, .nil hempty⟩
    · -- A step takes a byte at least, so that what remains bounds the steps that follow.
      obtain ⟨hj, hlt⟩ := hstep i a j hi ha
      have hshorter : j.remaining < n := by
        have := Input.isEmpty_eq_false.mp hempty
        simp only [Input.remaining, hj.stop_eq] at hn ⊢
        omega
      obtain ⟨as, has, hrepeated⟩ := ih (hj.fits hi) hshorter hrest
      exact ⟨a :: as, by simp [has], .cons hempty ha hrepeated⟩

theorem many_repeated {step : Read α} (hstep : step.Advances) {all : Array α} (hi : i.Fits)
    (h : many (do if (← get).isEmpty then return none else some <$> step) i = .ok all k) :
    Repeated step i all.toList k := by
  rw [many, get_bind] at h
  obtain ⟨as, has, hrepeated⟩ := collect_repeated hstep hi (Nat.lt_succ_self _) h
  rw [has]
  exact hrepeated

end Read

/-! ## Tags of abbreviations -/

theorem unsigned16_lt : Read.unsigned16.Yields (· < 2 ^ 16) := by
  refine Read.byte_forward.bind fun a _ => .ite (fun ha => .pure (by omega)) fun _ => ?_
  refine Read.byte_forward.bind fun b _ => .ite (fun hb => .pure (by omega)) fun _ => ?_
  exact Read.byte_forward.bind fun c _ => .ite (fun _ => .throw _) fun hc => .pure (by omega)

theorem readDeclared_forward : readDeclared.Forward := by
  refine Read.unsigned16_forward.bind fun attr _ => Read.unsigned16_forward.bind fun form _ => ?_
  refine .ite (fun _ => .ite (fun _ => .pure trivial) fun _ => .throw _) fun _ => ?_
  refine .ite (fun _ => .throw _) fun _ => .ite (fun _ => ?_) fun _ => ?_
  · rw [map_eq_pure_bind]
    simp only [bind_assoc, pure_bind]
    exact Read.signed_forward.map fun _ _ => trivial
  · exact .pure trivial

theorem readAbbreviation_yields :
    readAbbreviation.Yields fun found => ∀ a ∈ found, a.tag ≠ 0 := by
  refine Read.unsigned_forward.bind fun code _ => .ite (fun _ => .pure (by simp)) fun _ => ?_
  refine unsigned16_lt.bind fun tag hlt => .ite (fun _ => .throw _) fun hne => ?_
  refine Read.byte_forward.bind fun flag _ => .ite (fun _ => .throw _) fun _ => ?_
  have hattrs : (Read.many readDeclared).Forward := by
    refine (Read.many_yields (?_ : readDeclared.Yields fun found => ∀ a ∈ found, True)).mono ?_
    · exact readDeclared_forward.mono fun _ _ _ _ => trivial
    · exact fun _ _ => trivial
  refine hattrs.map fun attrs _ a ha => ?_
  obtain rfl := Option.some.inj ha
  intro htag
  have := congrArg UInt16.toNat htag
  simp at this
  omega

theorem readAbbreviations_yields (start : Nat) :
    (readAbbreviations start).Yields fun table => ∀ a ∈ table, a.tag ≠ 0 := by
  refine (Read.skip_forward start).bind fun _ _ => ?_
  refine (Read.many_yields readAbbreviation_yields).bind fun table htable => ?_
  split
  · exact .pure fun a ha => htable a (Array.mem_def.mpr ha)
  · exact .throw _

/-! ## Entries -/

theorem mem_of_find {table : Abbreviations} {code : Nat} {a : Abbreviation}
    (h : table.find code = .ok a) : a ∈ table := by
  unfold Abbreviations.find at h
  split at h
  case h_1 found hfound =>
    obtain rfl := Except.ok.inj h
    exact List.mem_of_find?_eq_some hfound
  case h_2 => cases h

theorem readEntry_advances (enc : Encoding) (table : Abbreviations) :
    (readEntry enc table).Advances := by
  intro i raw? k hi h
  rw [readEntry, Read.get_bind] at h
  refine Read.unsigned_advances.bind (fun code => ?_) i raw? k hi h
  refine .ite (fun _ => .pure trivial) fun _ => ?_
  split
  · exact .throw _
  · exact (readAttrs_yields enc _).map fun _ _ => trivial

theorem readEntry_eq_ok {enc : Encoding} {table : Abbreviations} {raw? : Option RawEntry}
    {i j : Input} (h : readEntry enc table i = .ok raw? j) {raw : RawEntry} (hraw : raw ∈ raw?) :
    raw.offset = i.pos ∧ ∃ a ∈ table, raw.tag = a.tag := by
  rw [readEntry, Read.get_bind] at h
  obtain ⟨code, i₁, -, h⟩ := bind_eq_ok.mp h
  split at h
  case isTrue =>
    obtain ⟨rfl, -⟩ := pure_eq_ok.mp h
    cases hraw
  case isFalse =>
    cases hfind : table.find code with
    | error fault =>
      rw [hfind] at h
      cases h
    | ok a =>
      rw [hfind] at h
      obtain ⟨attrs, i₂, -, h⟩ := bind_eq_ok.mp h
      obtain ⟨rfl, -⟩ := pure_eq_ok.mp h
      obtain rfl := Option.some.inj hraw
      exact ⟨rfl, a, mem_of_find hfind, rfl⟩

/-- The raw entries of a unit that are no null entries. -/
def RawUnit.raws (u : RawUnit) : List RawEntry := u.entries.toList.reduceOption

/-- The unit takes the bytes from `start` to `stop`, its entries stand in them one after the
other, and not all of them are null entries. -/
structure RawUnit.Spans (u : RawUnit) (start stop : Nat) : Prop where
  start_eq : u.header.start = start
  root : ∃ root, u.root? = some root
  inside : ∀ raw ∈ u.raws, start < raw.offset ∧ raw.offset < stop
  growing : u.raws.Pairwise fun a b => a.offset < b.offset
  tag_ne : ∀ raw ∈ u.raws, raw.tag ≠ 0

theorem entries_repeated {enc : Encoding} {table : Abbreviations} {raws : List (Option RawEntry)}
    {i k : Input} (hi : i.Fits) (htable : ∀ a ∈ table, a.tag ≠ 0)
    (h : Read.Repeated (readEntry enc table) i raws k) :
    (∀ raw ∈ raws.reduceOption, i.pos ≤ raw.offset ∧ raw.offset < i.stop ∧ raw.tag ≠ 0) ∧
      raws.reduceOption.Pairwise fun a b => a.offset < b.offset := by
  induction h with
  | nil => simp
  | @cons i j k raw? raws hempty hraw hrest ih =>
    obtain ⟨hj, hlt⟩ := readEntry_advances enc table i raw? j hi hraw
    obtain ⟨hall, hgrowing⟩ := ih (hj.fits hi)
    have hbehind : ∀ raw ∈ raws.reduceOption,
        i.pos < raw.offset ∧ raw.offset < i.stop ∧ raw.tag ≠ 0 := by
      intro raw hmem
      obtain ⟨hle, hstop, htag⟩ := hall raw hmem
      rw [hj.stop_eq] at hstop
      exact ⟨by omega, hstop, htag⟩
    cases raw? with
    | none =>
      rw [List.reduceOption_cons_of_none]
      exact ⟨fun raw hmem => ⟨Nat.le_of_lt (hbehind raw hmem).1, (hbehind raw hmem).2⟩, hgrowing⟩
    | some first =>
      obtain ⟨hoffset, a, ha, htag⟩ := readEntry_eq_ok hraw rfl
      have hstop := Input.isEmpty_eq_false.mp hempty
      rw [List.reduceOption_cons_of_some]
      constructor
      · intro raw hmem
        rcases List.mem_cons.mp hmem with rfl | hmem
        · exact ⟨by omega, by omega, htag ▸ htable a ha⟩
        · exact ⟨Nat.le_of_lt (hbehind raw hmem).1, (hbehind raw hmem).2⟩
      · refine .cons (fun raw hmem => ?_) hgrowing
        have := (hbehind raw hmem).1
        omega

/-! ## Units -/

theorem readUnitHeader_start (start : Nat) (format : Format) :
    (readUnitHeader start format).Yields (·.start = start) := by
  refine (Read.word_forward 2).bind fun version _ =>
    .ite (fun _ => ?_) fun _ => .ite (fun _ => ?_) ?_
  · refine (Read.offset_forward format).bind fun _ _ => ?_
    exact Read.addressSize_yields.map fun _ _ => rfl
  · refine Read.byte_forward.bind fun kind _ => Read.addressSize_yields.bind fun size _ => ?_
    refine (Read.offset_forward format).bind fun _ _ => ?_
    exact (skipKindFields_forward format kind).map fun _ _ => rfl
  · exact fun _ => .throw _

variable {s : Sections} {u : RawUnit} {i j k : Input}

theorem readUnit_eq_ok (hi : i.Fits) (h : readUnit s i = .ok u j) :
    i.Onward j ∧ ∃ b table c,
      i.pos < b.pos ∧ b.Fits ∧ b.stop = j.pos ∧
      (∀ a ∈ table, a.tag ≠ 0) ∧ readEntries u.header.encoding table b = .ok u.entries c ∧
      u.header.start = i.pos ∧ ∃ root, u.root? = some root := by
  rw [readUnit, Read.get_bind] at h
  obtain ⟨⟨length, format⟩, i₁, hlength, hrest⟩ := bind_eq_ok.mp h
  obtain ⟨hi₁, hlt⟩ := Read.initialLength_advances i _ i₁ hi hlength
  obtain ⟨body, i₂, hbody, hwithin⟩ := bind_eq_ok.mp hrest
  obtain ⟨hle, rfl, rfl⟩ := Read.split_eq_ok.mp hbody
  obtain ⟨rfl, _, hinside⟩ := Read.within_eq_ok.mp hwithin
  have hfits := (hi₁.fits hi).part hle
  obtain ⟨header, _, hheader, hafter⟩ := bind_eq_ok.mp hinside
  obtain ⟨hb, hstart⟩ := readUnitHeader_start i.pos format _ _ _ hfits hheader
  obtain ⟨table, b, htable, hentries⟩ := bind_eq_ok.mp hafter
  obtain ⟨rfl, _, htable⟩ := Read.within_eq_ok.mp htable
  obtain ⟨-, htags⟩ := readAbbreviations_yields _ _ _ _ (.ofSection ..) htable
  obtain ⟨entries, c, hread, hend⟩ := bind_eq_ok.mp hentries
  have hunit : u.header = header ∧ u.entries = entries ∧ ∃ root, findRoot? entries = some root := by
    cases hroot : findRoot? entries with
    | none =>
      rw [hroot] at hend
      cases hend
    | some root =>
      rw [hroot] at hend
      cases hline : (Bases.ofRoot root).line with
      | none =>
        simp only [hline] at hend
        obtain ⟨rfl, -⟩ := pure_eq_ok.mp hend
        exact ⟨rfl, rfl, root, rfl⟩
      | some line =>
        simp only [hline] at hend
        obtain ⟨_, _, -, hend⟩ := bind_eq_ok.mp hend
        obtain ⟨rfl, -⟩ := pure_eq_ok.mp hend
        exact ⟨rfl, rfl, root, rfl⟩
  obtain ⟨rfl, rfl, hroot⟩ := hunit
  refine ⟨hi₁.trans (.advance (hi₁.fits hi) hle), b, table, c, ?_⟩
  exact ⟨Nat.lt_of_lt_of_le hlt hb.le_pos, hb.fits hfits, hb.stop_eq, htags, hread, hstart, hroot⟩

theorem readUnit_spans (hi : i.Fits) (h : readUnit s i = .ok u j) : u.Spans i.pos j.pos := by
  obtain ⟨-, b, table, c, hlt, hb, hstop, htags, hentries, hstart, hroot⟩ := readUnit_eq_ok hi h
  obtain ⟨hall, hgrowing⟩ := entries_repeated hb htags
    (Read.many_repeated (readEntry_advances _ _) hb hentries)
  refine ⟨hstart, hroot, fun raw hmem => ?_, hgrowing, fun raw hmem => (hall raw hmem).2.2⟩
  obtain ⟨hle, hend, -⟩ := hall raw hmem
  omega

theorem readUnit_advances (s : Sections) : (readUnit s).Advances := by
  intro i u j hi h
  obtain ⟨hj, b, -, -, hlt, hb, hstop, -⟩ := readUnit_eq_ok hi h
  have := hb.pos_le
  exact ⟨hj, by omega⟩

/-- The units follow each other from `start` to `stop`. -/
inductive Tiled : Nat → List RawUnit → Nat → Prop
  | nil (start : Nat) : Tiled start [] start
  | cons {start middle stop : Nat} {u : RawUnit} {us : List RawUnit} :
      start < middle → u.Spans start middle → Tiled middle us stop → Tiled start (u :: us) stop

theorem units_repeated {us : List RawUnit} (hi : i.Fits) (h : Read.Repeated (readUnit s) i us k) :
    Tiled i.pos us i.stop := by
  induction h with
  | nil hempty =>
    rw [Nat.le_antisymm (Input.isEmpty_eq_true.mp hempty) hi.pos_le]
    exact .nil _
  | cons _ hunit _ ih =>
    obtain ⟨hj, hlt⟩ := readUnit_advances s _ _ _ hi hunit
    exact .cons hlt (readUnit_spans hi hunit) (hj.stop_eq ▸ ih (hj.fits hi))

theorem readUnits_tiled {units : Array RawUnit}
    (h : readUnits s (.ofSection s.order s.info) = .ok units k) :
    Tiled 0 units.toList s.info.size :=
  units_repeated (.ofSection ..) (Read.many_repeated (readUnit_advances s) (.ofSection ..) h)

theorem Tiled.le {start stop : Nat} {us : List RawUnit} (h : Tiled start us stop) :
    start ≤ stop := by
  induction h with
  | nil => exact Nat.le_refl _
  | cons => omega

theorem Tiled.raws {start stop : Nat} {us : List RawUnit} (h : Tiled start us stop) :
    (∀ raw ∈ us.flatMap RawUnit.raws, start < raw.offset ∧ raw.offset < stop) ∧
      (us.flatMap RawUnit.raws).Pairwise fun a b => a.offset < b.offset := by
  induction h with
  | nil => simp
  | cons hlt hunit hrest ih =>
    obtain ⟨hinside, hgrowing⟩ := ih
    have := hrest.le
    rw [List.flatMap_cons]
    constructor
    · intro raw hmem
      rcases List.mem_append.mp hmem with hmem | hmem
      · have := hunit.inside raw hmem
        omega
      · have := hinside raw hmem
        omega
    · refine List.pairwise_append.mpr ⟨hunit.growing, hgrowing, fun a ha b hb => ?_⟩
      have := (hunit.inside a ha).2
      have := (hinside b hb).1
      omega

theorem Tiled.spans {start stop : Nat} {us : List RawUnit} (h : Tiled start us stop)
    {u : RawUnit} (hu : u ∈ us) : ∃ first last, u.Spans first last := by
  induction h with
  | nil => cases hu
  | cons _ hunit _ ih =>
    rcases List.mem_cons.mp hu with rfl | hu
    · exact ⟨_, _, hunit⟩
    · exact ih hu

end DwarfScope.Dwarf
