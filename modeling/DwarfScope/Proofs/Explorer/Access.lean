import DwarfScope.Proofs.Explorer.Cursor
import DwarfScope.Proofs.Explorer.Positions
import DwarfScope.Proofs.Stream.Revisits

/-!
# Access by name

A variable is looked up by its name alone, and every entry of the name will do. So it depends on
where the cursor was left whether an access comes to the variable of a compile unit, or to a member,
a parameter or a local of the same name. The search goes around and can be brought to every one of
them.
-/

namespace DwarfScope

open Effect

/-- Sets a variable and writes it to memory. -/
def Variable.store (v : Variable) (value : List UInt8) (m : Memory) :
    Except Error (Variable × Memory) := do
  let w ← v.set value
  return (w, ← w.write m)

/-- A variable of the name stands at `i`, directly in a compile unit. It has an address and a type
that resolves. -/
structure Stream.TopVariable (s : Stream) (name : String) (i : Nat) (e : Entry) : Prop where
  entryAt : s.EntryAt i e
  tag : e.tag = .var
  named : e.name? = some name
  inUnit : ∃ k u js, s.EntryAt k u ∧ u.tag = .compileUnit ∧ u.children = true ∧
    s.Siblings (k + 1) js i
  located : ∃ address, e.location? = some address
  resolves : ∃ l d, s.resolve e {} = .ok l d

namespace Explorer

variable {x y : Explorer} {files : Files} {n m : Navigation} {name : String} {i j : Nat} {e : Entry}
  {v : Variable} {unit : Option Entry} {err : Failure}

/-! ## What an access does -/

/-- To read and to set by the name is to read and to set this variable, in the memory with the
offset for this unit. -/
structure Accessed (files : Files) (x : Explorer) (name : String) (v : Variable)
    (unit : Option Entry) : Prop where
  read : answer (execute files (.readVariable (some name))) x =
    ((v.read (x.memoryAt unit)).map fun w => .variable w.view).mapError .reported
  set : ∀ value, answer (execute files (.setVariable (some name) value)) x =
    ((v.store value (x.memoryAt unit)).map fun r => .variable r.1.view).mapError .reported
  stored : ∀ value w m, v.store value (x.memoryAt unit) = .ok (w, m) →
    (after (execute files (.setVariable (some name) value)) x).memory = m
  kept : ∀ value err, v.store value (x.memoryAt unit) = .error err →
    (after (execute files (.setVariable (some name) value)) x).memory.contents = x.memory.contents

/-- To read and to set by the name both fail. -/
structure Refused (files : Files) (x : Explorer) (name : String) (err : Failure) : Prop where
  read : answer (execute files (.readVariable (some name))) x = .error err
  set : ∀ value, answer (execute files (.setVariable (some name) value)) x = .error err

theorem execute_setNamed (files : Files) (h : variableNamed name x = .ok v y)
    (value : List UInt8) :
    execute files (.setVariable (some name) value) x =
      match v.store value y.memory with
      | .ok (w, m) => .ok (.variable w.view) { y with memory := m }
      | .error err => .error err y := by
  have hrest : execute files (.setVariable (some name) value) x = (do
      let w ← ofExcept (v.set value)
      writeVariable w
      return .variable w.view : Explore Feedback) y := by
    rw [execute_set, edit, select, bind_of_ok h]
    rfl
  rw [hrest]
  unfold Variable.store
  cases hset : v.set value with
  | error err => rfl
  | ok w =>
    rw [bind_of_ok (ofExcept_eq_ok.mpr ⟨rfl, rfl⟩)]
    simp only [bind, Except.bind]
    cases hwrite : w.write y.memory with
    | error err =>
      have hfail : writeVariable w y = .error err y := by
        unfold writeVariable
        rw [bind_of_ok (get_eq_ok.mpr ⟨rfl, rfl⟩)]
        exact bind_of_error (ofExcept_of_error hwrite)
      exact bind_of_error hfail
    | ok m => exact bind_of_ok ((writeVariable_eq_ok (u := ())).mpr ⟨m, hwrite, rfl⟩)

theorem Target.accessed (files : Files) (h : x.Target (some name) v unit) :
    x.Accessed files name v unit := by
  obtain ⟨y, hselect, hmemory, -⟩ := h.select_eq_ok
  have hset := execute_setNamed files hselect
  rw [hmemory] at hset
  constructor
  case read =>
    unfold answer
    rw [execute_read, bind_of_ok hselect, bind_of_ok (get_eq_ok.mpr ⟨rfl, rfl⟩), hmemory]
    cases v.read (x.memoryAt unit) <;> rfl
  case set =>
    intro value
    unfold answer
    rw [hset value]
    cases v.store value (x.memoryAt unit) <;> rfl
  case stored =>
    intro value w m hstore
    unfold after
    rw [hset value, hstore]
  case kept =>
    intro value err hstore
    unfold after
    rw [hset value, hstore, hmemory]
    rfl

/-! ## What is come to -/

theorem walk_of_error {α : Type} (step : Stream → Walk α) (hn : x.nav = some n)
    (h : answer (step n.stream) n.cursor = .error err) : ∃ y, walk step x = .error err y := by
  unfold answer at h
  unfold walk navigate Navigation.walk
  rw [hn]
  dsimp only
  cases hstep : step n.stream n.cursor with
  | ok a d =>
    rw [hstep] at h
    cases h
  | error err' d =>
    rw [hstep] at h
    cases h
    exact ⟨_, rfl⟩

theorem walk_findEntry (hn : x.nav = some n) (hs : n.stream.Revisits)
    (hi : n.stream.Found name n.cursor.position i) (he : n.stream.entries[i]? = some e) :
    ∃ unit, walk (·.findEntry name) x =
      .ok (e, unit) { x with nav := some { n with cursor := .behind i } } := by
  obtain ⟨unit, hfind⟩ := hs.findEntry hi he
  exact ⟨unit, navigate_eq_ok.mpr ⟨n, _, hn, Navigation.walk_eq_ok.mpr ⟨_, hfind, rfl⟩, rfl⟩⟩

theorem refused_of_found (files : Files) (hn : x.nav = some n) (hs : n.stream.Revisits)
    (hi : n.stream.Found name n.cursor.position i) (he : n.stream.entries[i]? = some e)
    (herr : answer (Variable.ofEntry n.stream e) {} = .error err) : x.Refused files name err := by
  obtain ⟨unit, hfound⟩ := walk_findEntry hn hs hi he
  have hsteady := (Stream.ofEntry_steady (s := n.stream) e).answer (.behind i) {}
  obtain ⟨y, hy⟩ := walk_of_error (x := { x with nav := some { n with cursor := .behind i } })
    (Variable.ofEntry · e) rfl (hsteady.trans herr)
  have hselect : variableNamed name x = .error err y := by
    unfold variableNamed
    rw [bind_of_ok hfound]
    exact bind_of_error hy
  constructor
  case read =>
    unfold answer
    rw [execute_read, select, bind_of_error hselect]
  case set =>
    intro value
    unfold answer
    rw [execute_set, edit, select, bind_of_error hselect]

/-- A search comes to the entry at `i`, and the accesses are those to the variable it declares. -/
def Reaches (files : Files) (x : Explorer) (name : String) (i : Nat) (e : Entry) : Prop :=
  ∃ n v d, x.nav = some n ∧ n.stream.Found name n.cursor.position i ∧
    n.stream.entries[i]? = some e ∧ x.Declared n.stream e v d ∧
    x.Accessed files name v (n.stream.unitOf? e)

/-! ## Where the cursor can be brought -/

theorem run_reset (files : Files) (hn : x.nav = some n) :
    ∃ fb y, x.run files .reset = some (fb, y) ∧
      y.nav = some { n with levels := [], cursor := {} } :=
  ⟨_, _, run_of_ok (move_eq_ok.mpr ⟨n, _, hn, Navigation.reset_eq_ok n, rfl, rfl⟩), rfl⟩

theorem run_entryInfo (files : Files) (hn : x.nav = some n) (hs : n.stream.Revisits)
    (hi : n.stream.Found name n.cursor.position i) :
    ∃ fb y, x.run files (.entryInfo name) = some (fb, y) ∧
      y.nav = some { n with cursor := .behind i } := by
  obtain ⟨e, he, -⟩ := hi.named
  obtain ⟨unit, hfound⟩ := walk_findEntry hn hs hi he
  have hexecute : execute files (.entryInfo name) x =
      .ok (.text e.describe) { x with nav := some { n with cursor := .behind i } } := by
    show entryInfo name x = _
    unfold entryInfo
    rw [bind_of_ok hfound]
    rfl
  exact ⟨_, _, run_of_ok hexecute, rfl⟩

theorem exists_history_ahead (files : Files) (hn : x.nav = some n) (hs : n.stream.Revisits)
    (hj : n.stream.Named name j) (hle : n.cursor.position ≤ j) :
    ∃ cs y m, x.runAll files cs = some y ∧ y.nav = some m ∧ m.stream = n.stream ∧
      n.stream.Found name m.cursor.position j := by
  -- Each question brings the cursor behind an entry that is not behind `j`.
  induction hd : j - n.cursor.position using Nat.strongRecOn generalizing x n with
  | ind d ih =>
    obtain ⟨i, hi⟩ := Stream.exists_found hj n.cursor.position
    have hfirst : n.stream.FirstNamed name n.cursor.position i := by
      rcases hi with hi | ⟨hnone, -⟩
      · exact hi
      · exact absurd hj (hnone j hle)
    rcases Nat.lt_trichotomy i j with hlt | rfl | hlt
    · obtain ⟨fb, z, hrun, hz⟩ := run_entryInfo files hn hs (.inl hfirst)
      have := hfirst.le
      obtain ⟨cs, y, m, hy, hm, hstream, hfound⟩ :=
        ih (j - (i + 1)) (by omega) hz hs hj hlt rfl
      exact ⟨.entryInfo name :: cs, y, m, runAll_cons.mpr ⟨fb, z, hrun, hy⟩, hm, hstream, hfound⟩
    · exact ⟨[], x, n, rfl, hn, rfl, .inl hfirst⟩
    · exact absurd hj (hfirst.first j hle hlt)

theorem exists_history (files : Files) (hn : x.nav = some n) (hs : n.stream.Revisits)
    (hj : n.stream.Named name j) :
    ∃ cs y m, x.runAll files cs = some y ∧ y.nav = some m ∧ m.stream = n.stream ∧
      n.stream.Found name m.cursor.position j := by
  obtain ⟨fb, z, hreset, hz⟩ := run_reset files hn
  obtain ⟨cs, y, m, hy, hm, hstream, hfound⟩ :=
    exists_history_ahead files hz hs hj (Nat.zero_le j)
  exact ⟨.reset :: cs, y, m, runAll_cons.mpr ⟨fb, z, hreset, hy⟩, hm, hstream, hfound⟩

/-! ## Access all through a session -/

theorem reaches_of_top (files : Files) (hn : x.nav = some n) (hs : n.stream.Revisits)
    (hi : n.stream.Found name n.cursor.position i) (he : n.stream.TopVariable name i e) :
    x.Reaches files name i e := by
  obtain ⟨address, haddress⟩ := he.located
  obtain ⟨l, d, hl⟩ := he.resolves
  have hdeclared : x.Declared n.stream e _ d := ⟨address, l, haddress, hl, rfl⟩
  have hseek := hs.seekable he.entryAt.get he.named
  have htarget := Target.named hn hi he.entryAt.get hseek hdeclared
  exact ⟨n, _, d, hn, hi, he.entryAt.get, hdeclared, htarget.accessed files⟩

/-- If some variable of the name stands directly in a compile unit, then all accesses by the name,
in any session with the program, are accesses to such a variable exactly if every entry of the name
is one. An entry that declares no variable makes them fail in some session, with the error for it.
That a search comes back to the entry it has found holds for built streams and for loaded files. -/
theorem named_access_iff (files : Files) (hn : x.nav = some n) (hs : n.stream.Revisits)
    (htop : ∃ i e, n.stream.TopVariable name i e) :
    ((∀ cs y, x.runAll files cs = some y → y.nav.map Navigation.stream = some n.stream →
      ∃ i e, n.stream.TopVariable name i e ∧ y.Reaches files name i e) ↔
        ∀ i e, n.stream.entries[i]? = some e → e.name? = some name →
          n.stream.TopVariable name i e) ∧
    ∀ (i : Nat) (e : Entry) err, n.stream.entries[i]? = some e → e.name? = some name →
      answer (Variable.ofEntry n.stream e) {} = .error err →
      ∃ cs y, x.runAll files cs = some y ∧ y.nav.map Navigation.stream = some n.stream ∧
        y.Refused files name err := by
  refine ⟨⟨fun hall i e he hname => ?_, fun hall cs y hy hcs => ?_⟩,
    fun i e err he hname herr => ?_⟩
  · obtain ⟨cs, y, m, hy, hm, hstream, hfound⟩ := exists_history files hn hs ⟨e, he, hname⟩
    obtain ⟨i', e', htop', m', v, d, hm', hfound', he', -⟩ :=
      hall cs y hy (by rw [hm, ← hstream]; rfl)
    obtain rfl := Option.some.inj (hm.symm.trans hm')
    rw [hstream] at hfound' he'
    obtain rfl := hfound.unique hfound'
    obtain rfl := Option.some.inj (he.symm.trans he')
    exact htop'
  · obtain ⟨j, u, hj⟩ := htop
    obtain ⟨m, hm, hstream⟩ := Option.map_eq_some_iff.mp hcs
    obtain ⟨i, hi⟩ := Stream.exists_found ⟨u, hj.entryAt.get, hj.named⟩ m.cursor.position
    obtain ⟨e, he, hname⟩ := hi.named
    have htop := hall i e he hname
    rw [← hstream] at hi hs htop ⊢
    exact ⟨i, e, htop, reaches_of_top files hm hs hi htop⟩
  · obtain ⟨cs, y, m, hy, hm, hstream, hfound⟩ := exists_history files hn hs ⟨e, he, hname⟩
    refine ⟨cs, y, hy, by rw [hm, ← hstream]; rfl, ?_⟩
    rw [← hstream] at hs hfound he herr
    exact refused_of_found files hm hs hfound he herr

end Explorer

theorem Stream.topVariable_bytePair :
    Builder.bytePair.build.TopVariable "pair" 6 Builder.bytePair.build.entries[6]! := by
  have h := unitVariable_bytePair
  obtain ⟨js, hjs⟩ := h.below
  obtain ⟨l, hl⟩ := exists_of_succeeds (x := {})
    (m := Builder.bytePair.build.resolve Builder.bytePair.build.entries[6]!) (by decide +kernel)
  exact ⟨h.entryAt, rfl, h.named, ⟨0, _, js, h.unitAt, h.unitTag, h.opens, hjs⟩, ⟨0, rfl⟩, l, _, hl⟩

/-- A structure with a member `x`, and behind it a variable `x`. -/
def Stream.Builder.shadowed : Stream.Builder :=
  ((((((({} : Builder).begin .compileUnit [(.name, .text "main.c")]).leaf
    .baseType [(.name, .text "byte"), (.byteSize, .udata 1)]).begin
    .structureType [(.name, .text "Point"), (.byteSize, .udata 1)]).leaf
    .member [(.name, .text "x"), (.type, .ref 12)]).close).leaf
    .var [(.name, .text "x"), (.type, .ref 12), (.location, .address 0)]).close

theorem Stream.Builder.built_shadowed : shadowed.Built :=
  .close <| .leaf _ _ (by decide) <| .close <| .leaf _ _ (by decide) <| .begin _ _ (by decide) <|
    .leaf _ _ (by decide) <| .begin _ _ (by decide) .empty

theorem Stream.topVariable_shadowed :
    Builder.shadowed.build.TopVariable "x" 5 Builder.shadowed.build.entries[5]! := by
  have hmember : Builder.shadowed.build.Siblings 3 [3] 4 := .leaf ⟨rfl, rfl⟩ rfl (.nil 4)
  have hbelow : Builder.shadowed.build.Siblings 1 [1, 2] 5 :=
    .leaf ⟨rfl, rfl⟩ rfl (.node ⟨rfl, rfl⟩ rfl hmember ⟨.null, rfl, rfl⟩ (.nil 5))
  obtain ⟨l, hl⟩ := exists_of_succeeds (x := {})
    (m := Builder.shadowed.build.resolve Builder.shadowed.build.entries[5]!) (by decide +kernel)
  exact ⟨⟨rfl, rfl⟩, rfl, rfl, ⟨0, _, _, ⟨rfl, rfl⟩, rfl, rfl, hbelow⟩, ⟨0, rfl⟩, l, _, hl⟩

namespace Explorer

def shadowed : Explorer :=
  Explorer.setEntries { memory := { file := some #[7], client := some ⟨0, 0⟩, issued := 1 } }
    Stream.Builder.shadowed.build

theorem named_access_bytePair :
    (∃ y e, bytePair.runAll noFiles [.entryInfo "pair", .typeOf "Pair"] = some y ∧
      y.Reaches noFiles "pair" 6 e) ∧
    ∃ cs y, shadowed.runAll noFiles cs = some y ∧
      y.Refused noFiles "x" (Error.noLocation "x") := by
  have hstream : bytePair.nav.map Navigation.stream = some Stream.Builder.bytePair.build := by
    decide +kernel
  constructor
  · obtain ⟨n, hn, hbuild⟩ := Option.map_eq_some_iff.mp hstream
    have hs := Stream.Builder.built_bytePair.revisits
    have htop := Stream.topVariable_bytePair
    rw [← hbuild] at hs
    obtain ⟨hiff, -⟩ := named_access_iff noFiles hn hs ⟨6, _, by rw [hbuild]; exact htop⟩
    have hall := hiff.mpr fun i e he hname => by
      rw [hbuild] at he ⊢
      obtain rfl := Stream.named_bytePair ⟨e, he, hname⟩
      obtain rfl := Option.some.inj (he.symm.trans htop.entryAt.get)
      exact htop
    have hruns : ((bytePair.runAll noFiles [.entryInfo "pair", .typeOf "Pair"]).bind fun y =>
        y.nav.map Navigation.stream) = some Stream.Builder.bytePair.build := by decide +kernel
    obtain ⟨y, hy, hsame⟩ := Option.bind_eq_some_iff.mp hruns
    obtain ⟨i, e, hi, hreaches⟩ := hall _ y hy (by rw [hbuild, hsame])
    rw [hbuild] at hi
    obtain rfl := Stream.named_bytePair ⟨e, hi.entryAt.get, hi.named⟩
    exact ⟨y, e, hy, hreaches⟩
  · obtain ⟨-, hrefused⟩ := named_access_iff (x := shadowed) noFiles rfl
      Stream.Builder.built_shadowed.revisits ⟨5, _, Stream.topVariable_shadowed⟩
    obtain ⟨cs, y, hy, -, h⟩ := hrefused 3 _ (.reported (.noLocation "x")) rfl rfl rfl
    exact ⟨cs, y, hy, h⟩

/-- The variable `x` of the compile unit can be read, but already the first access by its name comes
to the member, which has no location. -/
theorem named_access_shadowed :
    shadowed.Reachable ∧
    shadowed.nav.map Navigation.stream = some Stream.Builder.shadowed.build ∧
    Stream.Builder.shadowed.build.TopVariable "x" 5 Stream.Builder.shadowed.build.entries[5]! ∧
    shadowed.Refused noFiles "x" (Error.noLocation "x") := by
  have hfirst : ∀ j < 3,
      (Stream.Builder.shadowed.build.entries[j]?.bind Entry.name?) ≠ some "x" := by
    decide +kernel
  have hfound : Stream.Builder.shadowed.build.Found "x" 0 3 := by
    refine .inl ⟨Nat.zero_le 3, ⟨_, rfl, rfl⟩, fun j _ hj => ?_⟩
    rintro ⟨e, he, hname⟩
    apply hfirst j hj
    rw [he]
    exact hname
  refine ⟨(Reachable.start _ _).entries _, rfl, Stream.topVariable_shadowed, ?_⟩
  exact refused_of_found noFiles (n := _) rfl Stream.Builder.built_shadowed.revisits hfound rfl rfl

end Explorer
end DwarfScope
