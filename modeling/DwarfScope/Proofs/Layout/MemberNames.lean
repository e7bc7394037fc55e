import DwarfScope.Proofs.Layout.Titles
import Mathlib.Data.List.Nodup

/-!
# What members are called

A member keeps its name, unless a qualifier in its type gives it the name of the entry directly
beneath. Two members of different names may end up with one, and only the first of them is found by
it.
-/

namespace DwarfScope

/-! ## Qualifiers -/

/-- The layers directly beneath a qualifier. -/
def beneath : List Entry → List Entry
  | t :: u :: ts => if t.tag.isQualifier then u :: beneath (u :: ts) else beneath (u :: ts)
  | _ => []

/-- What stands directly beneath a qualifier is a type definition, or it has no type reference. -/
def Plain (ts : List Entry) : Prop :=
  ts.IsChain fun t u => t.tag.isQualifier = true → u.tag = .typedef ∨ u.typeRef? = none

theorem beneath_of_not_qualifier {t : Entry} {ts : List Entry} (h : t.tag.isQualifier = false) :
    beneath (t :: ts) = beneath ts := by
  cases ts with
  | nil => rfl
  | cons u ts => simp [beneath, h]

theorem beneath_belowArray (ts : List Entry) : beneath (belowArray ts) = beneath ts := by
  match ts with
  | [] => rfl
  | [a] => rfl
  | a :: t :: ts =>
    by_cases ha : a.tag = .arrayType
    · have hq : a.tag.isQualifier = false := by
        rw [ha]
        rfl
      rw [belowArray_array ha, beneath_of_not_qualifier hq]
    · rw [belowArray_of_ne ha]

theorem Plain.belowArray {ts : List Entry} (h : Plain ts) : Plain (belowArray ts) := by
  match ts, h with
  | [], h => exact h
  | [a], h => exact h
  | a :: t :: ts, h =>
    by_cases ha : a.tag = .arrayType
    · rw [belowArray_array ha]
      exact (List.isChain_cons_cons.mp h).2
    · rw [belowArray_of_ne ha]
      exact h

namespace Stream

open Effect

variable {s : Stream} {i j k n : Nat} {js : List Nat} {e t u : Entry} {c d : Cursor} {name : String}
  {ts : List Entry}

theorem LayersFrom.plain_cases (h : s.LayersFrom i (t :: u :: ts)) (hplain : Plain (t :: u :: ts))
    (hq : t.tag.isQualifier = true) :
    (ts = [] ∧ u.typeRef? = none ∧ ∃ j, s.EntryAt j u) ∨
      ∃ j, u.tag.isQualifier = false ∧ s.LayersFrom j ts := by
  obtain ⟨hfirst, -⟩ := List.isChain_cons_cons.mp hplain
  cases h with
  | layer ht hl hj hrest =>
    cases hrest with
    | bottom hu hul =>
      refine .inl ⟨rfl, ?_, _, hu⟩
      rcases hfirst hq with htag | hnone
      · simpa [Entry.isLayer, htag] using hul
      · exact hnone
    | layer hu hul hk hts =>
      have hsome := (Entry.kind_of_isLayer hul).1
      have htag : u.tag = .typedef :=
        (hfirst hq).resolve_right fun hnone => by simp [hnone] at hsome
      exact .inr ⟨_, by simp [htag, Tag.isQualifier], hts⟩

theorem LayersFrom.beneathQualifiers_eq (h : s.LayersFrom i ts) (hplain : Plain ts) :
    beneathQualifiers ts = beneath ts := by
  fun_induction beneathQualifiers ts generalizing i with
  | case1 t u ts hq ih =>
    rw [beneath, if_pos hq]
    rcases h.plain_cases hplain hq with ⟨rfl, -, -⟩ | ⟨j, hu, hts⟩
    · rfl
    · obtain ⟨-, hrest⟩ := List.isChain_cons_cons.mp hplain
      rw [beneath_of_not_qualifier hu, ih hts hrest.of_cons]
  | case2 t u ts hq ih =>
    rw [beneath, if_neg hq]
    cases h with
    | layer _ _ _ hrest => exact ih hrest (List.isChain_cons_cons.mp hplain).2
  | case3 ts hshort =>
    rcases ts with _ | ⟨t, _ | ⟨u, ts⟩⟩
    · rfl
    · rfl
    · exact absurd rfl (hshort t u ts)

theorem LayersFrom.passed?_plain (h : s.LayersFrom i ts) (hplain : Plain ts)
    (hpassed : passed? ts = some u) : u.typeRef? = none ∧ ∃ j, s.EntryAt j u := by
  fun_induction passed? ts generalizing i with
  | case1 t v ts hq hempty =>
    obtain rfl := Option.some.inj hpassed
    rcases h.plain_cases hplain hq with ⟨-, hnone, hv⟩ | ⟨j, -, hts⟩
    · exact ⟨hnone, hv⟩
    · obtain ⟨_, _, rfl, -⟩ := hts.head
      cases hempty
  | case2 t v ts hq hempty ih =>
    rcases h.plain_cases hplain hq with ⟨rfl, -, -⟩ | ⟨j, -, hts⟩
    · exact absurd rfl hempty
    · exact ih hts (List.isChain_cons_cons.mp hplain).2.of_cons hpassed
  | case3 t v ts hq ih =>
    cases h with
    | layer _ _ _ hrest => exact ih hrest (List.isChain_cons_cons.mp hplain).2 hpassed
  | case4 => cases hpassed

theorem LayersFrom.beyond?_plain (ha : s.Addressed) (h : s.LayersFrom i ts) (hplain : Plain ts) :
    s.beyond? ts = none := by
  unfold beyond?
  cases hpassed : passed? ts with
  | none => rfl
  | some u =>
    obtain ⟨hnone, j, hu⟩ := h.passed?_plain hplain hpassed
    have hself := typeIndex?_self ha hu hnone
    have hgiven := given?_bottom hu (by simp [Entry.isLayer, hnone])
    simp [hself, hgiven]

/-! ## What members are called -/

/-- What the entry at an index is called: by the name of its layout. -/
def calledAt (s : Stream) (j : Nat) : String :=
  ((s.entries[j]?.bind fun e => result? (s.resolve e) {}).map Layout.name).getD ""

theorem ResolvesTo.name_eq {l : Layout} (h : s.ResolvesTo j l) : l.name = s.calledAt j := by
  obtain ⟨m, hat, hok⟩ := h
  obtain ⟨d, hok⟩ := hok {}
  simp [calledAt, hat.get, result?_of_ok hok]

/-- The name that the qualifiers in the type of the entry at an index give to it, if all of them are
plain: that of the last entry directly beneath one that has a name. -/
def Gives (s : Stream) (j : Nat) (given : Option String) : Prop :=
  ∃ e ts, s.EntryAt j e ∧ s.LayersOf e ts ∧ Plain ts ∧ lastName? (beneath ts) = given

theorem ResolvesTo.name_plain {l : Layout} (ha : s.Addressed) (h : s.ResolvesTo j l)
    (hm : s.memberAt j = true) (hn : (s.nameAt? j).isSome = true) :
    ∃ e ts, s.EntryAt j e ∧ s.LayersOf e ts ∧
      (Plain ts → s.calledAt j = (lastName? (beneath ts) <|> s.nameAt? j).getD "") := by
  have hcalled := h.name_eq
  obtain ⟨m, hat, hok⟩ := h
  obtain ⟨d, hok⟩ := hok {}
  have htag : m.tag = .member := by simpa [memberAt_of_entryAt hat] using hm
  obtain ⟨k, hk⟩ := endsAt_of_ok hok
  obtain ⟨i, ts, hi, hts, hbelow, -, hgiven⟩ := exists_layersOf ha hk
  obtain ⟨i', hi', hname⟩ := resolve_name hok
  obtain rfl := hi.unique hi'
  refine ⟨m, ts, hat, hts, fun hplain => ?_⟩
  obtain ⟨own, hown⟩ := Option.isSome_iff_exists.mp hn
  have hownName : m.name? = some own := by rw [← nameAt?_eq hat, hown]
  have hlayers := hbelow.beneathQualifiers_eq hplain.belowArray
  have hbeyond := hbelow.beyond?_plain ha hplain.belowArray
  rw [← hcalled, hname, hgiven, hbeyond, hlayers, beneath_belowArray, hown, hownName]
  simp [htag, Tag.isVariable]

theorem Gives.calledAt_eq {given : Option String} {l : Layout} (ha : s.Addressed)
    (h : s.Gives j given) (hl : s.ResolvesTo j l) (hm : s.memberAt j = true)
    (hn : (s.nameAt? j).isSome = true) : s.calledAt j = (given <|> s.nameAt? j).getD "" := by
  obtain ⟨e, ts, hat, hts, hplain, rfl⟩ := h
  obtain ⟨e', us, hat', hus, hcalled⟩ := hl.name_plain ha hm hn
  obtain rfl := hat.unique hat'
  obtain rfl := hts.unique hus
  exact hcalled hplain

theorem find?_of_forall₂ {α β : Type} {R : α → β → Prop} {p : α → Bool} {q : β → Bool} {as : List α}
    {bs : List β} (h : List.Forall₂ R as bs) (hpq : ∀ a b, R a b → q b = p a) :
    Option.Rel R (as.find? p) (bs.find? q) := by
  induction h with
  | nil => exact .none
  | @cons a b as bs hab _ ih =>
    rw [List.find?_cons, List.find?_cons, hpq a b hab]
    cases p a with
    | true => exact .some hab
    | false => exact ih

/-- The layouts of some members, by the names the members are called by. -/
def Describes (s : Stream) (js : List Nat) (ms : List Layout) : Prop :=
  List.Forall₂ (fun j m => s.ResolvesTo j m ∧ m.name = s.calledAt j) js ms

theorem Describes.map_name {ms : List Layout} (h : s.Describes js ms) :
    ms.map (·.name) = js.map s.calledAt := by
  induction h with
  | nil => rfl
  | cons hm _ ih => rw [List.map_cons, List.map_cons, ih, hm.2]

theorem Describes.resolvesTo {ms : List Layout} (h : s.Describes js ms) (hj : j ∈ js) :
    ∃ m, s.ResolvesTo j m := by
  induction h with
  | nil => cases hj
  | cons hm _ ih =>
    rcases List.mem_cons.mp hj with rfl | hj
    · exact ⟨_, hm.1⟩
    · exact ih hj

theorem Describes.member_of_some {l : Layout} (h : s.Describes js l.members)
    (hj : js.find? (fun j => s.calledAt j = name) = some j) :
    ∃ m, s.ResolvesTo j m ∧ l.member name = .ok m := by
  have hfound := find?_of_forall₂ (q := fun m => decide (m.name = name)) h
    fun j m hm => by rw [hm.2]
  rw [hj] at hfound
  generalize hm : l.members.find? (fun m => decide (m.name = name)) = found at hfound
  cases hfound with
  | some hres => exact ⟨_, hres.1, by rw [Layout.member, hm]⟩

theorem Describes.member_of_not_mem {l : Layout} (h : s.Describes js l.members)
    (hname : name ∉ js.map s.calledAt) : l.member name = .error (.fieldNotFound name l.name) := by
  have hnone : l.members.find? (fun m => decide (m.name = name)) = none := by
    rw [List.find?_eq_none]
    intro m hm hmname
    rw [← h.map_name] at hname
    exact hname (List.mem_map.mpr ⟨m, hm, by simpa using hmname⟩)
  rw [Layout.member, hnone]

theorem find?_called (hjs : js.Pairwise (· < ·)) (hj : j ∈ js) (hname : s.calledAt j = name)
    (hfirst : ∀ i ∈ js, i < j → s.calledAt i ≠ name) :
    js.find? (fun j => s.calledAt j = name) = some j := by
  obtain ⟨before, after, rfl⟩ := List.append_of_mem hj
  have hbefore : before.find? (fun j => decide (s.calledAt j = name)) = none := by
    rw [List.find?_eq_none]
    intro i hi hcalled
    have hlt : i < j := (List.pairwise_append.mp hjs).2.2 i hi j List.mem_cons_self
    exact hfirst i (List.mem_append_left _ hi) hlt (by simpa using hcalled)
  rw [List.find?_append, hbefore, Option.none_or, List.find?_cons_of_pos]
  simpa using hname

theorem ChildrenAt.pairwise_lt (h : s.ChildrenAt k t js) : js.Pairwise (· < ·) := by
  unfold ChildrenAt at h
  split at h
  · obtain ⟨r, hjs, -⟩ := h
    exact hjs.pairwise_lt.2
  · rw [h]
    exact .nil

theorem ChildrenAt.unique {is : List Nat} (h : s.ChildrenAt k t js) (h' : s.ChildrenAt k t is) :
    js = is := by
  unfold ChildrenAt at h h'
  split at h
  · rename_i hc
    rw [if_pos hc] at h'
    obtain ⟨q, hjs, hq⟩ := h
    obtain ⟨r, his, hr⟩ := h'
    exact hjs.unique hq his hr
  · rename_i hc
    rw [if_neg hc] at h'
    rw [h, h']

/-- The members of an aggregate are listed by what they are called, in order, and each name finds
the first member that is called by it. Where the qualifiers in its type are plain, a member is
called by the name they give, or else by its own. So it is found by its own name if they give none,
nor give it to a member before. -/
theorem resolve_memberNames (ha : s.Addressed) (hk : s.EndsAt e k) (ht : s.EntryAt k t)
    (hagg : t.tag.isAggregate = true) (hjs : s.ChildrenAt k t js)
    (hnamed : ∀ j ∈ js.filter s.memberAt, (s.nameAt? j).isSome = true)
    (hdistinct : ((js.filter s.memberAt).map s.nameAt?).Nodup) {l : Layout}
    (hl : s.resolve e c = .ok l d) :
    l.memberNames = (js.filter s.memberAt).map s.calledAt ∧
    (∀ j ∈ js.filter s.memberAt, ∃ m ts, s.EntryAt j m ∧ s.LayersOf m ts ∧
      (Plain ts → s.calledAt j = (lastName? (beneath ts) <|> m.name?).getD "")) ∧
    (∀ name j, (js.filter s.memberAt).find? (fun j => s.calledAt j = name) = some j →
      ∃ m, s.ResolvesTo j m ∧ l.member name = .ok m) ∧
    (∀ name, name ∉ (js.filter s.memberAt).map s.calledAt →
      l.member name = .error (.fieldNotFound name l.name)) ∧
    ∀ j ∈ js.filter s.memberAt, ∀ name, s.nameAt? j = some name → s.Gives j none →
      (∀ i ∈ js.filter s.memberAt, i < j → ∃ given, s.Gives i given ∧ given ≠ some name) →
        ∃ m, s.ResolvesTo j m ∧ l.member name = .ok m := by
  obtain ⟨is, his, hms⟩ := childrenAt_of_ok ha hk ht hagg (Walk.outcome_eq_ok.mpr hl)
  obtain rfl := hjs.unique his
  have hdescribes : s.Describes (js.filter s.memberAt) l.members :=
    hms.imp fun j m hm => ⟨hm, hm.name_eq⟩
  have hmember : ∀ j ∈ js.filter s.memberAt, s.memberAt j = true :=
    fun j hj => (List.mem_filter.mp hj).2
  have hgives : ∀ j ∈ js.filter s.memberAt, ∀ given, s.Gives j given →
      s.calledAt j = (given <|> s.nameAt? j).getD "" := by
    intro j hj given hgiven
    obtain ⟨m, hm⟩ := hdescribes.resolvesTo hj
    exact hgiven.calledAt_eq ha hm (hmember j hj) (hnamed j hj)
  refine ⟨hdescribes.map_name, fun j hj => ?_, fun name j hj => hdescribes.member_of_some hj,
    fun name hname => hdescribes.member_of_not_mem hname, fun j hj name hname hkept hgiven => ?_⟩
  · obtain ⟨m, hm⟩ := hdescribes.resolvesTo hj
    obtain ⟨e, ts, hat, hts, hcalled⟩ := hm.name_plain ha (hmember j hj) (hnamed j hj)
    rw [nameAt?_eq hat] at hcalled
    exact ⟨e, ts, hat, hts, hcalled⟩
  · have hsorted : (js.filter s.memberAt).Pairwise (· < ·) := hjs.pairwise_lt.filter _
    refine hdescribes.member_of_some (find?_called hsorted hj ?_ fun i hi hlt hcalled => ?_)
    · rw [hgives j hj none hkept, hname]
      rfl
    -- A member before it that is called by the name has it for its own, so it is the same one.
    obtain ⟨given, hi', hne⟩ := hgiven i hi hlt
    obtain ⟨own, hown⟩ := Option.isSome_iff_exists.mp (hnamed i hi)
    rw [hgives i hi given hi', hown] at hcalled
    cases given with
    | some other => exact hne (congrArg some hcalled)
    | none =>
      obtain rfl : own = name := hcalled
      have hij := List.inj_on_of_nodup_map hdistinct hi hj (hown.trans hname.symm)
      omega

/-- Two numbers, the first of which is constant. The second one is of a type. -/
def Builder.point (target : Nat) : Builder :=
  ((((((({} : Builder).begin .compileUnit []).leaf
    .baseType [(.name, .text "int"), (.byteSize, .udata 4)]).leaf
    .constType [(.type, .ref 12)]).begin
    .structureType [(.name, .text "Point"), (.byteSize, .udata 8)]).leaf
    .member [(.name, .text "x"), (.type, .ref 13)]).leaf
    .member [(.name, .text "y"), (.type, .ref target), (.dataMemberLocation, .udata 4)]).close

theorem Builder.point_built (target : Nat) : (point target).Built :=
  .close <| .leaf _ _ (by decide) <| .leaf _ _ (by decide) <| .begin _ _ (by decide) <|
    .leaf _ _ (by decide) <| .leaf _ _ (by decide) <| .begin _ _ (by decide) .empty

theorem Builder.point_children (target : Nat) :
    (point target).build.ChildrenAt 3 (point target).build.entries[3]! [4, 5] :=
  ⟨6, .leaf (e := (point target).build.entries[4]!) ⟨rfl, rfl⟩ rfl
    (.leaf (e := (point target).build.entries[5]!) ⟨rfl, rfl⟩ rfl (.nil 6)), .null, rfl, rfl⟩

theorem Builder.point_layers :
    let s := (point 12).build
    s.LayersOf s.entries[4]! [s.entries[2]!, s.entries[1]!] ∧
      s.LayersOf s.entries[5]! [s.entries[1]!] :=
  ⟨⟨2, rfl, .layer ⟨rfl, rfl⟩ rfl rfl (.bottom ⟨rfl, rfl⟩ rfl)⟩, 1, rfl, .bottom ⟨rfl, rfl⟩ rfl⟩

theorem resolve_memberNames_point :
    let s := (Builder.point 12).build
    ∃ l d m, s.resolve s.entries[3]! {} = .ok l d ∧ l.memberNames = ["int", "y"] ∧
      l.member "y" = .ok m ∧ s.ResolvesTo 5 m ∧
      l.member "x" = .error (.fieldNotFound "x" "Point") := by
  intro s
  have hok : ∃ l d, s.resolve s.entries[3]! {} = .ok l d ∧ l.name = "Point" := ⟨_, _, rfl, rfl⟩
  obtain ⟨l, d, hl, hname⟩ := hok
  have ha : s.Addressed := (Builder.point_built 12).addressed List.prefix_rfl
  have hk : s.EndsAt s.entries[3]! 3 := ⟨[], by decide⟩
  obtain ⟨hnames, hcalled, hfound, hmissing, hown⟩ := resolve_memberNames ha hk ⟨rfl, rfl⟩ rfl
    (Builder.point_children 12) (by decide) (by decide) hl
  obtain ⟨hfirst, hsecond⟩ := Builder.point_layers
  have hconstant : Plain [s.entries[2]!, s.entries[1]!] := by
    unfold Plain
    decide
  have hx : s.Gives 4 (some "int") := ⟨_, _, ⟨rfl, rfl⟩, hfirst, hconstant, rfl⟩
  have hy : s.Gives 5 none := ⟨_, _, ⟨rfl, rfl⟩, hsecond, .singleton _, rfl⟩
  have hbefore : ∀ i ∈ [4, 5].filter s.memberAt, i < 5 → i = 4 := by decide
  obtain ⟨m, hm, hmember⟩ := hown 5 (by decide) "y" rfl hy fun i hi hlt => by
    rw [hbefore i hi hlt]
    exact ⟨_, hx, by decide⟩
  refine ⟨l, d, m, hl, hnames.trans (by decide +kernel), hmember, hm, ?_⟩
  rw [← hname]
  exact hmissing "x" (by decide +kernel)

/-- If both are constant, both are called by the name of their type, and neither is found by its
own. -/
theorem resolve_memberNames_constants :
    let s := (Builder.point 13).build
    s.ChildrenAt 3 s.entries[3]! [4, 5] ∧ s.memberAt 4 = true ∧ s.memberAt 5 = true ∧
      s.nameAt? 4 = some "x" ∧ s.nameAt? 5 = some "y" ∧
      ∃ l d, s.resolve s.entries[3]! {} = .ok l d ∧ l.memberNames = ["int", "int"] ∧
        l.member "x" = .error (.fieldNotFound "x" "Point") ∧
        l.member "y" = .error (.fieldNotFound "y" "Point") :=
  ⟨Builder.point_children 13, rfl, rfl, rfl, rfl, _, _, rfl, rfl, rfl, rfl⟩

end Stream
end DwarfScope
