import DwarfScope.Dwarf.Unit
import DwarfScope.Proofs.Dwarf.Reading

/-!
# What is in a unit

The units that are read have addresses of one, two, four or eight bytes, and the values of their
entries lie in the data.
-/

namespace DwarfScope.Dwarf

open Read

/-! ## Values -/

/-- The bytes of a value are there. -/
def FormValue.Fits : FormValue → Prop
  | .block bytes | .expression bytes => bytes.Fits
  | _ => True

theorem readDirect_yields (enc : Encoding) (d : Declared) (form : Nat) :
    (readDirect enc d form).Yields FormValue.Fits := by
  have hplain {α : Type} {step : Read α} {f : α → FormValue} (h : step.Forward)
      (hf : ∀ a, (f a).Fits) : (do return f (← step)).Yields FormValue.Fits :=
    h.map fun a _ => hf a
  have hblock {step : Read Nat} {f : Input → FormValue} (h : step.Forward)
      (hf : ∀ part, part.Fits → (f part).Fits) :
      (do return f (← split (← step))).Yields FormValue.Fits :=
    h.bind fun n _ => (split_yields n).map hf
  unfold readDirect
  split
  -- A number of four or eight bytes may be an offset instead.
  case h_5 | h_6 =>
    refine (word_forward _).map fun n _ => ?_
    split <;> trivial
  case h_36 =>
    split
    · exact .pure trivial
    · exact .throw _
  all_goals first
    | exact hplain (word_forward _) fun _ => trivial
    | exact hplain unsigned_forward fun _ => trivial
    | exact hplain signed_forward fun _ => trivial
    | exact hplain zeroTerminated_forward fun _ => trivial
    | exact hplain (skip_forward _) fun _ => trivial
    | exact hblock (word_forward _) fun _ h => h
    | exact hblock unsigned_forward fun _ h => h
    | exact (split_yields _).map fun _ h => h
    | exact .pure trivial
    | exact .throw _

theorem readFormFrom_yields (enc : Encoding) (d : Declared) (n form : Nat) :
    (readFormFrom enc d n form).Yields FormValue.Fits := by
  induction n generalizing form with
  | zero => exact .throw _
  | succ n ih =>
    exact .ite (fun _ => unsigned16_forward.bind fun _ _ => ih _)
      fun _ => readDirect_yields enc d form

theorem readValue_yields (enc : Encoding) (d : Declared) :
    (readValue enc d).Yields FormValue.Fits :=
  Yields.get.bind fun _ _ => readFormFrom_yields enc d _ _

/-! ## Entries -/

def RawEntry.Fits (raw : RawEntry) : Prop := ∀ attr ∈ raw.attrs, attr.2.Fits

theorem readAttrs_yields (enc : Encoding) (declared : List Declared) :
    (declared.mapM fun d => do return (d.attr, ← readValue enc d)).Yields
      fun attrs => ∀ attr ∈ attrs, attr.2.Fits := by
  induction declared with
  | nil => exact .pure (by simp)
  | cons d rest ih =>
    have hfirst : (do return (d.attr, ← readValue enc d)).Yields fun attr => attr.2.Fits :=
      (readValue_yields enc d).map fun _ h => h
    rw [List.mapM_cons]
    refine hfirst.bind fun attr hattr => ih.map fun attrs hattrs => ?_
    intro other hother
    rcases List.mem_cons.mp hother with rfl | hother
    · exact hattr
    · exact hattrs other hother

theorem readEntry_yields (enc : Encoding) (table : Abbreviations) :
    (readEntry enc table).Yields fun found => ∀ raw ∈ found, raw.Fits := by
  refine Yields.get.bind fun start _ => unsigned_forward.bind fun code _ => ?_
  refine .ite (fun _ => .pure (by simp)) fun _ => ?_
  split
  · exact .throw _
  · exact (readAttrs_yields enc _).map fun attrs hattrs raw hraw => by
      obtain rfl := Option.some.inj hraw
      exact hattrs

theorem readEntries_yields (enc : Encoding) (table : Abbreviations) :
    (readEntries enc table).Yields fun entries => ∀ raw, some raw ∈ entries → raw.Fits := by
  refine (untilEmpty_yields (readEntry_yields enc table)).mono fun entries h raw hraw => ?_
  exact h _ hraw raw rfl

/-! ## Units -/

theorem skipKindFields_forward (format : Format) (kind : Nat) :
    (skipKindFields format kind).Forward := by
  unfold skipKindFields
  split
  · exact .pure trivial
  · exact .pure trivial
  · exact skip_forward _
  · exact skip_forward _
  · exact skip_forward _
  · exact skip_forward _
  · exact .throw _

theorem readUnitHeader_yields (start : Nat) (format : Format) :
    (readUnitHeader start format).Yields
      fun header => IsAddressSize header.encoding.addressSize := by
  refine (word_forward 2).bind fun version _ => .ite (fun _ => ?_) fun _ => .ite (fun _ => ?_) ?_
  · refine (offset_forward format).bind fun _ _ => ?_
    exact addressSize_yields.map fun _ h => h
  · refine byte_forward.bind fun kind _ => addressSize_yields.bind fun size hsize => ?_
    refine (offset_forward format).bind fun _ _ => ?_
    exact (skipKindFields_forward format kind).map fun _ _ => hsize
  · exact fun _ => .throw _

structure RawUnit.Sound (u : RawUnit) : Prop where
  addressSize : IsAddressSize u.header.encoding.addressSize
  fits : ∀ raw, some raw ∈ u.entries → raw.Fits

theorem readUnit_yields (s : Sections) : (readUnit s).Yields RawUnit.Sound := by
  refine Yields.get.bind fun i _ => initialLength_forward.bind fun (length, format) _ => ?_
  refine (split_yields length).bind fun body hbody => .within hbody ?_
  refine (readUnitHeader_yields i.pos format).bind fun header hheader => ?_
  refine (within_forward _ _).bind fun table _ => ?_
  refine (readEntries_yields header.encoding table).bind fun entries hentries => ?_
  split
  case h_1 => exact .throw _
  case h_2 root _ =>
    have hsound : RawUnit.Sound ⟨header, Bases.ofRoot root, entries⟩ := ⟨hheader, hentries⟩
    dsimp only
    split
    · exact (within_forward _ _).map fun _ _ => hsound
    · exact .pure hsound

theorem readUnits_yields (s : Sections) :
    (readUnits s).Yields fun units => ∀ u ∈ units, u.Sound :=
  untilEmpty_yields (readUnit_yields s)

end DwarfScope.Dwarf
