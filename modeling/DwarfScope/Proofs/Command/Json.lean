import DwarfScope.Command.Json
import DwarfScope.Proofs.Json.Text

/-!
# Commands as JSON

A command is read back from the request that holds it, so the request determines the command.
-/

namespace DwarfScope

namespace Json

variable {α β : Type}

/-! ## Decoding what was written -/

/-- `decode` answers the value that `encode` was given. -/
def Decodes (decode : Json → Decode α) (encode : α → Json) : Prop :=
  ∀ a, decode (encode a) = .ok a

variable {decode : Json → Decode α} {encode : α → Json}

theorem decodes_string : Decodes asString str := fun _ => rfl

theorem asInt_of_mem {low high n : Int} (hlow : low ≤ n) (hhigh : n ≤ high) :
    asInt low high (int n) = .ok n := by
  simp [asInt, hlow, hhigh]

theorem decodes_uint8 : Decodes asUInt8 fun b => ofNat b.toNat := by
  intro b
  have := b.toNat_lt
  change asUInt8 (int b.toNat) = _
  rw [asUInt8, asInt_of_mem (by omega) (by omega), ok_map, Int.toNat_natCast,
    UInt8.ofNat_toNat]

theorem decodes_uint64 : Decodes asUInt64 fun v => ofNat v.toNat := by
  intro v
  have := v.toNat_lt
  change asUInt64 (int v.toNat) = _
  rw [asUInt64, asInt_of_mem (by omega) (by omega), ok_map, Int.toNat_natCast,
    UInt64.ofNat_toNat]

theorem decodes_int64 : Decodes asInt64 fun v => int v.toInt := by
  intro v
  have hlow := v.le_toInt
  have hhigh := v.toInt_lt
  rw [asInt64, asInt_of_mem (by omega) (by omega), ok_map, Int64.ofInt_toInt]

theorem Decodes.list (h : Decodes decode encode) :
    Decodes (asListOf decode) fun items => arr (items.map encode) := by
  intro items
  change (items.map encode).mapM decode = .ok items
  induction items with
  | nil => rfl
  | cons a items ih => simp only [List.map_cons, List.mapM_cons, h a, ih, ok_bind]; rfl

theorem Decodes.option (h : Decodes decode encode) (hnull : ∀ a, encode a ≠ null) :
    Decodes (asOption decode) (ofOption encode) := by
  intro o
  cases o with
  | none => rfl
  | some a =>
    rw [ofOption, asOption, h a]
    · rfl
    · exact hnull a

theorem Decodes.pair {second : Json → Decode β} {encodeSecond : β → Json}
    (h : Decodes decode encode) (hsecond : Decodes second encodeSecond) :
    Decodes (asPair decode second) fun p => arr [encode p.1, encodeSecond p.2] := by
  rintro ⟨a, b⟩
  simp only [asPair, h a, hsecond b, ok_bind]
  rfl

theorem decodes_name : Decodes (asOption asString) (ofOption str) :=
  decodes_string.option fun _ => nofun

end Json

namespace Command

theorem ofJson_toJson (c : Command) : ofJson c.toJson = .ok c := by
  cases c with
  | readVariable name =>
    exact congrArg (readVariable <$> ·) (Json.decodes_name name)
  | setVariable name value =>
    have hpair := Json.decodes_name.pair Json.decodes_uint8.list (name, value)
    exact congrArg (· >>= fun p => pure (setVariable p.1 p.2)) hpair
  | setField field value =>
    have hpair := Json.decodes_string.pair Json.decodes_uint64 (field, value)
    exact congrArg (· >>= fun p => pure (setField p.1 p.2)) hpair
  | setOffset offset =>
    exact congrArg (setOffset <$> ·) (Json.decodes_int64 offset)
  | _ => rfl

theorem ofRequestJson_requestJson (c : Command) : ofRequestJson c.requestJson = .ok c :=
  ofJson_toJson c

/-- A command survives its request, so no two commands have one request. -/
theorem ofRequest_request :
    (∀ c : Command, ofRequest c.request = .ok c) ∧ Function.Injective request := by
  have hread (c : Command) : ofRequest c.request = .ok c := by
    rw [ofRequest, request, Json.parse_render, Json.ok_bind, ofRequestJson_requestJson]
  refine ⟨hread, fun c d h => ?_⟩
  have hc := hread c
  rw [h, hread d] at hc
  exact (Except.ok.inj hc).symm

end Command
end DwarfScope
