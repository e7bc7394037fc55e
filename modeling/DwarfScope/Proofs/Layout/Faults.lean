import DwarfScope.Proofs.Layout.Resolving

/-!
# Faults of a resolution

All ways in which a resolution can fail. No error of it is about a name that was looked for.
-/

namespace DwarfScope.Stream

open Effect (FailsWith)

variable {s : Stream} {e : Entry} {l : Layers} {err : Error} {limit depth n : Nat}

/-- A failure of a resolution. A reference that is said to lead nowhere leads to no entry. -/
inductive ResolveError (s : Stream) : Failure → Prop
  | missingSize (name : String) : ResolveError s (Error.layout (.missingSize name))
  | truncated (name : String) : ResolveError s (Error.layout (.truncated name))
  | notAType (name : String) (tag : Tag) : ResolveError s (Error.layout (.notAType name tag))
  | dangling {target : Nat} :
    s.Missing target → ResolveError s (Error.layout (.danglingReference target))
  | overflow (name : String) : ResolveError s (Error.layout (.overflow name))
  /-- The way back behind a member is lost. -/
  | lost (offset : Nat) : ResolveError s (Error.noSuchOffset offset)
  | endless : ResolveError s .endless

namespace ResolveError

theorem covers : s.CoversErrors s.ResolveError := ⟨.truncated, fun _ => .dangling⟩

theorem unwrap (n : Nat) (l : Layers) : FailsWith s.ResolveError (s.unwrap n l) := by
  induction n generalizing l with
  | zero => exact .diverge .endless
  | succ n ih =>
    refine .bind (nextLayer_failsWith covers l) fun l? => ?_
    rcases l? with _ | l
    · exact .pure _
    · exact ih l

theorem frame (h : frame e l = .error err) : s.ResolveError err := by
  rcases frame_error h with rfl | ⟨name, rfl | rfl⟩
  · exact .notAType _ _
  · exact .missingSize name
  · exact .overflow name

theorem membersFrom {name : String} {resolve : Entry → Walk Layout}
    (h : ∀ e, FailsWith s.ResolveError (resolve e)) (n : Nat) :
    FailsWith s.ResolveError (s.membersFrom name resolve n) := by
  induction n with
  | zero => exact .diverge .endless
  | succ n ih =>
    refine .bind next_failsWith fun e? => ?_
    rcases e? with _ | e
    · exact .throw (.truncated name)
    dsimp only
    split
    · exact .pure _
    split
    · exact .bind (h e) fun _ => .bind (seek_failsWith (.lost e.offset)) fun _ =>
        .bind next_failsWith fun _ => .bind skipChildren_failsWith fun _ =>
        .bind ih fun _ => .pure _
    · exact .bind skipChildren_failsWith fun _ => ih

theorem resolveWithin (limit depth : Nat) (e : Entry) :
    FailsWith s.ResolveError (s.resolveWithin limit depth e) := by
  induction depth generalizing e with
  | zero => exact .diverge .endless
  | succ depth ih =>
    cases he : e.isNull with
    | true =>
      refine Walk.failsWith_iff.mpr fun c err herr => ?_
      rw [outcome_resolveWithin_null he] at herr
      cases herr
      exact .notAType _ _
    | false =>
      rw [resolveWithin_succ he]
      have hfirst := firstLayer_failsWith (s := s) covers e
      refine .bind (.bind hfirst fun l => unwrap _ l) fun l => ?_
      refine .bind (.ofExcept fun _ => frame) fun f => .bind ?_ fun _ => .pure _
      unfold members
      split
      · exact membersFrom ih limit
      · exact .pure _

end ResolveError

theorem resolve_failsWith (e : Entry) : FailsWith s.ResolveError (s.resolve e) :=
  .resolveWithin _ _ e

end DwarfScope.Stream
