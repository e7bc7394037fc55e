import DwarfScope.Proofs.Layout.Resolving
import DwarfScope.Proofs.Stream.Offsets
import Mathlib.Data.Finset.Card
import Mathlib.Data.Finset.Image

/-!
# Room for a resolution

With more room a resolution does the same, unless it ran out of room before. There is a limit to how
much room can be of use, as there are only so many entries: where a layer, a place in a list or a
member is met again, what comes after it comes again as well. So a resolution that finds no end
within that limit has none.
-/

namespace DwarfScope

/-! ## Rounds that settle -/

namespace Rounds

variable {α β : Type} {f : Nat → α → β} {unknown : β} {S : Finset α} {n m N : Nat}

open Classical in
/-- The places that are still unknown after some rounds. -/
noncomputable def unknowns (f : Nat → α → β) (unknown : β) (S : Finset α) (n : Nat) : Finset α :=
  {a ∈ S | f n a = unknown}

theorem mem_unknowns {a : α} : a ∈ unknowns f unknown S n ↔ a ∈ S ∧ f n a = unknown := by
  simp [unknowns]

theorem unknowns_succ_subset (hext : ∀ n a, f n a = unknown ∨ f n a = f (n + 1) a) (n : Nat) :
    unknowns f unknown S (n + 1) ⊆ unknowns f unknown S n := by
  intro a ha
  obtain ⟨hmem, hnext⟩ := mem_unknowns.mp ha
  rcases hext n a with h | h
  · exact mem_unknowns.mpr ⟨hmem, h⟩
  · exact mem_unknowns.mpr ⟨hmem, h.trans hnext⟩

theorem eq_or_card_lt (hext : ∀ n a, f n a = unknown ∨ f n a = f (n + 1) a) (n : Nat) :
    (∀ a ∈ S, f n a = f (n + 1) a) ∨
      (unknowns f unknown S (n + 1)).card < (unknowns f unknown S n).card := by
  rcases (unknowns_succ_subset hext n).eq_or_ssubset with heq | hlt
  · left
    intro a ha
    rcases hext n a with h | h
    · have hmem : a ∈ unknowns f unknown S (n + 1) := heq ▸ mem_unknowns.mpr ⟨ha, h⟩
      exact h.trans (mem_unknowns.mp hmem).2.symm
    · exact h
  · exact .inr (Finset.card_lt_card hlt)

theorem exists_round (hext : ∀ n a, f n a = unknown ∨ f n a = f (n + 1) a) (hS : S.card ≤ N) :
    ∃ k ≤ N, ∀ a ∈ S, f k a = f (k + 1) a := by
  -- As long as each round makes a difference, fewer places are unknown after it.
  have hcount (n : Nat) : (∃ k < n, ∀ a ∈ S, f k a = f (k + 1) a) ∨
      (unknowns f unknown S n).card + n ≤ S.card := by
    induction n with
    | zero => exact .inr (Finset.card_le_card fun a ha => (mem_unknowns.mp ha).1)
    | succ n ih =>
      rcases ih with ⟨k, hk, hall⟩ | hle
      · exact .inl ⟨k, by omega, hall⟩
      · rcases eq_or_card_lt hext n with hall | hlt
        · exact .inl ⟨n, Nat.lt_succ_self n, hall⟩
        · exact .inr (by omega)
  rcases hcount (N + 1) with ⟨k, hk, hall⟩ | hle
  · exact ⟨k, by omega, hall⟩
  · omega

/-- What is unknown may get known from round to round. If each round depends on the one before it at
some places only, no more than `N` rounds make a difference after the first. -/
theorem settled (hext : ∀ n a, f n a = unknown ∨ f n a = f (n + 1) a)
    (hstep : ∀ n, (∀ a ∈ S, f n a = f (n + 1) a) → ∀ a, f (n + 1) a = f (n + 2) a)
    (hS : S.card ≤ N) (hm : N < m) (a : α) : f m a = f (N + 1) a := by
  obtain ⟨k, hk, hround⟩ := exists_round hext hS
  have hnext : ∀ n, k ≤ n → ∀ a, f (n + 1) a = f (n + 2) a := by
    intro n hn
    induction n, hn using Nat.le_induction with
    | base => exact hstep k hround
    | succ n _ ih => exact hstep (n + 1) fun a _ => ih a
  have hlast : ∀ n, k ≤ n → f (n + 1) a = f (k + 1) a := by
    intro n hn
    induction n, hn using Nat.le_induction with
    | base => rfl
    | succ n hn ih => exact (hnext n hn a).symm.trans ih
  obtain ⟨m, rfl⟩ : ∃ m', m = m' + 1 := ⟨m - 1, by omega⟩
  rw [hlast m (by omega), hlast N hk]

end Rounds

namespace Stream

open Rounds (settled)

variable {s : Stream} {i k n m limit depth : Nat} {e : Entry} {c : Cursor} {name : String}
  {resolve resolve' : Entry → Walk Layout}

/-! ## Layers -/

/-- So many layers can be taken off from an index on, and perhaps more. -/
def Goes (s : Stream) : Nat → Nat → Prop
  | 0, _ => True
  | n + 1, i => ∃ j < s.size, (∃ t, s.EntryAt i t ∧ t.isLayer = true) ∧
    (∃ ranges, s.layer? i = some (ranges, j)) ∧ s.Goes n j

theorem Goes.of_succ (h : s.Goes (n + 1) i) : s.Goes n i := by
  induction n generalizing i with
  | zero => trivial
  | succ n ih =>
    obtain ⟨j, hj, hlayer, hbelow, hgoes⟩ := h
    exact ⟨j, hj, hlayer, hbelow, ih hgoes⟩

theorem endless_unwrap {l : Layers} (hl : s.EntryAt i l.entry) :
    (s.unwrap n l).Endless (.behind i) ↔ s.Goes n i := by
  induction n generalizing l i with
  | zero => exact iff_of_true rfl trivial
  | succ n ih =>
    unfold Walk.Endless
    rcases outcome_unwrap_succ n hl with
      ⟨h, hok⟩ | ⟨-, hlayer, err, hends, herr⟩ | ⟨ranges, j, l', h, hlayer, hl', -, heq⟩
    · rw [hok]
      refine iff_of_false nofun ?_
      rintro ⟨_, -, ⟨t, ht, hlayer⟩, -, -⟩
      obtain rfl := hl.unique ht
      rw [h] at hlayer
      cases hlayer
    · rw [herr]
      refine iff_of_false (fun he => hends (Except.error.inj he)) ?_
      rintro ⟨_, -, -, ⟨_, hsome⟩, -⟩
      cases hlayer.symm.trans hsome
    · rw [heq]
      refine (ih hl').trans ⟨fun hgoes => ?_, ?_⟩
      · exact ⟨j, hl'.lt_size, ⟨_, hl, h⟩, ⟨ranges, hlayer⟩, hgoes⟩
      · rintro ⟨_, -, -, ⟨_, hsome⟩, hgoes⟩
        obtain ⟨-, rfl⟩ := Prod.mk.inj (Option.some.inj (hlayer.symm.trans hsome))
        exact hgoes

theorem Goes.of_le (h : s.Goes n i) (hm : m ≤ n) : s.Goes m i := by
  induction hm with
  | refl => exact h
  | step _ ih => exact ih h.of_succ

theorem Goes.all (h : s.Goes n i) (hn : s.size < n) (m : Nat) : s.Goes m i := by
  have hext (n i : Nat) : s.Goes n i = True ∨ s.Goes n i = s.Goes (n + 1) i := by
    by_cases h : s.Goes n i
    · exact .inl (eq_true h)
    · exact .inr (propext (iff_of_false h (mt Goes.of_succ h)))
  have hstep (n : Nat) (hall : ∀ i ∈ Finset.range s.size, s.Goes n i = s.Goes (n + 1) i) (i : Nat) :
      s.Goes (n + 1) i = s.Goes (n + 2) i := by
    refine propext (exists_congr fun j => and_congr_right fun hj => ?_)
    rw [hall j (Finset.mem_range.mpr hj)]
  have hsettled {m : Nat} (hm : s.size < m) : s.Goes m i = s.Goes (s.size + 1) i :=
    settled hext hstep (Finset.card_range s.size).le hm i
  rcases Nat.le_total m n with hle | hle
  · exact h.of_le hle
  · rw [hsettled (hn.trans_le hle), ← hsettled hn]
    exact h

theorem unwrap_enough {l : Layers} (hl : s.EntryAt i l.entry) (hn : s.size < n) (m : Nat) :
    (s.unwrap m l).Endless (.behind i) ∨
      (s.unwrap m l).outcome (.behind i) = (s.unwrap n l).outcome (.behind i) := by
  rcases Nat.le_total m n with hle | hle
  · exact unwrap_extendedBy hle l _
  · rcases unwrap_extendedBy hle l (.behind i) with hend | heq
    · exact .inl ((endless_unwrap hl).mpr (((endless_unwrap hl).mp hend).all hn m))
    · exact .inr heq.symm

theorem arrive_enough (hn : s.size < n) (limit : Nat) (e : Entry) :
    (s.arrive limit e).ExtendedBy (s.arrive n e) := by
  intro c
  have hfirst := reached_firstLayer (s := s) e c
  unfold arrive Walk.Endless
  rcases hi : (s.typeIndex? e).bind s.startAt? with _ | ⟨ranges, i⟩
  · rw [hi] at hfirst
    obtain ⟨err, herr⟩ := hfirst
    rw [Walk.outcome_bind_of_error herr, Walk.outcome_bind_of_error herr]
    exact .inr rfl
  · rw [hi] at hfirst
    obtain ⟨name, t, ht, hok⟩ := hfirst
    rw [Walk.outcome_bind_of_ok hok, Walk.outcome_bind_of_ok hok]
    exact unwrap_enough ht hn limit

/-! ## Lists of members -/

theorem exists_of_locate? {offset : Nat} (h : s.locate? offset = some k) (hs : 0 < s.size) :
    ∃ u, s.entries[k]? = some u := by
  unfold locate? at h
  split at h
  · obtain rfl := Option.some.inj h
    exact ⟨_, Array.getElem?_eq_getElem hs⟩
  · obtain ⟨⟨u, hu, -⟩, -⟩ := indexOf?_eq_some_iff.mp h
    exact ⟨u, hu.get⟩

/-- Where the list goes on after a member or another child. -/
def nextItem (s : Stream) (i : Nat) : Cursor :=
  { position := (s.entries[i]?.map (s.afterItem i)).getD 0 }

theorem nextItem_eq (he : s.entries[i]? = some e) :
    s.nextItem i = { position := s.afterItem i e } := by
  simp [nextItem, he]

theorem outcome_membersFrom_congr
    (hr : ∀ i e, s.EntryAt i e → ∀ c, (resolve e).outcome c = (resolve' e).outcome c)
    (hrest : ∀ i < s.size, (s.membersFrom name resolve n).outcome (s.nextItem i) =
      (s.membersFrom name resolve' m).outcome (s.nextItem i)) (c : Cursor) :
    (s.membersFrom name resolve (n + 1)).outcome c =
      (s.membersFrom name resolve' (m + 1)).outcome c := by
  rcases he : s.entries[c.position]? with _ | e
  · rw [outcome_membersFrom_end he, outcome_membersFrom_end he]
  cases hnull : e.isNull with
  | true => rw [outcome_membersFrom_null ⟨e, he, hnull⟩, outcome_membersFrom_null ⟨e, he, hnull⟩]
  | false =>
    have hat : s.EntryAt c.position e := ⟨he, hnull⟩
    by_cases ht : e.tag = .member
    · have hsame := hr _ _ hat (.behind c.position)
      rcases hres : (resolve e).outcome (.behind c.position) with err | ⟨l, d⟩
      · rw [outcome_membersFrom_error hat ht hres,
          outcome_membersFrom_error hat ht (hsame.symm.trans hres)]
      rcases hk : s.locate? e.offset with _ | k
      · rw [outcome_membersFrom_lost hk hat ht hres,
          outcome_membersFrom_lost hk hat ht (hsame.symm.trans hres)]
      -- The offset of the member may be that of another entry, and then the list goes on there.
      obtain ⟨u, hu⟩ := exists_of_locate? hk (Nat.zero_lt_of_lt hat.lt_size)
      have hlt : k < s.size := (Array.getElem?_eq_some_iff.mp hu).1
      rw [outcome_membersFrom_sought hk hu hat ht hres,
        outcome_membersFrom_sought hk hu hat ht (hsame.symm.trans hres), ← nextItem_eq hu,
        hrest k hlt]
    · rw [outcome_membersFrom_other hat ht, outcome_membersFrom_other hat ht, ← nextItem_eq he,
        hrest _ hat.lt_size]

theorem membersFrom_enough (hn : s.size < n) (m : Nat) :
    (s.membersFrom name resolve m).ExtendedBy (s.membersFrom name resolve n) := by
  have hext (n : Nat) (c : Cursor) : (s.membersFrom name resolve n).Endless c ∨
      (s.membersFrom name resolve n).outcome c = (s.membersFrom name resolve (n + 1)).outcome c :=
    membersFrom_extendedBy (fun _ => .refl _) (Nat.le_succ n) name c
  have hstep (n : Nat)
      (hall : ∀ c ∈ (Finset.range s.size).image s.nextItem,
        (s.membersFrom name resolve n).outcome c = (s.membersFrom name resolve (n + 1)).outcome c)
      (c : Cursor) :
      (s.membersFrom name resolve (n + 1)).outcome c =
        (s.membersFrom name resolve (n + 2)).outcome c :=
    outcome_membersFrom_congr (fun _ _ _ _ => rfl)
      (fun i hi => hall _ (Finset.mem_image_of_mem _ (Finset.mem_range.mpr hi))) c
  have hcard : ((Finset.range s.size).image s.nextItem).card ≤ s.size :=
    Finset.card_image_le.trans (Finset.card_range s.size).le
  intro c
  rcases Nat.le_total m n with hle | hle
  · exact membersFrom_extendedBy (fun e => .refl _) hle name c
  · right
    have hsettled {m : Nat} (hm : s.size < m) := settled hext hstep hcard hm c
    rw [hsettled (hn.trans_le hle), hsettled hn]

/-! ## Members in members -/

theorem resolveWithin_enough (hn : s.size < n) (limit depth : Nat) (e : Entry) :
    (s.resolveWithin limit depth e).ExtendedBy (s.resolveWithin n depth e) := by
  induction depth generalizing e with
  | zero => exact .endless _
  | succ depth ih =>
    cases he : e.isNull with
    | true =>
      intro c
      rw [outcome_resolveWithin_null he, outcome_resolveWithin_null he]
      exact .inr rfl
    | false =>
      rw [resolveWithin_succ he, resolveWithin_succ he]
      refine .bind (arrive_enough hn limit e) fun l => .bind (.refl _) fun f =>
        .bind ?_ fun _ => .refl _
      unfold members
      split
      · exact (membersFrom_enough hn limit).trans (membersFrom_extendedBy ih (Nat.le_refl _) f.name)
      · exact .refl _

theorem outcome_resolveWithin_congr {depth' : Nat}
    (h : ∀ i m, s.EntryAt i m → ∀ c,
      (s.resolveWithin limit depth m).outcome c = (s.resolveWithin limit depth' m).outcome c)
    (e : Entry) (c : Cursor) :
    (s.resolveWithin limit (depth + 1) e).outcome c =
      (s.resolveWithin limit (depth' + 1) e).outcome c := by
  cases he : e.isNull with
  | true => rw [outcome_resolveWithin_null he, outcome_resolveWithin_null he]
  | false =>
    rcases ha : (s.arrive limit e).outcome c with err | ⟨l, d⟩
    · rw [outcome_resolveWithin_lost he ha, outcome_resolveWithin_lost he ha]
    rcases hf : frame e l with err | f
    · rw [outcome_resolveWithin_misfit he ha hf, outcome_resolveWithin_misfit he ha hf]
    rw [outcome_resolveWithin_frame he ha hf, outcome_resolveWithin_frame he ha hf]
    have hmembers : (s.members limit depth f.name l.entry).outcome d =
        (s.members limit depth' f.name l.entry).outcome d := by
      have hlist (n : Nat) (c : Cursor) :
          (s.membersFrom f.name (s.resolveWithin limit depth) n).outcome c =
            (s.membersFrom f.name (s.resolveWithin limit depth') n).outcome c := by
        induction n generalizing c with
        | zero => rfl
        | succ n ih => exact outcome_membersFrom_congr h (fun i _ => ih _) c
      unfold members
      split
      · exact hlist limit d
      · rfl
    rw [hmembers]

theorem outcome_resolveWithin_deep (hdepth : s.size < depth) (e : Entry) (c : Cursor) :
    (s.resolveWithin limit depth e).outcome c =
      (s.resolveWithin limit (s.size + 1) e).outcome c := by
  have hext (depth : Nat) (e : Entry) :=
    resolveWithin_extendedBy (s := s) (Nat.le_refl limit) (Nat.le_succ depth) e {}
  have hstep (depth : Nat)
      (hall : ∀ m ∈ s.entries.toList.toFinset, (s.resolveWithin limit depth m).outcome {} =
        (s.resolveWithin limit (depth + 1) m).outcome {}) (e : Entry) :
      (s.resolveWithin limit (depth + 1) e).outcome {} =
        (s.resolveWithin limit (depth + 2) e).outcome {} := by
    refine outcome_resolveWithin_congr (fun i m hm c => ?_) e {}
    have hmem : m ∈ s.entries.toList.toFinset := by
      simpa using Array.mem_of_getElem? hm.get
    rw [outcome_resolveWithin_cursor m c {}, hall m hmem, outcome_resolveWithin_cursor m {} c]
  have hcard : s.entries.toList.toFinset.card ≤ s.size := List.toFinset_card_le _
  rw [outcome_resolveWithin_cursor e c {}, settled hext hstep hcard hdepth e,
    outcome_resolveWithin_cursor e {} c]

/-- Whatever room there is, a resolution has the outcome that it has with the room it is given,
unless it runs out of it. -/
theorem resolveWithin_extendedBy_resolve (limit depth : Nat) (e : Entry) :
    (s.resolveWithin limit depth e).ExtendedBy (s.resolve e) := by
  refine (resolveWithin_enough (n := 2 * s.size + 2) (by omega) limit depth e).trans fun c => ?_
  rcases Nat.le_total depth (s.size + 2) with hle | hle
  · exact resolveWithin_extendedBy (Nat.le_refl _) hle e c
  · exact .inr ((outcome_resolveWithin_deep (by omega) e c).trans
      (outcome_resolveWithin_deep (by omega) e c).symm)

/-- No room is enough to resolve the entry. -/
def Bottomless (s : Stream) (e : Entry) : Prop :=
  ∀ limit depth, ¬ (s.resolveWithin limit depth e).Ends

theorem endless_resolve : (s.resolve e).Endless c ↔ s.Bottomless e := by
  constructor
  · intro h limit depth hends
    rcases resolveWithin_extendedBy_resolve limit depth e c with hend | heq
    · exact hends c hend
    · exact hends c (heq.trans h)
  · intro h
    obtain ⟨d, hd⟩ := not_forall_not.mp (h _ _)
    exact (outcome_resolveWithin_cursor e c d).trans hd

end Stream
end DwarfScope
