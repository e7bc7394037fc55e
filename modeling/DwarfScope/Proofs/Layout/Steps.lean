import DwarfScope.Proofs.Layout.Members

/-!
# The steps of a resolution

A resolution takes off layers, and then it begins with the first member, and with the next one when
that has its layout. It ends exactly if no stage that it comes to is come to again.
-/

namespace DwarfScope.Stream

open Relation (ReflTransGen TransGen)

variable {s : Stream} {i j k n limit depth : Nat} {js : List Nat} {e t m : Entry} {c d : Cursor}

/-- An entry that is resolved, and the index its references have led to. -/
abbrev Stage := Entry × Nat

/-- The first reference of an entry leads to an index. -/
def Begins (s : Stream) (e : Entry) (i : Nat) : Prop :=
  ∃ ranges, (s.typeIndex? e).bind s.startAt? = some (ranges, i)

/-- The member at `j` is resolved, after all members of the type at `k` that stand before it. -/
structure Asked (s : Stream) (k : Nat) (t : Entry) (j : Nat) (m : Entry) : Prop where
  children : t.children = true
  earlier : ∃ js, s.Siblings (k + 1) js j ∧ ∀ x ∈ js, s.memberAt x = true → ∃ l, s.ResolvesTo x l
  entryAt : s.EntryAt j m
  tag : m.tag = .member

inductive Step (s : Stream) : Stage → Stage → Prop
  | layer {e t : Entry} {i j : Nat} {ranges : List Nat} : s.EntryAt i t → t.isLayer = true →
      s.layer? i = some (ranges, j) → Step s (e, i) (e, j)
  | member {e t m : Entry} {i j k : Nat} : s.EntryAt k t → t.isLayer = false → Fits e t →
      t.tag.isAggregate = true → s.Asked k t j m → s.Begins m i → Step s (e, k) (m, i)

/-- No stage that is come to is come to again. -/
def Acyclic (s : Stream) (p : Stage) : Prop := ∀ q, ReflTransGen s.Step p q → ¬ TransGen s.Step q q

theorem Begins.unique (h : s.Begins e i) (h' : s.Begins e j) : i = j := by
  obtain ⟨ranges, h⟩ := h
  obtain ⟨ranges', h'⟩ := h'
  rw [h] at h'
  cases h'
  rfl

theorem Begins.outcome_arrive (h : s.Begins e i) (limit : Nat) (c : Cursor) :
    ∃ l : Layers, s.EntryAt i l.entry ∧
      (s.arrive limit e).outcome c = (s.unwrap limit l).outcome (.behind i) := by
  obtain ⟨ranges, h⟩ := h
  have hfirst := reached_firstLayer (s := s) e c
  rw [h] at hfirst
  obtain ⟨name, t, ht, hok⟩ := hfirst
  exact ⟨_, ht, Walk.outcome_bind_of_ok hok⟩

theorem Acyclic.of_reach {p q : Stage} (h : s.Acyclic p) (hq : ReflTransGen s.Step p q) :
    s.Acyclic q := fun r hr => h r (hq.trans hr)

/-! ## A resolution that ends comes to no cycle -/

theorem ResolvesTo.within {l : Layout} (h : s.ResolvesTo j l) (he : s.EntryAt j e) (c : Cursor) :
    (s.resolveWithin limit depth e).Endless c ∨
      ∃ d, (s.resolveWithin limit depth e).outcome c = .ok (l, d) := by
  obtain ⟨e', he', hok⟩ := h
  obtain rfl := he.unique he'
  obtain ⟨d, hok⟩ := hok c
  have hmax := (resolveWithin_extendedBy (s := s) (Nat.le_max_right limit _)
    (Nat.le_max_right depth _) e).ok (Walk.outcome_eq_ok.mpr hok)
  rcases resolveWithin_extendedBy (s := s) (Nat.le_max_left limit _) (Nat.le_max_left depth _) e c
    with hend | heq
  · exact .inl hend
  · exact .inr ⟨d, heq.trans hmax⟩

theorem not_endless_item {name : String} (ha : s.Addressed) (he : s.EntryAt c.position e)
    (hres : s.memberAt c.position = true → ∃ l, s.ResolvesTo c.position l)
    (h : ¬ (s.membersFrom name (s.resolveWithin limit depth) n).Endless c) :
    ∃ n', ¬ (s.membersFrom name (s.resolveWithin limit depth) n').Endless
      { position := s.afterItem c.position e } := by
  cases n with
  | zero => exact absurd rfl h
  | succ n =>
    refine ⟨n, fun hend => h ?_⟩
    unfold Walk.Endless at hend ⊢
    by_cases ht : e.tag = .member
    · obtain ⟨l, hl⟩ := hres (by simp [memberAt_of_entryAt he, ht])
      rcases hl.within he (.behind c.position) with hmember | ⟨d, hok⟩
      · exact outcome_membersFrom_error he ht hmember
      · rw [outcome_membersFrom_member (ha _ _ he) he ht hok, hend]
        rfl
    · rw [outcome_membersFrom_other he ht, hend]

theorem not_endless_member {name : String} {p : Nat} (ha : s.Addressed) (h : s.Siblings p js j)
    (hm : s.EntryAt j m) (ht : m.tag = .member)
    (hearlier : ∀ x ∈ js, s.memberAt x = true → ∃ l, s.ResolvesTo x l) (hc : c.position = p)
    (hend : ¬ (s.membersFrom name (s.resolveWithin limit depth) n).Endless c) :
    ¬ (s.resolveWithin limit depth m).Endless (.behind j) := by
  induction h generalizing n c with
  | nil p =>
    subst hc
    cases n with
    | zero => exact absurd rfl hend
    | succ n => exact fun hmember => hend (outcome_membersFrom_error hm ht hmember)
  | leaf he hchildren _ ih =>
    subst hc
    obtain ⟨n', hrest⟩ := not_endless_item ha he (hearlier _ List.mem_cons_self) hend
    rw [afterItem_leaf hchildren] at hrest
    exact ih hm (fun x hx => hearlier x (List.mem_cons_of_mem _ hx)) rfl hrest
  | node he hchildren hbelow hnull _ _ ih =>
    subst hc
    obtain ⟨n', hrest⟩ := not_endless_item ha he (hearlier _ List.mem_cons_self) hend
    rw [afterItem_node hchildren hbelow hnull] at hrest
    exact ih hm (fun x hx => hearlier x (List.mem_cons_of_mem _ hx)) rfl hrest

theorem acc_layers {l : Layers} (hl : s.EntryAt i l.entry)
    (hend : ¬ (s.unwrap n l).Endless (.behind i))
    (hbottom : ∀ l' k, s.EntryAt k l'.entry → l'.entry.isLayer = false →
      (s.unwrap n l).outcome (.behind i) = .ok (l', .behind k) →
      Acc (flip s.Step) (e, k)) : Acc (flip s.Step) (e, i) := by
  induction n generalizing l i with
  | zero => exact absurd rfl hend
  | succ n ih =>
    rcases outcome_unwrap_succ n hl with
      ⟨h, hok⟩ | ⟨h, hnone, -⟩ | ⟨ranges, j, l', h, hsome, hl', -, heq⟩
    · exact hbottom l i hl h hok
    · refine Acc.intro _ fun p hp => ?_
      cases hp with
      | layer ht _ hlayer => simp [hnone] at hlayer
      | member ht hbottom' =>
        obtain rfl := hl.unique ht
        simp [h] at hbottom'
    · refine Acc.intro _ fun p hp => ?_
      cases hp with
      | layer ht _ hlayer =>
        obtain ⟨rfl, rfl⟩ : ranges = _ ∧ j = _ := by simpa [hsome] using hlayer
        rw [Walk.Endless, heq] at hend
        rw [heq] at hbottom
        exact ih hl' hend hbottom
      | member ht hbottom' =>
        obtain rfl := hl.unique ht
        simp [h] at hbottom'

theorem acc_of_ends (ha : s.Addressed) (he : e.isNull = false)
    (h : (s.resolveWithin limit depth e).Ends) (hi : s.Begins e i) :
    Acc (flip s.Step) (e, i) := by
  induction depth generalizing e i with
  | zero => exact absurd rfl (h {})
  | succ depth ih =>
    obtain ⟨first, hfirst, harrive⟩ := hi.outcome_arrive limit {}
    have hlayers : ¬ (s.unwrap limit first).Endless (.behind i) := fun hend =>
      h {} (outcome_resolveWithin_lost he (harrive.trans hend))
    refine acc_layers hfirst hlayers fun l k hk hbottom hunwrap => Acc.intro _ fun p hp => ?_
    cases hp with
    | layer ht' hl' =>
      obtain rfl := hk.unique ht'
      simp [hbottom] at hl'
    | member ht' _ hfits hagg hasked hbegins =>
      obtain rfl := hk.unique ht'
      obtain ⟨f, hf⟩ := frame_of_fits hfits
      obtain ⟨js, hjs, hearlier⟩ := hasked.earlier
      refine ih hasked.entryAt.nonnull (fun c hend => ?_) hbegins
      have hmembers : ¬ (s.members limit depth f.name l.entry).Endless (.behind k) := by
        intro hend
        refine h {} ?_
        unfold Walk.Endless at hend ⊢
        rw [outcome_resolveWithin_frame he (harrive.trans hunwrap) hf, hend]
        rfl
      rw [members, if_pos (by simp [hagg, hasked.children])] at hmembers
      refine not_endless_member ha hjs hasked.entryAt hasked.tag hearlier rfl hmembers ?_
      exact (outcome_resolveWithin_cursor _ _ _).trans hend

/-! ## A resolution that comes to no cycle ends -/

theorem chain_length_le_of_head {r : Nat → Nat → Prop} {N a : Nat} {l : List Nat}
    (hl : (a :: l).IsChain r) (hlt : ∀ x ∈ a :: l, x < N)
    (hback : ∀ x, ReflTransGen r a x → ¬ TransGen r x x) : (a :: l).length ≤ N := by
  refine chain_length_le hl hlt fun x hx => hback x ?_
  have hpair : (a :: l).Pairwise (TransGen r) :=
    List.isChain_iff_pairwise.mp (hl.imp fun _ _ h => .single h)
  rcases List.mem_cons.mp hx with rfl | hx
  · exact .refl
  · exact ((List.pairwise_cons.mp hpair).1 x hx).to_reflTransGen

theorem chain_of_unwrap_endless {l : Layers} (hl : s.EntryAt i l.entry)
    (h : (s.unwrap n l).Endless (.behind i)) :
    ∃ is, (i :: is).IsChain (fun x y => s.Step (e, x) (e, y)) ∧ is.length = n ∧
      ∀ x ∈ i :: is, ∃ t, s.EntryAt x t := by
  induction n generalizing l i with
  | zero => exact ⟨[], .singleton i, rfl, by simpa using ⟨_, hl⟩⟩
  | succ n ih =>
    rcases outcome_unwrap_succ n hl with
      ⟨-, hok⟩ | ⟨-, -, err, hends, herr⟩ | ⟨ranges, j, l', hlayer, hj, hl', -, heq⟩
    · cases hok.symm.trans h
    · cases herr.symm.trans h
      exact absurd rfl hends
    · obtain ⟨is, hchain, hlength, hall⟩ := ih hl' (heq.symm.trans h)
      refine ⟨j :: is, hchain.cons_cons (.layer hl hlayer hj), by simp [hlength], ?_⟩
      intro x hx
      rcases List.mem_cons.mp hx with rfl | hx
      · exact ⟨_, hl⟩
      · exact hall x hx

theorem unwrap_not_endless {l : Layers} (hl : s.EntryAt i l.entry)
    (hacyclic : s.Acyclic (e, i)) (hn : s.size ≤ n) :
    ¬ (s.unwrap n l).Endless (.behind i) := by
  intro h
  obtain ⟨is, hchain, hlength, hall⟩ := chain_of_unwrap_endless (e := e) hl h
  have hlift : ∀ {x y}, TransGen (fun x y => s.Step (e, x) (e, y)) x y →
      TransGen s.Step (e, x) (e, y) := fun h => h.lift (Prod.mk e) fun _ _ h => h
  have hlift' : ∀ {x y}, ReflTransGen (fun x y => s.Step (e, x) (e, y)) x y →
      ReflTransGen s.Step (e, x) (e, y) := fun h => h.lift (Prod.mk e) fun _ _ h => h
  have hle := chain_length_le_of_head hchain (N := s.size)
    (fun x hx => (hall x hx).choose_spec.lt_size)
    fun x hx hback => hacyclic (e, x) (hlift' hx) (hlift hback)
  rw [List.length_cons, hlength] at hle
  omega

theorem path_of_unwrap_ok {l l' : Layers} (hl : s.EntryAt i l.entry)
    (h : (s.unwrap n l).outcome (.behind i) = .ok (l', d)) :
    ∃ k, d = .behind k ∧ s.EntryAt k l'.entry ∧ l'.entry.isLayer = false ∧
      ReflTransGen s.Step (e, i) (e, k) := by
  induction n generalizing l i with
  | zero => cases h
  | succ n ih =>
    rcases outcome_unwrap_succ n hl with
      ⟨hlayer, hok⟩ | ⟨-, -, err, -, herr⟩ | ⟨ranges, j, l₁, hlayer, hj, hl₁, -, heq⟩
    · rw [hok] at h
      cases h
      exact ⟨i, rfl, hl, hlayer, .refl⟩
    · rw [herr] at h
      cases h
    · obtain ⟨k, hd, hk, hbottom, hpath⟩ := ih hl₁ (heq.symm.trans h)
      exact ⟨k, hd, hk, hbottom, .head (.layer hl hlayer hj) hpath⟩

/-- In the list at `p` there is too little room for a member, after all that stand before it. -/
def Stuck (s : Stream) (depth p : Nat) : Prop :=
  ∃ js j m, s.Siblings p js j ∧ (∀ x ∈ js, s.memberAt x = true → ∃ l, s.ResolvesTo x l) ∧
    s.EntryAt j m ∧ m.tag = .member ∧
    (s.resolveWithin (2 * s.size + 2) depth m).Endless (.behind j)

theorem stuck_of_membersFrom_endless {name : String} (ha : s.Addressed)
    (hd : depth ≤ s.size + 2) (hc : c.position ≤ s.size) (hn : s.size < c.position + n)
    (h : (s.membersFrom name (s.resolveWithin (2 * s.size + 2) depth) n).Endless c) :
    s.Stuck depth c.position := by
  induction n generalizing c with
  | zero => omega
  | succ n ih =>
    rcases he : s.entries[c.position]? with _ | e
    · cases (outcome_membersFrom_end he).symm.trans h
    cases hnull : e.isNull with
    | true =>
      cases (outcome_membersFrom_null ⟨e, he, hnull⟩).symm.trans h
    | false =>
      have he : s.EntryAt c.position e := ⟨he, hnull⟩
      have hlt := he.lt_size
      -- The list goes on behind the item, if it does not end there.
      have hrest : (s.membersFrom name (s.resolveWithin (2 * s.size + 2) depth) n).Endless
            { position := s.afterItem c.position e } →
          (s.memberAt c.position = true → ∃ l, s.ResolvesTo c.position l) →
          s.Stuck depth c.position := by
        intro hend hres
        rcases siblings_afterItem he with hitem | ⟨-, hsize⟩
        · have hnext : 1 ≤ s.afterItem c.position e - c.position := hitem.length_le
          obtain ⟨js, j, m, hjs, hearlier, hm⟩ :=
            ih (hitem.le_size hc) (by dsimp only; omega) hend
          refine ⟨c.position :: js, j, m, hitem.trans hjs, fun x hx hxm => ?_, hm⟩
          rcases List.mem_cons.mp hx with rfl | hx
          · exact hres hxm
          · exact hearlier x hx hxm
        · obtain ⟨n, rfl⟩ : ∃ n', n = n' + 1 := ⟨n - 1, by omega⟩
          have hnone : s.entries[s.afterItem c.position e]? = none :=
            Array.getElem?_eq_none (Nat.le_of_eq hsize.symm)
          cases (outcome_membersFrom_end hnone).symm.trans hend
      by_cases ht : e.tag = .member
      · rcases hr : (s.resolveWithin (2 * s.size + 2) depth e).outcome (.behind c.position)
          with err | ⟨l, d⟩
        · cases (outcome_membersFrom_error he ht hr).symm.trans h
          exact ⟨[], c.position, e, .nil _, by simp, he, ht, hr⟩
        · refine hrest ?_ fun _ => ⟨l, resolvesTo_of_within he (Nat.le_refl _) hd hr⟩
          rw [Walk.Endless, outcome_membersFrom_member (ha _ _ he) he ht hr] at h
          rcases hls : (s.membersFrom name (s.resolveWithin (2 * s.size + 2) depth) n).outcome
              { position := s.afterItem c.position e } with err | ⟨ls, d'⟩
          · rw [hls] at h
            cases h
            exact hls
          · rw [hls] at h
            cases h
      · refine hrest ?_ fun hm => ?_
        · rwa [Walk.Endless, outcome_membersFrom_other he ht] at h
        · simp [memberAt_of_entryAt he, ht] at hm

theorem nonnull_of_endless (h : (s.resolveWithin limit (depth + 1) e).Endless c) :
    e.isNull = false := by
  cases he : e.isNull with
  | false => rfl
  | true => cases (outcome_resolveWithin_null he).symm.trans h

theorem begins_of_endless (h : (s.resolveWithin limit (depth + 1) e).Endless c) :
    ∃ i, s.Begins e i := by
  have he := nonnull_of_endless h
  have hfirst := reached_firstLayer (s := s) e c
  rcases hi : (s.typeIndex? e).bind s.startAt? with _ | ⟨ranges, i⟩
  · rw [hi] at hfirst
    obtain ⟨err, herr⟩ := hfirst
    cases (outcome_resolveWithin_lost he (Walk.outcome_bind_of_error herr)).symm.trans h
    exact absurd herr (firstLayer_ends e c)
  · exact ⟨i, ranges, hi⟩

/-- Without a cycle, a resolution without room comes to a member for which there is none either. -/
theorem member_of_endless (ha : s.Addressed) (hd : depth ≤ s.size + 2) (hi : s.Begins e i)
    (hacyclic : s.Acyclic (e, i))
    (h : (s.resolveWithin (2 * s.size + 2) (depth + 1) e).Endless c) :
    ∃ k j m, ReflTransGen s.Step (e, i) (e, k) ∧ s.EntryAt j m ∧
      (∀ i', s.Begins m i' → s.Step (e, k) (m, i')) ∧
      (s.resolveWithin (2 * s.size + 2) depth m).Endless (.behind j) := by
  have he := nonnull_of_endless h
  obtain ⟨first, hfirst, harrive⟩ := hi.outcome_arrive (2 * s.size + 2) c
  rcases hunwrap : (s.unwrap (2 * s.size + 2) first).outcome (.behind i) with err | ⟨l, d⟩
  · cases (outcome_resolveWithin_lost he (harrive.trans hunwrap)).symm.trans h
    exact absurd hunwrap (unwrap_not_endless hfirst hacyclic (by omega))
  obtain ⟨k, rfl, hk, hbottom, hpath⟩ := path_of_unwrap_ok (e := e) hfirst hunwrap
  rcases hf : frame e l with err | f
  · cases (outcome_resolveWithin_misfit he (harrive.trans hunwrap) hf).symm.trans h
  rw [Walk.Endless, outcome_resolveWithin_frame he (harrive.trans hunwrap) hf] at h
  rcases hms : (s.members (2 * s.size + 2) depth f.name l.entry).outcome (.behind k)
    with err | ⟨ms, d⟩
  · -- All layers came off, so it is the list of members that lacks room.
    rw [hms] at h
    cases h
    unfold members at hms
    split at hms
    · rename_i hagg
      have hk' : k + 1 ≤ s.size := hk.lt_size
      obtain ⟨js, j, m, hjs, hearlier, hm, htag, hmend⟩ :=
        stuck_of_membersFrom_endless (c := .behind k) ha hd hk' (by simp; omega) hms
      have hflags : l.entry.tag.isAggregate = true ∧ l.entry.children = true := by
        simpa using hagg
      refine ⟨k, j, m, hpath, hm, fun i' hi' => ?_, hmend⟩
      exact .member hk hbottom (fits_of_frame hf) hflags.1
        ⟨hflags.2, ⟨js, hjs, hearlier⟩, hm, htag⟩ hi'
    · cases hms
  · rw [hms] at h
    cases h

/-- The resolution of the member at `x` comes to that of the member at `y`. -/
def ComesTo (s : Stream) (x y : Nat) : Prop :=
  ∃ m m' i i', s.EntryAt x m ∧ s.EntryAt y m' ∧ s.Begins m i ∧ s.Begins m' i' ∧
    TransGen s.Step (m, i) (m', i')

theorem ComesTo.trans {x y z : Nat} (h : s.ComesTo x y) (h' : s.ComesTo y z) : s.ComesTo x z := by
  obtain ⟨m, m₁, i, i₁, hm, hm₁, hi, hi₁, hstep⟩ := h
  obtain ⟨m₂, m', i₂, i', hm₂, hm', hi₂, hi', hstep'⟩ := h'
  obtain rfl := hm₁.unique hm₂
  obtain rfl := hi₁.unique hi₂
  exact ⟨m, m', i, i', hm, hm', hi, hi', hstep.trans hstep'⟩

theorem not_comesTo_self {x y : Nat} (hm : s.EntryAt x m) (hi : s.Begins m i)
    (hacyclic : s.Acyclic (m, i)) (hxy : ReflTransGen s.ComesTo x y) :
    ¬ TransGen s.ComesTo y y := by
  have htrans : ∀ {a b}, TransGen s.ComesTo a b → s.ComesTo a b := by
    intro a b h
    induction h with
    | single h => exact h
    | tail _ h ih => exact ih.trans h
  intro hback
  obtain ⟨m₁, m₂, i₁, i₂, hm₁, hm₂, hi₁, hi₂, hcycle⟩ := htrans hback
  obtain rfl := hm₁.unique hm₂
  obtain rfl := hi₁.unique hi₂
  rcases Relation.reflTransGen_iff_eq_or_transGen.mp hxy with rfl | hxy
  · obtain rfl := hm.unique hm₁
    obtain rfl := hi.unique hi₁
    exact hacyclic _ .refl hcycle
  · obtain ⟨m', m₃, i', i₃, hm', hm₃, hi', hi₃, hstep⟩ := htrans hxy
    obtain rfl := hm.unique hm'
    obtain rfl := hi.unique hi'
    obtain rfl := hm₁.unique hm₃
    obtain rfl := hi₁.unique hi₃
    exact hacyclic _ hstep.to_reflTransGen hcycle

theorem chain_of_endless {x : Nat} (ha : s.Addressed) (hd : depth ≤ s.size + 1)
    (hm : s.EntryAt x m) (hi : s.Begins m i) (hacyclic : s.Acyclic (m, i))
    (h : (s.resolveWithin (2 * s.size + 2) (depth + 1) m).Endless c) :
    ∃ l, (x :: l).IsChain s.ComesTo ∧ l.length = depth ∧ ∀ y ∈ x :: l, ∃ e, s.EntryAt y e := by
  induction depth generalizing x m i c with
  | zero => exact ⟨[], .singleton x, rfl, by simpa using ⟨m, hm⟩⟩
  | succ depth ih =>
    obtain ⟨k, y, m', hpath, hm', hstep, hend⟩ :=
      member_of_endless ha (by omega) hi hacyclic h
    obtain ⟨i', hi'⟩ := begins_of_endless hend
    have hcomes : TransGen s.Step (m, i) (m', i') := .tail' hpath (hstep i' hi')
    obtain ⟨l, hchain, hlength, hall⟩ :=
      ih (by omega) hm' hi' (hacyclic.of_reach hcomes.to_reflTransGen) hend
    refine ⟨y :: l, hchain.cons_cons ⟨m, m', i, i', hm, hm', hi, hi', hcomes⟩, by simp [hlength],
      fun z hz => ?_⟩
    rcases List.mem_cons.mp hz with rfl | hz
    · exact ⟨m, hm⟩
    · exact hall z hz

theorem ends_of_acyclic (ha : s.Addressed) (h : ∀ i, s.Begins e i → s.Acyclic (e, i)) :
    (s.resolve e).Ends := by
  intro c hend
  change (s.resolveWithin (2 * s.size + 2) (s.size + 1 + 1) e).Endless c at hend
  obtain ⟨i, hi⟩ := begins_of_endless hend
  obtain ⟨k, x, m, hpath, hm, hstep, hend⟩ :=
    member_of_endless ha (by omega) hi (h i hi) hend
  obtain ⟨i', hi'⟩ := begins_of_endless hend
  have hacyclic : s.Acyclic (m, i') := (h i hi).of_reach (hpath.tail (hstep i' hi'))
  obtain ⟨l, hchain, hlength, hall⟩ := chain_of_endless ha (Nat.le_succ _) hm hi' hacyclic hend
  have hle := chain_length_le_of_head hchain (N := s.size)
    (fun y hy => (hall y hy).choose_spec.lt_size)
    fun y hy => not_comesTo_self hm hi' hacyclic hy
  rw [List.length_cons, hlength] at hle
  omega

theorem acyclic_of_acc {p : Stage} (h : Acc (flip s.Step) p) : s.Acyclic p := by
  induction h with
  | intro p _ ih =>
    intro q hpq hcycle
    rcases hpq.cases_head with rfl | ⟨p', hstep, hrest⟩
    · obtain ⟨p', hstep, hrest⟩ := TransGen.head'_iff.mp hcycle
      exact ih p' hstep p hrest hcycle
    · exact ih p' hstep q hrest hcycle

theorem acyclic_of_ends (ha : s.Addressed) (he : e.isNull = false)
    (h : (s.resolveWithin limit depth e).Ends) (hi : s.Begins e i) : s.Acyclic (e, i) :=
  acyclic_of_acc (acc_of_ends ha he h hi)

end DwarfScope.Stream
