import DwarfScope.Error

/-!
# Computations with a state

What a run of a computation answers and where it leaves the state. Unlike the cursor of a walk, the
state of a command that failed is seen afterwards, so both endings count. Most computations report
their errors as failures. The few that cannot go on without an end throw them directly.
-/

namespace DwarfScope.Effect

variable {ε σ α β : Type} {x y : σ}

/-! ## Steps that succeed -/

theorem bind_eq_ok {m : EStateM ε σ α} {f : α → EStateM ε σ β} {b : β} :
    (m >>= f) x = .ok b y ↔ ∃ a z, m x = .ok a z ∧ f a z = .ok b y := by
  simp only [bind, EStateM.bind]
  constructor
  · intro h
    cases hm : m x with
    | ok a z => exact ⟨a, z, rfl, by rwa [hm] at h⟩
    | error e z =>
      rw [hm] at h
      cases h
  · rintro ⟨a, z, hm, h⟩
    rwa [hm]

@[simp] theorem pure_eq_ok {a b : α} :
    (pure a : EStateM ε σ α) x = .ok b y ↔ b = a ∧ y = x := by
  simp [pure, EStateM.pure, eq_comm]

@[simp] theorem throw_eq_ok {e : Error} {a : α} :
    (throw e : EStateM Failure σ α) x = .ok a y ↔ False := by
  constructor
  · intro h
    cases h
  · intro h
    cases h

@[simp] theorem get_eq_ok {z : σ} : (get : EStateM ε σ σ) x = .ok z y ↔ z = x ∧ y = x := by
  constructor
  · intro h
    cases h
    exact ⟨rfl, rfl⟩
  · rintro ⟨rfl, rfl⟩
    rfl

@[simp] theorem modify_eq_ok {f : σ → σ} {u : PUnit} :
    (modify f : EStateM ε σ PUnit) x = .ok u y ↔ y = f x := by
  constructor
  · intro h
    cases h
    rfl
  · rintro rfl
    rfl

@[simp] theorem set_eq_ok {z : σ} {u : PUnit} :
    (set z : EStateM ε σ PUnit) x = .ok u y ↔ y = z := by
  constructor
  · intro h
    cases h
    rfl
  · rintro rfl
    rfl

@[simp] theorem ofExcept_eq_ok {r : Except Error α} {a : α} :
    (ofExcept r : EStateM Failure σ α) x = .ok a y ↔ r = .ok a ∧ y = x := by
  cases r with
  | ok b => simp [ofExcept, eq_comm]
  | error e => simp [ofExcept]

theorem Direct.ofExcept_eq_ok {r : Except ε α} {a : α} :
    (ofExcept r : EStateM ε σ α) x = .ok a y ↔ r = .ok a ∧ y = x := by
  cases r with
  | ok b => simp [ofExcept, eq_comm]
  | error e =>
    constructor
    · intro h
      cases h
    · rintro ⟨⟨⟩, -⟩

theorem map_eq_ok {r : Except ε α} {f : α → β} {b : β} :
    f <$> r = .ok b ↔ ∃ a, r = .ok a ∧ f a = b := by
  cases r <;> simp [Functor.map, Except.map]

theorem toOption_eq_some {r : Except ε α} {a : α} : r.toOption = some a ↔ r = .ok a := by
  cases r <;> simp [Except.toOption]

/-! ## Steps that fail -/

theorem bind_eq_error {m : EStateM ε σ α} {f : α → EStateM ε σ β} {e : ε} :
    (m >>= f) x = .error e y ↔ m x = .error e y ∨ ∃ a z, m x = .ok a z ∧ f a z = .error e y := by
  simp only [bind, EStateM.bind]
  cases m x with
  | ok a z =>
    constructor
    · intro h
      exact .inr ⟨a, z, rfl, h⟩
    · rintro (h | ⟨_, _, ⟨⟩, h⟩)
      · cases h
      · exact h
  | error e' z => simp

theorem map_eq_error {r : Except ε α} {f : α → β} {e : ε} :
    f <$> r = .error e ↔ r = .error e := by
  cases r <;> simp [Functor.map, Except.map]

theorem ofExcept_eq_error {r : Except Error α} {f : Failure} :
    (ofExcept r : EStateM Failure σ α) x = .error f y ↔ ∃ e, r = .error e ∧ f = e ∧ y = x := by
  cases r with
  | ok a =>
    constructor
    · intro h
      cases h
    · rintro ⟨_, ⟨⟩, -⟩
  | error e =>
    constructor
    · intro h
      cases h
      exact ⟨e, rfl, rfl, rfl⟩
    · rintro ⟨_, ⟨⟩, rfl, rfl⟩
      rfl

theorem ofExcept_of_error {r : Except Error α} {e : Error} (h : r = .error e) :
    (ofExcept r : EStateM Failure σ α) x = .error e x :=
  ofExcept_eq_error.mpr ⟨e, h, rfl, rfl⟩

theorem Direct.ofExcept_eq_error {r : Except ε α} {e : ε} :
    (ofExcept r : EStateM ε σ α) x = .error e y ↔ r = .error e ∧ y = x := by
  cases r with
  | ok a =>
    constructor
    · intro h
      cases h
    · rintro ⟨⟨⟩, -⟩
  | error e' =>
    constructor
    · intro h
      cases h
      exact ⟨rfl, rfl⟩
    · rintro ⟨⟨⟩, rfl⟩
      rfl

/-! ## Steps whose end is known -/

theorem bind_of_ok {m : EStateM ε σ α} {f : α → EStateM ε σ β} {a : α} (h : m x = .ok a y) :
    (m >>= f) x = f a y := by
  simp only [bind, EStateM.bind, h]

theorem bind_of_error {m : EStateM ε σ α} {f : α → EStateM ε σ β} {e : ε} (h : m x = .error e y) :
    (m >>= f) x = .error e y := by
  simp only [bind, EStateM.bind, h]

/-! ## Where a run leaves the state -/

def after (m : EStateM ε σ α) (x : σ) : σ :=
  match m x with
  | .ok _ y => y
  | .error _ y => y

theorem after_of_ok {m : EStateM ε σ α} {a : α} (h : m x = .ok a y) : after m x = y := by
  rw [after, h]

theorem after_of_error {m : EStateM ε σ α} {e : ε} (h : m x = .error e y) : after m x = y := by
  rw [after, h]

def succeeds (m : EStateM ε σ α) (x : σ) : Bool :=
  match m x with
  | .ok .. => true
  | .error .. => false

theorem exists_of_succeeds {m : EStateM ε σ α} (h : succeeds m x = true) :
    ∃ a, m x = .ok a (after m x) := by
  unfold succeeds at h
  unfold after
  cases hm : m x with
  | ok a y => exact ⟨a, rfl⟩
  | error e y =>
    rw [hm] at h
    cases h

def reports (m : EStateM Failure σ α) (x : σ) : Bool :=
  match m x with
  | .error (.reported _) _ => true
  | _ => false

theorem exists_of_reports {m : EStateM Failure σ α} (h : reports m x = true) :
    ∃ e : Error, m x = .error e (after m x) := by
  unfold reports at h
  unfold after
  split at h
  · rename_i e y hm
    exact ⟨e, by rw [hm]⟩
  · cases h

def result? (m : EStateM ε σ α) (x : σ) : Option α :=
  match m x with
  | .ok a _ => some a
  | .error .. => none

theorem result?_of_ok {m : EStateM ε σ α} {a : α} (h : m x = .ok a y) : result? m x = some a := by
  rw [result?, h]

theorem ok_of_result? {m : EStateM ε σ α} {a : α} (h : result? m x = some a) :
    m x = .ok a (after m x) := by
  unfold result? at h
  unfold after
  cases hm : m x with
  | ok b y =>
    rw [hm] at h
    obtain rfl : b = a := by simpa using h
    rfl
  | error e y =>
    rw [hm] at h
    cases h

/-! ## What a computation keeps -/

variable {γ : Type} {view : σ → γ}

/-- No run, whether it succeeds or fails, changes what is seen of the state. -/
def Keeps (view : σ → γ) (m : EStateM ε σ α) : Prop := ∀ x, view (after m x) = view x

/-- No run that fails changes what is seen of the state. -/
def KeepsFailing (view : σ → γ) (m : EStateM ε σ α) : Prop :=
  ∀ x e y, m x = .error e y → view y = view x

theorem Keeps.ok {m : EStateM ε σ α} {a : α} (hm : Keeps view m) (h : m x = .ok a y) :
    view y = view x := by
  rw [← hm x, after_of_ok h]

theorem Keeps.failing {m : EStateM ε σ α} (hm : Keeps view m) : KeepsFailing view m := by
  intro x e y h
  rw [← hm x, after_of_error h]

theorem Keeps.pure (a : α) : Keeps view (pure a : EStateM ε σ α) := fun _ => rfl

theorem Keeps.throw (e : Error) : Keeps view (throw e : EStateM Failure σ α) := fun _ => rfl

theorem Keeps.get : Keeps view (get : EStateM ε σ σ) := fun _ => rfl

theorem Keeps.modify {f : σ → σ} (hf : ∀ x, view (f x) = view x) :
    Keeps view (modify f : EStateM ε σ PUnit) := hf

theorem Keeps.ofExcept (r : Except Error α) :
    Keeps view (ofExcept r : EStateM Failure σ α) := by
  intro x
  cases r with
  | ok a => rfl
  | error e => rfl

theorem Direct.keeps_ofExcept (r : Except ε α) : Keeps view (ofExcept r : EStateM ε σ α) := by
  intro x
  cases r with
  | ok a => rfl
  | error e => rfl

theorem Keeps.bind {m : EStateM ε σ α} {f : α → EStateM ε σ β} (hm : Keeps view m)
    (hf : ∀ a, Keeps view (f a)) : Keeps view (m >>= f) := by
  intro x
  cases hx : m x with
  | ok a y =>
    have hafter : after (m >>= f) x = after (f a) y := by
      simp only [after, Bind.bind, EStateM.bind, hx]
    rw [hafter, hf a y, hm.ok hx]
  | error e y =>
    have hafter : after (m >>= f) x = y := by
      simp only [after, Bind.bind, EStateM.bind, hx]
    rw [hafter, hm.failing x e y hx]

/-- If only the last part changes what is seen, and it does not fail after the change, then no
failure changes it. -/
theorem KeepsFailing.bind {m : EStateM ε σ α} {f : α → EStateM ε σ β} (hm : Keeps view m)
    (hf : ∀ a, KeepsFailing view (f a)) : KeepsFailing view (m >>= f) := by
  intro x e z h
  simp only [Bind.bind, EStateM.bind] at h
  cases hx : m x with
  | ok a y =>
    rw [hx] at h
    rw [hf a y e z h, hm.ok hx]
  | error e' y =>
    rw [hx] at h
    obtain ⟨rfl, rfl⟩ : e' = e ∧ y = z := by simpa using h
    exact hm.failing x e' y hx

theorem KeepsFailing.map {m : EStateM ε σ α} (hm : KeepsFailing view m) (f : α → β) :
    KeepsFailing view (m >>= fun a => pure (f a)) := by
  intro x e y h
  rcases bind_eq_error.mp h with h | ⟨_, _, _, ⟨⟩⟩
  exact hm x e y h

/-! ## What a computation may fail with -/

/-- If a run fails, then in a way that has the property. -/
def FailsWith (P : ε → Prop) (m : EStateM ε σ α) : Prop := ∀ x f y, m x = .error f y → P f

variable {P : ε → Prop}

theorem FailsWith.of_ok {m : EStateM ε σ α} (h : ∀ x, ∃ a y, m x = .ok a y) :
    FailsWith P m := by
  intro x f y hf
  obtain ⟨a, z, ha⟩ := h x
  cases ha.symm.trans hf

theorem FailsWith.pure (a : α) : FailsWith P (pure a : EStateM ε σ α) :=
  .of_ok fun x => ⟨a, x, rfl⟩

theorem FailsWith.get : FailsWith P (get : EStateM ε σ σ) := .of_ok fun x => ⟨x, x, rfl⟩

theorem FailsWith.modify (f : σ → σ) : FailsWith P (modify f : EStateM ε σ PUnit) :=
  .of_ok fun x => ⟨_, f x, rfl⟩

theorem FailsWith.throw {P : Failure → Prop} {e : Error} (h : P e) :
    FailsWith P (throw e : EStateM Failure σ α) := by
  rintro x _ y ⟨⟩
  exact h

theorem FailsWith.diverge {P : Failure → Prop} (h : P .endless) :
    FailsWith P (throwThe Failure .endless : EStateM Failure σ α) := by
  rintro x _ y ⟨⟩
  exact h

theorem FailsWith.ofExcept {P : Failure → Prop} {r : Except Error α} (h : ∀ e, r = .error e → P e) :
    FailsWith P (ofExcept r : EStateM Failure σ α) := by
  intro x f y hf
  obtain ⟨e, he, rfl, -⟩ := ofExcept_eq_error.mp hf
  exact h e he

theorem FailsWith.bind {m : EStateM ε σ α} {f : α → EStateM ε σ β} (hm : FailsWith P m)
    (hf : ∀ a, FailsWith P (f a)) : FailsWith P (m >>= f) := by
  intro x e z he
  rcases bind_eq_error.mp he with he | ⟨a, y, -, he⟩
  · exact hm x e z he
  · exact hf a y e z he

/-! ## What a computation does not see -/

def answer (m : EStateM ε σ α) (x : σ) : Except ε α :=
  match m x with
  | .ok a _ => .ok a
  | .error e _ => .error e

theorem Direct.answer_ofExcept (r : Except ε α) : answer (ofExcept r : EStateM ε σ α) x = r := by
  cases r <;> rfl

theorem Direct.after_ofExcept (r : Except ε α) : after (ofExcept r : EStateM ε σ α) x = x := by
  cases r <;> rfl

/-- The runs from two states give the same answer or the same error, and the same is seen of the
states they leave. -/
def Alike (view : σ → γ) (m : EStateM ε σ α) (x y : σ) : Prop :=
  answer m x = answer m y ∧ view (after m x) = view (after m y)

/-- Nothing but what is seen of the state matters, neither for the answer nor for what is seen
afterwards. -/
def Blind (view : σ → γ) (m : EStateM ε σ α) : Prop := ∀ x y, view x = view y → Alike view m x y

theorem Blind.pure (a : α) : Blind view (pure a : EStateM ε σ α) := fun _ _ h => ⟨rfl, h⟩

theorem Blind.throw (e : Error) : Blind view (throw e : EStateM Failure σ α) :=
  fun _ _ h => ⟨rfl, h⟩

theorem Blind.modify {view f : σ → σ} (hf : ∀ x, view (f x) = view (f (view x))) :
    Blind view (modify f : EStateM ε σ PUnit) := by
  intro x y h
  refine ⟨rfl, ?_⟩
  show view (f x) = view (f y)
  rw [hf x, h, ← hf y]

theorem Blind.set (z : σ) : Blind view (set z : EStateM ε σ PUnit) := fun _ _ _ => ⟨rfl, rfl⟩

theorem Blind.ofExcept (r : Except Error α) :
    Blind view (ofExcept r : EStateM Failure σ α) := by
  intro x y h
  cases r with
  | ok a => exact ⟨rfl, h⟩
  | error e => exact ⟨rfl, h⟩

theorem Alike.bind {m : EStateM ε σ α} {f : α → EStateM ε σ β} (hm : Alike view m x y)
    (hf : ∀ a, Blind view (f a)) : Alike view (m >>= f) x y := by
  unfold Alike answer after at hm
  cases hx : m x with
  | ok a x' =>
    cases hy : m y with
    | ok b y' =>
      simp only [hx, hy, Except.ok.injEq] at hm
      obtain ⟨rfl, hview⟩ := hm
      have hrest := hf a x' y' hview
      unfold Alike answer after at hrest ⊢
      simp only [Bind.bind, EStateM.bind, hx, hy]
      exact hrest
    | error e y' => simp [hx, hy] at hm
  | error e x' =>
    cases hy : m y with
    | ok b y' => simp [hx, hy] at hm
    | error e' y' =>
      simp only [hx, hy, Except.error.injEq] at hm
      obtain ⟨rfl, hview⟩ := hm
      unfold Alike answer after
      simp only [Bind.bind, EStateM.bind, hx, hy]
      exact ⟨trivial, hview⟩

theorem Blind.bind {m : EStateM ε σ α} {f : α → EStateM ε σ β} (hm : Blind view m)
    (hf : ∀ a, Blind view (f a)) : Blind view (m >>= f) := fun x y h => (hm x y h).bind hf

theorem Blind.get_bind {view : σ → σ} {f : σ → EStateM ε σ β} (hf : ∀ x, Blind view (f x))
    (hview : ∀ x, f x = f (view x)) : Blind view (get >>= f) := by
  intro x y h
  have hsame : f x = f y := by rw [hview x, h, ← hview y]
  show answer (f x) x = answer (f y) y ∧ view (after (f x) x) = view (after (f y) y)
  rw [← hsame]
  exact hf x x y h

theorem Blind.drop {m : EStateM ε σ α} {k : EStateM ε σ β} (hkeeps : Keeps view m)
    (hm : ∀ x, ∃ a y, m x = .ok a y) (hk : Blind view k) : Blind view (m >>= fun _ => k) := by
  intro x y h
  obtain ⟨a, x', hx⟩ := hm x
  obtain ⟨b, y', hy⟩ := hm y
  have hrest := hk x' y' (by rw [hkeeps.ok hx, h, hkeeps.ok hy])
  unfold Alike answer after at hrest ⊢
  simp only [Bind.bind, EStateM.bind, hx, hy]
  exact hrest

end DwarfScope.Effect
