import FlowLint.Json.Reader

/-!
What a reader does, with the bounds on the length of the rest put aside: `Yields` says that a
reading succeeds, with what, and what it leaves, and `Leaves` says so where nothing is made of the
text. The lemmas carry both through the ways in which readers are put together.
-/

namespace FlowLint.Json

variable {ε α β : Type} {P Q : List Char → Prop}

/-- Two steps succeed if the first one does and the second one does with its result. -/
theorem bind_eq_ok_iff {e : Except ε α} {f : α → Except ε β} {b : β} :
    e >>= f = .ok b ↔ ∃ a, e = .ok a ∧ f a = .ok b := by
  cases e with
  | error e => simp [bind, Except.bind]
  | ok a => simp [bind, Except.bind]

/-- The reading succeeds with `a` and leaves `r`. -/
def Yields (reading : Except ε (α × {r : List Char // P r})) (a : α) (r : List Char) : Prop :=
  ∃ h, reading = .ok (a, ⟨r, h⟩)

theorem Yields.intro {e : Except ε (α × {r : List Char // P r})} {a : α} {r : List Char} {h : P r}
    (eq : e = .ok (a, ⟨r, h⟩)) : Yields e a r := ⟨h, eq⟩

@[simp] theorem yields_error (e : ε) (a : α) (r : List Char) :
    ¬ Yields (.error e : Except ε (α × {r : List Char // P r})) a r := by
  rintro ⟨_, h⟩
  cases h

@[simp] theorem yields_ok (x : α × {r : List Char // P r}) (a : α) (r : List Char) :
    Yields (.ok x : Except ε (α × {r : List Char // P r})) a r ↔ x.1 = a ∧ x.2.val = r := by
  constructor
  · rintro ⟨_, h⟩
    cases h
    exact ⟨rfl, rfl⟩
  · rintro ⟨rfl, rfl⟩
    exact ⟨x.2.property, rfl⟩

@[simp] theorem yields_pure (x : α × {r : List Char // P r}) (a : α) (r : List Char) :
    Yields (pure x : Except ε (α × {r : List Char // P r})) a r ↔ x.1 = a ∧ x.2.val = r :=
  yields_ok x a r

theorem yields_bind {e : Except ε (α × {r : List Char // P r})}
    {f : α × {r : List Char // P r} → Except ε (β × {r : List Char // Q r})} {b : β}
    {r : List Char} :
    Yields (e >>= f) b r ↔ ∃ a t, ∃ h : P t, e = .ok (a, ⟨t, h⟩) ∧ Yields (f (a, ⟨t, h⟩)) b r := by
  cases e with
  | error e => simp [bind, Except.bind]
  | ok x =>
    constructor
    · exact fun h => ⟨x.1, x.2.val, x.2.property, rfl, h⟩
    · rintro ⟨a, t, h, e, hf⟩
      cases e
      exact hf

theorem yields_map {e : Except ε (α × {r : List Char // P r})}
    {f : α × {r : List Char // P r} → β × {r : List Char // Q r}} {b : β} {r : List Char} :
    Yields (e.map f) b r ↔
      ∃ a t, ∃ h : P t, e = .ok (a, ⟨t, h⟩) ∧
        (f (a, ⟨t, h⟩)).1 = b ∧ (f (a, ⟨t, h⟩)).2.val = r := by
  cases e with
  | error e => simp [Except.map]
  | ok x =>
    simp only [Except.map, yields_ok]
    constructor
    · exact fun h => ⟨x.1, x.2.val, x.2.property, rfl, h⟩
    · rintro ⟨a, t, h, e, hf⟩
      cases e
      exact hf

/-- The bound on what is left. -/
theorem Yields.bound {e : Except ε (α × {r : List Char // P r})} {a : α} {r : List Char}
    (h : Yields e a r) : P r := by
  obtain ⟨bound, -⟩ := h
  exact bound

/-- A reading makes one thing of a text. -/
theorem Yields.unique {e : Except ε (α × {r : List Char // P r})} {a b : α} {r t : List Char}
    (h : Yields e a r) (h' : Yields e b t) : a = b := by
  obtain ⟨hr, er⟩ := h
  obtain ⟨ht, et⟩ := h'
  cases er.symm.trans et
  rfl

/-! ### Readings that make nothing of the text -/

/-- The reading succeeds and leaves `r`. -/
def Leaves (passing : Except ε {r : List Char // P r}) (r : List Char) : Prop :=
  ∃ h, passing = .ok ⟨r, h⟩

@[simp] theorem leaves_error (e : ε) (r : List Char) :
    ¬ Leaves (.error e : Except ε {r : List Char // P r}) r := by
  rintro ⟨_, h⟩
  cases h

@[simp] theorem leaves_ok (x : {r : List Char // P r}) (r : List Char) :
    Leaves (.ok x : Except ε {r : List Char // P r}) r ↔ x.val = r := by
  constructor
  · rintro ⟨_, h⟩
    cases h
    rfl
  · rintro rfl
    exact ⟨x.property, rfl⟩

theorem Leaves.bind {e : Except ε {r : List Char // P r}}
    {f : {r : List Char // P r} → Except ε {r : List Char // Q r}} {r t : List Char}
    (h : Leaves e t) (hf : ∀ ht : P t, Leaves (f ⟨t, ht⟩) r) : Leaves (e >>= f) r := by
  obtain ⟨ht, rfl⟩ := h
  exact hf ht

theorem Leaves.map {e : Except ε {r : List Char // P r}}
    {f : {r : List Char // P r} → {r : List Char // Q r}} {r t : List Char}
    (h : Leaves e t) (hf : ∀ ht : P t, (f ⟨t, ht⟩).val = r) : Leaves (e.map f) r := by
  obtain ⟨ht, rfl⟩ := h
  exact (leaves_ok ..).2 (hf ht)

theorem Leaves.bound {e : Except ε {r : List Char // P r}} {r : List Char} (h : Leaves e r) :
    P r := by
  obtain ⟨bound, -⟩ := h
  exact bound

theorem Leaves.unique {e : Except ε {r : List Char // P r}} {r t : List Char} (h : Leaves e r)
    (h' : Leaves e t) : r = t := by
  obtain ⟨hr, er⟩ := h
  obtain ⟨ht, et⟩ := h'
  cases er.symm.trans et
  rfl

theorem leaves_bind {e : Except ε {r : List Char // P r}}
    {f : {r : List Char // P r} → Except ε {r : List Char // Q r}} {r : List Char} :
    Leaves (e >>= f) r ↔ ∃ t, ∃ h : P t, e = .ok ⟨t, h⟩ ∧ Leaves (f ⟨t, h⟩) r := by
  cases e with
  | error e => simp [bind, Except.bind]
  | ok x =>
    constructor
    · exact fun h => ⟨x.val, x.property, rfl, h⟩
    · rintro ⟨t, h, e, hf⟩
      cases e
      exact hf

/-- Where only the bound on the length changes, the same is left. -/
theorem Leaves.of_map {e : Except ε {r : List Char // P r}}
    {f : {r : List Char // P r} → {r : List Char // Q r}} {r : List Char} (h : Leaves (e.map f) r)
    (hf : ∀ x, (f x).val = x.val) : Leaves e r := by
  cases e with
  | error e =>
    obtain ⟨_, h⟩ := h
    cases h
  | ok x => rwa [Except.map, leaves_ok, hf, ← leaves_ok] at h

theorem Leaves.of_bind_pure {e : Except ε {r : List Char // P r}}
    {f : {r : List Char // P r} → {r : List Char // Q r}} {r : List Char}
    (h : Leaves (e >>= fun x => pure (f x)) r) (hf : ∀ x, (f x).val = x.val) : Leaves e r :=
  Leaves.of_map h hf

/-- The characters of a word, no more and no less. -/
theorem readWord_eq_ok {w s r : List Char} : Leaves (readWord w s) r ↔ s = w ++ r := by
  induction w generalizing s with
  | nil =>
    simp only [readWord, List.nil_append]
    constructor
    · rintro ⟨_, h⟩
      cases h
      rfl
    · rintro rfl
      exact ⟨Nat.le_refl _, rfl⟩
  | cons c w ih =>
    cases s with
    | nil => simp [readWord]
    | cons d s =>
      rw [readWord]
      by_cases h : d = c
      · rw [if_pos h, h, List.cons_append, List.cons.injEq, ← ih]
        constructor
        · rintro ⟨_, e⟩
          cases e' : readWord w s with
          | error _ => rw [e'] at e; cases e
          | ok t => rw [e'] at e; cases e; exact ⟨rfl, t.property, rfl⟩
        · rintro ⟨-, _, e⟩
          rw [e]
          exact ⟨_, rfl⟩
      · rw [if_neg h]
        simp [h]

end FlowLint.Json
