import FlowLint.Json.Numeral
import FlowLint.Proofs.Json.Yields

/-!
The grammar of numbers, and that the reader of numbers reads just that, provided that what follows
cannot go on with the number.
-/

namespace FlowLint.Json.Numeral

/-- One digit or more. -/
def Digits (ds : List Char) : Prop := ds ≠ [] ∧ ∀ d ∈ ds, d.isDigit

/-- The digits before the point, which start with zero only where zero is all there is. -/
inductive Whole : List Char → Prop
  | zero : Whole ['0']
  | digits {d : Char} {ds : List Char} (lead : d.isDigit) (nonzero : d ≠ '0')
      (more : ∀ c ∈ ds, c.isDigit) : Whole (d :: ds)

/-- A point and digits, or nothing. -/
inductive Fraction : List Char → List Char → Prop
  | absent : Fraction [] []
  | present {ds : List Char} (h : Digits ds) : Fraction ('.' :: ds) ds

/-- A mark, a sign that may be missing, and digits, or nothing. -/
inductive Exponent : List Char → Option (Bool × List Char) → Prop
  | absent : Exponent [] none
  | plain {m : Char} {ds : List Char} (mark : m = 'e' ∨ m = 'E') (h : Digits ds) :
      Exponent (m :: ds) (some (false, ds))
  | up {m : Char} {ds : List Char} (mark : m = 'e' ∨ m = 'E') (h : Digits ds) :
      Exponent (m :: '+' :: ds) (some (false, ds))
  | down {m : Char} {ds : List Char} (mark : m = 'e' ∨ m = 'E') (h : Digits ds) :
      Exponent (m :: '-' :: ds) (some (true, ds))

/-- A number without its sign. -/
structure Unsigned (t : List Char) (n : Numeral) : Prop where
  parts : ∃ f e, Whole n.whole ∧ Fraction f n.fraction ∧ Exponent e n.exponent ∧
    t = n.whole ++ (f ++ e)

/-- A number with its sign, which only a negative number has. -/
inductive Spelled : List Char → Numeral → Prop
  | plain {t : List Char} {n : Numeral} (sign : n.negative = false) (h : Unsigned t n) : Spelled t n
  | minus {t : List Char} {n : Numeral} (sign : n.negative = true) (h : Unsigned t n) :
      Spelled ('-' :: t) n

theorem Whole.isDigits {w : List Char} (h : Whole w) : Digits w := by
  cases h with
  | zero => exact ⟨by simp, by simp⟩
  | digits lead _ more => exact ⟨by simp, List.forall_mem_cons.2 ⟨lead, more⟩⟩

/-- The text does not start with a digit. -/
def NoDigit (r : List Char) : Prop := ∀ c ∈ r.head?, ¬ c.isDigit

/-- The text does not start with a character that goes on with a number. -/
def Stops (r : List Char) : Prop := ∀ c ∈ r.head?, ¬ c.isDigit ∧ c ≠ '.' ∧ c ≠ 'e' ∧ c ≠ 'E'

theorem Stops.noDigit {r : List Char} (h : Stops r) : NoDigit r := fun c hc => (h c hc).1

/-! ### Runs of digits -/

/-- The digits at the front of a text, and the rest. -/
theorem digitRun_spec {s ds t : List Char} (h : Decimal.digitRun s = (ds, t)) :
    s = ds ++ t ∧ ∀ d ∈ ds, d.isDigit := by
  obtain ⟨rfl, rfl⟩ : s.takeWhile Char.isDigit = ds ∧ s.dropWhile Char.isDigit = t := by
    simpa [Decimal.digitRun] using h
  exact ⟨List.takeWhile_append_dropWhile.symm, List.all_eq_true.1 List.all_takeWhile⟩

/-- All digits are taken, if what follows is none. -/
theorem digitRun_append {ds r : List Char} (h : ∀ d ∈ ds, d.isDigit) (hr : NoDigit r) :
    Decimal.digitRun (ds ++ r) = (ds, r) := by
  have none : r.takeWhile Char.isDigit = [] ∧ r.dropWhile Char.isDigit = r := by
    cases r with
    | nil => simp
    | cons c r =>
      have : ¬ c.isDigit := hr c rfl
      simp [this]
  simp [Decimal.digitRun, List.takeWhile_append_of_pos h, List.dropWhile_append_of_pos h, none]

/-! ### The parts -/

/-- What is read for the digits before the point is of that form. -/
theorem whole_of_yields {s w r : List Char} (h : Yields (readWhole s) w r) :
    Whole w ∧ s = w ++ r := by
  unfold readWhole at h
  split at h
  · simp at h
  · next s =>
    split at h
    · obtain ⟨rfl, rfl⟩ : ['0'] = w ∧ [] = r := by simpa [Rest.tail] using h
      exact ⟨.zero, rfl⟩
    · next c t =>
      split at h
      · simp at h
      · obtain ⟨rfl, rfl⟩ : ['0'] = w ∧ c :: t = r := by simpa [Rest.tail] using h
        exact ⟨.zero, rfl⟩
  · next c s nonzero =>
    split at h
    · next lead =>
      simp only [yields_ok, afterDigits] at h
      obtain ⟨rfl, rfl⟩ := h
      obtain ⟨hs, hd⟩ := digitRun_spec (s := s) rfl
      exact ⟨.digits lead (by simpa using nonzero) hd, congrArg (c :: ·) hs⟩
    · simp at h

/-- Of that form, the digits before the point are read. -/
theorem Whole.yields {w r : List Char} (h : Whole w) (hr : NoDigit r) :
    Yields (readWhole (w ++ r)) w r := by
  cases h with
  | zero =>
    cases r with
    | nil => simp [readWhole, Rest.tail]
    | cons c r =>
      have : ¬ c.isDigit := hr c rfl
      simp [readWhole, this, Rest.tail]
  | digits lead nonzero more =>
    rw [List.cons_append, readWhole]
    · rw [if_pos lead, digitRun_append more hr]
      simp [afterDigits, digitRun_append more hr]
    · simpa using nonzero

/-- What is read for a fraction is one, or nothing. -/
theorem fraction_of_yields {s f r : List Char} (h : Yields (readFraction s) f r) :
    ∃ t, Fraction t f ∧ s = t ++ r := by
  unfold readFraction at h
  split at h
  · next s =>
    split at h
    · simp at h
    · next d ds t _ run _ =>
      obtain ⟨rfl, rfl⟩ : d :: ds = f ∧ t = r := by simpa using h
      obtain ⟨rfl, hd⟩ := digitRun_spec run
      exact ⟨_, .present ⟨List.cons_ne_nil d ds, hd⟩, rfl⟩
  · obtain ⟨rfl, rfl⟩ : [] = f ∧ s = r := by simpa using h
    exact ⟨[], .absent, rfl⟩

/-- A fraction is read, and nothing is read for none unless a point follows. -/
theorem Fraction.yields {t f r : List Char} (h : Fraction t f) (hr : NoDigit r)
    (point : t = [] → r.head? ≠ some '.') : Yields (readFraction (t ++ r)) f r := by
  cases h with
  | absent =>
    rw [List.nil_append, readFraction]
    · simp
    · rintro u rfl
      exact point rfl rfl
  | present h =>
    obtain ⟨ne, hd⟩ := h
    rw [List.cons_append, readFraction]
    split
    · next run _ =>
      rw [digitRun_append hd hr] at run
      cases run
      exact absurd rfl ne
    · next run _ =>
      rw [digitRun_append hd hr] at run
      cases run
      simp

theorem digits_of_yields {s ds r : List Char} (h : Yields (readExponentDigits s) ds r) :
    Digits ds ∧ s = ds ++ r := by
  unfold readExponentDigits at h
  split at h
  · simp at h
  · next c s =>
    split at h
    · next lead =>
      simp only [yields_ok, afterDigits] at h
      obtain ⟨rfl, rfl⟩ := h
      obtain ⟨hs, hd⟩ := digitRun_spec (s := s) rfl
      exact ⟨⟨List.cons_ne_nil _ _, List.forall_mem_cons.2 ⟨lead, hd⟩⟩, congrArg (c :: ·) hs⟩
    · simp at h

theorem Digits.yields {ds r : List Char} (h : Digits ds) (hr : NoDigit r) :
    Yields (readExponentDigits (ds ++ r)) ds r := by
  obtain ⟨ne, hd⟩ := h
  obtain ⟨d, ds, rfl⟩ := List.exists_cons_of_ne_nil ne
  obtain ⟨lead, more⟩ := List.forall_mem_cons.1 hd
  rw [List.cons_append, readExponentDigits, if_pos lead, yields_ok]
  simp [afterDigits, digitRun_append more hr]

/-- What starts with digits starts with no other character. -/
theorem Digits.append_ne {ds r t : List Char} {c : Char} (h : Digits ds) (hc : ¬ c.isDigit) :
    ds ++ r ≠ c :: t := by
  obtain ⟨ne, hd⟩ := h
  obtain ⟨d, ds, rfl⟩ := List.exists_cons_of_ne_nil ne
  rintro e
  cases e
  exact hc (hd _ List.mem_cons_self)

/-- What is read for an exponent is one, or nothing. -/
theorem exponent_of_yields {s r : List Char} {e : Option (Bool × List Char)}
    (h : Yields (readExponent s) e r) : ∃ t, Exponent t e ∧ s = t ++ r := by
  unfold readExponent at h
  split at h
  · obtain ⟨rfl, rfl⟩ : none = e ∧ [] = r := by simpa using h
    exact ⟨[], .absent, rfl⟩
  · next m s =>
    split at h
    · next mark =>
      have mark : m = 'e' ∨ m = 'E' := by simpa using mark
      split at h
      all_goals
        rw [yields_map] at h
        obtain ⟨ds, t, ht, eq, rfl, rfl⟩ := h
        obtain ⟨hd, rfl⟩ := digits_of_yields (.intro eq)
      · exact ⟨_, .down mark hd, rfl⟩
      · exact ⟨_, .up mark hd, rfl⟩
      · exact ⟨_, .plain mark hd, rfl⟩
    · obtain ⟨rfl, rfl⟩ : none = e ∧ m :: s = r := by simpa using h
      exact ⟨[], .absent, rfl⟩

/-- An exponent is read, and nothing is read for none unless its mark follows. -/
theorem Exponent.yields {t r : List Char} {e : Option (Bool × List Char)} (h : Exponent t e)
    (hr : NoDigit r) (mark : ∀ c ∈ r.head?, c ≠ 'e' ∧ c ≠ 'E') :
    Yields (readExponent (t ++ r)) e r := by
  cases h with
  | absent =>
    cases r with
    | nil => simp [readExponent]
    | cons c r =>
      obtain ⟨he, hE⟩ := mark c rfl
      simp [readExponent, he, hE]
  | @plain m ds hm hd =>
    obtain ⟨h, eq⟩ := hd.yields hr
    have hm : (m == 'e' || m == 'E') = true := by simpa using hm
    rw [List.cons_append, readExponent, if_pos hm]
    · rw [yields_map]
      exact ⟨_, _, h, eq, rfl, rfl⟩
    · exact fun t => hd.append_ne (by decide)
    · exact fun t => hd.append_ne (by decide)
  | @up m ds hm hd =>
    obtain ⟨h, eq⟩ := hd.yields hr
    have hm : (m == 'e' || m == 'E') = true := by simpa using hm
    rw [List.cons_append, List.cons_append, readExponent, if_pos hm, yields_map]
    exact ⟨_, _, h, eq, rfl, rfl⟩
  | @down m ds hm hd =>
    obtain ⟨h, eq⟩ := hd.yields hr
    have hm : (m == 'e' || m == 'E') = true := by simpa using hm
    rw [List.cons_append, List.cons_append, readExponent, if_pos hm, yields_map]
    exact ⟨_, _, h, eq, rfl, rfl⟩

/-! ### Numbers -/

theorem unsigned_of_yields {s r : List Char} {n : Numeral} {negative : Bool}
    (h : Yields (readUnsigned negative s) n r) :
    ∃ t, Unsigned t n ∧ n.negative = negative ∧ s = t ++ r := by
  rw [readUnsigned, yields_bind] at h
  obtain ⟨w, t, _, ew, h⟩ := h
  rw [yields_bind] at h
  obtain ⟨f, u, _, ef, h⟩ := h
  rw [yields_bind] at h
  obtain ⟨e, r', _, ee, h⟩ := h
  obtain ⟨rfl, rfl⟩ : ⟨negative, w, f, e⟩ = n ∧ r' = r := by simpa using h
  obtain ⟨hw, rfl⟩ := whole_of_yields (.intro ew)
  obtain ⟨ft, hf, rfl⟩ := fraction_of_yields (.intro ef)
  obtain ⟨et, he, rfl⟩ := exponent_of_yields (.intro ee)
  exact ⟨_, ⟨ft, et, hw, hf, he, rfl⟩, rfl, by simp⟩

/-- An exponent, or what follows a number without one, starts neither with a digit nor with a point.
    -/
theorem Exponent.noDigit_append {e r : List Char} {x : Option (Bool × List Char)}
    (h : Exponent e x) (hr : Stops r) : NoDigit (e ++ r) ∧ (e ++ r).head? ≠ some '.' := by
  have marked {m : Char} (t : List Char) (hm : m = 'e' ∨ m = 'E') :
      NoDigit (m :: t) ∧ (m :: t).head? ≠ some '.' := by
    rcases hm with rfl | rfl <;> exact ⟨by simp [NoDigit], by simp⟩
  cases h with
  | absent => exact ⟨hr.noDigit, fun e => (hr '.' e).2.1 rfl⟩
  | plain mark _ => exact marked _ mark
  | up mark _ => exact marked _ mark
  | down mark _ => exact marked _ mark

theorem Fraction.noDigit_append {f r ds : List Char} (h : Fraction f ds) (hr : NoDigit r) :
    NoDigit (f ++ r) := by
  cases h with
  | absent => exact hr
  | present _ => simp [NoDigit]

/-- The three parts are read one after the other. -/
theorem Unsigned.yields {t r : List Char} {n : Numeral} (h : Unsigned t n) (hr : Stops r) :
    Yields (readUnsigned n.negative (t ++ r)) n r := by
  obtain ⟨f, e, hw, hf, he, rfl⟩ := h
  -- what follows a part starts with the mark of the next part there is, or is the rest
  have afterFraction := he.noDigit_append hr
  obtain ⟨_, ew⟩ := hw.yields (hf.noDigit_append afterFraction.1)
  obtain ⟨_, ef⟩ := hf.yields afterFraction.1 fun _ => afterFraction.2
  obtain ⟨_, ee⟩ := he.yields hr.noDigit fun c hc => (hr c hc).2.2
  rw [List.append_assoc, List.append_assoc, readUnsigned, yields_bind]
  refine ⟨_, _, _, ew, ?_⟩
  rw [yields_bind]
  refine ⟨_, _, _, ef, ?_⟩
  rw [yields_bind]
  exact ⟨_, _, _, ee, by simp⟩

/-- What is read for a number spells it. -/
theorem spelled_of_yields {s r : List Char} {n : Numeral} (h : Yields (read s) n r) :
    ∃ t, Spelled t n ∧ s = t ++ r := by
  unfold read at h
  split at h
  · rw [yields_map] at h
    obtain ⟨m, t, _, e, rfl, rfl⟩ := h
    obtain ⟨u, hu, sign, rfl⟩ := unsigned_of_yields (.intro e)
    exact ⟨_, .minus sign hu, rfl⟩
  · obtain ⟨u, hu, sign, rfl⟩ := unsigned_of_yields h
    exact ⟨_, .plain sign hu, rfl⟩

/-- A number that is spelled is read, as long as what follows does not go on with it. -/
theorem Spelled.yields {t r : List Char} {n : Numeral} (h : Spelled t n) (hr : Stops r) :
    Yields (read (t ++ r)) n r := by
  cases h with
  | plain sign h =>
    obtain ⟨f, e, hw, _, _, rfl⟩ := id h
    have yields := h.yields hr
    rw [sign] at yields
    rw [read]
    · exact yields
    · intro u
      rw [List.append_assoc]
      exact hw.isDigits.append_ne (by decide)
  | minus sign h =>
    obtain ⟨_, e⟩ := h.yields hr
    rw [sign] at e
    rw [List.cons_append, read, yields_map]
    exact ⟨_, _, _, e, rfl, rfl⟩

/-! ### Counts -/

/-- Without point and exponent the digits are all there is. -/
theorem Unsigned.eq_whole {t : List Char} {n : Numeral} (h : Unsigned t n)
    (integer : n.isInteger) : t = n.whole := by
  obtain ⟨f, e, _, hf, he, rfl⟩ := h
  obtain ⟨noFraction, noExponent⟩ : n.fraction = [] ∧ n.exponent = none := by
    simpa [isInteger] using integer
  rw [noFraction] at hf
  rw [noExponent] at he
  cases hf with
  | absent => cases he with
    | absent => simp
  | present digits => exact absurd rfl digits.1

/-- What is read as a float is no count. -/
theorem toFloat_ne_int (n : Numeral) (r : List Char) (k : Int) : n.toFloat r ≠ .ok (.int k) := by
  simp only [toFloat]
  split
  · split <;> simp
  · split <;> simp

/-- A number that is read as a count has no sign, point or exponent. -/
theorem Spelled.whole_of_value {t r : List Char} {n : Numeral} {k : Nat} (h : Spelled t n)
    (value : n.value r = .ok (.int k)) :
    Whole t ∧ Decimal.digitsValue t = k ∧ k ≤ maxSignificand := by
  rw [Numeral.value] at value
  split at value
  · next fits =>
    obtain ⟨integer, fits⟩ := fits
    cases h with
    | plain sign h =>
      have digits : (Decimal.digitsValue n.whole : Int) = k := by simpa [sign] using value
      obtain ⟨f, e, whole, -⟩ := id h
      rw [h.eq_whole integer]
      exact ⟨whole, Int.ofNat_inj.1 digits, Int.ofNat_inj.1 digits ▸ fits⟩
    | minus sign h =>
      -- a negative integer is less than zero, and a negative zero is a float
      rw [sign, if_neg (by decide)] at value
      split at value
      · cases value
      · next nonzero =>
        have negated : -(Decimal.digitsValue n.whole : Int) = k := by simpa using value
        omega
  · exact absurd value (n.toFloat_ne_int r k)

/-! ### Characters -/

/-- The characters of numbers. -/
def IsPart (c : Char) : Prop := c.isDigit ∨ c ∈ ['+', '-', '.', 'e', 'E']

theorem Digits.isPart {ds : List Char} (h : Digits ds) : ∀ c ∈ ds, IsPart c :=
  fun c hc => .inl (h.2 c hc)

theorem Exponent.isPart {e : List Char} {x : Option (Bool × List Char)} (h : Exponent e x) :
    ∀ c ∈ e, IsPart c := by
  have marked {m : Char} (hm : m = 'e' ∨ m = 'E') : IsPart m := by
    rcases hm with rfl | rfl <;> exact .inr (by simp)
  cases h with
  | absent => simp
  | plain mark h => exact List.forall_mem_cons.2 ⟨marked mark, h.isPart⟩
  | up mark h =>
    exact List.forall_mem_cons.2 ⟨marked mark, List.forall_mem_cons.2 ⟨.inr (by simp), h.isPart⟩⟩
  | down mark h =>
    exact List.forall_mem_cons.2 ⟨marked mark, List.forall_mem_cons.2 ⟨.inr (by simp), h.isPart⟩⟩

theorem Fraction.isPart {f ds : List Char} (h : Fraction f ds) : ∀ c ∈ f, IsPart c := by
  cases h with
  | absent => simp
  | present h => exact List.forall_mem_cons.2 ⟨.inr (by simp), h.isPart⟩

theorem Unsigned.isPart {t : List Char} {n : Numeral} (h : Unsigned t n) : ∀ c ∈ t, IsPart c := by
  obtain ⟨f, e, hw, hf, he, rfl⟩ := h
  rw [List.forall_mem_append, List.forall_mem_append]
  exact ⟨hw.isDigits.isPart, hf.isPart, he.isPart⟩

/-- A number holds no other characters. -/
theorem Spelled.isPart {t : List Char} {n : Numeral} (h : Spelled t n) : ∀ c ∈ t, IsPart c := by
  cases h with
  | plain _ h => exact h.isPart
  | minus _ h => exact List.forall_mem_cons.2 ⟨.inr (by simp), h.isPart⟩

theorem Unsigned.exists_cons {t : List Char} {n : Numeral} (h : Unsigned t n) :
    ∃ d u, t = d :: u ∧ d.isDigit := by
  obtain ⟨f, e, hw, _, _, rfl⟩ := h
  obtain ⟨ne, hd⟩ := hw.isDigits
  obtain ⟨d, ds, hds⟩ := List.exists_cons_of_ne_nil ne
  rw [hds] at hd ⊢
  exact ⟨d, ds ++ (f ++ e), rfl, hd d List.mem_cons_self⟩

/-- A number starts with its sign or with a digit. -/
theorem Spelled.exists_cons {t : List Char} {n : Numeral} (h : Spelled t n) :
    ∃ c u, t = c :: u ∧ (c = '-' ∨ c.isDigit) := by
  cases h with
  | plain _ h =>
    obtain ⟨d, u, rfl, hd⟩ := h.exists_cons
    exact ⟨d, u, rfl, .inr hd⟩
  | minus _ _ => exact ⟨_, _, rfl, .inl rfl⟩

end FlowLint.Json.Numeral
