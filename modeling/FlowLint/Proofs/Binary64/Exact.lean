import FlowLint.Json.Basic
import Mathlib.Algebra.Order.Field.Rat
import Mathlib.Algebra.Order.Ring.Cast

/-!
Numbers by their exact values. Rounding an integer to a float leaves it as it is up to 2^53 and
keeps it whole and at least as large beyond, so a bound far below that holds of the float exactly
if it holds of the integer.
-/

namespace FlowLint

namespace Binary64

/-! ### Rounding -/

/-- The exponent of one by a name, for it is too large to compute with. -/
theorem exists_one_eq : ∃ e, one = 2 ^ e ∧ e = 1074 := by
  unfold one
  generalize 1074 = e
  exact ⟨e, rfl, rfl⟩

theorem one_pos : 0 < one := by
  obtain ⟨e, he, -⟩ := exists_one_eq
  exact he ▸ Nat.two_pow_pos e

theorem log2_mul_two_pow {n : Nat} (hn : n ≠ 0) (k : Nat) : (n * 2 ^ k).log2 = n.log2 + k := by
  have pos : n * 2 ^ k ≠ 0 := Nat.mul_ne_zero hn (Nat.two_pow_pos k).ne'
  rw [Nat.log2_eq_iff pos, Nat.pow_add, Nat.add_right_comm, Nat.pow_add]
  exact ⟨Nat.mul_le_mul_right _ (Nat.log2_self_le hn),
    Nat.mul_lt_mul_of_pos_right Nat.lt_log2_self (Nat.two_pow_pos k)⟩

/-- A whole number rounds to itself. -/
theorem roundHalfEven_mul {m den : Nat} (h : 0 < den) : roundHalfEven (m * den) den = m := by
  simp only [roundHalfEven, Nat.mul_mod_left, Nat.mul_zero, if_pos h, Nat.mul_div_cancel _ h]

/-- Rounding leads no further down than cutting off. -/
theorem le_roundHalfEven (num den : Nat) : num / den ≤ roundHalfEven num den := by
  simp only [roundHalfEven]
  split
  · exact Nat.le_refl _
  · split <;> omega

theorem gap_mul_one {n : Nat} (hn : n ≠ 0) : ∃ e, e = n.log2 + 1022 ∧ gap (n * one) = 2 ^ e := by
  obtain ⟨e, one_eq, he⟩ := exists_one_eq
  refine ⟨n.log2 + 1022, rfl, ?_⟩
  rw [gap, Nat.pow_eq, one_eq, log2_mul_two_pow hn]
  exact congrArg (2 ^ ·) (by omega)

theorem ofNat_eq (n : Nat) :
    ofNat n = roundHalfEven (n * one) (gap (n * one)) * gap (n * one) := by
  rw [ofNat, roundUnits, Nat.one_mul, Nat.div_one]

/-- Up to 53 bits the gaps are no wider than one. -/
theorem ofNat_small {n : Nat} (h : n < 2 ^ 53) : ofNat n = n * one := by
  rcases Nat.eq_zero_or_pos n with rfl | pos
  · have none' : roundHalfEven (0 * gap 0) (gap 0) = 0 := roundHalfEven_mul (Nat.two_pow_pos _)
    rw [Nat.zero_mul] at none'
    rw [ofNat_eq, Nat.zero_mul, none', Nat.zero_mul]
  obtain ⟨e, he, gap_eq⟩ := gap_mul_one pos.ne'
  obtain ⟨f, one_eq, hf⟩ := exists_one_eq
  have few : n.log2 ≤ 52 := Nat.le_of_lt_succ ((Nat.log2_lt pos.ne').2 h)
  have whole : n * one = n * 2 ^ (f - e) * 2 ^ e := by
    rw [one_eq, Nat.mul_assoc, ← Nat.pow_add]
    exact congrArg (n * 2 ^ ·) (by omega)
  rw [ofNat_eq, gap_eq, whole, roundHalfEven_mul (Nat.two_pow_pos e)]

/-- Beyond that the gaps are whole, so what is rounded stays whole, and does not fall below. -/
theorem ofNat_large {n : Nat} (h : 2 ^ 53 ≤ n) : ∃ m, 2 ^ 53 ≤ m ∧ ofNat n = m * one := by
  have pos : n ≠ 0 := Nat.pos_iff_ne_zero.1 (Nat.lt_of_lt_of_le (Nat.two_pow_pos 53) h)
  obtain ⟨e, he, gap_eq⟩ := gap_mul_one pos
  obtain ⟨f, one_eq, hf⟩ := exists_one_eq
  have many : 53 ≤ n.log2 := (Nat.le_log2 pos).2 h
  have steps : gap (n * one) = 2 ^ (n.log2 - 52) * one := by
    rw [gap_eq, one_eq, ← Nat.pow_add]
    exact congrArg (2 ^ ·) (by omega)
  have quotient : 2 ^ 52 ≤ n * one / gap (n * one) := by
    rw [steps, Nat.mul_div_mul_right _ _ one_pos, Nat.le_div_iff_mul_le (Nat.two_pow_pos _),
      ← Nat.pow_add, Nat.add_sub_cancel' (Nat.le_of_succ_le many)]
    exact Nat.log2_self_le pos
  refine ⟨roundHalfEven (n * one) (gap (n * one)) * 2 ^ (n.log2 - 52), ?_, ?_⟩
  · calc 2 ^ 53 = 2 ^ 52 * 2 ^ 1 := rfl
      _ ≤ roundHalfEven (n * one) (gap (n * one)) * 2 ^ (n.log2 - 52) :=
        Nat.mul_le_mul (quotient.trans (le_roundHalfEven ..))
          (Nat.pow_le_pow_right (by decide) (by omega))
  · rw [ofNat_eq, Nat.mul_assoc, ← steps]

/-! ### Values -/

/-- The value of a number. -/
def exact (x : Binary64) : ℚ := x.signed / one

end Binary64

/-- The value of a number, before any rounding. -/
def Number.exact : Number → ℚ
  | .int n   => n
  | .float x => x.exact

namespace Binary64

theorem exact_eq_iff (x : Binary64) (k : ℤ) : x.exact = k ↔ x.signed = k * one := by
  have pos : (one : ℚ) ≠ 0 := Nat.cast_ne_zero.2 one_pos.ne'
  rw [exact, div_eq_iff pos]
  exact_mod_cast Iff.rfl

theorem isWhole_iff (x : Binary64) : x.isWhole ↔ ∃ k : ℤ, x.exact = k := by
  have signed : (one : ℤ) ∣ x.signed ↔ one ∣ x.units := by
    rw [Binary64.signed]
    split
    · rw [Int.dvd_neg, Int.natCast_dvd_natCast]
    · exact Int.natCast_dvd_natCast
  rw [isWhole, beq_iff_eq, ← Nat.dvd_iff_mod_eq_zero, ← signed, dvd_iff_exists_eq_mul_left]
  exact exists_congr fun k => (exact_eq_iff x k).symm

/-- Floats are compared by their values. -/
theorem lt_iff (x y : Binary64) : x.lt y ↔ x.exact < y.exact := by
  have pos : (0 : ℚ) < one := Nat.cast_pos.2 one_pos
  rw [lt, decide_eq_true_iff, exact, exact, div_lt_div_iff_of_pos_right pos, Int.cast_lt]

/-- An integer rounds to an integer: to itself up to 53 bits, and beyond that to none of those. -/
theorem exists_exact_ofInt (n : ℤ) : ∃ k : ℤ, (ofInt n).exact = k ∧
    (n.natAbs < 2 ^ 53 → k = n) ∧ (2 ^ 53 ≤ n → 2 ^ 53 ≤ k) ∧ (n ≤ -2 ^ 53 → k ≤ -2 ^ 53) := by
  obtain ⟨m, hm, same, large⟩ : ∃ m, ofNat n.natAbs = m * one ∧
      (n.natAbs < 2 ^ 53 → m = n.natAbs) ∧ (2 ^ 53 ≤ n.natAbs → 2 ^ 53 ≤ m) := by
    rcases Nat.lt_or_ge n.natAbs (2 ^ 53) with h | h
    · exact ⟨_, ofNat_small h, fun _ => rfl, fun h' => absurd h (Nat.not_lt.2 h')⟩
    · obtain ⟨m, hm, eq⟩ := ofNat_large h
      exact ⟨m, eq, fun h' => absurd h' (Nat.not_lt.2 h), fun _ => hm⟩
  by_cases neg : n < 0
  · refine ⟨-m, ?_, by omega, by omega, by omega⟩
    rw [exact_eq_iff, Binary64.signed, ofInt, if_pos (by simpa using neg), hm, Nat.cast_mul,
      neg_mul]
  · refine ⟨m, ?_, by omega, by omega, by omega⟩
    rw [exact_eq_iff, Binary64.signed, ofInt, if_neg (by simpa using neg), hm, Nat.cast_mul]

end Binary64

namespace Number

/-! ### Bounds -/

variable (n : Number) {a : ℤ}

theorem isWhole_toBinary64_iff : n.toBinary64.isWhole ↔ ∃ k : ℤ, n.exact = k := by
  rw [Binary64.isWhole_iff]
  cases n with
  | int n =>
    obtain ⟨k, hk, -⟩ := Binary64.exists_exact_ofInt n
    exact ⟨fun _ => ⟨n, rfl⟩, fun _ => ⟨k, hk⟩⟩
  | float x => rfl

/-- A float lies below a small integer exactly if the number that it was rounded from does. -/
theorem toBinary64_lt_ofInt_iff (ha : a.natAbs < 2 ^ 53) :
    n.toBinary64.lt (.ofInt a) ↔ n.exact < a := by
  obtain ⟨b, hb, same, -⟩ := Binary64.exists_exact_ofInt a
  rw [Binary64.lt_iff, hb, same ha]
  cases n with
  | int n =>
    obtain ⟨k, hk, same, above, below⟩ := Binary64.exists_exact_ofInt n
    rw [Number.toBinary64, hk, Number.exact, Int.cast_lt, Int.cast_lt]
    omega
  | float x => rfl

theorem ofInt_lt_toBinary64_iff (ha : a.natAbs < 2 ^ 53) :
    (Binary64.ofInt a).lt n.toBinary64 ↔ a < n.exact := by
  obtain ⟨b, hb, same, -⟩ := Binary64.exists_exact_ofInt a
  rw [Binary64.lt_iff, hb, same ha]
  cases n with
  | int n =>
    obtain ⟨k, hk, same, above, below⟩ := Binary64.exists_exact_ofInt n
    rw [Number.toBinary64, hk, Number.exact, Int.cast_lt, Int.cast_lt]
    omega
  | float x => rfl

end Number

end FlowLint
