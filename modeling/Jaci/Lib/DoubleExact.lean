import Jaci.Lib.DoubleArith

/-!
# Exact operations on doubles

A double is its own rounding, so that an operation whose exact result is a double gives it.

* `Double.round_magnitude` : rounding a magnitude;
* `Double.mul_one`, `Double.div_one`, `Double.add_negZero`, `Double.sub_posZero` : neutral numbers,
  for every double, signed zeros, infinities and NaN included.
-/

namespace Double

/-! ### Rounding of magnitudes -/

/-- A magnitude is a whole number of its last bits. -/
theorem div_ulp_natCast {q : ℚ} (hq : 0 < q) (h : IsMagnitude q) :
    ∃ n : ℕ, q / 2 ^ ulpExponent q = n := by
  obtain ⟨⟨m, e, hm, he, rfl⟩, -⟩ := h
  -- a significand of 54 bits is a power of two, which has a smaller one
  obtain ⟨m', e', hm', he', heq⟩ : ∃ (m' : ℕ) (e' : ℤ), m' < 2 ^ 53 ∧ -1074 ≤ e' ∧
      (m : ℚ) * 2 ^ e = m' * 2 ^ e' := by
    rcases Nat.lt_or_eq_of_le hm with hlt | rfl
    · exact ⟨m, e, hlt, he, rfl⟩
    · refine ⟨2 ^ 52, e + 1, by norm_num, by omega, ?_⟩
      rw [zpow_add₀ (by norm_num)]
      push_cast
      ring
  rw [heq] at hq ⊢
  have hlog : Int.log 2 ((m' : ℚ) * 2 ^ e') < 53 + e' := by
    have hlt : (m' : ℚ) * 2 ^ e' < ((2 : ℕ) : ℚ) ^ (53 + e') := by
      rw [zpow_add₀ (by norm_num)]
      have hm'' : (m' : ℚ) < 2 ^ (53 : ℤ) := by exact_mod_cast hm'
      exact mul_lt_mul_of_pos_right (by simpa using hm'') (by positivity)
    exact (Int.lt_zpow_iff_log_lt (by norm_num) hq).1 hlt
  have hulp : ulpExponent ((m' : ℚ) * 2 ^ e') ≤ e' := by
    rw [ulpExponent]
    omega
  obtain ⟨k, hk⟩ : ∃ k : ℕ, e' = ulpExponent ((m' : ℚ) * 2 ^ e') + k :=
    ⟨(e' - ulpExponent ((m' : ℚ) * 2 ^ e')).toNat, by omega⟩
  refine ⟨m' * 2 ^ k, ?_⟩
  generalize ulpExponent ((m' : ℚ) * 2 ^ e') = u at hk
  rw [hk, zpow_add₀ (by norm_num), zpow_natCast]
  push_cast
  field_simp

/-- **A magnitude is its own rounding.** -/
theorem round_magnitude (neg : Bool) {q : ℚ} (h : IsMagnitude q) :
    round neg q = .finite neg q h := by
  rw [round]
  by_cases hq : 0 < q
  · obtain ⟨n, hn⟩ := div_ulp_natCast hq h
    have heq : (roundEven (q / 2 ^ ulpExponent q) : ℚ) * 2 ^ ulpExponent q = q := by
      rw [hn, roundEven_natCast, ← hn]
      field_simp
    rw [dif_pos hq, dif_pos (by rw [heq]; exact h.2)]
    simp only [heq]
  · obtain rfl : q = 0 := le_antisymm (not_lt.1 hq) (IsMagnitude.nonneg h)
    rw [dif_neg hq]
    simp [ofNat]

/-- Rounding a double gives it back, but for the sign of a zero. -/
theorem ofRat_signed {neg a : Bool} {p : ℚ} (h : IsMagnitude p) (hneg : p = 0 → neg = a) :
    ofRat neg (signed a p) = .finite a p h := by
  rcases (IsMagnitude.nonneg h).eq_or_lt with rfl | hpos
  · rw [hneg rfl, ofRat, if_pos (by cases a <;> simp [signed])]
    simp [zero, ofNat]
  · have hne : signed a p ≠ 0 := by cases a <;> simp [signed, hpos.ne']
    have hsign : decide (signed a p < 0) = a := by
      cases a <;> simp [signed, hpos, hpos.le]
    have habs : |signed a p| = p := by cases a <;> simp [signed, abs_of_pos hpos]
    rw [ofRat, if_neg hne, hsign, habs, round_magnitude]

/-! ### Neutral numbers -/

variable (x y : Double)

theorem add_comm : add x y = add y x := by
  cases x <;> cases y <;> simp only [add]
  case inf.inf a b => by_cases h : a = b <;> simp [h, eq_comm]
  case finite.finite a p _ b q _ => rw [Bool.and_comm, Rat.add_comm]

theorem mul_comm : mul x y = mul y x := by
  have hxor : ∀ a b : Bool, (a != b) = (b != a) := by decide
  cases x <;> cases y <;> simp only [mul]
  case inf.inf a b => rw [hxor a b]
  case inf.finite a b q _ => rw [hxor a b]
  case finite.inf a p _ b => rw [hxor a b]
  case finite.finite a p _ b q _ => rw [hxor a b, Rat.mul_comm]

/-- `x + -0` is `x`. -/
theorem add_negZero : add x (zero true) = x := by
  cases x with
  | nan => rfl
  | inf a => rfl
  | finite a p h =>
    have hzero : signed true ((0 : ℕ) : ℚ) = 0 := by simp [signed]
    show ofRat (a && true) (signed a p + signed true ((0 : ℕ) : ℚ)) = _
    rw [hzero, add_zero, Bool.and_true, ofRat_signed h fun _ => rfl]

/-- `x - 0` is `x`. -/
theorem sub_posZero : sub x (zero false) = x := add_negZero x

/-- `x * 1` is `x`. -/
theorem mul_one : mul x (fromInt 1) = x := by
  have hone : fromInt 1 = .finite false ((1 : ℕ) : ℚ) (isMagnitude_natCast (by norm_num)) := by
    rw [fromInt_eq (by norm_num)]
    rfl
  rw [hone]
  cases x with
  | nan => rfl
  | inf a => simp [mul]
  | finite a p h =>
    have hmul : signed a p * signed false ((1 : ℕ) : ℚ) = signed a p := by simp [signed]
    show ofRat (a != false) (signed a p * signed false ((1 : ℕ) : ℚ)) = _
    rw [hmul, Bool.bne_false, ofRat_signed h fun _ => rfl]

/-- `x / 1` is `x`. -/
theorem div_one : div x (fromInt 1) = x := by
  have hone : fromInt 1 = .finite false ((1 : ℕ) : ℚ) (isMagnitude_natCast (by norm_num)) := by
    rw [fromInt_eq (by norm_num)]
    rfl
  rw [hone]
  cases x with
  | nan => rfl
  | inf a => simp [div]
  | finite a p h =>
    have hdiv : signed a p / signed false ((1 : ℕ) : ℚ) = signed a p := by simp [signed]
    show (if ((1 : ℕ) : ℚ) = 0 then (if p = 0 then nan else inf (a != false))
      else ofRat (a != false) (signed a p / signed false ((1 : ℕ) : ℚ))) = _
    rw [if_neg (by norm_num), hdiv, Bool.bne_false, ofRat_signed h fun _ => rfl]

/-! ### Comparisons with constants -/

variable {x}

/-- Only the two zeros are equal to 0. -/
theorem feq_zero_iff : feq x (zero false) ↔ ∃ neg, x = zero neg := by
  constructor
  · intro h
    cases x with
    | nan => simp [feq] at h
    | inf a => simp [feq, zero, ofNat] at h
    | finite a p hp =>
      have hp0 : p = 0 := by
        simp only [feq, zero, ofNat, decide_eq_true_eq] at h
        cases a <;> simpa [signed] using h
      subst hp0
      exact ⟨a, by simp [zero, ofNat]⟩
  · rintro ⟨neg, rfl⟩
    cases neg <;> simp [feq, zero, ofNat, signed]

theorem fromInt_one_ne_zero (neg : Bool) : fromInt 1 ≠ zero neg := by
  rw [fromInt_eq (by norm_num)]
  simp [ofNat, zero]

theorem feq_one_iff : feq x (fromInt 1) ↔ x = fromInt 1 := by
  constructor
  · exact fun h => eq_of_feq h fromInt_one_ne_zero
  · rintro rfl
    rw [fromInt_eq (by norm_num)]
    simp [ofNat, feq]

end Double
