import Mathlib.Algebra.Order.Field.Power
import Mathlib.Algebra.Order.Floor.Semifield
import Mathlib.Data.Int.Log
import Mathlib.Data.Rat.Floor
import Mathlib.Tactic.FieldSimp
import Mathlib.Tactic.Linarith
import Mathlib.Tactic.Positivity

/-!
# Doubles

Numbers of the binary64 format: the infinities, NaN, and finite numbers with a sign and a magnitude
that has a significand of 53 bits.

* `Double.round` : the double nearest to a rational number, ties to even;
* `Double.round_natCast` : natural numbers up to `2 ^ 53` are not changed by rounding.
-/

/-- The magnitudes of finite doubles. -/
def IsMagnitude (q : ℚ) : Prop :=
  (∃ (m : ℕ) (e : ℤ), m ≤ 2 ^ 53 ∧ -1074 ≤ e ∧ q = m * 2 ^ e) ∧ q < 2 ^ 1024

/-- A double. -/
inductive Double where
  | finite (neg : Bool) (mag : ℚ) (h : IsMagnitude mag)
  | inf (neg : Bool)
  | nan
deriving DecidableEq

namespace Double

theorem isMagnitude_natCast {n : ℕ} (h : n ≤ 2 ^ 53) : IsMagnitude (n : ℚ) := by
  refine ⟨⟨n, 0, h, by norm_num, by simp⟩, ?_⟩
  have hn : (n : ℚ) ≤ 2 ^ 53 := by exact_mod_cast h
  exact lt_of_le_of_lt hn (pow_lt_pow_right₀ (by norm_num) (by norm_num))

theorem zero_le_mantissa : 0 ≤ 2 ^ 53 := Nat.zero_le _

/-- A natural number with a sign. -/
def ofNat (neg : Bool) (n : ℕ) (h : n ≤ 2 ^ 53) : Double := .finite neg n (isMagnitude_natCast h)

/-- The nearest natural number, ties to even. -/
def roundEven (x : ℚ) : ℕ :=
  if x - ⌊x⌋₊ < 1 / 2 then ⌊x⌋₊
  else if 1 / 2 < x - ⌊x⌋₊ then ⌊x⌋₊ + 1
  else if ⌊x⌋₊ % 2 = 0 then ⌊x⌋₊ else ⌊x⌋₊ + 1

theorem roundEven_natCast (n : ℕ) : roundEven n = n := by
  simp [roundEven]

theorem roundEven_le {x : ℚ} (hx : 0 ≤ x) {n : ℕ} (h : x < n) : roundEven x ≤ n := by
  have hfloor : ⌊x⌋₊ < n := (Nat.floor_lt hx).mpr h
  rw [roundEven]
  split_ifs <;> omega

/-- The exponent of the last bit of a magnitude. -/
def ulpExponent (q : ℚ) : ℤ := max (Int.log 2 q - 52) (-1074)

theorem div_ulp_lt (q : ℚ) : q / 2 ^ ulpExponent q < (2 ^ 53 : ℕ) := by
  have hlog : q < 2 ^ (Int.log 2 q + 1) := by
    exact_mod_cast Int.lt_zpow_succ_log_self (b := 2) (by norm_num) q
  have hexp : (2 : ℚ) ^ (Int.log 2 q + 1) ≤ 2 ^ (53 + ulpExponent q) := by
    refine zpow_le_zpow_right₀ (by norm_num) ?_
    have := le_max_left (Int.log 2 q - 52) (-1074)
    rw [ulpExponent]
    omega
  rw [div_lt_iff₀ (by positivity)]
  calc q < 2 ^ (Int.log 2 q + 1) := hlog
    _ ≤ 2 ^ (53 + ulpExponent q) := hexp
    _ = (2 ^ 53 : ℕ) * 2 ^ ulpExponent q := by
      rw [zpow_add₀ (by norm_num)]
      norm_num

theorem isMagnitude_rounded {q : ℚ} (hq : 0 < q)
    (h : (roundEven (q / 2 ^ ulpExponent q) : ℚ) * 2 ^ ulpExponent q < 2 ^ 1024) :
    IsMagnitude (roundEven (q / 2 ^ ulpExponent q) * 2 ^ ulpExponent q) :=
  ⟨⟨_, _, roundEven_le (by positivity) (div_ulp_lt q), le_max_right _ _, rfl⟩, h⟩

/-- The double nearest to a number of a given sign, ties to even; large numbers become infinite. -/
def round (neg : Bool) (q : ℚ) : Double :=
  if hq : 0 < q then
    if h : (roundEven (q / 2 ^ ulpExponent q) : ℚ) * 2 ^ ulpExponent q < 2 ^ 1024 then
      .finite neg _ (isMagnitude_rounded hq h)
    else .inf neg
  else ofNat neg 0 (Nat.zero_le _)

/-- A natural number has no bits after its last one. -/
theorem roundEven_ulp {n : ℕ} (hn : 0 < n) (h : n < 2 ^ 53) :
    (roundEven (n / 2 ^ ulpExponent n) : ℚ) * 2 ^ ulpExponent n = n := by
  have hle : ulpExponent n ≤ 0 := by
    have hlog : Int.log 2 (n : ℚ) = Nat.log 2 n := Int.log_natCast 2 n
    have hlt : Nat.log 2 n < 53 := Nat.log_lt_of_lt_pow hn.ne' h
    rw [ulpExponent, hlog]
    omega
  obtain ⟨k, hk⟩ : ∃ k : ℕ, ulpExponent n = -k := ⟨(-ulpExponent n).toNat, by omega⟩
  have hdiv : (n : ℚ) / 2 ^ ulpExponent n = (n * 2 ^ k : ℕ) := by
    rw [hk, zpow_neg, zpow_natCast, div_inv_eq_mul]
    push_cast
    rfl
  rw [hdiv, roundEven_natCast, hk, zpow_neg, zpow_natCast]
  push_cast
  field_simp

/-- **Small natural numbers are exact.** -/
theorem round_natCast (neg : Bool) {n : ℕ} (h : n < 2 ^ 53) : round neg n = ofNat neg n h.le := by
  rw [round]
  by_cases hn : 0 < n
  · have hq : (0 : ℚ) < n := by exact_mod_cast hn
    have hulp := roundEven_ulp hn h
    rw [dif_pos hq, dif_pos (by rw [hulp]; exact (isMagnitude_natCast h.le).2)]
    simp only [ofNat, hulp]
  · obtain rfl : n = 0 := by omega
    rw [dif_neg (by simp)]

theorem roundEven_ulp_two_pow :
    (roundEven ((2 ^ 53 : ℕ) / 2 ^ ulpExponent (2 ^ 53 : ℕ)) : ℚ) * 2 ^ ulpExponent (2 ^ 53 : ℕ) =
      (2 ^ 53 : ℕ) := by
  have hulp : ulpExponent (2 ^ 53 : ℕ) = 1 := by
    rw [ulpExponent, Int.log_natCast, Nat.log_pow (by norm_num)]
    rfl
  have hdiv : ((2 ^ 53 : ℕ) : ℚ) / 2 ^ (1 : ℤ) = (2 ^ 52 : ℕ) := by norm_num
  rw [hulp, hdiv, roundEven_natCast]
  norm_num

theorem round_natCast_le (neg : Bool) {n : ℕ} (h : n ≤ 2 ^ 53) : round neg n = ofNat neg n h := by
  rcases h.lt_or_eq with hlt | rfl
  · exact round_natCast neg hlt
  · have hq : (0 : ℚ) < (2 ^ 53 : ℕ) := by norm_num
    rw [round, dif_pos hq, dif_pos (by
      rw [roundEven_ulp_two_pow]
      exact (isMagnitude_natCast le_rfl).2)]
    simp only [ofNat, roundEven_ulp_two_pow]

end Double
