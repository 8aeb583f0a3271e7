import Jaci.Builtins.Integer
import Mathlib.Tactic.Ring

/-!
# Floored division of integers

`integer.idiv` and `integer.mod` correct a truncated quotient and a truncated remainder.  The
quotient is corrected when it is negative, the remainder when the signs of the operands differ.

* `mod_floors` : the remainder is the floored one;
* `idiv_floors_iff` : the quotient is the floored one, but between -1 and 0.
-/

namespace Jaci

namespace Integer

/-! ### Floored from truncated -/

section Floor

variable {x y : ℤ}

/-- A truncated quotient is not the floored one. -/
def Inexact (x y : ℤ) : Prop := x.tmod y ≠ 0 ∧ decide (x < 0) ≠ decide (y < 0)

instance (x y : ℤ) : Decidable (Inexact x y) := by unfold Inexact; infer_instance

theorem fdiv_eq_tdiv_sub (hy : y ≠ 0) : x.fdiv y = x.tdiv y - if Inexact x y then 1 else 0 := by
  have hdvd : x.tmod y = 0 ↔ y ∣ x := ⟨Int.dvd_of_tmod_eq_zero, Int.tmod_eq_zero_of_dvd⟩
  rw [Int.fdiv_eq_tdiv]
  simp only [Inexact, ne_eq, hdvd, decide_eq_decide]
  congr 1
  by_cases h : y ∣ x
  · simp [h]
  · simp only [h, if_false, not_false_eq_true, true_and]
    rcases lt_trichotomy y 0 with hneg | rfl | hpos
    · rw [Int.sign_eq_neg_one_of_neg hneg]
      split_ifs <;> omega
    · exact absurd rfl hy
    · rw [Int.sign_eq_one_of_pos hpos]
      split_ifs <;> omega

theorem fmod_eq_tmod_add (hy : y ≠ 0) : x.fmod y = x.tmod y + if Inexact x y then y else 0 := by
  rw [Int.fmod_def, Int.tmod_def, fdiv_eq_tdiv_sub hy, Int.mul_sub]
  split_ifs <;> ring

/-- The remainder has the sign of the dividend and is smaller than the divisor. -/
theorem tmod_bounds (hy : y ≠ 0) :
    (x.tmod y).natAbs < y.natAbs ∧ (0 ≤ x → 0 ≤ x.tmod y) ∧ (x ≤ 0 → x.tmod y ≤ 0) := by
  refine ⟨?_, fun hx => Int.tmod_nonneg y hx, fun hx => ?_⟩
  · rw [Int.natAbs_tmod]
    exact Nat.mod_lt _ (Int.natAbs_pos.2 hy)
  · have h := Int.tmod_nonneg y (Int.neg_nonneg_of_nonpos hx)
    rw [Int.neg_tmod] at h
    omega

/-- A quotient that is corrected is at most half the dividend. -/
theorem two_mul_tdiv_le (hy : y ≠ 0) (h : Inexact x y) : 2 * (x.tdiv y).natAbs ≤ x.natAbs := by
  have hy1 : y.natAbs ≠ 1 := by
    intro h1
    have := (tmod_bounds (x := x) hy).1
    rw [h1] at this
    exact h.1 (by omega)
  rw [Int.natAbs_tdiv, Nat.mul_comm]
  have h2 : 2 ≤ y.natAbs := by
    have := Int.natAbs_pos.2 hy
    omega
  exact (Nat.mul_le_mul_left _ h2).trans (Nat.div_mul_le_self _ _)

end Floor

/-! ### The library -/

section Library

variable {a b : I64} (rest : List Arg)

theorem toInt_ne_zero (hb : b ≠ 0) : b.toInt ≠ 0 := fun h0 => hb (BitVec.eq_of_toInt_eq h0)

theorem toInt_bounds (a : I64) : -2 ^ 63 ≤ a.toInt ∧ a.toInt < 2 ^ 63 :=
  ⟨a.le_toInt, a.toInt_lt⟩

theorem int64_idiv_eq (hb : b ≠ 0) (hov : ¬ (a = llongMin ∧ b = -1)) :
    ∃ q, int64_idiv (.integer a :: .integer b :: rest) = .ok (.integer q) ∧
      q.toInt = a.toInt.tdiv b.toInt -
        if Inexact a.toInt b.toInt ∧ ¬ a.toInt.natAbs < b.toInt.natAbs then 1 else 0 := by
  have hb0 := toInt_ne_zero hb
  have hq := toInt_sdiv hov
  have hadj : ((a.sdiv b).toInt < 0 ∧ a.srem b ≠ 0) ↔
      Inexact a.toInt b.toInt ∧ ¬ a.toInt.natAbs < b.toInt.natAbs := by
    rw [hq, srem_ne_zero, Inexact]
    constructor
    · rintro ⟨hn, hm⟩
      obtain ⟨hs, hlt⟩ := (tdiv_neg_iff hb0 hm).1 hn
      exact ⟨⟨hm, hs⟩, hlt⟩
    · rintro ⟨⟨hm, hs⟩, hlt⟩
      exact ⟨(tdiv_neg_iff hb0 hm).2 ⟨hs, hlt⟩, hm⟩
  have hrun : int64_idiv (.integer a :: .integer b :: rest) = .ok (.integer
      (if (a.sdiv b).toInt < 0 ∧ a.srem b ≠ 0 then a.sdiv b - 1 else a.sdiv b)) := by
    show (if b = 0 then _ else if a = llongMin ∧ b = -1 then _ else if _ then _ else _ : Lib) = _
    rw [if_neg hb, if_neg hov]
    split_ifs <;> rfl
  refine ⟨_, hrun, ?_⟩
  by_cases h : (a.sdiv b).toInt < 0 ∧ a.srem b ≠ 0
  · have hx := hadj.1 h
    -- the quotient is far from the end of the range, so that taking one off does not wrap
    have h2 := two_mul_tdiv_le hb0 hx.1
    obtain ⟨hl, hu⟩ := toInt_bounds a
    rw [if_pos h, if_pos hx, BitVec.toInt_sub, hq]
    exact Int.bmod_eq_of_le (by simp; omega) (by simp; omega)
  · rw [if_neg h, if_neg fun hx => h (hadj.2 hx), hq, Int.sub_zero]

/-- **The floored remainder.**  `integer.mod` gives `a - b * floor (a / b)`. -/
theorem mod_floors (hb : b ≠ 0) :
    ∃ r, int64_mod (.integer a :: .integer b :: rest) = .ok (.integer r) ∧
      r.toInt = a.toInt.fmod b.toInt := by
  have hb0 := toInt_ne_zero hb
  by_cases hov : a = llongMin ∧ b = -1
  · obtain ⟨rfl, rfl⟩ := hov
    exact ⟨0, rfl, by decide⟩
  have hrun : int64_mod (.integer a :: .integer b :: rest) = .ok (.integer
      (if Inexact a.toInt b.toInt then a.srem b + b else a.srem b)) := by
    show (if b = 0 then _ else if a ≠ llongMin ∨ b ≠ -1 then if _ then _ else _ else _ : Lib) = _
    have hiff : (a.srem b ≠ 0 ∧ decide (a.toInt < 0) ≠ decide (b.toInt < 0)) ↔
        Inexact a.toInt b.toInt := by rw [Inexact, srem_ne_zero]
    rw [if_neg hb, if_pos (not_and_or.1 hov)]
    by_cases h : Inexact a.toInt b.toInt
    · rw [if_pos h]
      exact if_pos (hiff.2 h)
    · rw [if_neg h]
      exact if_neg (hiff.not.2 h)
  refine ⟨_, hrun, ?_⟩
  rw [fmod_eq_tmod_add hb0]
  by_cases h : Inexact a.toInt b.toInt
  · -- the remainder and the divisor have opposite signs
    obtain ⟨hlt, hpos, hneg⟩ := tmod_bounds (x := a.toInt) hb0
    have hs : ¬ (a.toInt < 0 ↔ b.toInt < 0) := fun hiff => h.2 (decide_eq_decide.2 hiff)
    obtain ⟨hl, hu⟩ := toInt_bounds b
    rw [if_pos h, if_pos h, BitVec.toInt_add, BitVec.toInt_srem]
    exact Int.bmod_eq_of_le (by simp; omega) (by simp; omega)
  · rw [if_neg h, if_neg h, BitVec.toInt_srem, Int.add_zero]

end Library

/-- **Floored division.**  Where the division does not raise an error, `integer.idiv` and
`integer.mod` are the floored quotient and remainder, unless the quotient lies between -1 and 0. -/
theorem idiv_floors_iff (a b : I64) (rest : List Arg) (hb : b ≠ 0)
    (hov : ¬ (a = llongMin ∧ b = -1)) :
    (∃ q r, int64_idiv (.integer a :: .integer b :: rest) = .ok (.integer q) ∧
      int64_mod (.integer a :: .integer b :: rest) = .ok (.integer r) ∧
      q.toInt = a.toInt.fdiv b.toInt ∧ r.toInt = a.toInt - b.toInt * a.toInt.fdiv b.toInt ∧
      a.toInt = b.toInt * q.toInt + r.toInt) ↔
    (a = 0 ∨ (a.toInt < 0 ↔ b.toInt < 0) ∨ b.toInt.natAbs ≤ a.toInt.natAbs) := by
  have hb0 := toInt_ne_zero hb
  obtain ⟨q, hq, hqv⟩ := int64_idiv_eq rest hb hov
  obtain ⟨r, hr, hrv⟩ := mod_floors (a := a) rest hb
  rw [Int.fmod_def] at hrv
  -- the correction of the library is the one of the floor but for small dividends
  have hfloor : q.toInt = a.toInt.fdiv b.toInt ↔
      ¬ (Inexact a.toInt b.toInt ∧ a.toInt.natAbs < b.toInt.natAbs) := by
    rw [hqv, fdiv_eq_tdiv_sub hb0]
    by_cases hi : Inexact a.toInt b.toInt <;> by_cases hlt : a.toInt.natAbs < b.toInt.natAbs <;>
      simp only [hi, hlt, true_and, false_and, not_true_eq_false, not_false_eq_true, if_true,
        if_false, iff_false] <;> omega
  have hsmall : ¬ (Inexact a.toInt b.toInt ∧ a.toInt.natAbs < b.toInt.natAbs) ↔
      (a = 0 ∨ (a.toInt < 0 ↔ b.toInt < 0) ∨ b.toInt.natAbs ≤ a.toInt.natAbs) := by
    rw [Inexact, ne_eq (decide _), decide_eq_decide]
    constructor
    · intro h
      by_contra hne
      simp only [not_or, not_le] at hne
      exact h ⟨⟨tmod_ne_zero_of_lt hne.1 hne.2.2, hne.2.1⟩, hne.2.2⟩
    · rintro (rfl | hs | hle) ⟨⟨hm, hns⟩, hlt⟩
      · exact hm (Int.zero_tmod _)
      · exact hns hs
      · omega
  rw [← hsmall, ← hfloor]
  constructor
  · rintro ⟨q', r', hq', -, hv, -⟩
    rw [hq] at hq'
    cases hq'
    exact hv
  · intro hv
    refine ⟨q, r, hq, hr, hv, hrv, ?_⟩
    rw [hrv, hv]
    ring

theorem idiv_floors_iff_seven : ∃ q r, int64_idiv [.integer (-7), .integer 2] = .ok (.integer q) ∧
    int64_mod [.integer (-7), .integer 2] = .ok (.integer r) ∧
    q.toInt = (-7 : ℤ).fdiv 2 ∧ r.toInt = -7 - 2 * (-7 : ℤ).fdiv 2 ∧
    (-7 : ℤ) = 2 * q.toInt + r.toInt :=
  (idiv_floors_iff (-7) 2 [] (by decide) (by decide)).2 (.inr (.inr (by decide)))

/-- -1 divided by 2 gives 0, and not -1. -/
theorem idiv_minus_one_not_floored : ¬ ∀ a b : I64, b ≠ 0 → ¬ (a = llongMin ∧ b = -1) →
    ∃ q, int64_idiv [.integer a, .integer b] = .ok (.integer q) ∧
      q.toInt = a.toInt.fdiv b.toInt := by
  intro h
  obtain ⟨q, hq, hv⟩ := h (-1) 2 (by decide) (by decide)
  have h0 : int64_idiv [.integer (-1), .integer 2] = .ok (.integer 0) := by decide
  rw [h0] at hq
  cases hq
  revert hv
  decide

end Integer

end Jaci
