import Jaci.Lib.Double
import Mathlib

/-!
# Arithmetic of doubles

The operations round the exact result; a result that is zero gets a sign of its own.

* `Double.ofRat` : rounding, with the sign of a zero;
* `Double.eq_of_feq` : numbers other than zeros are equal if they compare so;
* `Double.fromInt_eq` : small integers are exact.
-/

namespace Double

/-! ### Operations -/

def zero (neg : Bool) : Double := ofNat neg 0 zero_le_mantissa

def signed (neg : Bool) (q : ℚ) : ℚ := if neg then -q else q

/-- The nearest double; `neg` is the sign of a zero. -/
def ofRat (neg : Bool) (x : ℚ) : Double := if x = 0 then zero neg else round (decide (x < 0)) |x|

/-- The nearest double to an integer. -/
def fromInt (n : ℤ) : Double := ofRat false n

def add : Double → Double → Double
  | nan, _ | _, nan => nan
  | inf a, inf b => if a = b then inf a else nan
  | inf a, finite _ _ _ => inf a
  | finite _ _ _, inf b => inf b
  | finite a p _, finite b q _ => ofRat (a && b) (signed a p + signed b q)

def negate : Double → Double
  | nan => nan
  | inf a => inf !a
  | finite a p h => finite (!a) p h

def sub (x y : Double) : Double := add x (negate y)

def mul : Double → Double → Double
  | nan, _ | _, nan => nan
  | inf a, inf b => inf (a != b)
  | inf a, finite b q _ => if q = 0 then nan else inf (a != b)
  | finite a p _, inf b => if p = 0 then nan else inf (a != b)
  | finite a p _, finite b q _ => ofRat (a != b) (signed a p * signed b q)

def div : Double → Double → Double
  | nan, _ | _, nan => nan
  | inf _, inf _ => nan
  | inf a, finite b _ _ => inf (a != b)
  | finite a _ _, inf b => zero (a != b)
  | finite a p _, finite b q _ =>
    if q = 0 then (if p = 0 then nan else inf (a != b))
    else ofRat (a != b) (signed a p / signed b q)

/-- The largest integer that is not larger. -/
def floor : Double → Double
  | nan => nan
  | inf a => inf a
  | finite a p _ => ofRat a ⌊signed a p⌋

/-- `x == y`. -/
def feq : Double → Double → Bool
  | finite a p _, finite b q _ => signed a p = signed b q
  | inf a, inf b => a = b
  | _, _ => false

/-- `x < y`. -/
def flt : Double → Double → Bool
  | finite a p _, finite b q _ => signed a p < signed b q
  | finite _ _ _, inf b => !b
  | inf a, finite _ _ _ => a
  | inf a, inf b => a && !b
  | _, _ => false

/-! ### Comparisons -/

variable {x y : Double}

theorem IsMagnitude.nonneg {q : ℚ} (h : IsMagnitude q) : 0 ≤ q := by
  obtain ⟨⟨m, e, -, -, rfl⟩, -⟩ := h
  positivity

/-- Equal numbers are the same, but for the sign of a zero. -/
theorem eq_of_feq (h : feq x y) (hy : ∀ neg, y ≠ zero neg) : x = y := by
  cases x with
  | nan => cases y <;> simp [feq] at h
  | inf a =>
    cases y with
    | nan => simp [feq] at h
    | finite b q hq => simp [feq] at h
    | inf b => simpa [feq] using h
  | finite a p hp =>
    cases y with
    | nan => simp [feq] at h
    | inf b => simp [feq] at h
    | finite b q hq =>
      have hq0 : q ≠ 0 := by
        rintro rfl
        exact hy b (by simp [zero, ofNat])
      have hp' := IsMagnitude.nonneg hp
      have hq' := IsMagnitude.nonneg hq
      have hpos : 0 < q := lt_of_le_of_ne hq' (Ne.symm hq0)
      simp only [feq, decide_eq_true_eq] at h
      cases a <;> cases b <;> simp only [signed, Bool.false_eq_true, if_true, if_false] at h
      · subst h; rfl
      · linarith
      · linarith
      · obtain rfl : p = q := by linarith
        rfl

/-! ### Small integers -/

variable {a b : ℤ}

theorem fromInt_eq (h : a.natAbs ≤ 2 ^ 53) : fromInt a = ofNat (decide (a < 0)) a.natAbs h := by
  rw [fromInt, ofRat]
  by_cases ha : a = 0
  · subst ha
    rfl
  · have hq : (a : ℚ) ≠ 0 := by exact_mod_cast ha
    have habs : |(a : ℚ)| = (a.natAbs : ℚ) := by rw [Nat.cast_natAbs, Int.cast_abs]
    rw [if_neg hq, habs, round_natCast_le _ h]
    simp

/-- The sign that a zero would get does not matter to other numbers. -/
theorem fromInt_ne_nan (h : a.natAbs ≤ 2 ^ 53) : fromInt a ≠ nan := by
  rw [fromInt_eq h, ofNat]
  exact Double.noConfusion

/-! ### Quotients of small integers -/

end Double
