import Jaci.Lib.Wire
import Mathlib.Tactic.Common

/-!
# UTF-8

The UTF-8 encoding of a number, whether it is a scalar value or not.

* `encode` : the encoding;
* `encode_cases` : its bytes, by their number;
* `encode_two`, `encode_three`, `encode_four` : which bytes are an encoding.
-/

namespace Utf8

open Wire

/-- A byte that continues an encoding, with the bits of `n` from place `6 * k` on. -/
def tail (k n : ℕ) : UInt8 := UInt8.ofNat (0x80 + n / 64 ^ k % 64)

/-- The encoding of a number below `0x110000`. -/
def encode (n : ℕ) : Bytes :=
  if n < 0x80 then [UInt8.ofNat n]
  else if n < 0x800 then [UInt8.ofNat (0xC0 + n / 64), tail 0 n]
  else if n < 0x10000 then [UInt8.ofNat (0xE0 + n / 64 ^ 2), tail 1 n, tail 0 n]
  else [UInt8.ofNat (0xF0 + n / 64 ^ 3), tail 2 n, tail 1 n, tail 0 n]

theorem length_encode (n : ℕ) : 0 < (encode n).length ∧ (encode n).length ≤ 4 := by
  unfold encode
  split_ifs <;> simp

/-- A Unicode scalar value. -/
def Scalar (n : ℕ) : Prop := n < 0x110000 ∧ ¬(0xD800 ≤ n ∧ n < 0xE000)

instance (n : ℕ) : Decidable (Scalar n) := inferInstanceAs (Decidable (_ ∧ _))

/-- A byte that continues an encoding. -/
def IsTail (c : UInt8) : Prop := 0x80 ≤ c.toNat ∧ c.toNat < 0xC0

theorem toNat_tail (k n : ℕ) : (tail k n).toNat = 0x80 + n / 64 ^ k % 64 := by
  rw [tail, UInt8.toNat_ofNat']
  omega

theorem isTail_tail (k n : ℕ) : IsTail (tail k n) := by
  rw [IsTail, toNat_tail]
  omega

theorem toNat_ofNat_of_lt {n : ℕ} (h : n < 256) : (UInt8.ofNat n).toNat = n := by
  rw [UInt8.toNat_ofNat']
  exact Nat.mod_eq_of_lt h

/-- **The bytes of an encoding.** -/
theorem encode_cases {n : ℕ} (h : n < 0x110000) :
    (n < 0x80 ∧ encode n = [UInt8.ofNat n]) ∨
    (0x80 ≤ n ∧ ∃ b t, encode n = [b, t] ∧ 0xC0 ≤ b.toNat ∧ b.toNat < 0xE0 ∧ IsTail t ∧
      n = b.toNat % 32 * 64 + t.toNat % 64) ∨
    (0x800 ≤ n ∧ ∃ b t u, encode n = [b, t, u] ∧ 0xE0 ≤ b.toNat ∧ b.toNat < 0xF0 ∧ IsTail t ∧
      IsTail u ∧ n = b.toNat % 16 * 64 ^ 2 + t.toNat % 64 * 64 + u.toNat % 64) ∨
    (0x10000 ≤ n ∧ ∃ b t u v, encode n = [b, t, u, v] ∧ 0xF0 ≤ b.toNat ∧ b.toNat < 0xF8 ∧
      IsTail t ∧ IsTail u ∧ IsTail v ∧
      n = b.toNat % 8 * 64 ^ 3 + t.toNat % 64 * 64 ^ 2 + u.toNat % 64 * 64 + v.toNat % 64) := by
  rw [encode]
  split_ifs with h1 h2 h3
  · exact .inl ⟨h1, rfl⟩
  · have hb := toNat_ofNat_of_lt (n := 0xC0 + n / 64) (by omega)
    refine .inr (.inl ⟨by omega, _, _, rfl, ?_, ?_, isTail_tail 0 n, ?_⟩) <;>
      simp only [hb, toNat_tail] <;> omega
  · have hb := toNat_ofNat_of_lt (n := 0xE0 + n / 64 ^ 2) (by omega)
    refine .inr (.inr (.inl ⟨by omega, _, _, _, rfl, ?_, ?_, isTail_tail 1 n, isTail_tail 0 n, ?_⟩))
      <;> simp only [hb, toNat_tail] <;> omega
  · have hq : n / 64 ^ 3 < 5 := by omega
    have hb := toNat_ofNat_of_lt (n := 0xF0 + n / 64 ^ 3) (by omega)
    have hdigits : n = n / 64 ^ 3 * 64 ^ 3 + n / 64 ^ 2 % 64 * 64 ^ 2 + n / 64 % 64 * 64 + n % 64 := by
      omega
    refine .inr (.inr (.inr ⟨by omega, _, _, _, _, rfl, ?_, ?_, isTail_tail 2 n, isTail_tail 1 n,
      isTail_tail 0 n, ?_⟩)) <;> simp only [hb, toNat_tail]
    · omega
    · omega
    · generalize n / 64 ^ 3 = q at hq hdigits
      have htail : ∀ d, (0x80 + d % 64) % 64 = d % 64 := fun d => by omega
      rwa [show (0xF0 + q) % 8 = q by omega, htail, htail, htail, pow_one, pow_zero, Nat.div_one]

theorem tail_eq {k n : ℕ} {t : UInt8} (ht : IsTail t) (h : t.toNat % 64 = n / 64 ^ k % 64) :
    tail k n = t := by
  have hle := ht.1
  have hlt := ht.2
  refine UInt8.toNat_inj.1 ?_
  rw [toNat_tail]
  omega

theorem encode_two {n : ℕ} {b t : UInt8} (hb : 0xC0 ≤ b.toNat) (hb' : b.toNat < 0xE0)
    (ht : IsTail t) (hn : n = b.toNat % 32 * 64 + t.toNat % 64) (h : 0x80 ≤ n) :
    encode n = [b, t] := by
  have hhead : UInt8.ofNat (0xC0 + n / 64) = b :=
    UInt8.toNat_inj.1 ((toNat_ofNat_of_lt (by omega)).trans (by omega))
  rw [encode, if_neg (by omega), if_pos (by omega), hhead, tail_eq ht (by omega)]

theorem encode_three {n : ℕ} {b t u : UInt8} (hb : 0xE0 ≤ b.toNat) (hb' : b.toNat < 0xF0)
    (ht : IsTail t) (hu : IsTail u)
    (hn : n = b.toNat % 16 * 64 ^ 2 + t.toNat % 64 * 64 + u.toNat % 64) (h : 0x800 ≤ n) :
    encode n = [b, t, u] := by
  have hhead : UInt8.ofNat (0xE0 + n / 64 ^ 2) = b :=
    UInt8.toNat_inj.1 ((toNat_ofNat_of_lt (by omega)).trans (by omega))
  rw [encode, if_neg (by omega), if_neg (by omega), if_pos (by omega), hhead,
    tail_eq ht (by omega), tail_eq hu (by omega)]

theorem encode_four {n : ℕ} {b t u v : UInt8} (hb : 0xF0 ≤ b.toNat) (hb' : b.toNat < 0xF8)
    (ht : IsTail t) (hu : IsTail u) (hv : IsTail v)
    (hn : n = b.toNat % 8 * 64 ^ 3 + t.toNat % 64 * 64 ^ 2 + u.toNat % 64 * 64 + v.toNat % 64)
    (h : 0x10000 ≤ n) : encode n = [b, t, u, v] := by
  have hhead : UInt8.ofNat (0xF0 + n / 64 ^ 3) = b :=
    UInt8.toNat_inj.1 ((toNat_ofNat_of_lt (by omega)).trans (by omega))
  rw [encode, if_neg (by omega), if_neg (by omega), if_neg (by omega), hhead,
    tail_eq ht (by omega), tail_eq hu (by omega), tail_eq hv (by omega)]

end Utf8
