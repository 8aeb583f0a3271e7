import Mathlib.Data.List.Basic
import Mathlib.Tactic.Positivity
import Mathlib.Tactic.Ring

/-!
# Byte strings and fixed-width integers

Wire formats store integers as `k` bytes, most significant byte first (`beBytes`, `beNat`) or
least significant byte first (`leBytes`, `leNat`).  The encoders take an arbitrary integer and
keep its low `8 * k` bits, as shifting and masking do; the decoders accumulate a natural number.

* `beNat_beBytes`, `leNat_leBytes` : reading back gives the integer modulo `256 ^ k`.
* `bmod_beNat_beBytes` : reading back through a signed cast gives a signed integer in range.
* `takeN` : the bounds-checked read of a block, and `takeN_append`.
-/

namespace Wire

abbrev Bytes := List UInt8

instance instLawfulBEqBytes : LawfulBEq Bytes := inferInstance

/-- The low `8 * k` bits of `n`, most significant byte first. -/
def beBytes : ℕ → ℤ → Bytes
  | 0, _ => []
  | k + 1, n => UInt8.ofInt (n >>> (8 * k)) :: beBytes k n

/-- The number whose bytes are `bs`, most significant byte first. -/
def beNat (bs : Bytes) : ℕ := bs.foldl (fun acc b => acc <<< 8 ||| b.toNat) 0

/-- The low `8 * k` bits of `n`, least significant byte first. -/
def leBytes : ℕ → ℤ → Bytes
  | 0, _ => []
  | k + 1, n => UInt8.ofInt n :: leBytes k (n >>> (8 : ℕ))

/-- The number whose bytes are `bs`, least significant byte first. -/
def leNat : Bytes → ℕ
  | [] => 0
  | b :: bs => b.toNat ||| leNat bs <<< 8

/-- Read a block of `k` bytes, if that many are left. -/
def takeN (k : ℕ) (bs : Bytes) : Option (Bytes × Bytes) :=
  if k ≤ bs.length then some (bs.take k, bs.drop k) else none

/-! ### Lengths -/

@[simp] theorem length_beBytes (k : ℕ) (n : ℤ) : (beBytes k n).length = k := by
  induction k with
  | zero => rfl
  | succ k ih => simp [beBytes, ih]

@[simp] theorem length_leBytes (k : ℕ) (n : ℤ) : (leBytes k n).length = k := by
  induction k generalizing n with
  | zero => rfl
  | succ k ih => simp [leBytes, ih]

@[simp] theorem takeN_append (xs rest : Bytes) :
    takeN xs.length (xs ++ rest) = some (xs, rest) := by
  simp [takeN]

theorem takeN_append_of_length {k : ℕ} {xs : Bytes} (h : xs.length = k) (rest : Bytes) :
    takeN k (xs ++ rest) = some (xs, rest) := by
  rw [← h]; exact takeN_append xs rest

theorem takeN_eq_some {k : ℕ} {bs xs rest : Bytes} (h : takeN k bs = some (xs, rest)) :
    bs = xs ++ rest ∧ xs.length = k := by
  simp only [takeN] at h
  split_ifs at h with hk
  simp only [Option.some.injEq, Prod.mk.injEq] at h
  obtain ⟨rfl, rfl⟩ := h
  exact ⟨(List.take_append_drop k bs).symm, by simpa using hk⟩

/-! ### Values -/

theorem shiftLeft_or_byte (a : ℕ) (b : UInt8) : a <<< 8 ||| b.toNat = a * 256 + b.toNat := by
  rw [← Nat.shiftLeft_add_eq_or_of_lt (by simpa using b.toNat_lt), Nat.shiftLeft_eq]

theorem toNat_ofInt (n : ℤ) : ((UInt8.ofInt n).toNat : ℤ) = n % 256 := by
  simp only [UInt8.ofInt, UInt8.toNat_ofNat']
  omega

theorem shiftRight_eq_ediv (n : ℤ) (k : ℕ) : n >>> k = n / (2 ^ k : ℤ) := by
  rw [Int.shiftRight_eq_div_pow]; norm_num

theorem foldl_beNat (bs : Bytes) (a : ℕ) :
    bs.foldl (fun acc b => acc <<< 8 ||| b.toNat) a = a * 256 ^ bs.length + beNat bs := by
  induction bs generalizing a with
  | nil => simp [beNat]
  | cons b bs ih =>
    simp only [beNat, List.foldl_cons, List.length_cons]
    rw [ih, ih (0 <<< 8 ||| b.toNat), shiftLeft_or_byte, shiftLeft_or_byte]
    ring

theorem beNat_cons (b : UInt8) (bs : Bytes) :
    beNat (b :: bs) = b.toNat * 256 ^ bs.length + beNat bs := by
  rw [beNat, List.foldl_cons, foldl_beNat, shiftLeft_or_byte]
  simp

theorem emod_mul_eq (n a b : ℤ) (ha : 0 ≤ a) : n % (a * b) = n % a + a * (n / a % b) := by
  have h : n / (a * b) = n / a / b := (Int.ediv_ediv_of_nonneg ha).symm
  rw [Int.emod_def, Int.emod_def n a, Int.emod_def (n / a) b, ← h]
  ring

/-- Reading back the big-endian bytes of `n` gives `n` modulo `256 ^ k`. -/
theorem beNat_beBytes (k : ℕ) (n : ℤ) : (beNat (beBytes k n) : ℤ) = n % 256 ^ k := by
  induction k with
  | zero => simp only [beBytes, beNat, List.foldl_nil, pow_zero, Int.emod_one, Nat.cast_zero]
  | succ k ih =>
    rw [beBytes, beNat_cons, length_beBytes]
    push_cast
    have h8 : (2 : ℤ) ^ (8 * k) = 256 ^ k := by rw [pow_mul]; norm_num
    rw [ih, toNat_ofInt, shiftRight_eq_ediv, h8, pow_succ (256 : ℤ) k,
      emod_mul_eq _ _ _ (by positivity)]
    ring

/-- Reading back the little-endian bytes of `n` gives `n` modulo `256 ^ k`. -/
theorem leNat_leBytes (k : ℕ) (n : ℤ) : (leNat (leBytes k n) : ℤ) = n % 256 ^ k := by
  induction k generalizing n with
  | zero => simp only [leBytes, leNat, pow_zero, Int.emod_one, Nat.cast_zero]
  | succ k ih =>
    rw [leBytes, leNat, Nat.or_comm, shiftLeft_or_byte]
    push_cast
    have h8 : (2 : ℤ) ^ 8 = 256 := by norm_num
    rw [ih, toNat_ofInt, shiftRight_eq_ediv, h8, pow_succ' (256 : ℤ) k,
      emod_mul_eq _ _ _ (by norm_num)]
    ring

/-- Bytes are determined by how many there are and the number they denote. -/
theorem leNat_inj {xs ys : Bytes} (hlength : xs.length = ys.length) (h : leNat xs = leNat ys) :
    xs = ys := by
  induction xs generalizing ys with
  | nil => exact (List.length_eq_zero_iff.mp hlength.symm).symm
  | cons x xs ih =>
    obtain ⟨y, ys, rfl⟩ := List.exists_cons_of_length_eq_add_one hlength.symm
    rw [leNat, leNat, Nat.or_comm, shiftLeft_or_byte, Nat.or_comm, shiftLeft_or_byte] at h
    have hx := x.toNat_lt
    have hy := y.toNat_lt
    obtain rfl : x = y := UInt8.toNat_inj.mp (by omega)
    rw [ih (Nat.succ.inj hlength) (by omega)]

theorem beNat_beBytes_nat {k n : ℕ} (h : n < 256 ^ k) : beNat (beBytes k n) = n := by
  have := beNat_beBytes k n
  rw [Int.emod_eq_of_lt (by positivity) (by exact_mod_cast h)] at this
  exact_mod_cast this

theorem leNat_leBytes_nat {k n : ℕ} (h : n < 256 ^ k) : leNat (leBytes k n) = n := by
  have := leNat_leBytes k n
  rw [Int.emod_eq_of_lt (by positivity) (by exact_mod_cast h)] at this
  exact_mod_cast this

/-- A signed integer in the range of `8 * k` bits survives the bytes and the signed cast. -/
theorem bmod_beNat_beBytes {k : ℕ} {n : ℤ} (hlo : -(256 ^ k : ℤ) ≤ n * 2)
    (hhi : n * 2 < 256 ^ k) : (beNat (beBytes k n) : ℤ).bmod (256 ^ k) = n := by
  rw [beNat_beBytes]
  have h := Int.emod_bmod n (256 ^ k)
  push_cast at h
  rw [h]
  exact Int.bmod_eq_of_le_mul_two (by exact_mod_cast hlo) (by exact_mod_cast hhi)

end Wire
