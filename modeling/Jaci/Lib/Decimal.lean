import Jaci.Lib.Wire
import Mathlib.Data.Nat.Digits.Lemmas

/-!
# Decimal numerals

The C library prints integers in decimal and reads them back from a run of digits.

* `decimal`, `decimalInt` : the digits of a natural number, and of an integer with its sign.
* `digitsVal` : the number a run of digits denotes, accumulated from the left.
* `digitsVal_decimal` : reading a printed number gives it back.
* `takeWhile_decimal`, `dropWhile_decimal` : a scanner that takes digits as long as it can takes
  exactly the numeral.
-/

namespace Wire

def isDigit (c : UInt8) : Bool := 0x30 ≤ c && c ≤ 0x39

/-- The decimal digits of `n`, most significant first. -/
def decimal (n : ℕ) : Bytes :=
  if n = 0 then [0x30] else (Nat.digits 10 n).reverse.map fun d => UInt8.ofNat (0x30 + d)

/-- The decimal digits of an integer, with a minus sign if it is negative. -/
def decimalInt (n : ℤ) : Bytes :=
  if n < 0 then 0x2d :: decimal n.natAbs else decimal n.natAbs

/-- The number denoted by a run of digits. -/
def digitsVal (ds : Bytes) : ℕ := ds.foldl (fun acc d => acc * 10 + (d.toNat - 0x30)) 0

theorem isDigit_ofNat {d : ℕ} (h : d < 10) : isDigit (UInt8.ofNat (0x30 + d)) = true := by
  have : ∀ d < 10, isDigit (UInt8.ofNat (0x30 + d)) = true := by decide
  exact this d h

theorem decimal_ne_nil (n : ℕ) : decimal n ≠ [] := by
  unfold decimal
  split_ifs with h
  · simp
  · simpa using Nat.digits_ne_nil_iff_ne_zero.2 h

theorem isDigit_of_mem_decimal {n : ℕ} {c : UInt8} (h : c ∈ decimal n) : isDigit c = true := by
  unfold decimal at h
  split_ifs at h
  · rw [List.mem_singleton.1 h]; rfl
  · simp only [List.mem_map, List.mem_reverse] at h
    obtain ⟨d, hd, rfl⟩ := h
    exact isDigit_ofNat (Nat.digits_lt_base (by norm_num) hd)

theorem decimal_eq_cons (n : ℕ) : ∃ c cs, decimal n = c :: cs ∧ isDigit c = true := by
  cases h : decimal n with
  | nil => exact absurd h (decimal_ne_nil n)
  | cons c cs => exact ⟨c, cs, rfl, isDigit_of_mem_decimal (h ▸ List.mem_cons_self)⟩

theorem foldl_digits (ds : List ℕ) (h : ∀ d ∈ ds, d < 10) :
    (ds.reverse.map fun d => UInt8.ofNat (0x30 + d)).foldl
      (fun acc d => acc * 10 + (d.toNat - 0x30)) 0 = Nat.ofDigits 10 ds := by
  induction ds with
  | nil => rfl
  | cons d ds ih =>
    have hd : (UInt8.ofNat (0x30 + d)).toNat - 0x30 = d := by
      have := h d List.mem_cons_self
      simp only [UInt8.toNat_ofNat']
      omega
    rw [List.reverse_cons, List.map_append, List.foldl_append,
      ih fun e he => h e (List.mem_cons_of_mem _ he)]
    simp only [List.map_cons, List.map_nil, List.foldl_cons, List.foldl_nil, hd, Nat.ofDigits_cons]
    ring

/-- Reading a printed number gives it back. -/
theorem digitsVal_decimal (n : ℕ) : digitsVal (decimal n) = n := by
  unfold digitsVal decimal
  split_ifs with h
  · rw [h]; rfl
  · rw [foldl_digits _ fun d hd => Nat.digits_lt_base (by norm_num) hd, Nat.ofDigits_digits]

/-- Only zero begins with the digit 0. -/
theorem decimal_head_ne {n : ℕ} (h : n ≠ 0) {c : UInt8} (hc : c ∈ (decimal n).head?) :
    c ≠ 0x30 := by
  have hlast := Nat.getLast_digit_ne_zero 10 h
  rw [decimal, if_neg h, List.head?_map, List.head?_reverse,
    List.getLast?_eq_getLast_of_ne_nil (Nat.digits_ne_nil_iff_ne_zero.2 h), Option.map_some,
    Option.mem_some_iff] at hc
  rw [← hc]
  have hlt := Nat.digits_lt_base (b := 10) (by norm_num)
    (List.getLast_mem (Nat.digits_ne_nil_iff_ne_zero.2 h))
  have hdigits : ∀ d < 10, d ≠ 0 → UInt8.ofNat (0x30 + d) ≠ 0x30 := by decide
  exact hdigits _ hlt hlast

theorem length_decimal_le {n k : ℕ} (hk : 0 < k) (h : n < 10 ^ k) : (decimal n).length ≤ k := by
  rw [decimal]
  split_ifs with h0
  · exact hk
  · rw [List.length_map, List.length_reverse]
    exact (Nat.digits_length_le_iff (by norm_num) n).2 h

/-- What follows a numeral does not continue it. -/
def NoDigit (rest : Bytes) : Prop := ∀ c ∈ rest.head?, isDigit c = false

theorem takeWhile_decimal {n : ℕ} {rest : Bytes} (h : NoDigit rest) :
    (decimal n ++ rest).takeWhile isDigit = decimal n := by
  rw [List.takeWhile_append_of_pos fun c hc => isDigit_of_mem_decimal hc]
  cases rest with
  | nil => simp
  | cons c rest => simp [h c (by simp)]

theorem dropWhile_decimal {n : ℕ} {rest : Bytes} (h : NoDigit rest) :
    (decimal n ++ rest).dropWhile isDigit = rest := by
  rw [List.dropWhile_append_of_pos fun c hc => isDigit_of_mem_decimal hc]
  cases rest with
  | nil => rfl
  | cons c rest => simp [h c (by simp)]

end Wire
