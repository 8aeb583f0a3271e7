import Jaci.Builtins.Pack
import Mathlib.Tactic.FinCases
import Mathlib.Tactic.IntervalCases

/-!
# Unpacking what was packed

The loops of `str_pack`, `str_packsize` and `str_unpack` read the same options as long as they are
at the same position, and they are: an option writes as many bytes as it adds to the position.

* `packint_eq`, `unpackint_signed`, `unpackint_unsigned` : integers of 1 to 16 bytes;
* `unpackOption_of_packOption` : one option;
* `unpack_pack` : a format.
-/

namespace Double

theorem ofInt_eq {n : ℤ} (h : n.natAbs ≤ 2 ^ 53) : ofInt n = ofNat (n < 0) n.natAbs h := by
  rw [ofInt, round_natCast_le _ h]

theorem toInt?_eq_some {d : Double} {n : ℤ} (h : d.toInt? = some n) :
    ∃ (neg : Bool) (k : ℕ) (hk : IsMagnitude k), d = .finite neg k hk ∧
      n = if neg then -(k : ℤ) else k := by
  cases d with
  | finite neg mag hm =>
    simp only [toInt?, Option.ite_none_right_eq_some, Option.some.injEq] at h
    obtain ⟨hden, rfl⟩ := h
    obtain ⟨m, e, -, -, hmag⟩ := hm.1
    have hnum : 0 ≤ mag.num := Rat.num_nonneg.mpr (by rw [hmag]; positivity)
    obtain ⟨k, hk⟩ := Int.eq_ofNat_of_zero_le hnum
    obtain rfl : mag = (k : ℚ) := by
      rw [← Rat.coe_int_num_of_den_eq_one hden, hk]
      rfl
    exact ⟨neg, k, hm, rfl, by simp⟩
  | inf neg => simp [toInt?] at h
  | nan => simp [toInt?] at h

/-- Converting an integer back and forth only drops the sign of a zero. -/
theorem ofInt_of_toInt? {d : Double} {n : ℤ} (h : d.toInt? = some n) (hn : |n| ≤ 2 ^ 53) :
    ofInt n = d.dropSign := by
  obtain ⟨neg, k, hk, rfl, rfl⟩ := toInt?_eq_some h
  have hrange := abs_le.mp hn
  rw [ofInt_eq (by split_ifs at hrange ⊢ <;> omega)]
  simp only [dropSign, ofNat, Nat.cast_eq_zero]
  rcases Nat.eq_zero_or_pos k with rfl | hpos
  · simp
  · cases neg <;> simp [hpos.ne', hpos]

end Double

namespace Jaci

namespace Pack

open Wire

variable {N : Numbers}

theorem toLongLong_of_toInt? {d : Double} {n : ℤ} (h : d.toInt? = some n) (hn : |n| ≤ 2 ^ 53) :
    (toLongLong d).toInt = n := by
  obtain ⟨neg, k, hk, rfl, rfl⟩ := Double.toInt?_eq_some h
  have hfloor : ⌊(k : ℚ)⌋ = k := Int.floor_natCast k
  simp only [toLongLong, hfloor]
  have hrange := abs_le.mp hn
  rw [if_pos (by constructor <;> split_ifs at hrange ⊢ <;> omega), BitVec.toInt_ofInt]
  split_ifs at hrange ⊢
  · exact Int.bmod_eq_of_le (by omega) (by omega)
  · exact Int.bmod_eq_of_le (by omega) (by omega)

/-! ### Integers -/

/-- Bytes in the order of a header, from the least significant one first. -/
def order (islittle : Bool) (bs : Bytes) : Bytes := if islittle then bs else bs.reverse

@[simp] theorem length_order (islittle : Bool) (bs : Bytes) :
    (order islittle bs).length = bs.length := by
  cases islittle <;> simp [order]

theorem order_order (islittle : Bool) (bs : Bytes) :
    order islittle (order islittle bs) = bs := by
  cases islittle <;> simp [order]

theorem copywithendian_eq (src : Bytes) (islittle : Bool) :
    copywithendian src islittle = order islittle src := by
  cases islittle <;> simp [copywithendian, order, nativelittle]

theorem getElem?_leBytes (k : ℕ) (n : ℤ) {i : ℕ} (hi : i < k) :
    (leBytes k n)[i]? = some (UInt8.ofInt (n >>> (8 * i))) := by
  induction k generalizing n i with
  | zero => omega
  | succ k ih =>
    cases i with
    | zero => simp [leBytes]
    | succ i =>
      rw [leBytes, List.getElem?_cons_succ, ih _ (by omega), ← Int.shiftRight_add]
      congr 3
      omega

theorem ofInt_shiftRight_natCast (n k : ℕ) :
    UInt8.ofInt ((n : ℤ) >>> k) = UInt8.ofNat (n >>> k) := by
  apply UInt8.toNat_inj.mp
  have h := toNat_ofInt ((n : ℤ) >>> k)
  rw [shiftRight_eq_ediv] at h ⊢
  rw [UInt8.toNat_ofNat', Nat.shiftRight_eq_div_pow]
  zify
  rw [h]
  norm_num

theorem toInt_eq_sub {n : BitVec 64} (hn : n.toInt < 0) : n.toInt = n.toNat - 2 ^ 64 := by
  rw [BitVec.toInt_eq_toNat_cond] at hn ⊢
  split_ifs at hn ⊢
  · omega
  · rfl

theorem ofInt_shiftRight_toInt {n : BitVec 64} (hn : n.toInt < 0) {i : ℕ} (hi : i < 8) :
    UInt8.ofInt (n.toInt >>> (8 * i)) = UInt8.ofNat (n.toNat >>> (8 * i)) := by
  rw [← ofInt_shiftRight_natCast]
  apply UInt8.toNat_inj.mp
  have hint := toNat_ofInt (n.toInt >>> (8 * i))
  have hnat := toNat_ofInt ((n.toNat : ℤ) >>> (8 * i))
  rw [shiftRight_eq_ediv] at hint hnat
  rw [shiftRight_eq_ediv, shiftRight_eq_ediv]
  rw [toInt_eq_sub hn] at hint ⊢
  interval_cases i <;> norm_num at hint hnat ⊢ <;> omega

theorem ofInt_shiftRight_neg {z : ℤ} (hz : z < 0) (hlo : -2 ^ 64 ≤ z) {i : ℕ} (hi : 8 ≤ i) :
    UInt8.ofInt (z >>> (8 * i)) = 255 := by
  have hpow : (2 : ℤ) ^ 64 ≤ 2 ^ (8 * i) := pow_le_pow_right₀ (by norm_num) (by omega)
  have hdiv : z / 2 ^ (8 * i) = -1 := by
    rw [Int.ediv_eq_iff_of_pos (by positivity)]
    omega
  rw [shiftRight_eq_ediv, hdiv]
  rfl

theorem packint_byte {n : BitVec 64} {size : ℕ} {neg : Bool} (hneg : neg → n.toInt < 0) {i : ℕ}
    (hi : i < size) :
    (if neg ∧ SZINT < size ∧ SZINT ≤ i then 255 else UInt8.ofNat (n.toNat >>> (8 * i))) =
      UInt8.ofInt ((if neg then n.toInt else n.toNat : ℤ) >>> (8 * i)) := by
  cases neg with
  | false =>
    simp only [Bool.false_eq_true, false_and, if_false]
    exact (ofInt_shiftRight_natCast _ _).symm
  | true =>
    have hlt := hneg rfl
    have hlo : -2 ^ 64 ≤ n.toInt := by
      have := toInt_eq_sub hlt
      omega
    simp only [true_and, if_true, SZINT]
    split_ifs with h
    · exact (ofInt_shiftRight_neg hlt hlo h.2).symm
    · exact (ofInt_shiftRight_toInt hlt (by omega)).symm

/-- `packint` writes the bytes of an integer, with those of its sign. -/
theorem packint_eq {n : BitVec 64} {neg : Bool} (hneg : neg → n.toInt < 0) (islittle : Bool)
    (size : ℕ) : packint n islittle size neg =
      order islittle (leBytes size (if neg then n.toInt else n.toNat)) := by
  apply List.ext_getElem?
  intro k
  by_cases hk : k < size
  · rw [packint, List.getElem?_map, List.getElem?_range hk, Option.map_some,
      packint_byte hneg (by split_ifs <;> omega)]
    cases islittle with
    | false =>
      simp only [order, Bool.false_eq_true, if_false]
      rw [List.getElem?_reverse (by simpa using hk), length_leBytes,
        getElem?_leBytes _ _ (by omega)]
    | true =>
      simp only [order, if_true]
      rw [getElem?_leBytes _ _ hk]
  · rw [List.getElem?_eq_none (by simpa [packint] using hk),
      List.getElem?_eq_none (by simpa using hk)]

theorem xor_two_pow_of_lt {r k : ℕ} (h : r < 2 ^ k) : r ^^^ 2 ^ k = 2 ^ k + r := by
  apply Nat.eq_of_testBit_eq
  intro j
  have hor := Nat.two_pow_add_eq_or_of_lt h 1
  rw [mul_one] at hor
  rw [hor, Nat.testBit_xor, Nat.testBit_or, Nat.testBit_two_pow]
  by_cases hj : k = j
  · subst hj
    simp [Nat.testBit_lt_two_pow h]
  · simp [hj]

/-- The exclusive or with the sign bit adds it or takes it away. -/
theorem xor_two_pow {r k : ℕ} (h : r < 2 ^ (k + 1)) :
    r ^^^ 2 ^ k = if r < 2 ^ k then 2 ^ k + r else r - 2 ^ k := by
  split_ifs with hlt
  · exact xor_two_pow_of_lt hlt
  · obtain ⟨s, rfl⟩ := Nat.exists_eq_add_of_le (Nat.le_of_not_lt hlt)
    rw [← xor_two_pow_of_lt (by rw [pow_succ] at h; omega), Nat.xor_assoc, Nat.xor_self,
      Nat.xor_zero, xor_two_pow_of_lt (by rw [pow_succ] at h; omega), Nat.add_sub_cancel_left]

/-- The extension of the sign of an integer of `k + 1` bits. -/
theorem sign_extend {z : ℤ} {k : ℕ} (hk : k < 63) (hlo : -2 ^ k ≤ z) (hhi : z < 2 ^ k) {r : ℕ}
    (hr : (r : ℤ) = z % 2 ^ (k + 1)) :
    (BitVec.ofNat 64 r ^^^ 1#64 <<< k) - 1#64 <<< k = BitVec.ofInt 64 z := by
  have hpow : (2 : ℤ) ^ (k + 1) = 2 * 2 ^ k := by ring
  have hpos : (0 : ℤ) < 2 ^ k := by positivity
  have hbig : 2 ^ (k + 1) ≤ 2 ^ 63 := Nat.pow_le_pow_right (by norm_num) (by omega)
  have hlt : r < 2 ^ (k + 1) := by
    zify
    rw [hr]
    exact Int.emod_lt_of_pos _ (by positivity)
  have hmask : 1#64 <<< k = BitVec.ofNat 64 (2 ^ k) := by
    apply BitVec.eq_of_toNat_eq
    simp [Nat.shiftLeft_eq]
  rw [hmask, ← BitVec.ofNat_xor, xor_two_pow hlt]
  rw [hpow] at hr
  have hsum : ((if r < 2 ^ k then 2 ^ k + r else r - 2 ^ k : ℕ) : ℤ) = z + (2 ^ k : ℕ) := by
    rcases le_or_gt 0 z with h | h
    · rw [Int.emod_eq_of_lt h (by omega)] at hr
      rw [if_pos (by zify; omega)]
      push_cast
      omega
    · rw [← Int.add_emod_right, Int.emod_eq_of_lt (by omega) (by omega)] at hr
      rw [if_neg (by zify; omega), Nat.cast_sub (by zify; omega)]
      push_cast
      omega
  rw [BitVec.sub_eq_iff_eq_add, ← BitVec.ofInt_natCast, ← BitVec.ofInt_natCast, ← BitVec.ofInt_add,
    hsum]

theorem foldr_bytes (bs : Bytes) {k : ℕ} (hk : k ≤ bs.length) :
    (List.range k).foldr
      (fun i (res : BitVec 64) => res <<< 8 ||| BitVec.ofNat 64 (bs.getD i 0).toNat) 0 =
      BitVec.ofNat 64 (leNat (bs.take k)) := by
  induction k generalizing bs with
  | zero => rfl
  | succ k ih =>
    cases bs with
    | nil => simp at hk
    | cons b bs =>
      rw [List.range_succ_eq_map, List.foldr_cons, List.foldr_map]
      simp only [List.getD_cons_succ, List.getD_cons_zero, List.take_succ_cons, leNat]
      rw [ih bs (by simpa using hk)]
      apply BitVec.eq_of_toNat_eq
      simp only [BitVec.toNat_or, BitVec.toNat_shiftLeft, BitVec.toNat_ofNat]
      rw [Nat.or_mod_two_pow, Nat.or_comm]
      simp [Nat.shiftLeft_eq]

theorem take_leBytes {k size : ℕ} (h : k ≤ size) (z : ℤ) :
    (leBytes size z).take k = leBytes k z := by
  induction k generalizing size z with
  | zero => rfl
  | succ k ih =>
    cases size with
    | zero => omega
    | succ size => rw [leBytes, leBytes, List.take_succ_cons, ih (by omega)]

theorem intByte_order {bs : Bytes} {size : ℕ} (hbs : bs.length = size) (islittle : Bool)
    (rest : Bytes) {i : ℕ} (hi : i < size) :
    intByte (order islittle bs ++ rest) islittle size i = bs.getD i 0 := by
  cases islittle with
  | false =>
    simp only [intByte, order, Bool.false_eq_true, if_false]
    rw [List.getD_eq_getElem?_getD, List.getElem?_append_left (by rw [List.length_reverse]; omega),
      List.getElem?_reverse (by omega), List.getD_eq_getElem?_getD]
    congr 2
    omega
  | true =>
    simp only [intByte, order, if_true]
    rw [List.getD_eq_getElem?_getD, List.getElem?_append_left (by omega),
      List.getD_eq_getElem?_getD]

/-- The bytes `unpackint` reads. -/
theorem unpackint_foldr (islittle : Bool) {size limit : ℕ} (hlimit : limit ≤ size) (z : ℤ)
    (rest : Bytes) :
    (List.range limit).foldr (fun i (res : BitVec 64) => res <<< 8 ||| BitVec.ofNat 64
      (intByte (order islittle (leBytes size z) ++ rest) islittle size i).toNat) 0 =
      BitVec.ofNat 64 (leNat (leBytes limit z)) := by
  rw [← take_leBytes hlimit, ← foldr_bytes _ (by simpa using hlimit)]
  apply List.foldr_ext
  intro i hi res
  rw [intByte_order (length_leBytes _ _) _ _ ((List.mem_range.mp hi).trans_le hlimit)]

theorem ofNat_leNat_leBytes (z : ℤ) :
    BitVec.ofNat 64 (leNat (leBytes 8 z)) = BitVec.ofInt 64 z := by
  apply BitVec.eq_of_toInt_eq
  rw [← BitVec.ofInt_natCast, leNat_leBytes, BitVec.toInt_ofInt, BitVec.toInt_ofInt]
  exact Int.emod_bmod z (2 ^ 64)

theorem getD_leBytes {size i : ℕ} (h : i < size) (z : ℤ) :
    (leBytes size z).getD i 0 = UInt8.ofInt (z >>> (8 * i)) := by
  rw [List.getD_eq_getElem?_getD, getElem?_leBytes _ _ h, Option.getD_some]

theorem toInt_ofInt_of_range {z : ℤ} (hlo : -2 ^ 63 ≤ z) (hhi : z < 2 ^ 63) :
    (BitVec.ofInt 64 z).toInt = z := by
  rw [BitVec.toInt_ofInt]
  exact Int.bmod_eq_of_le (by norm_num; omega) (by norm_num; omega)

/-- The bytes after the eighth are those of the sign. -/
theorem intByte_sign {islittle : Bool} {size : ℕ} {z : ℤ} (hlo : -2 ^ 63 ≤ z) (hhi : z < 2 ^ 63)
    (rest : Bytes) {i : ℕ} (hi : i < size) (h8 : 8 ≤ i) :
    intByte (order islittle (leBytes size z) ++ rest) islittle size i =
      if 0 ≤ z then 0 else 255 := by
  rw [intByte_order (length_leBytes _ _) _ _ hi, getD_leBytes hi]
  split_ifs with hz
  · have hpow : (2 : ℤ) ^ 64 ≤ 2 ^ (8 * i) := pow_le_pow_right₀ (by norm_num) (by omega)
    rw [shiftRight_eq_ediv, Int.ediv_eq_zero_of_lt hz (by omega)]
    rfl
  · exact ofInt_shiftRight_neg (by omega) (by omega) h8

/-- `unpackint` gives back a signed integer in the range of its size. -/
theorem unpackint_signed {size : ℕ} (hsize : 0 < size) {z : ℤ} (hlo : -2 ^ 63 ≤ z)
    (hhi : z < 2 ^ 63) (hsmall : size < 8 → -2 ^ (size * 8 - 1) ≤ z ∧ z < 2 ^ (size * 8 - 1))
    (islittle : Bool) (rest : Bytes) :
    unpackint (order islittle (leBytes size z) ++ rest) islittle size true =
      .ok (BitVec.ofInt 64 z) := by
  simp only [unpackint, SZINT]
  rcases lt_trichotomy size 8 with h | rfl | h
  · simp only [h, h.le, if_true, unpackint_foldr _ le_rfl]
    congr 1
    apply sign_extend (by omega) (hsmall h).1 (hsmall h).2
    rw [leNat_leBytes]
    congr 1
    rw [show (256 : ℤ) = 2 ^ 8 by norm_num, ← pow_mul]
    congr 1
    omega
  · simp only [le_refl, lt_irrefl, if_true, if_false, unpackint_foldr _ le_rfl,
      ofNat_leNat_leBytes]
  · simp only [h.not_ge, h.not_gt, h, if_false, if_true, unpackint_foldr _ h.le,
      ofNat_leNat_leBytes, toInt_ofInt_of_range hlo hhi]
    rw [if_pos]
    intro i hi h8
    rw [intByte_sign hlo hhi rest hi h8]
    simp

/-- `unpackint` gives back an unsigned integer in the range of its size. -/
theorem unpackint_unsigned {size : ℕ} {z : ℕ} (hhi : z < 2 ^ 63)
    (hsmall : size < 8 → z < 2 ^ (size * 8)) (islittle : Bool) (rest : Bytes) :
    unpackint (order islittle (leBytes size z) ++ rest) islittle size false =
      .ok (BitVec.ofNat 64 z) := by
  simp only [unpackint, SZINT]
  rcases lt_trichotomy size 8 with h | rfl | h
  · simp only [h, h.le, if_true, Bool.false_eq_true, if_false, unpackint_foldr _ le_rfl]
    rw [leNat_leBytes_nat]
    rw [show 256 = 2 ^ 8 by norm_num, ← pow_mul, mul_comm]
    exact hsmall h
  · simp only [le_refl, lt_irrefl, if_true, if_false, unpackint_foldr _ le_rfl,
      ofNat_leNat_leBytes, BitVec.ofInt_natCast]
  · simp only [h.not_ge, h.not_gt, h, if_false, if_true, unpackint_foldr _ h.le,
      ofNat_leNat_leBytes]
    rw [if_pos]
    · simp
    · intro i hi h8
      rw [intByte_sign (by omega) (by exact_mod_cast hhi) rest hi h8]
      simp

/-! ### Sizes -/

/-- The sizes that an option can have. -/
def SizeOk (opt : KOption) (size : ℕ) : Prop :=
  match opt with
  | .Kint | .Kuint | .Kstring => 0 < size
  | .Kfloat => size = 4 ∨ size = 8
  | .Kchar => True
  | .Kpadding => size = 1
  | .Kzstr | .Kpaddalign | .Knop => size = 0

theorem sized_ok {h : Header} {opt : KOption} {fmt : Bytes} {r : Read}
    (hr : sized h opt fmt = .ok r) : r.opt = opt ∧ 0 < r.size := by
  rw [sized, getnumlimit] at hr
  cases hn : getnum fmt with
  | error e => simp [hn, bind, Except.bind] at hr
  | ok q =>
    simp only [hn, bind, Except.bind] at hr
    split_ifs at hr with hlimit
    cases hr
    exact ⟨rfl, Nat.pos_of_ne_zero fun h => hlimit (.inr h)⟩

theorem sizeOk_getoption {h : Header} {c : UInt8} {fmt : Bytes} {r : Read}
    (hr : getoption h c fmt = .ok r) : SizeOk r.opt r.size := by
  unfold getoption at hr
  split at hr
  case h_13 | h_14 | h_15 =>
    obtain ⟨hopt, hsize⟩ := sized_ok hr
    rw [hopt]
    exact hsize
  case h_16 =>
    split at hr <;> cases hr
    trivial
  case h_24 =>
    split at hr <;> cases hr
    rfl
  all_goals
    cases hr
  all_goals simp [SizeOk]

theorem getalign_ok {r r' : Read} {align : ℕ} (h : getalign r = .ok (align, r')) :
    r'.opt = r.opt ∧ r'.size = r.size := by
  rw [getalign] at h
  split_ifs at h
  · split at h
    · cases h
    · split at h
      · split_ifs at h
        cases h
        exact ⟨rfl, rfl⟩
      · cases h
  · cases h
    exact ⟨rfl, rfl⟩

theorem sizeOk_getdetails {h : Header} {totalsize : ℕ} {c : UInt8} {fmt : Bytes} {d : ℕ × Read}
    (hd : getdetails h totalsize c fmt = .ok d) : SizeOk d.2.opt d.2.size := by
  obtain ⟨r, hr, align, ha⟩ := getdetails_eq_ok hd
  obtain ⟨hopt, hsize⟩ := getalign_ok ha
  rw [hopt, hsize]
  exact sizeOk_getoption hr

/-- Only the number of bytes to align depends on the position. -/
theorem getdetails_zero {h : Header} {totalsize : ℕ} {c : UInt8} {fmt : Bytes} {d : ℕ × Read}
    (hd : getdetails h totalsize c fmt = .ok d) :
    ∃ k, getdetails h 0 c fmt = .ok (k, d.2) := by
  obtain ⟨r, hr, align, ha⟩ := getdetails_eq_ok hd
  simp only [getdetails, hr, ha, bind, Except.bind, pure, Except.pure] at hd ⊢
  split_ifs at hd ⊢
  · exact ⟨_, rfl⟩
  · exact ⟨_, rfl⟩

/-! ### One option -/

theorem checknumber_eq_ok {arg : ℕ} {v : Value} {d : Double} (h : checknumber N arg v = .ok d) :
    tonumber N v = some d := by
  rw [checknumber] at h
  split at h <;> cases h
  assumption

theorem checklstring_eq_ok {arg : ℕ} {v : Value} {s : Bytes} (h : checklstring N arg v = .ok s) :
    tolstring N v = some s := by
  rw [checklstring] at h
  split at h <;> cases h
  assumption

theorem bind_eq_ok {α β : Type} {x : Except Failure α} {f : α → Except Failure β} {b : β}
    (h : (x >>= f) = .ok b) : ∃ a, x = .ok a ∧ f a = .ok b := by
  cases x with
  | error e => cases h
  | ok a => exact ⟨a, rfl, h⟩

variable {h : Header} {size arg : ℕ} {v : Value} {bytes : Bytes} {extra : ℕ}

@[simp] theorem length_packint (n : BitVec 64) (islittle : Bool) (size : ℕ) (neg : Bool) :
    (packint n islittle size neg).length = size := by
  simp [packint]

/-- An option writes as many bytes as it adds to `totalsize`. -/
theorem length_packOption {opt : KOption}
    (hp : packOption N h opt size arg v = .ok (bytes, extra)) (hsize : SizeOk opt size) :
    bytes.length = size + extra ∧ (opt ≠ .Kstring → opt ≠ .Kzstr → extra = 0) := by
  cases opt with
  | Kint | Kuint =>
    obtain ⟨d, hd, hf⟩ := bind_eq_ok hp
    simp only [pure, Except.pure] at hf
    split_ifs at hf
    cases hf
    simp
  | Kfloat =>
    obtain ⟨d, hd, hf⟩ := bind_eq_ok hp
    simp only [pure, Except.pure, copywithendian_eq] at hf
    rcases hsize with rfl | rfl <;> cases hf <;> simp
  | Kchar =>
    obtain ⟨s, hd, hf⟩ := bind_eq_ok hp
    simp only [pure, Except.pure] at hf
    split_ifs at hf
    cases hf
    simp
    omega
  | Kstring =>
    obtain ⟨s, hd, hf⟩ := bind_eq_ok hp
    simp only [pure, Except.pure] at hf
    split_ifs at hf
    cases hf
    simp
  | Kzstr =>
    obtain ⟨s, hd, hf⟩ := bind_eq_ok hp
    simp only [pure, Except.pure] at hf
    split_ifs at hf
    cases hf
    simp [show size = 0 from hsize]
  | Kpadding | Kpaddalign | Knop =>
    cases hp
    simp_all [SizeOk]

theorem packOption_int (hp : packOption N h .Kint size arg v = .ok (bytes, extra))
    (hs : Suits N .Kint size v) :
    ∃ d n, tonumber N v = some d ∧ d.toInt? = some n ∧ |n| ≤ 2 ^ 53 ∧
      (size < 8 → -2 ^ (size * 8 - 1) ≤ n ∧ n < 2 ^ (size * 8 - 1)) ∧
      bytes = order h.islittle (leBytes size n) ∧ extra = 0 := by
  obtain ⟨d, hd, hf⟩ := bind_eq_ok hp
  have hv := checknumber_eq_ok hd
  obtain ⟨n, hn, habs⟩ := hs d hv
  have hll := toLongLong_of_toInt? hn habs
  simp only [pure, Except.pure] at hf
  split_ifs at hf with hover
  simp only [Except.ok.injEq, Prod.mk.injEq] at hf
  obtain ⟨rfl, rfl⟩ := hf
  refine ⟨d, n, hv, hn, habs, ?_, ?_, rfl⟩
  · intro hsize
    rw [← hll]
    by_contra hno
    exact hover ⟨hsize, hno⟩
  · rw [packint_eq (by simp), hll]
    congr 2
    split_ifs with hneg
    · rfl
    · simp only [decide_eq_true_eq] at hneg
      rw [← hll, BitVec.toInt_eq_toNat_cond] at hneg ⊢
      split_ifs at hneg ⊢ <;> omega

theorem packOption_uint (hp : packOption N h .Kuint size arg v = .ok (bytes, extra))
    (hs : Suits N .Kuint size v) :
    ∃ d, ∃ n : ℕ, tonumber N v = some d ∧ d.toInt? = some (n : ℤ) ∧ n ≤ 2 ^ 53 ∧
      (size < 8 → n < 2 ^ (size * 8)) ∧
      bytes = order h.islittle (leBytes size n) ∧ extra = 0 := by
  obtain ⟨d, hd, hf⟩ := bind_eq_ok hp
  have hv := checknumber_eq_ok hd
  obtain ⟨z, hz, hnonneg, hle⟩ := hs d hv
  obtain ⟨n, rfl⟩ := Int.eq_ofNat_of_zero_le hnonneg
  have hll : (toLongLong d).toNat = n := by
    have := toLongLong_of_toInt? hz (by rwa [abs_of_nonneg hnonneg])
    rw [BitVec.toInt_eq_toNat_cond] at this
    split_ifs at this <;> omega
  simp only [pure, Except.pure] at hf
  split_ifs at hf with hover
  simp only [Except.ok.injEq, Prod.mk.injEq] at hf
  obtain ⟨rfl, rfl⟩ := hf
  refine ⟨d, n, hv, hz, by omega, ?_, ?_, rfl⟩
  · intro hsize
    rw [← hll]
    by_contra hno
    exact hover ⟨hsize, hno⟩
  · rw [packint_eq (by simp), if_neg (by simp), hll]

theorem take_order_leBytes (islittle : Bool) (k : ℕ) (z : ℤ) (rest : Bytes) :
    (order islittle (leBytes k z) ++ rest).take k = order islittle (leBytes k z) :=
  List.take_left' (by simp)

/-- A float option copies the representation of a number. -/
theorem unpackOption_float (hp : packOption N h .Kfloat size arg v = .ok (bytes, extra))
    (hsize : size = 4 ∨ size = 8) (hs : Suits N .Kfloat size v) {data rest : Bytes} {pos : ℕ}
    (hdata : data.drop pos = bytes ++ rest) :
    unpackOption N data h .Kfloat size pos = .ok (some (asRead N .Kfloat v), extra) := by
  obtain ⟨d, hd, hf⟩ := bind_eq_ok hp
  have hv := checknumber_eq_ok hd
  have hback := hs d hv
  rcases hsize with rfl | rfl
  all_goals
    simp only [pure, Except.pure, copywithendian_eq, if_true, Nat.reduceEqDiff, if_false,
      Except.ok.injEq, Prod.mk.injEq] at hf hback
    obtain ⟨rfl, rfl⟩ := hf
    simp only [unpackOption, hdata, take_order_leBytes, copywithendian_eq, order_order, if_true,
      Nat.reduceEqDiff, if_false]
    rw [leNat_leBytes_nat (by simpa using BitVec.isLt _), BitVec.ofNat_toNat, BitVec.setWidth_eq,
      hback]
    simp [asRead, hv]

/-- A string is read back up to its length. -/
theorem unpackOption_string (hp : packOption N h .Kstring size arg v = .ok (bytes, extra))
    (hlen : bytes.length ≤ MAXSSIZE) {data rest : Bytes} {pos : ℕ}
    (hdata : data.drop pos = bytes ++ rest) :
    unpackOption N data h .Kstring size pos = .ok (some (asRead N .Kstring v), extra) := by
  obtain ⟨s, hd, hf⟩ := bind_eq_ok hp
  have hv := checklstring_eq_ok hd
  simp only [pure, Except.pure] at hf
  split_ifs at hf with hfits
  simp only [Except.ok.injEq, Prod.mk.injEq] at hf
  obtain ⟨rfl, rfl⟩ := hf
  rw [packint_eq (by simp), if_neg (by simp)] at hlen hdata
  have hsmall : s.length < 2 ^ 64 := by
    simp only [List.length_append, MAXSSIZE] at hlen
    omega
  have htoNat : (BitVec.ofNat 64 s.length).toNat = s.length := by
    rw [BitVec.toNat_ofNat, Nat.mod_eq_of_lt hsmall]
  rw [htoNat] at hdata
  have hroom : s.length ≤ data.length - pos - size := by
    have := congrArg List.length hdata
    simp only [List.length_drop, List.length_append, length_order, length_leBytes] at this
    omega
  have hdrop : data.drop (pos + size) = s ++ rest := by
    rw [← List.drop_drop, hdata, List.append_assoc, List.drop_left' (by simp)]
  simp only [unpackOption, hdata, List.append_assoc]
  rw [unpackint_unsigned (by simp only [List.length_append, MAXSSIZE] at hlen; omega) (by omega)]
  simp only [bind, Except.bind, pure, Except.pure, htoNat, hdrop, List.take_left]
  rw [if_neg (by omega)]
  simp [asRead, hv]

/-- A string without zeros ends at the first zero. -/
theorem unpackOption_zstr (hp : packOption N h .Kzstr size arg v = .ok (bytes, extra))
    {data rest : Bytes} {pos : ℕ} (hdata : data.drop pos = bytes ++ rest) :
    unpackOption N data h .Kzstr size pos = .ok (some (asRead N .Kzstr v), extra) := by
  obtain ⟨s, hd, hf⟩ := bind_eq_ok hp
  have hv := checklstring_eq_ok hd
  simp only [pure, Except.pure] at hf
  split_ifs at hf with hzero
  simp only [Except.ok.injEq, Prod.mk.injEq] at hf
  obtain ⟨rfl, rfl⟩ := hf
  rw [not_not] at hzero
  have hlen : (data.drop pos).findIdx (· == 0) = s.length := by
    rw [hdata, List.append_assoc, List.findIdx_append, if_neg (by omega)]
    simp [List.findIdx_cons]
  have hroom : pos + s.length < data.length := by
    have := congrArg List.length hdata
    simp only [List.length_drop, List.length_append, List.length_singleton] at this
    omega
  simp only [unpackOption, hlen, hroom, not_true, if_false]
  simp [hdata, asRead, hv]

/-- What a packed option gives back. -/
theorem unpackOption_of_packOption {opt : KOption}
    (hp : packOption N h opt size arg v = .ok (bytes, extra)) (hsize : SizeOk opt size)
    (hs : Suits N opt size v) (hlen : bytes.length ≤ MAXSSIZE) {data rest : Bytes} {pos : ℕ}
    (hdata : data.drop pos = bytes ++ rest) :
    unpackOption N data h opt size pos =
      .ok (if opt.takes then some (asRead N opt v) else none, extra) := by
  cases opt with
  | Kint =>
    obtain ⟨d, n, hv, hn, habs, hsmall, rfl, rfl⟩ := packOption_int hp hs
    have hrange := abs_le.mp habs
    simp only [unpackOption, hdata]
    rw [unpackint_signed hsize (by omega) (by omega) hsmall]
    simp only [bind, Except.bind, pure, Except.pure]
    rw [toInt_ofInt_of_range (by omega) (by omega), Double.ofInt_of_toInt? hn habs]
    simp [asRead, hv, KOption.takes]
  | Kuint =>
    obtain ⟨d, n, hv, hn, hle, hsmall, rfl, rfl⟩ := packOption_uint hp hs
    simp only [unpackOption, hdata]
    rw [unpackint_unsigned (by omega) hsmall]
    simp only [bind, Except.bind, pure, Except.pure]
    have habs : |(n : ℤ)| ≤ 2 ^ 53 := by
      rw [abs_of_nonneg (by positivity)]
      exact_mod_cast hle
    rw [BitVec.toNat_ofNat, Nat.mod_eq_of_lt (by omega), Double.ofInt_of_toInt? hn habs]
    simp [asRead, hv, KOption.takes]
  | Kfloat => exact unpackOption_float hp hsize hs hdata
  | Kchar =>
    obtain ⟨s, hd, hf⟩ := bind_eq_ok hp
    have hv := checklstring_eq_ok hd
    have hback := hs s hv
    simp only [pure, Except.pure] at hf
    split_ifs at hf
    simp only [Except.ok.injEq, Prod.mk.injEq, hback, Nat.sub_self, List.replicate_zero,
      List.append_nil] at hf
    obtain ⟨rfl, rfl⟩ := hf
    simp [unpackOption, hdata, ← hback, asRead, hv, KOption.takes]
  | Kstring => exact unpackOption_string hp hlen hdata
  | Kzstr => exact unpackOption_zstr hp hdata
  | Kpadding | Kpaddalign | Knop =>
    cases hp
    rfl

/-! ### The loops -/

theorem options_cons {h : Header} {totalsize : ℕ} {c : UInt8} {fmt : Bytes} {k : ℕ} {r : Read}
    (hd : getdetails h totalsize c fmt = .ok (k, r)) :
    options h (c :: fmt) = if r.opt.takes then (r.opt, r.size) :: options r.header r.fmt
      else options r.header r.fmt := by
  obtain ⟨k', hk'⟩ := getdetails_zero hd
  rw [options]
  split
  · rename_i e he
    rw [hk'] at he
    cases he
  · rename_i k'' r' hr'
    rw [hk'] at hr'
    cases hr'
    rfl

theorem packLoop_cons {h : Header} {totalsize arg : ℕ} {c : UInt8} {fmt b : Bytes}
    {args : List Value} (hb : packLoop N h (c :: fmt) totalsize arg args = .ok b) :
    ∃ k r bytes extra rest, getdetails h totalsize c fmt = .ok (k, r) ∧
      packOption N r.header r.opt r.size (arg + 1) (args.headD .other) = .ok (bytes, extra) ∧
      packLoop N r.header r.fmt (totalsize + (k + r.size) + extra)
        (if r.opt.takes then arg + 1 else arg) (if r.opt.takes then args.tail else args) =
        .ok rest ∧
      b = List.replicate k PACKPADBYTE ++ bytes ++ rest := by
  rw [packLoop] at hb
  split at hb
  · cases hb
  · rename_i k r hd
    split at hb
    · cases hb
    · rename_i bytes extra hp
      split at hb
      · cases hb
      · rename_i rest hrest
        cases hb
        exact ⟨k, r, bytes, extra, rest, hd, hp, hrest, rfl⟩

theorem unpackLoop_cons {data : Bytes} {h : Header} {pos n : ℕ} {c : UInt8} {fmt : Bytes} {k : ℕ}
    {r : Read} {v : Option Value} {extra : ℕ} (hd : getdetails h pos c fmt = .ok (k, r))
    (hroom : k + r.size ≤ data.length - pos) (hstack : 2 + n + 2 ≤ MAXCSTACK)
    (hv : unpackOption N data r.header r.opt r.size (pos + k) = .ok (v, extra)) {rest : List Value}
    (hrest : unpackLoop N data r.header r.fmt (pos + k + extra + r.size)
      (if r.opt.takes then n + 1 else n) = .ok rest) :
    unpackLoop N data h (c :: fmt) pos n = .ok (v.toList ++ rest) := by
  rw [unpackLoop]
  split
  · rename_i e he
    rw [hd] at he
    cases he
  · rename_i k' r' hr'
    rw [hd] at hr'
    cases hr'
    rw [if_neg (by omega), if_neg (by omega), hv]
    simp only [hrest]

theorem packsizeLoop_cons {h : Header} {totalsize : ℕ} {c : UInt8} {fmt : Bytes} {k size : ℕ}
    {r : Read} (hd : getdetails h totalsize c fmt = .ok (k, r))
    (hsize : packsizeLoop h (c :: fmt) totalsize = .ok size) :
    ¬ (r.opt = .Kstring ∨ r.opt = .Kzstr) ∧
      packsizeLoop r.header r.fmt (totalsize + (r.size + k)) = .ok size := by
  rw [packsizeLoop] at hsize
  split at hsize
  · cases hsize
  · rename_i k' r' hr'
    rw [hd] at hr'
    cases hr'
    split_ifs at hsize with hopt
    exact ⟨hopt, hsize⟩

/-- An option that takes an argument finds one. -/
theorem args_eq_cons {h : Header} {opt : KOption} {size arg : ℕ} {args : List Value}
    {d : Bytes × ℕ} (hp : packOption N h opt size arg (args.headD .other) = .ok d)
    (htakes : opt.takes) : args = args.headD .other :: args.tail := by
  cases args with
  | nil => cases opt <;> simp [KOption.takes] at htakes <;> cases hp
  | cons v args => rfl

theorem suits_headD {opt : KOption} {size : ℕ} {opts : List (KOption × ℕ)} {args : List Value}
    (hcons : opt.takes → args = args.headD .other :: args.tail)
    (hs : ∀ p ∈ (if opt.takes then (opt, size) :: opts else opts).zip args,
      Suits N p.1.1 p.1.2 p.2) : Suits N opt size (args.headD .other) := by
  cases htakes : opt.takes with
  | false => cases opt <;> simp [KOption.takes] at htakes <;> trivial
  | true =>
    rw [if_pos htakes, hcons htakes, List.zip_cons_cons] at hs
    exact hs _ List.mem_cons_self

theorem suits_tail {opt : KOption} {size : ℕ} {opts : List (KOption × ℕ)} {args : List Value}
    (hcons : opt.takes → args = args.headD .other :: args.tail)
    (hs : ∀ p ∈ (if opt.takes then (opt, size) :: opts else opts).zip args,
      Suits N p.1.1 p.1.2 p.2) :
    ∀ p ∈ opts.zip (if opt.takes then args.tail else args), Suits N p.1.1 p.1.2 p.2 := by
  cases htakes : opt.takes with
  | false => simpa [htakes] using hs
  | true =>
    rw [if_pos htakes, hcons htakes, List.zip_cons_cons] at hs
    intro p hp
    exact hs p (List.mem_cons_of_mem _ hp)

theorem zipWith_asRead {opt : KOption} {size : ℕ} {opts : List (KOption × ℕ)} {args : List Value}
    (hcons : opt.takes → args = args.headD .other :: args.tail) :
    List.zipWith (fun o v => asRead N o.1 v) (if opt.takes then (opt, size) :: opts else opts)
      args = (if opt.takes then some (asRead N opt (args.headD .other)) else none).toList ++
        List.zipWith (fun o v => asRead N o.1 v) opts (if opt.takes then args.tail else args) := by
  cases htakes : opt.takes with
  | false => simp
  | true =>
    rw [if_pos rfl, if_pos rfl, if_pos rfl]
    nth_rewrite 1 [hcons htakes]
    rfl

/-- What the loop of `str_unpack` reads after the loop of `str_pack` has written. -/
theorem unpackLoop_packLoop {h : Header} {fmt : Bytes} {totalsize arg : ℕ}
    {args : List Value} {b before : Bytes}
    (hb : packLoop N h fmt totalsize arg args = .ok b) (hbefore : before.length = totalsize)
    (hlen : (before ++ b).length ≤ MAXSSIZE)
    (hs : ∀ p ∈ (options h fmt).zip args, Suits N p.1.1 p.1.2 p.2) {n : ℕ}
    (hn : n + (options h fmt).length + 4 ≤ MAXCSTACK) :
    unpackLoop N (before ++ b) h fmt totalsize n =
      .ok (List.zipWith (fun o v => asRead N o.1 v) (options h fmt) args ++
        [.number (Double.ofInt ((before ++ b).length + 1))]) := by
  cases fmt with
  | nil =>
    rw [packLoop] at hb
    cases hb
    simp [unpackLoop, options, hbefore]
  | cons c fmt =>
    obtain ⟨k, r, bytes, extra, rest, hd, hp, hrest, rfl⟩ := packLoop_cons hb
    have hshort := length_getdetails hd
    have hcons := fun htakes => args_eq_cons hp htakes
    rw [options_cons hd] at hs hn ⊢
    have hdrop : (before ++ (List.replicate k PACKPADBYTE ++ bytes ++ rest)).drop
        (totalsize + k) = bytes ++ rest := by
      rw [List.append_assoc, ← List.append_assoc, List.drop_left' (by simp [hbefore])]
    simp only [List.length_append, List.length_replicate] at hlen
    obtain ⟨hsize, -⟩ := length_packOption hp (sizeOk_getdetails hd)
    have hv := unpackOption_of_packOption hp (sizeOk_getdetails hd) (suits_headD hcons hs)
      (by omega) hdrop
    have hdata : before ++ (List.replicate k PACKPADBYTE ++ bytes ++ rest) =
        (before ++ List.replicate k PACKPADBYTE ++ bytes) ++ rest := by
      simp only [List.append_assoc]
    rw [zipWith_asRead hcons, List.append_assoc (Option.toList _)]
    refine unpackLoop_cons hd ?_ ?_ hv ?_
    · simp only [List.length_append, List.length_replicate]
      omega
    · omega
    · rw [hdata, show totalsize + k + extra + r.size = totalsize + (k + r.size) + extra by omega]
      refine unpackLoop_packLoop hrest ?_ ?_ (suits_tail hcons hs) ?_
      · simp only [List.length_append, List.length_replicate]
        omega
      · simp only [List.length_append, List.length_replicate]
        omega
      · split_ifs at hn ⊢
        · simp only [List.length_cons] at hn
          omega
        · omega
termination_by fmt.length

/-- The loop of `str_packsize` counts the bytes that the loop of `str_pack` writes. -/
theorem packsizeLoop_packLoop {h : Header} {fmt : Bytes} {totalsize arg : ℕ}
    {args : List Value} {b : Bytes} (hb : packLoop N h fmt totalsize arg args = .ok b) {size : ℕ}
    (hsize : packsizeLoop h fmt totalsize = .ok size) : size = totalsize + b.length := by
  cases fmt with
  | nil =>
    rw [packLoop] at hb
    rw [packsizeLoop] at hsize
    cases hb
    cases hsize
    rfl
  | cons c fmt =>
    obtain ⟨k, r, bytes, extra, rest, hd, hp, hrest, rfl⟩ := packLoop_cons hb
    have hshort := length_getdetails hd
    obtain ⟨hopt, hnext⟩ := packsizeLoop_cons hd hsize
    obtain ⟨hlen, hextra⟩ := length_packOption hp (sizeOk_getdetails hd)
    obtain rfl : extra = 0 := hextra (fun h => hopt (.inl h)) fun h => hopt (.inr h)
    rw [show totalsize + (r.size + k) = totalsize + (k + r.size) + 0 by omega] at hnext
    rw [packsizeLoop_packLoop hrest hnext]
    simp only [List.length_append, List.length_replicate]
    omega
termination_by fmt.length

/-- Every option that takes an argument has one. -/
theorem length_options_le {h : Header} {fmt : Bytes} {totalsize arg : ℕ} {args : List Value}
    {b : Bytes} (hb : packLoop N h fmt totalsize arg args = .ok b) :
    (options h fmt).length ≤ args.length := by
  cases fmt with
  | nil => simp [options]
  | cons c fmt =>
    obtain ⟨k, r, bytes, extra, rest, hd, hp, hrest, rfl⟩ := packLoop_cons hb
    have hshort := length_getdetails hd
    have hle := length_options_le hrest
    rw [options_cons hd]
    cases htakes : r.opt.takes with
    | false => simpa [htakes] using hle
    | true =>
      rw [args_eq_cons hp htakes]
      simpa [htakes] using hle
termination_by fmt.length

theorem str_pack_eq_ok {fmt b : Bytes} {args : List Value} (hp : str_pack N fmt args = .ok b) :
    packLoop N initheader (cstring fmt) 0 1 args = .ok b ∧ b.length ≤ MAXSSIZE := by
  obtain ⟨b', hb, hf⟩ := bind_eq_ok hp
  simp only [pure, Except.pure] at hf
  split_ifs at hf with hbig
  cases hf
  exact ⟨hb, Nat.le_of_not_lt hbig⟩

theorem str_unpack_one (fmt data : Bytes) :
    str_unpack N fmt data 1 = unpackLoop N data initheader (cstring fmt) 0 0 := by
  have hpos : posrelat 1 data.length - 1 = 0 := by simp [posrelat]
  rw [str_unpack, hpos, if_neg (by simp)]

/-- **What was packed is unpacked.**  Where `string.pack` accepts the arguments, the integers are
whole numbers up to `2 ^ 53`, the strings of `c` have its length and `string.unpack` has the stack
for the results, it returns the argument of each option as the option reads it, and the position
after them; the size of the format is the length of the packed string. -/
theorem unpack_pack {fmt b : Bytes} {args : List Value} (hp : str_pack N fmt args = .ok b)
    (hs : ∀ p ∈ (options initheader (cstring fmt)).zip args, Suits N p.1.1 p.1.2 p.2)
    (hn : (options initheader (cstring fmt)).length + 4 ≤ MAXCSTACK) :
    (options initheader (cstring fmt)).length ≤ args.length ∧
      str_unpack N fmt b 1 = .ok
        (List.zipWith (fun o v => asRead N o.1 v) (options initheader (cstring fmt)) args ++
          [.number (Double.ofInt (b.length + 1))]) ∧
      ∀ size, str_packsize fmt = .ok size → size = b.length := by
  obtain ⟨hb, hlen⟩ := str_pack_eq_ok hp
  refine ⟨length_options_le hb, ?_, ?_⟩
  · rw [str_unpack_one]
    exact unpackLoop_packLoop hb List.length_nil hlen hs (by omega)
  · intro size hsize
    rw [packsizeLoop_packLoop hb hsize, Nat.zero_add]

/-- Numbers with a representation for 1 only. -/
def onlyOne : Numbers where
  str2d _ := none
  num2str _ := []
  toFloat d := if d = Double.ofNat false 1 (by decide) then 0x3f800000#32 else 0
  ofFloat w := if w = 0x3f800000#32 then Double.ofNat false 1 (by decide) else .nan
  toDouble d := if d = Double.ofNat false 1 (by decide) then 0x3ff0000000000000#64 else 0
  ofDouble w := if w = 0x3ff0000000000000#64 then Double.ofNat false 1 (by decide) else .nan

theorem packLoop_step {h : Header} {totalsize arg : ℕ} {c : UInt8} {fmt : Bytes}
    {args : List Value} {k : ℕ} {r : Read} {bytes rest : Bytes} {extra : ℕ}
    (hd : getdetails h totalsize c fmt = .ok (k, r))
    (hp : packOption N r.header r.opt r.size (arg + 1) (args.headD .other) = .ok (bytes, extra))
    (hrest : packLoop N r.header r.fmt (totalsize + (k + r.size) + extra)
        (if r.opt.takes then arg + 1 else arg) (if r.opt.takes then args.tail else args) =
        .ok rest) {b : Bytes} (hb : List.replicate k PACKPADBYTE ++ bytes ++ rest = b) :
    packLoop N h (c :: fmt) totalsize arg args = .ok b := by
  subst hb
  rw [packLoop]
  split
  · rename_i e he
    rw [hd] at he
    cases he
  · rename_i k' r' hr'
    rw [hd] at hr'
    cases hr'
    simp only [hp, hrest]

theorem packLoop_nil {h : Header} {totalsize arg : ℕ} {args : List Value} :
    packLoop N h [] totalsize arg args = .ok [] := by
  rw [packLoop]

theorem options_step {h : Header} {c : UInt8} {fmt : Bytes} {k : ℕ} {r : Read}
    (hd : getdetails h 0 c fmt = .ok (k, r)) {opts : List (KOption × ℕ)}
    (hrest : options r.header r.fmt = opts) {l : List (KOption × ℕ)}
    (hl : (if r.opt.takes then (r.opt, r.size) :: opts else opts) = l) :
    options h (c :: fmt) = l := by
  rw [options_cons hd, hrest, hl]

theorem options_nil {h : Header} : options h [] = [] := by
  rw [options]

/-- A negative number, a byte to align, the other endianness and a string: `!2b>i2z`. -/
theorem unpack_pack_mixed :
    str_unpack onlyOne [33, 50, 98, 62, 105, 50, 122] [255, 0, 0, 2, 97, 0] 1 = .ok
      [.number (Double.ofNat true 1 (by decide)), .number (Double.ofNat false 2 (by decide)),
        .string [97], .number (Double.ofInt 7)] := by
  have hopts : options initheader (cstring [33, 50, 98, 62, 105, 50, 122]) =
      [(.Kint, 1), (.Kint, 2), (.Kzstr, 0)] :=
    options_step rfl (options_step rfl (options_step rfl (options_step rfl (options_step rfl
      options_nil rfl) rfl) rfl) rfl) rfl
  have hp : str_pack onlyOne [33, 50, 98, 62, 105, 50, 122]
      [.number (Double.ofNat true 1 (by decide)), .number (Double.ofNat false 2 (by decide)),
        .string [97]] = .ok [255, 0, 0, 2, 97, 0] := by
    rw [str_pack, show packLoop onlyOne initheader (cstring [33, 50, 98, 62, 105, 50, 122]) 0 1 _ =
      .ok [255, 0, 0, 2, 97, 0] from
      packLoop_step rfl rfl (packLoop_step rfl rfl (packLoop_step rfl rfl (packLoop_step rfl rfl
        (packLoop_step rfl rfl packLoop_nil rfl) rfl) rfl) rfl) rfl]
    rfl
  have h := (unpack_pack hp (by
    rw [hopts]
    intro p hmem
    fin_cases hmem
    · exact fun d hd => ⟨-1, by cases hd; rfl, by decide⟩
    · exact fun d hd => ⟨2, by cases hd; rfl, by decide⟩
    · trivial) (by rw [hopts]; decide)).2.1
  rw [h, hopts]
  rfl

/-- `string.pack("b", 1, 2)` packs its first argument only. -/
theorem pack_ignores_rest :
    ¬ ∀ (N : Numbers) (fmt b : Bytes) (args : List Value), str_pack N fmt args = .ok b →
      (∀ p ∈ (options initheader (cstring fmt)).zip args, Suits N p.1.1 p.1.2 p.2) →
      str_unpack N fmt b 1 = .ok (args ++ [.number (Double.ofInt (b.length + 1))]) := by
  intro hall
  have hopts : options initheader (cstring [98]) = [(.Kint, 1)] :=
    options_step rfl options_nil rfl
  have hloop : packLoop onlyOne initheader (cstring [98]) 0 1
      [.number (Double.ofNat false 1 (by decide)), .number (Double.ofNat false 2 (by decide))] =
      .ok [1] := packLoop_step rfl rfl packLoop_nil rfl
  have hsuits : ∀ p ∈ (options initheader (cstring [98])).zip
      [Value.number (Double.ofNat false 1 (by decide)),
        .number (Double.ofNat false 2 (by decide))], Suits onlyOne p.1.1 p.1.2 p.2 := by
    rw [hopts]
    intro p hmem
    fin_cases hmem
    exact fun d hd => ⟨1, by cases hd; rfl, by decide⟩
  have hpack := hall onlyOne [98] [1] _ (by rw [str_pack, hloop]; rfl) hsuits
  have hunpack := unpackLoop_packLoop hloop List.length_nil (by decide) hsuits
    (show 0 + _ + 4 ≤ _ by rw [hopts]; decide)
  rw [hopts, List.nil_append] at hunpack
  rw [str_unpack_one, hunpack] at hpack
  simpa using congrArg List.length (Except.ok.inj hpack)

end Pack

end Jaci
