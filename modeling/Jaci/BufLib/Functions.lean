import Jaci.BufLib.Meets

/-!
# The functions of buffers do what they mean

One lemma for each function of the library, from the rules of its steps.

* `meets_access`, `meets_range` : the test of a range whose size is fixed, or an argument;
* `meets_create` … `meets_fill` : the functions on bytes;
* `bytes_of_bits`, `meets_bitrange`, `meets_loadLong` : the bytes that hold a range of bits;
* `meets_readbits`, `meets_writebits` : the functions on bits.
-/

namespace Jaci

namespace BufLib

open Wire

/-! ### Every function does what it means -/

section Functions

variable {C : Casts} {args : ℕ → Value} {heap : Heap} {f : Function} {op : Op}

theorem meets_create (h : Ranges C args (-2 ^ 31) (2 ^ 31) Function.create.ints) :
    Meets C heap (Function.create.meaning C args heap) (buffer_create C args) := by
  refine meets_checkinteger h (by decide) fun z hz => ?_
  rw [toInt_word hz]
  refine meets_argcheck (fun hneg hfits => hneg hfits.1) fun hpos => ?_
  have hsize : (BitVec.ofInt 32 z).toNat = z.toNat := by
    rw [toNat_word]
    omega
  rw [hsize]
  refine meets_newbuffer ?_ fun heap' hadds => ⟨rfl, hadds⟩
  rw [List.length_replicate]
  show 0 ≤ z ∧ z ≤ (2 ^ 30 : ℕ) ↔ z.toNat ≤ 2 ^ 30
  omega

theorem meets_fromstring :
    Meets C heap (Function.fromstring.meaning C args heap) (buffer_fromstring C args) :=
  meets_checklstring fun _ => meets_newbuffer Iff.rfl fun _ hadds => ⟨rfl, hadds⟩

theorem slice_all (a : Bytes) : slice a 0 a.length = a := by
  rw [slice, Int.toNat_zero, List.drop_zero, List.take_length]

theorem length_slice_le (a : Bytes) (o : ℤ) (n : ℕ) : (slice a o n).length ≤ a.length := by
  rw [slice, List.length_take, List.length_drop]
  omega

theorem meets_tostring :
    Meets C heap (Function.tostring.meaning C args heap) (buffer_tostring args) := by
  refine meets_checkbuffer fun b hb => ?_
  refine meets_load hb ⟨by omega, le_rfl, by omega⟩ ?_
  rw [slice_all]
  exact meets_pushlstring (length_bytes_le b) trivial ⟨⟨_, rfl, rfl⟩, rfl⟩

theorem meets_len : Meets C heap (Function.len.meaning C args heap) (buffer_len args) :=
  meets_checkbuffer fun _ _ => meets_pure trivial ⟨rfl, rfl⟩

/-- An access of a number of bytes that does not depend on the arguments. -/
theorem meets_access {b n : ℕ} {o : ℤ} {x : Unit → Call Pushed}
    (ho : -2 ^ 31 ≤ o ∧ o < 2 ^ 31) (hn : n < 2 ^ 32) (hfits : op.Fits heap → Inside heap b o n)
    (hx : Inside heap b o n → Meets C heap (some op) (x ())) :
    Meets C heap (some op) (Call.raiseIf
      (isoutofbounds (BitVec.ofInt 32 o) (bytes heap b).length n) outOfBounds >>= x) := by
  refine meets_raiseIf (fun hout h => ?_) fun hin => hx ?_
  · exact (isoutofbounds_iff ho (length_bytes_le b) hn).mp hout (hfits h).2
  · rw [isoutofbounds_iff ho (length_bytes_le b) hn, not_not] at hin
    exact ⟨Int.natCast_nonneg n, hin⟩

theorem IntType.size_le (T : IntType) : T.size ≤ 4 := by cases T <;> decide

theorem FpType.size_lt (T : FpType) : T.size < 2 ^ 32 := by cases T <;> decide

theorem FpType.length_bytes (T : FpType) (n : BitVec 64) : (T.bytes C n).length = T.size := by
  cases T <;> exact length_leBytes _ _

theorem meets_readinteger {T : IntType}
    (h : Ranges C args (-2 ^ 31) (2 ^ 31) (Function.readinteger T).ints) :
    Meets C heap ((Function.readinteger T).meaning C args heap) (buffer_readinteger C args T) := by
  refine meets_checkbuffer fun b hb => meets_checkinteger h (.head _) fun o ho => ?_
  refine meets_access ho (T.size_le.trans_lt (by decide)) id fun hin => ?_
  rw [toInt_word ho]
  exact meets_load hb hin (meets_pure hin ⟨rfl, rfl⟩)

theorem meets_writeinteger {T : IntType}
    (h : Ranges C args (-2 ^ 31) (2 ^ 31) (Function.writeinteger T).ints)
    (hvalue : (Function.writeinteger T).Values C args) :
    Meets C heap ((Function.writeinteger T).meaning C args heap)
      (buffer_writeinteger C args T) := by
  refine meets_checkbuffer fun b hb => meets_checkinteger h (.head _) fun o ho =>
    meets_checkunsigned hvalue (.head _) fun z => ?_
  have hlength : (leBytes T.size z).length = T.size := length_leBytes _ _
  refine meets_access (b := b) ho (T.size_le.trans_lt (by decide)) (fun hfits => ?_) fun hin => ?_
  · exact hlength ▸ hfits
  · rw [toInt_word ho, leBytes_word T.size_le]
    rw [← hlength] at hin
    exact meets_store hb hin hin fun _ _ hwrites => hwrites

theorem meets_readlong (h : Ranges C args (-2 ^ 31) (2 ^ 31) Function.readlong.ints) :
    Meets C heap (Function.readlong.meaning C args heap) (buffer_readlong C args) := by
  refine meets_checkbuffer fun b hb => meets_checkinteger h (.head _) fun o ho => ?_
  refine meets_access ho (by decide) id fun hin => ?_
  rw [toInt_word ho]
  exact meets_load hb hin (meets_pure hin ⟨rfl, rfl⟩)

theorem meets_writelong (h : Ranges C args (-2 ^ 31) (2 ^ 31) Function.writelong.ints) :
    Meets C heap (Function.writelong.meaning C args heap) (buffer_writelong C args) := by
  refine meets_checkbuffer fun b hb => meets_checkinteger h (.head _) fun o ho =>
    meets_checkinteger64 fun l => ?_
  have hlength : (leBytes 8 l.toInt).length = 8 := length_leBytes _ _
  refine meets_access (b := b) ho (by decide) (fun hfits => ?_) fun hin => ?_
  · exact hlength ▸ hfits
  · rw [toInt_word ho]
    rw [← hlength] at hin
    exact meets_store hb hin hin fun _ _ hwrites => hwrites

theorem meets_readfp {T : FpType} (h : Ranges C args (-2 ^ 31) (2 ^ 31) (Function.readfp T).ints) :
    Meets C heap ((Function.readfp T).meaning C args heap) (buffer_readfp C args T) := by
  refine meets_checkbuffer fun b hb => meets_checkinteger h (.head _) fun o ho => ?_
  refine meets_access ho T.size_lt id fun hin => ?_
  rw [toInt_word ho]
  exact meets_load hb hin (meets_pure hin ⟨rfl, rfl⟩)

theorem meets_writefp {T : FpType}
    (h : Ranges C args (-2 ^ 31) (2 ^ 31) (Function.writefp T).ints) :
    Meets C heap ((Function.writefp T).meaning C args heap) (buffer_writefp C args T) := by
  refine meets_checkbuffer fun b hb => meets_checkinteger h (.head _) fun o ho =>
    meets_checknumber fun n _ => ?_
  have hlength : (T.bytes C n).length = T.size := T.length_bytes n
  refine meets_access (b := b) ho T.size_lt (fun hfits => ?_) fun hin => ?_
  · exact hlength ▸ hfits
  · rw [toInt_word ho]
    rw [← hlength] at hin
    exact meets_store hb hin hin fun _ _ hwrites => hwrites

/-! ### Sizes -/

theorem Inside.le {b : ℕ} {o n : ℤ} (h : Inside heap b o n) : 0 ≤ n ∧ n ≤ 2 ^ 30 ∧ 0 ≤ o := by
  have hlength := @length_bytes_le heap b
  obtain ⟨hn, ho, hend⟩ := h
  omega

theorem toNat_size {n : ℤ} (h : 0 ≤ n ∧ n < 2 ^ 32) : (BitVec.ofInt 32 n).toNat = n.toNat := by
  rw [toNat_word]
  omega

/-- A size that is negative does not fit. -/
theorem nonneg_of_inside {b : ℕ} {o n : ℤ} (h : Inside heap b o n) :
    ¬ (BitVec.ofInt 32 n).toInt < 0 := by
  have hle := h.le
  rw [toInt_word (by omega)]
  omega

/-- The test of a range whose size is an argument. -/
theorem meets_range {b : ℕ} {o n : ℤ} {x : Unit → Call Pushed} (ho : -2 ^ 31 ≤ o ∧ o < 2 ^ 31)
    (hn : (-2 ^ 31 ≤ n ∧ n < 2 ^ 31) ∨ n = (bytes heap b).length - o)
    (hnonneg : ¬ (BitVec.ofInt 32 n).toInt < 0) (hfits : op.Fits heap → Inside heap b o n)
    (hx : Inside heap b o n → Meets C heap (some op) (x ())) :
    Meets C heap (some op) (Call.raiseIf (isoutofbounds (BitVec.ofInt 32 o)
      (bytes heap b).length (BitVec.ofInt 32 n).toNat) outOfBounds >>= x) := by
  have hlength := @length_bytes_le heap b
  refine meets_raiseIf (fun hout h => ?_) fun hin => hx ?_
  · have hle := (hfits h).le
    rw [toNat_size (by omega), isoutofbounds_iff ho hlength (by omega)] at hout
    obtain ⟨-, hpos, hend⟩ := hfits h
    omega
  · rw [isoutofbounds_iff ho hlength (BitVec.isLt _), not_not] at hin
    have hint : -2 ^ 31 ≤ n ∧ n < 2 ^ 31 := by omega
    rw [toInt_word hint, not_lt] at hnonneg
    rw [toNat_size (by omega)] at hin
    exact ⟨hnonneg, hin.1, by omega⟩

theorem length_slice {b : ℕ} {o n : ℤ} (h : Inside heap b o n) :
    ((slice (bytes heap b) o n.toNat).length : ℤ) = n := by
  obtain ⟨hn, ho, hend⟩ := h
  rw [slice, List.length_take, List.length_drop]
  omega

theorem meets_readstring (h : Ranges C args (-2 ^ 31) (2 ^ 31) Function.readstring.ints) :
    Meets C heap (Function.readstring.meaning C args heap) (buffer_readstring C args) := by
  refine meets_checkbuffer fun b hb => meets_checkinteger h (.head _) fun o ho =>
    meets_checkinteger h (by decide) fun n hn => ?_
  refine meets_argcheck (fun hneg hfits => nonneg_of_inside hfits (not_le.mp hneg)) fun hpos => ?_
  refine meets_range ho (.inl hn) (not_lt.mpr hpos) id fun hin => ?_
  have hle := Inside.le hin
  have hnat : Inside heap b o (n.toNat : ℤ) := by
    rw [Int.toNat_of_nonneg hle.1]
    exact hin
  rw [toInt_word ho, toNat_size (by omega)]
  refine meets_load hb hnat ?_
  exact meets_pushlstring ((length_slice_le _ _ _).trans (length_bytes_le b)) hin
    ⟨⟨_, rfl, rfl⟩, rfl⟩

theorem meets_writestring (h : Ranges C args (-2 ^ 31) (2 ^ 31) Function.writestring.ints) :
    Meets C heap (Function.writestring.meaning C args heap) (buffer_writestring C args) := by
  refine meets_checkbuffer fun b hb => meets_checkinteger h (.head _) fun o ho =>
    meets_checklstring fun s => ?_
  have hs : s.data.length ≤ 2 ^ 30 := s.length_le
  refine meets_optinteger h (by decide) fun n hn => ?_
  have hint : -2 ^ 31 ≤ n ∧ n < 2 ^ 31 := by omega
  refine meets_argcheck (fun hneg hfits => nonneg_of_inside hfits.2 (not_le.mp hneg)) fun hpos => ?_
  rw [toInt_word hint] at hpos
  rw [toNat_size (by omega)]
  refine meets_raiseIf (fun hlong hfits => ?_) fun hshort => ?_
  · have hcount : n ≤ s.data.length := hfits.1
    omega
  · rw [← toNat_size (n := n) (by omega)]
    refine meets_range (b := b) ho (.inl hint) ?_ (fun hfits => hfits.2) fun hin => ?_
    · rw [toInt_word hint]
      omega
    · have htake : ((s.data.take n.toNat).length : ℤ) = n := by
        rw [List.length_take]
        omega
      rw [toInt_word ho, toNat_size (by omega)]
      refine meets_store hb ⟨?_, hin⟩ (by rw [htake]; exact hin) fun _ _ hwrites => hwrites
      omega

theorem meets_copy (h : Ranges C args (-2 ^ 31) (2 ^ 31) Function.copy.ints) :
    Meets C heap (Function.copy.meaning C args heap) (buffer_copy C args) := by
  refine meets_checkbuffer fun t ht => meets_checkinteger h (.head _) fun toff htoff =>
    meets_checkbuffer fun s hs => meets_optinteger (d := 0) h (by decide) fun soff hsoff => ?_
  have hdefault : BitVec.ofNat 32 (bytes heap s).length - BitVec.ofInt 32 soff =
      BitVec.ofInt 32 ((bytes heap s).length - soff) := by
    rw [Int.sub_eq_add_neg, BitVec.ofInt_add, BitVec.ofInt_neg, ← BitVec.sub_eq_add_neg]
    rfl
  rw [hdefault]
  have hsoff' : -2 ^ 31 ≤ soff ∧ soff < 2 ^ 31 := by omega
  refine meets_optinteger h (by decide) fun n hn => ?_
  refine meets_raiseIf (fun hneg hfits => nonneg_of_inside hfits.1 hneg) fun hnonneg => ?_
  refine meets_range hsoff' hn hnonneg (fun hfits => hfits.1) fun hsrc => ?_
  have hle := Inside.le hsrc
  refine meets_range (b := t) htoff (.inl (by omega)) hnonneg (fun hfits => hfits.2) fun hdst => ?_
  rw [toInt_word htoff, toInt_word hsoff', toNat_size (by omega)]
  refine meets_load hs (by rw [Int.toNat_of_nonneg hle.1]; exact hsrc) ?_
  exact meets_store ht ⟨hsrc, hdst⟩ (by rw [length_slice hsrc]; exact hdst)
    fun _ _ hwrites => hwrites

theorem byte_word (z : ℤ) :
    UInt8.ofNat (BitVec.ofInt 32 z &&& 0xff).toNat = UInt8.ofInt z := by
  apply UInt8.toNat_inj.mp
  have hbyte := toNat_ofInt z
  have hand : (BitVec.ofInt 32 z &&& 0xff).toNat = (z % 2 ^ 32).toNat % 2 ^ 8 := by
    rw [BitVec.toNat_and, toNat_word]
    exact Nat.and_two_pow_sub_one_eq_mod _ 8
  rw [UInt8.toNat_ofNat', hand]
  omega

theorem meets_fill (h : Ranges C args (-2 ^ 31) (2 ^ 31) Function.fill.ints)
    (hvalue : Function.fill.Values C args) :
    Meets C heap (Function.fill.meaning C args heap) (buffer_fill C args) := by
  refine meets_checkbuffer fun b hb => meets_checkinteger h (.head _) fun o ho =>
    meets_checkunsigned hvalue (.head _) fun z => ?_
  have hdefault : BitVec.ofNat 32 (bytes heap b).length - BitVec.ofInt 32 o =
      BitVec.ofInt 32 ((bytes heap b).length - o) := by
    rw [Int.sub_eq_add_neg, BitVec.ofInt_add, BitVec.ofInt_neg, ← BitVec.sub_eq_add_neg]
    rfl
  rw [hdefault]
  refine meets_optinteger h (by decide) fun n hn => ?_
  refine meets_raiseIf (fun hneg hfits => nonneg_of_inside hfits hneg) fun hnonneg => ?_
  refine meets_range ho hn hnonneg id fun hin => ?_
  have hle := Inside.le hin
  rw [toInt_word ho, toNat_size (by omega), byte_word]
  refine meets_store hb hin ?_ fun _ _ hwrites => hwrites
  rw [List.length_replicate, Int.toNat_of_nonneg hle.1]
  exact hin

end Functions

/-! ### Bits -/

section Bits

variable {C : Casts} {args : ℕ → Value} {heap : Heap} {op : Op}

/-- The end of a range of bits. -/
theorem toNat_end {i k : ℕ} (hi : i < 2 ^ 53) (hk : k ≤ 32) :
    (BitVec.ofInt 64 i + (BitVec.ofInt 32 k).signExtend 64).toNat = i + k := by
  have hk32 : (BitVec.ofInt 32 (k : ℤ)).toNat = k := by
    rw [toNat_word]
    omega
  have hmsb : (BitVec.ofInt 32 (k : ℤ)).msb = false := by
    rw [BitVec.msb_eq_false_iff_two_mul_lt]
    omega
  rw [BitVec.signExtend_eq_setWidth_of_msb_false hmsb, BitVec.toNat_add, BitVec.toNat_setWidth,
    hk32, toNat_long]
  omega

/-- The byte of a bit. -/
theorem toNat_byte {x : Long} {i : ℕ} (hx : x.toNat = i) (hi : i < 2 ^ 35) :
    ((x.sdiv 8).setWidth 32 : Word).toNat = i / 8 := by
  rw [BitVec.toNat_setWidth, toNat_sdiv (by omega), hx]
  omega

/-- The bytes of a range of bits. -/
theorem bytes_of_bits {i k len : ℕ} (hk : k ≤ 32) (hlen : i + k ≤ 8 * len) (hle : len ≤ 2 ^ 30) :
    let start : Word := ((BitVec.ofInt 64 i).sdiv 8).setWidth 32
    let stop : Word :=
      ((BitVec.ofInt 64 i + (BitVec.ofInt 32 k).signExtend 64 + 7).sdiv 8).setWidth 32
    start.toNat = i / 8 ∧ ∃ m, (stop - start).toNat = m ∧ m ≤ 8 ∧ i / 8 + m ≤ len ∧
      i % 8 + k ≤ 8 * m := by
  dsimp only
  have hi : (BitVec.ofInt 64 (i : ℤ)).toNat = i := by
    rw [toNat_long]
    omega
  have hstart := toNat_byte hi (by omega)
  have hend : (BitVec.ofInt 64 (i : ℤ) + (BitVec.ofInt 32 (k : ℤ)).signExtend 64 + 7).toNat =
      i + k + 7 := by
    rw [BitVec.toNat_add, toNat_end (by omega) hk, Nat.mod_eq_of_lt]
    · rfl
    · show i + k + 7 < 2 ^ 64
      omega
  have hstop := toNat_byte hend (by omega)
  refine ⟨hstart, (i + k + 7) / 8 - i / 8, ?_, by omega, by omega, by omega⟩
  rw [BitVec.toNat_sub, hstart, hstop]
  omega

theorem leNat_lt {s : Bytes} (h : s.length ≤ 8) : leNat s < 2 ^ 64 := by
  refine Nat.lt_pow_two_of_testBit _ fun i hi => ?_
  rw [testBit_leNat]
  exact bit_of_length_le (by omega)

theorem toNat_subbyte (i : ℕ) : (BitVec.ofInt 64 (i : ℤ) &&& 7).toNat = i % 8 := by
  have hand : (BitVec.ofInt 64 (i : ℤ) &&& 7).toNat = ((i : ℤ) % 2 ^ 64).toNat % 2 ^ 3 := by
    rw [BitVec.toNat_and, toNat_long]
    exact Nat.and_two_pow_sub_one_eq_mod _ 3
  rw [hand]
  omega

theorem getLsbD_ones {k i : ℕ} (hk : k ≤ 32) :
    (1#64 <<< k - 1).getLsbD i = decide (i < k) := by
  have hones : (1#64 <<< k - 1).toNat = 2 ^ k - 1 := by
    have hlt : 2 ^ k < 2 ^ 64 := Nat.pow_lt_pow_right (by decide) (by omega)
    have hpos := Nat.two_pow_pos k
    have hshift : (1#64 <<< k).toNat = 2 ^ k := by
      rw [BitVec.toNat_shiftLeft, BitVec.toNat_ofNat, Nat.shiftLeft_eq, Nat.one_mul,
        Nat.mod_eq_of_lt hlt]
    have hone : (1 : Long).toNat = 1 := rfl
    rw [BitVec.toNat_sub, hshift, hone]
    omega
  rw [BitVec.getLsbD, hones, Nat.testBit_two_pow_sub_one]

/-- The long that is loaded for a range of bits. -/
theorem meets_loadLong {b i m : ℕ} {start stop : Word} {f : Long → Call Pushed}
    (hb : b < heap.length) (hstart : start.toNat = i) (hm : (stop - start).toNat = m) (h8 : m ≤ 8)
    (hin : i + m ≤ (bytes heap b).length)
    (h : ∀ data : Long, (∀ j < 8 * m, data.getLsbD j = bit (bytes heap b) (8 * i + j)) →
      Meets C heap (some op) (f data)) :
    Meets C heap (some op) (loadLong b start stop >>= f) := by
  rw [loadLong, hm, hstart, if_neg (by omega), Call.bind_assoc]
  refine meets_load hb ⟨by omega, by omega, by omega⟩ ?_
  rw [Call.pure_bind]
  refine h _ fun j hj => ?_
  have hlength : (slice (bytes heap b) (i : ℤ) m).length ≤ 8 := by
    rw [slice, List.length_take]
    omega
  rw [BitVec.getLsbD_ofNat, testBit_leNat, bit_slice hj, decide_eq_true (by omega), Bool.true_and]

/-- The tests of a range of bits. -/
theorem meets_bitrange {b : ℕ} {o c : ℤ} {x y z : Unit → Call Pushed} {e : Error}
    (ho : -2 ^ 53 ≤ o ∧ o < 2 ^ 53) (hc : -2 ^ 31 ≤ c ∧ c < 2 ^ 31)
    (hfits : op.Fits heap ↔ 0 ≤ c ∧ c ≤ 32 ∧ 0 ≤ o ∧ o + c ≤ 8 * (bytes heap b).length)
    (hx : ∀ i k : ℕ, o = i → c = k → k ≤ 32 → i + k ≤ 8 * (bytes heap b).length →
      op.Fits heap → Meets C heap (some op) (z ()))
    (hy : y () = Call.raiseIf ((BitVec.ofInt 64 o + (BitVec.ofInt 32 c).signExtend 64).toNat >
      (bytes heap b).length * 8) outOfBounds >>= z)
    (hx' : x () = Call.raiseIf ((BitVec.ofInt 32 c).toNat > 32) e >>= y) :
    Meets C heap (some op)
      (Call.raiseIf ((BitVec.ofInt 64 o).toInt < 0) outOfBounds >>= x) := by
  have hlen := @length_bytes_le heap b
  refine meets_raiseIf (fun hneg h => ?_) fun hnonneg => ?_
  · rw [BitVec.toInt_ofInt_eq_self (by decide) (by omega) (by omega)] at hneg
    have := hfits.mp h
    omega
  rw [hx']
  refine meets_raiseIf (fun hwide h => ?_) fun hnarrow => ?_
  · rw [toNat_word] at hwide
    have := hfits.mp h
    omega
  rw [BitVec.toInt_ofInt_eq_self (by decide) (by omega) (by omega)] at hnonneg
  rw [toNat_word] at hnarrow
  obtain ⟨i, rfl⟩ := Int.eq_ofNat_of_zero_le (show 0 ≤ o by omega)
  obtain ⟨k, rfl⟩ := Int.eq_ofNat_of_zero_le (show 0 ≤ c by omega)
  rw [hy, toNat_end (by omega) (by omega)]
  refine meets_raiseIf (fun hout h => ?_) fun hin => ?_
  · have := hfits.mp h
    omega
  · exact hx i k rfl rfl (by omega) (by omega) (hfits.mpr (by omega))

theorem meets_readbits (h : Ranges C args (-2 ^ 31) (2 ^ 31) Function.readbits.ints)
    (hoffset : Ranges C args (-2 ^ 53) (2 ^ 53) Function.readbits.bitOffsets) :
    Meets C heap (Function.readbits.meaning C args heap) (buffer_readbits C args) := by
  refine meets_checkbuffer fun b hb => meets_integral hoffset (.head _) fun n o ho hin =>
    meets_checkinteger h (.head _) fun c hc => ?_
  have hlen := @length_bytes_le heap b
  rw [num2long_eq ho (by omega)]
  refine meets_bitrange hin hc Iff.rfl (fun i k hi hk hk32 hik hfits => ?_) rfl rfl
  subst hi hk
  obtain ⟨hstart, m, hm, h8, hend, hbits⟩ := bytes_of_bits hk32 hik hlen
  refine meets_loadLong hb hstart hm h8 hend fun data hdata => ?_
  have hk : (BitVec.ofInt 32 (k : ℤ)).toNat = k := by
    rw [toNat_word]
    omega
  dsimp only
  rw [toNat_subbyte, hk]
  refine meets_pure hfits ⟨⟨_, rfl, ?_, fun j hj => ?_⟩, rfl⟩
  · refine Nat.lt_pow_two_of_testBit _ fun j hj => ?_
    have hjk : ¬ j < k := by omega
    rw [← BitVec.getLsbD, BitVec.getLsbD_setWidth, BitVec.getLsbD_and, getLsbD_ones hk32,
      decide_eq_false hjk, Bool.and_false, Bool.and_false]
  · rw [Int.toNat_natCast] at hj
    rw [← BitVec.getLsbD, BitVec.getLsbD_setWidth, BitVec.getLsbD_and, getLsbD_ones hk32,
      decide_eq_true hj, decide_eq_true (by omega), Bool.and_true, Bool.true_and,
      BitVec.getLsbD_ushiftRight, hdata _ (by omega), Int.toNat_natCast]
    congr 1
    omega

/-- The bits of a word that an integer became. -/
theorem getLsbD_word {z : ℤ} {k j : ℕ} (hk : k ≤ 32) (hj : j < k) :
    (BitVec.ofInt 32 z).getLsbD j = (z % 2 ^ k).toNat.testBit j := by
  have hmod : (z % 2 ^ k).toNat = (z % 2 ^ 32).toNat % 2 ^ k := by
    have hdvd : (2 : ℤ) ^ k ∣ 2 ^ 32 := pow_dvd_pow _ hk
    rw [← Int.emod_emod_of_dvd z hdvd]
    have hpos : 0 ≤ z % 2 ^ 32 := Int.emod_nonneg _ (by decide)
    obtain ⟨r, hr⟩ := Int.eq_ofNat_of_zero_le hpos
    rw [hr, Int.toNat_natCast]
    norm_cast
  rw [hmod, Nat.testBit_mod_two_pow, decide_eq_true hj, Bool.true_and, BitVec.getLsbD, toNat_word]

/-- The bits that are written back. -/
theorem getLsbD_masked {data : Long} {value : Word} {p k j : ℕ} (hk : k ≤ 32) (hp : p < 8) :
    ((data &&& ~~~((1#64 <<< k - 1) <<< p)) |||
      ((value.setWidth 64 <<< p) &&& ((1#64 <<< k - 1) <<< p))).getLsbD j =
      if p ≤ j ∧ j < p + k then value.getLsbD (j - p) else data.getLsbD j := by
  have hmask : ((1#64 <<< k - 1) <<< p).getLsbD j = decide (p ≤ j ∧ j < p + k) := by
    rw [BitVec.getLsbD_shiftLeft, getLsbD_ones hk, Bool.eq_iff_iff]
    simp only [Bool.and_eq_true, Bool.not_eq_true', decide_eq_true_eq, decide_eq_false_iff_not]
    omega
  rw [BitVec.getLsbD_or, BitVec.getLsbD_and, BitVec.getLsbD_and, BitVec.getLsbD_not, hmask]
  by_cases hj : p ≤ j ∧ j < p + k
  · have h64 : j < 64 := by omega
    have hpj : ¬ j < p := by omega
    have hsub : j - p < 64 := by omega
    rw [if_pos hj, decide_eq_true hj, BitVec.getLsbD_shiftLeft, BitVec.getLsbD_setWidth,
      decide_eq_true h64, decide_eq_false hpj, decide_eq_true hsub]
    simp only [Bool.not_true, Bool.not_false, Bool.and_false, Bool.and_true, Bool.true_and,
      Bool.false_or]
  · rw [if_neg hj, decide_eq_false hj, Bool.not_false, Bool.and_true, Bool.and_false, Bool.or_false]
    by_cases h64 : j < 64
    · rw [decide_eq_true h64, Bool.and_true]
    · rw [BitVec.getLsbD_of_ge data j (by omega), Bool.false_and]

theorem meets_writebits (h : Ranges C args (-2 ^ 31) (2 ^ 31) Function.writebits.ints)
    (hoffset : Ranges C args (-2 ^ 53) (2 ^ 53) Function.writebits.bitOffsets)
    (hvalue : Function.writebits.Values C args) :
    Meets C heap (Function.writebits.meaning C args heap) (buffer_writebits C args) := by
  refine meets_checkbuffer fun b hb => meets_integral hoffset (.head _) fun n o ho hin =>
    meets_checkinteger h (.head _) fun c hc => meets_checkunsigned hvalue (.head _) fun z => ?_
  have hlen := @length_bytes_le heap b
  rw [num2long_eq ho (by omega)]
  refine meets_bitrange hin hc Iff.rfl (fun i k hi hk hk32 hik hfits => ?_) rfl rfl
  subst hi hk
  obtain ⟨hstart, m, hm, h8, hend, hbits⟩ := bytes_of_bits hk32 hik hlen
  refine meets_loadLong hb hstart hm h8 hend fun data hdata => ?_
  have hk : (BitVec.ofInt 32 (k : ℤ)).toNat = k := by
    rw [toNat_word]
    omega
  dsimp only
  rw [toNat_subbyte, hk, hstart, hm]
  generalize hdata' : (data &&& ~~~((1#64 <<< k - 1) <<< (i % 8))) |||
    (((BitVec.ofInt 32 z).setWidth 64 <<< (i % 8)) &&& ((1#64 <<< k - 1) <<< (i % 8))) = data'
  have hlength : (leBytes m data'.toNat).length = m := length_leBytes _ _
  refine meets_store hb hfits (by rw [hlength]; exact ⟨by omega, by omega, by omega⟩)
    fun r heap' hwrites => ?_
  obtain ⟨hr, a', hput, hchanges⟩ := hwrites
  refine ⟨hr, a', ⟨hput.1, fun j hj => ?_⟩, hchanges⟩
  have hbit := hput.bit_eq hj
  rw [hlength] at hbit
  rw [hbit, Int.toNat_natCast]
  by_cases hbyte : 8 * (i / 8) ≤ j ∧ j < 8 * (i / 8 + m)
  · have hj8 : j - 8 * (i / 8) < 8 * m := by omega
    have hplace : 8 * (i / 8) + (j - 8 * (i / 8)) = j := by omega
    rw [if_pos hbyte, bit_leBytes _ hj8, ← BitVec.getLsbD, ← hdata',
      getLsbD_masked hk32 (Nat.mod_lt i (by decide)), hdata _ hj8, hplace]
    by_cases hrange : i % 8 ≤ j - 8 * (i / 8) ∧ j - 8 * (i / 8) < i % 8 + k
    · have hsub : j - 8 * (i / 8) - i % 8 = ((j : ℤ) - i).toNat := by omega
      rw [if_pos hrange, if_pos (by omega), getLsbD_word hk32 (by omega), hsub]
    · rw [if_neg hrange, if_neg (by omega)]
  · rw [if_neg hbyte, if_neg (by omega)]

end Bits

end BufLib

end Jaci
