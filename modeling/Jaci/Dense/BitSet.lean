import Mathlib.Data.List.Nodup
import Mathlib.Data.Nat.Bitwise
import Mathlib.Tactic.Ring

/-!
# The bits of a dense table

A bit for each bucket, 64 in a word.  The buckets whose bit is set are visited word by word, from the
lowest bit to the highest.

* `BitSet.contains_set` : what a bit is after one was set;
* `BitSet.mem_buckets`, `BitSet.nodup_buckets` : each set bit is visited once.
-/

namespace Jaci

namespace Dense

abbrev BitsetT := BitVec 64

/-- `BitSet`; `count` is the length of `data`. -/
structure BitSet where
  capacity : ℕ := 0
  data : List BitsetT := []

namespace BitSet

/-- The constructor of `BitSet`. -/
def ofCapacity (capacity : ℕ) : BitSet where
  capacity := capacity
  data := List.replicate
    (if capacity = 0 then 0 else if capacity < 64 then 1 else capacity >>> 6) 0

def contains (s : BitSet) (bucket : ℕ) : Bool :=
  let whichBitvec := bucket >>> 6
  let bvOffset := bucket &&& 63
  ((s.data[whichBitvec]?.getD 0) >>> bvOffset) &&& 1 == 1

def clear (s : BitSet) : BitSet := { s with data := s.data.map fun _ => 0 }

def set (s : BitSet) (bucket : ℕ) (v : Bool) : BitSet :=
  let whichBitvec := bucket >>> 6
  let offset := bucket &&& 63
  { s with data := s.data.modify whichBitvec fun word =>
      if v then word ||| (1#64 <<< offset) else word &&& ~~~(1#64 <<< offset) }

def countTrailingZeroes (word : BitsetT) : ℕ :=
  ((List.range 64).find? fun n => word.getLsbD n).getD 64

theorem and_sub_one_lt {word : BitsetT} (h : word ≠ 0) : (word &&& (word - 1)).toNat < word.toNat := by
  have hpos : 0 < word.toNat := Nat.pos_of_ne_zero fun h0 => h (BitVec.eq_of_toNat_eq h0)
  have hle := Nat.and_le_right (n := word.toNat) (m := (word - 1).toNat)
  have hsub : (word - 1).toNat = word.toNat - 1 := by
    rw [BitVec.toNat_sub]
    have := word.isLt
    simp
    omega
  rw [BitVec.toNat_and]
  omega

/-- The buckets of a word from `base` on, in the order of the iterator: the lowest bit that is set,
and what `operator++` finds when it is cleared. -/
def wordBuckets (base : ℕ) (word : BitsetT) : List ℕ :=
  if h : word = 0 then []
  else (base + countTrailingZeroes word) :: wordBuckets base (word &&& (word - 1))
termination_by word.toNat
decreasing_by exact and_sub_one_lt h

/-- What the iterator goes through; words that are 0 are skipped. -/
def buckets (s : BitSet) : List ℕ :=
  s.data.zipIdx.flatMap fun (word, wordIdx) => wordBuckets (wordIdx * 64) word

/-! ### Bits -/

variable {s : BitSet} {b c n : ℕ} {v : Bool} {word : BitsetT}

theorem shift_and_one (word : BitsetT) (n : ℕ) : ((word >>> n) &&& 1 == 1) = word.getLsbD n := by
  have h : (word >>> n) &&& 1 = (BitVec.ofBool (word.getLsbD n)).setWidth 64 := by
    ext i hi
    by_cases h0 : i = 0
    · subst h0
      simp
    · simp [h0]
  rw [h]
  cases word.getLsbD n <;> decide

theorem contains_eq : s.contains b = (s.data[b / 64]?.getD 0).getLsbD (b % 64) := by
  have h1 : b >>> 6 = b / 64 := by rw [Nat.shiftRight_eq_div_pow]
  have h2 : b &&& 63 = b % 64 := Nat.and_two_pow_sub_one_eq_mod b 6
  rw [contains, shift_and_one, h1, h2]

@[simp] theorem contains_default : (({} : BitSet)).contains b = false := by
  simp [contains_eq]

@[simp] theorem contains_ofCapacity : (ofCapacity n).contains b = false := by
  rw [contains_eq, ofCapacity]
  simp only [List.getElem?_replicate]
  split_ifs <;> simp

@[simp] theorem contains_clear : s.clear.contains b = false := by
  rw [contains_eq, clear]
  simp only [List.getElem?_map]
  cases s.data[b / 64]? <;> simp

/-- The words have a bit for each bucket. -/
def Covers (s : BitSet) (n : ℕ) : Prop := n ≤ s.data.length * 64

theorem Covers.set (h : s.Covers n) : (s.set b v).Covers n := by
  rwa [Covers, BitSet.set, List.length_modify]

theorem Covers.clear (h : s.Covers n) : s.clear.Covers n := by
  rwa [Covers, BitSet.clear, List.length_map]

theorem getLsbD_bit (hn : n < 64) (c : ℕ) : (1#64 <<< n).getLsbD c = decide (c = n) := by
  rw [BitVec.getLsbD_shiftLeft]
  by_cases h : c = n
  · subst h
    simp [hn]
  · by_cases hlt : c < n
    · simp [hlt, h]
    · have h0 : c - n ≠ 0 := by omega
      have h1 : (1#64).getLsbD (c - n) = false := by
        rw [BitVec.getLsbD_one]
        simp [h0]
      simp [h1, h]

theorem contains_set (hs : s.Covers n) (hb : b < n) :
    (s.set b v).contains c = if c = b then v else s.contains c := by
  have h1 : b >>> 6 = b / 64 := by rw [Nat.shiftRight_eq_div_pow]
  have h2 : b &&& 63 = b % 64 := Nat.and_two_pow_sub_one_eq_mod b 6
  have hlen : b / 64 < s.data.length := by
    rw [Covers] at hs
    omega
  have hmod : b % 64 < 64 := Nat.mod_lt _ (by omega)
  rw [contains_eq, contains_eq, BitSet.set, h1, h2]
  simp only [List.getElem?_modify]
  by_cases hw : b / 64 = c / 64
  · rw [← hw, List.getElem?_eq_getElem hlen]
    have hcb : c % 64 = b % 64 ↔ c = b := by omega
    cases v
    · simp only [Option.map_eq_map, Option.map_some, Option.getD_some, if_true, if_false,
        BitVec.getLsbD_and, BitVec.getLsbD_not, getLsbD_bit hmod, hcb, Bool.false_eq_true]
      split_ifs with h
      · simp [h]
      · have : c % 64 < 64 := Nat.mod_lt _ (by omega)
        simp [h, this]
    · simp only [Option.map_eq_map, Option.map_some, Option.getD_some, if_true,
        BitVec.getLsbD_or, getLsbD_bit hmod, hcb]
      split_ifs with h <;> simp [h]
  · have hcb : c ≠ b := fun h => hw (by rw [h])
    simp [hw, hcb]

/-! ### The iterator -/

theorem countTrailingZeroes_spec (h : word ≠ 0) : countTrailingZeroes word < 64 ∧
    word.getLsbD (countTrailingZeroes word) ∧
    ∀ i < countTrailingZeroes word, word.getLsbD i = false := by
  rw [countTrailingZeroes]
  cases hf : (List.range 64).find? fun n => word.getLsbD n with
  | none =>
    refine absurd (BitVec.eq_of_getLsbD_eq fun i hi => ?_) h
    have := List.find?_eq_none.1 hf i (List.mem_range.2 hi)
    simpa using this
  | some k =>
    have hk := List.find?_some hf
    have hmem := List.mem_range.1 (List.mem_of_find?_eq_some hf)
    refine ⟨hmem, hk, fun i hi => ?_⟩
    obtain ⟨-, j, hj, hjk, hlt⟩ := List.find?_eq_some_iff_getElem.1 hf
    rw [List.getElem_range] at hjk
    subst hjk
    have := hlt i hi
    simpa using this

theorem getLsbD_and_sub_one (h : word ≠ 0) (i : ℕ) : (word &&& (word - 1)).getLsbD i =
    (word.getLsbD i && decide (i ≠ countTrailingZeroes word)) := by
  obtain ⟨hlt, hset, hclear⟩ := countTrailingZeroes_spec h
  generalize countTrailingZeroes word = k at hlt hset hclear
  -- The number is `2 ^ k * (2 * q + 1)`.
  have hmod : word.toNat % 2 ^ k = 0 := by
    refine Nat.eq_of_testBit_eq fun j => ?_
    rw [Nat.testBit_mod_two_pow, Nat.zero_testBit]
    by_cases hj : j < k
    · have := hclear j hj
      rw [← BitVec.testBit_toNat] at this
      simp [this]
    · simp [hj]
  have hodd : word.toNat / 2 ^ k % 2 = 1 := by
    rw [← BitVec.testBit_toNat, Nat.testBit_eq_decide_div_mod_eq] at hset
    simpa using hset
  obtain ⟨q, hq⟩ : ∃ q, word.toNat = 2 ^ (k + 1) * q + 2 ^ k := by
    refine ⟨word.toNat / 2 ^ k / 2, ?_⟩
    have h1 := Nat.div_add_mod word.toNat (2 ^ k)
    have h2 := Nat.div_add_mod (word.toNat / 2 ^ k) 2
    rw [hodd] at h2
    rw [hmod] at h1
    calc word.toNat = 2 ^ k * (word.toNat / 2 ^ k) := by omega
      _ = 2 ^ k * (2 * (word.toNat / 2 ^ k / 2) + 1) := by rw [h2]
      _ = _ := by ring
  have hsub : (word - 1).toNat = 2 ^ (k + 1) * q + (2 ^ k - 1) := by
    have hpos : 0 < 2 ^ k := Nat.two_pow_pos k
    have hw := word.isLt
    rw [BitVec.toNat_sub]
    simp
    omega
  have hp : 2 ^ k < 2 ^ (k + 1) := Nat.pow_lt_pow_right (by omega) (by omega)
  rw [← BitVec.testBit_toNat, ← BitVec.testBit_toNat, BitVec.toNat_and, Nat.testBit_and, hsub, hq,
    Nat.testBit_two_pow_mul_add _ hp, Nat.testBit_two_pow_mul_add _ (by omega)]
  by_cases hi : i < k + 1
  · simp only [if_pos hi, Nat.testBit_two_pow, Nat.testBit_two_pow_sub_one]
    by_cases hik : i = k
    · simp [hik]
    · have : ¬k = i := fun h => hik h.symm
      simp [hik, this]
  · have hik : i ≠ k := by omega
    simp [hi, hik]

theorem mem_wordBuckets (base : ℕ) (word : BitsetT) (c : ℕ) :
    c ∈ wordBuckets base word ↔ base ≤ c ∧ word.getLsbD (c - base) := by
  induction word using wordBuckets.induct with
  | case1 => simp [wordBuckets]
  | case2 word h ih =>
    rw [wordBuckets, dif_neg h, List.mem_cons, ih, getLsbD_and_sub_one h]
    obtain ⟨-, hset, -⟩ := countTrailingZeroes_spec h
    constructor
    · rintro (rfl | ⟨hle, hc⟩)
      · exact ⟨Nat.le_add_right .., by rwa [Nat.add_sub_cancel_left]⟩
      · rw [Bool.and_eq_true] at hc
        exact ⟨hle, hc.1⟩
    · rintro ⟨hle, hc⟩
      by_cases heq : c - base = countTrailingZeroes word
      · exact .inl (by omega)
      · exact .inr ⟨hle, by simp [hc, heq]⟩

theorem nodup_wordBuckets (base : ℕ) (word : BitsetT) : (wordBuckets base word).Nodup := by
  induction word using wordBuckets.induct with
  | case1 => simp [wordBuckets]
  | case2 word h ih =>
    rw [wordBuckets, dif_neg h, List.nodup_cons]
    refine ⟨fun hmem => ?_, ih⟩
    have := ((mem_wordBuckets _ _ _).1 hmem).2
    rw [Nat.add_sub_cancel_left, getLsbD_and_sub_one h] at this
    simp at this

/-- The iterator finds the bits that are set. -/
theorem mem_buckets : b ∈ s.buckets ↔ s.contains b := by
  rw [buckets, contains_eq, List.mem_flatMap]
  constructor
  · rintro ⟨⟨word, idx⟩, hw, hmem⟩
    obtain ⟨hle, hbit⟩ := (mem_wordBuckets _ _ _).1 hmem
    have hword := List.mk_mem_zipIdx_iff_getElem?.1 hw
    have hlt : b - idx * 64 < 64 := BitVec.lt_of_getLsbD hbit
    rw [show b / 64 = idx by omega, hword, show b % 64 = b - idx * 64 by omega]
    exact hbit
  · intro h
    cases hw : s.data[b / 64]? with
    | none => simp [hw] at h
    | some word =>
      rw [hw, Option.getD_some] at h
      refine ⟨(word, b / 64), List.mk_mem_zipIdx_iff_getElem?.2 hw, (mem_wordBuckets _ _ _).2
        ⟨by omega, ?_⟩⟩
      rwa [show b - b / 64 * 64 = b % 64 by omega]

/-- It finds each of them once. -/
theorem nodup_buckets : s.buckets.Nodup := by
  rw [buckets, List.nodup_flatMap]
  refine ⟨fun p _ => nodup_wordBuckets _ _, List.pairwise_iff_getElem.2 fun i j hi hj hij => ?_⟩
  -- Two words have no bucket in common.
  rw [List.getElem_zipIdx, List.getElem_zipIdx]
  intro b hb1 hb2
  obtain ⟨hle1, hbit1⟩ := (mem_wordBuckets _ _ _).1 hb1
  obtain ⟨hle2, -⟩ := (mem_wordBuckets _ _ _).1 hb2
  have hlt := BitVec.lt_of_getLsbD hbit1
  omega

/-! ### Powers of two -/

theorem countTrailingZeroes_two_pow (hn : n < 64) :
    countTrailingZeroes (BitVec.ofNat 64 (2 ^ n)) = n := by
  have hbit : ∀ i, (BitVec.ofNat 64 (2 ^ n)).getLsbD i = decide (i = n) := by
    intro i
    rw [BitVec.getLsbD_ofNat, Nat.testBit_two_pow]
    by_cases hi : i = n
    · simp [hi, hn]
    · simp [hi, Ne.symm hi]
  have h0 : BitVec.ofNat 64 (2 ^ n) ≠ 0 := fun h => by
    have := hbit n
    rw [h] at this
    simp at this
  have hset := (countTrailingZeroes_spec h0).2.1
  rw [hbit] at hset
  simpa using hset

end BitSet

end Dense

end Jaci
