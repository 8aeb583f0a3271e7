import Jaci.Table.Nodes
import Mathlib.Algebra.BigOperators.Intervals
import Mathlib.Algebra.Order.BigOperators.Group.Finset

/-!
# The sizes that a rehash chooses

`rehash` counts the elements of a table by slices `(2 ^ (i - 1), 2 ^ i]` of their indices, chooses
a size for the array part, and moves it up to a boundary.  All of this is measured with `count`:
the number of elements, the extra key included, whose key satisfies a test.

* `numusearray_spec`, `numusehashLoop_spec` : the counts of the slices;
* `computesizes_spec` : the elements that go to the array part;
* `adjustasize_spec` : the new size is a boundary;
* `rehashSizes_spec` : the elements that do not go to the array part fit the new node part.
-/

namespace Jaci

namespace Table

variable {σ π ω V : Type} {hash : Key σ π ω → ℕ} {t : LuaTable (Key σ π ω) V}

/-! ### Tests on keys -/

/-- The keys `1 .. n`. -/
def inRange (n : ℕ) : Key σ π ω → Bool
  | .number k => decide (0 < k ∧ k ≤ n)
  | _ => false

def slice (j : ℕ) : Key σ π ω → Bool
  | .number k => decide (0 < k ∧ k ≤ MAXSIZE ∧ ceillog2 k.toNat = j)
  | _ => false

/-- The keys of the slices before the `i`th. -/
def below (i : ℕ) : Key σ π ω → Bool
  | .number k => decide (0 < k ∧ k ≤ MAXSIZE ∧ ceillog2 k.toNat < i)
  | _ => false

theorem ceillog2_le {x j : ℕ} : ceillog2 x ≤ j ↔ x ≤ 2 ^ j := by
  have hpos := Nat.two_pow_pos j
  rw [ceillog2]
  split_ifs with h
  · exact ⟨fun _ => by omega, fun _ => j.zero_le⟩
  · rw [Nat.add_one_le_iff, Nat.log2_lt (by omega)]
    omega

theorem lt_ceillog2 {x j : ℕ} : j < ceillog2 x ↔ 2 ^ j < x := by
  rw [← not_le, ceillog2_le, not_le]

theorem MAXSIZE_lt : (MAXSIZE : ℤ) + 1 < 2 ^ 31 := by decide

theorem arrayindex_number {k : ℤ} (h0 : 0 < k) (h : k ≤ MAXSIZE) :
    arrayindex (.number k : Key σ π ω) = k := by
  have := MAXSIZE_lt
  exact if_pos ⟨by omega, by omega⟩

theorem eq_number_of_arrayindex (key : Key σ π ω) (h : 0 ≤ arrayindex key) :
    key = .number (arrayindex key) := by
  cases key with
  | number k =>
    rw [arrayindex] at h ⊢
    split_ifs at h ⊢
    · rfl
    · omega
  | string s => simp [arrayindex] at h
  | lightuserdata p tag => simp [arrayindex] at h
  | other o => simp [arrayindex] at h

/-! ### Counts -/

/-- 1 for an element whose key passes a test. -/
def tally (v : Option V) (key : Option (Key σ π ω)) (p : Key σ π ω → Bool) : ℕ :=
  (v.isSome && key.any p).toNat

/-- The number of elements of the array part whose keys pass a test. -/
def arrayCount (t : LuaTable (Key σ π ω) V) (p : Key σ π ω → Bool) : ℕ :=
  ∑ i ∈ Finset.Icc 1 t.sizearray, tally (t.arrayAt (i - 1)) (some (.number i)) p

/-- The number of elements of the nodes below `n` whose keys pass a test. -/
def nodeCount (node : ℕ → Node (Key σ π ω) V) (n : ℕ) (p : Key σ π ω → Bool) : ℕ :=
  ∑ i ∈ Finset.range n, tally (node i).val (node i).key p

/-- The number of elements of the table, the extra key included, that pass a test. -/
def count (t : LuaTable (Key σ π ω) V) (ek : Option (Key σ π ω)) (p : Key σ π ω → Bool) : ℕ :=
  arrayCount t p + nodeCount t.node t.sizenode p + (ek.any p).toNat

section Count

variable {ek : Option (Key σ π ω)} {p q r : Key σ π ω → Bool}

theorem any_add (h : ∀ k, (r k).toNat = (p k).toNat + (q k).toNat) (key : Option (Key σ π ω)) :
    (key.any r).toNat = (key.any p).toNat + (key.any q).toNat := by
  cases key with
  | none => rfl
  | some k => exact h k

theorem tally_add (h : ∀ k, (r k).toNat = (p k).toNat + (q k).toNat) (v : Option V)
    (key : Option (Key σ π ω)) : tally v key r = tally v key p + tally v key q := by
  cases v with
  | none => rfl
  | some v => exact any_add h key

theorem arrayCount_add (h : ∀ k, (r k).toNat = (p k).toNat + (q k).toNat) :
    arrayCount t r = arrayCount t p + arrayCount t q := by
  simp only [arrayCount, tally_add h, Finset.sum_add_distrib]

theorem nodeCount_add (h : ∀ k, (r k).toNat = (p k).toNat + (q k).toNat)
    (node : ℕ → Node (Key σ π ω) V) (n : ℕ) :
    nodeCount node n r = nodeCount node n p + nodeCount node n q := by
  simp only [nodeCount, tally_add h, Finset.sum_add_distrib]

/-- Counts of disjoint tests add up. -/
theorem count_add (h : ∀ k, (r k).toNat = (p k).toNat + (q k).toNat) :
    count t ek r = count t ek p + count t ek q := by
  rw [count, count, count, arrayCount_add h, nodeCount_add h, any_add h]
  omega

theorem count_mono (h : ∀ k, p k = true → q k = true) : count t ek p ≤ count t ek q := by
  have hadd : ∀ k, (q k).toNat = (p k).toNat + (q k && !p k).toNat := by
    intro k
    have := h k
    cases hp : p k <;> cases hq : q k <;> simp_all
  rw [count_add hadd]
  exact Nat.le_add_right _ _

theorem count_compl (t : LuaTable (Key σ π ω) V) (ek : Option (Key σ π ω))
    (p : Key σ π ω → Bool) :
    count t ek (fun _ => true) = count t ek p + count t ek (fun k => !p k) :=
  count_add fun k => by cases p k <;> rfl

theorem arrayCount_le (p : Key σ π ω → Bool) : arrayCount t p ≤ t.sizearray := by
  calc arrayCount t p ≤ ∑ _i ∈ Finset.Icc 1 t.sizearray, 1 :=
        Finset.sum_le_sum fun i _ => Bool.toNat_le _
    _ = t.sizearray := by rw [← Finset.card_eq_sum_ones, Nat.card_Icc, Nat.add_sub_cancel]

theorem nodeCount_le (node : ℕ → Node (Key σ π ω) V) (n : ℕ) (p : Key σ π ω → Bool) :
    nodeCount node n p ≤ n := by
  calc nodeCount node n p ≤ ∑ _i ∈ Finset.range n, 1 :=
        Finset.sum_le_sum fun i _ => Bool.toNat_le _
    _ = n := by rw [← Finset.card_eq_sum_ones, Finset.card_range]

theorem count_le (ek : Option (Key σ π ω)) (p : Key σ π ω → Bool) : count t ek p ≤ t.sizearray + t.sizenode + 1 := by
  have := arrayCount_le (t := t) p
  have := nodeCount_le t.node t.sizenode p
  have := Bool.toNat_le (ek.any p)
  rw [count]
  omega

theorem arrayCount_eq_card (p : Key σ π ω → Bool) :
    arrayCount t p = ((Finset.Icc 1 t.sizearray).filter fun i : ℕ =>
      (t.arrayAt (i - 1)).isSome ∧ p (.number i) = true).card := by
  rw [arrayCount, Finset.card_filter]
  refine Finset.sum_congr rfl fun i _ => ?_
  rw [tally, Option.any_some]
  cases (t.arrayAt (i - 1)).isSome <;> cases p (.number (i : ℤ)) <;> rfl

theorem arrayCount_eq_zero (h : ∀ i : ℕ, 1 ≤ i → i ≤ t.sizearray → p (.number i) = false) :
    arrayCount t p = 0 := by
  refine Finset.sum_eq_zero fun i hi => ?_
  obtain ⟨h1, h2⟩ := Finset.mem_Icc.mp hi
  rw [tally, Option.any_some, h i h1 h2, Bool.and_false, Bool.toNat_false]

/-- An element of the array part is counted. -/
theorem arrayCount_pos {i : ℕ} (h1 : 1 ≤ i) (h2 : i ≤ t.sizearray)
    (hv : (t.arrayAt (i - 1)).isSome) (hp : p (.number i) = true) : 0 < arrayCount t p := by
  refine Finset.sum_pos' (fun _ _ => Nat.zero_le _) ⟨i, Finset.mem_Icc.mpr ⟨h1, h2⟩, ?_⟩
  rw [tally, hv, Option.any_some, hp]
  decide

/-- An element of the node part is counted. -/
theorem nodeCount_pos {node : ℕ → Node (Key σ π ω) V} {n i : ℕ} (hi : i < n) {k : Key σ π ω}
    (hk : (node i).key = some k) (hv : (node i).val.isSome) (hp : p k = true) :
    0 < nodeCount node n p := by
  refine Finset.sum_pos' (fun _ _ => Nat.zero_le _) ⟨i, Finset.mem_range.mpr hi, ?_⟩
  rw [tally, hv, hk, Option.any_some, hp]
  decide

end Count

/-! ### Counting -/

theorem countint_snd (key : Key σ π ω) (nums : ℕ → ℕ) (j : ℕ) :
    (countint key nums).2 j = nums j + (slice j key).toNat := by
  rw [countint]
  cases key with
  | number k =>
    by_cases h : 0 < k ∧ k ≤ MAXSIZE
    · simp only [arrayindex_number h.1 h.2, if_pos h, Function.update_apply, slice]
      by_cases hj : ceillog2 k.toNat = j
      · simp [h, hj]
      · simp [hj, Ne.symm hj]
    · have h' : ¬(0 < arrayindex (.number k : Key σ π ω) ∧
          arrayindex (.number k : Key σ π ω) ≤ MAXSIZE) := by
        rw [arrayindex]
        split_ifs
        · exact h
        · omega
      have hs : slice j (.number k : Key σ π ω) = false :=
        decide_eq_false fun hk => h ⟨hk.1, hk.2.1⟩
      simp [h', hs]
  | string s => rfl
  | lightuserdata p tag => rfl
  | other o => rfl

/-- The counts of the node part. -/
theorem numusehashLoop_spec (node : ℕ → Node (Key σ π ω) V) (i total ause : ℕ) (nums : ℕ → ℕ) :
    total + nodeCount node i (fun _ => true) ≤ (numusehashLoop node i total ause nums).1 ∧
      ∀ j, (numusehashLoop node i total ause nums).2.2 j = nums j + nodeCount node i (slice j) := by
  induction i generalizing total ause nums with
  | zero => simp [numusehashLoop, nodeCount]
  | succ i ih =>
    have hsucc : ∀ p, nodeCount node (i + 1) p =
        nodeCount node i p + tally (node i).val (node i).key p := fun p =>
      Finset.sum_range_succ _ i
    rw [numusehashLoop]
    cases hv : (node i).val with
    | none =>
      simp only [hsucc, hv]
      exact ih total ause nums
    | some v =>
      cases hk : (node i).key with
      | none =>
        obtain ⟨h1, h2⟩ := ih (total + 1) ause nums
        refine ⟨?_, fun j => ?_⟩
        · simp only [hsucc, hv, hk, tally, Option.any_none, Bool.and_false, Bool.toNat_false]
          omega
        · simp only [hsucc, hv, hk, tally, Option.any_none, Bool.and_false, Bool.toNat_false]
          exact h2 j
      | some key =>
        obtain ⟨h1, h2⟩ := ih (total + 1) (ause + (countint key nums).1) (countint key nums).2
        refine ⟨?_, fun j => ?_⟩
        · simp only [hsucc, hv, hk, tally, Option.isSome_some, Option.any_some, Bool.and_self,
            Bool.toNat_true]
          omega
        · simp only [hsucc, hv, hk, tally, Option.isSome_some, Option.any_some, Bool.true_and]
          have := h2 j
          rw [countint_snd] at this
          omega

theorem slice_eq_true {j : ℕ} {k : ℤ} :
    slice j (.number k : Key σ π ω) = true ↔ 0 < k ∧ k ≤ MAXSIZE ∧ ceillog2 k.toNat = j :=
  decide_eq_true_iff

theorem below_eq_true {j : ℕ} {k : ℤ} :
    below j (.number k : Key σ π ω) = true ↔ 0 < k ∧ k ≤ MAXSIZE ∧ ceillog2 k.toNat < j :=
  decide_eq_true_iff

theorem below_succ (j : ℕ) (k : Key σ π ω) :
    (below (j + 1) k).toNat = (below j k).toNat + (slice j k).toNat := by
  cases k with
  | number k =>
    by_cases h : 0 < k ∧ k ≤ MAXSIZE
    · simp only [below, slice, h, true_and]
      rcases Nat.lt_trichotomy (ceillog2 k.toNat) j with h | h | h
      · simp [h, h.ne, Nat.lt_succ_of_lt h]
      · simp [h]
      · simp [h.not_gt, h.ne', show ¬ceillog2 k.toNat < j + 1 by omega]
    · have h1 : ∀ i, below i (.number k : Key σ π ω) = false := fun i =>
        decide_eq_false fun hk => h ⟨hk.1, hk.2.1⟩
      have h2 : slice j (.number k : Key σ π ω) = false :=
        decide_eq_false fun hk => h ⟨hk.1, hk.2.1⟩
      rw [h1, h1, h2]
      rfl
  | string s => rfl
  | lightuserdata p tag => rfl
  | other o => rfl

/-- When the loop of `numusearray` ends, no slice is left. -/
theorem arrayCount_slices_end (hsize : t.sizearray ≤ MAXSIZE) {lg : ℕ}
    (hall : ∀ k, 1 ≤ k → k ≤ t.sizearray → ceillog2 k < lg) (ause : ℕ) (nums : ℕ → ℕ) :
    ause = ause + arrayCount t (fun k => !below lg k) ∧
      ∀ j, nums j = nums j + if lg ≤ j then arrayCount t (slice j) else 0 := by
  constructor
  · rw [arrayCount_eq_zero, Nat.add_zero]
    intro k h1 h2
    have h3 := hall k h1 h2
    simp only [Bool.not_eq_false']
    exact below_eq_true.mpr ⟨by omega, by omega, by simpa using h3⟩
  · intro j
    split_ifs with hj
    · rw [arrayCount_eq_zero, Nat.add_zero]
      intro k h1 h2
      have h3 := hall k h1 h2
      refine Bool.eq_false_iff.mpr fun e => ?_
      have h4 := (slice_eq_true.mp e).2.2
      rw [Int.toNat_natCast] at h4
      omega
    · rfl

/-- The counts of the array part, from the slice `lg` on. -/
theorem numusearrayLoop_spec (hsize : t.sizearray ≤ MAXSIZE) (turns lg i ause : ℕ) (nums : ℕ → ℕ)
    (hlg : lg + turns = MAXBITS + 1) (hi1 : 1 ≤ i)
    (hi : ∀ k, 1 ≤ k → k ≤ t.sizearray → (i ≤ k ↔ lg ≤ ceillog2 k)) :
    (numusearrayLoop t turns lg i ause nums).1 = ause + arrayCount t (fun k => !below lg k) ∧
      ∀ j, (numusearrayLoop t turns lg i ause nums).2 j =
        nums j + if lg ≤ j then arrayCount t (slice j) else 0 := by
  induction turns generalizing lg i ause nums with
  | zero =>
    refine arrayCount_slices_end hsize (fun k h1 h2 => ?_) ause nums
    have : ceillog2 k ≤ MAXBITS := ceillog2_le.mpr (h2.trans hsize)
    omega
  | succ turns ih =>
    rw [numusearrayLoop]
    split_ifs with hbreak
    · refine arrayCount_slices_end hsize (fun k h1 h2 => ?_) ause nums
      have := hi k h1 h2
      omega
    · have hlc : ((Finset.Icc i (min (2 ^ lg) t.sizearray)).filter fun k =>
          (t.arrayAt (k - 1)).isSome).card = arrayCount t (slice lg) := by
        rw [arrayCount_eq_card]
        congr 1
        ext k
        simp only [Finset.mem_filter, Finset.mem_Icc, slice_eq_true, Int.toNat_natCast]
        constructor
        · rintro ⟨⟨h1, h2⟩, h3⟩
          have h4 := (hi k (by omega) (by omega)).mp h1
          have h5 : ceillog2 k ≤ lg := ceillog2_le.mpr (by omega)
          exact ⟨⟨by omega, by omega⟩, h3, by omega, by omega, by omega⟩
        · rintro ⟨⟨h1, h2⟩, h3, -, -, h4⟩
          have h5 := (hi k h1 h2).mpr h4.ge
          have h6 : k ≤ 2 ^ lg := ceillog2_le.mp h4.le
          exact ⟨⟨by omega, by omega⟩, h3⟩
      have hi' : ∀ k, 1 ≤ k → k ≤ t.sizearray →
          (min (2 ^ lg) t.sizearray + 1 ≤ k ↔ lg + 1 ≤ ceillog2 k) := by
        intro k h1 h2
        rw [Nat.succ_le_iff, Nat.succ_le_iff, lt_ceillog2]
        omega
      obtain ⟨h1, h2⟩ := ih (lg + 1) (min (2 ^ lg) t.sizearray + 1)
        (ause + arrayCount t (slice lg)) (Function.update nums lg (nums lg + arrayCount t (slice lg)))
        (by omega) (Nat.le_add_left 1 _) hi'
      simp only [hlc]
      refine ⟨?_, fun j => ?_⟩
      · have hadd : arrayCount t (fun k => !below lg k) =
            arrayCount t (slice lg) + arrayCount t (fun k => !below (lg + 1) k) :=
          arrayCount_add fun k => by
            have := below_succ lg k
            revert this
            cases below (lg + 1) k <;> cases below lg k <;> cases slice lg k <;> decide
        rw [h1, hadd]
        omega
      · rw [h2 j, Function.update_apply]
        by_cases hj : j = lg
        · subst hj
          simp
        · rw [if_neg hj]
          congr 1
          have : lg + 1 ≤ j ↔ lg ≤ j := by omega
          simp only [this]

/-- The counts of the array part. -/
theorem numusearray_spec (hsize : t.sizearray ≤ MAXSIZE) :
    (numusearray t fun _ => 0).1 = arrayCount t (fun _ => true) ∧
      ∀ j, (numusearray t fun _ => 0).2 j = arrayCount t (slice j) := by
  obtain ⟨h1, h2⟩ := numusearrayLoop_spec hsize (MAXBITS + 1) 0 1 0 (fun _ => 0)
    (Nat.zero_add _) le_rfl fun k h1 _ => ⟨fun _ => Nat.zero_le _, fun _ => h1⟩
  constructor
  · rw [numusearray, h1, Nat.zero_add]
    congr 1
    funext k
    cases k with
    | number k => simp [below]
    | string s => rfl
    | lightuserdata p tag => rfl
    | other o => rfl
  · intro j
    rw [numusearray, h2 j]
    simp

/-! ### The new sizes -/

section Sizes

variable {ek : Option (Key σ π ω)}

theorem inRange_eq_true {n : ℕ} {k : ℤ} :
    inRange n (.number k : Key σ π ω) = true ↔ 0 < k ∧ k ≤ n :=
  decide_eq_true_iff

theorem exists_of_inRange {n : ℕ} {key : Key σ π ω} (h : inRange n key = true) :
    ∃ k : ℤ, key = .number k ∧ 0 < k ∧ k ≤ n := by
  cases key with
  | number k => exact ⟨k, rfl, inRange_eq_true.mp h⟩
  | string s => exact absurd h (by simp [inRange])
  | lightuserdata p tag => exact absurd h (by simp [inRange])
  | other o => exact absurd h (by simp [inRange])

theorem inRange_zero (k : Key σ π ω) : inRange 0 k = false :=
  Bool.eq_false_iff.mpr fun h => by
    obtain ⟨k, -, h1, h2⟩ := exists_of_inRange h
    omega

theorem below_succ_eq_inRange {i : ℕ} (hi : i ≤ MAXBITS) :
    (below (i + 1) : Key σ π ω → Bool) = inRange (2 ^ i) := by
  have hpow : 2 ^ i ≤ MAXSIZE := Nat.pow_le_pow_right (by decide) hi
  funext key
  cases key with
  | number k =>
    refine Bool.eq_iff_iff.mpr ?_
    rw [below_eq_true, inRange_eq_true, Nat.lt_succ_iff, ceillog2_le]
    constructor
    · rintro ⟨h1, -, h2⟩
      exact ⟨h1, by omega⟩
    · rintro ⟨h1, h2⟩
      exact ⟨h1, by omega, by omega⟩
  | string s => rfl
  | lightuserdata p tag => rfl
  | other o => rfl

/-- The loop of `computesizes` counts the elements below each power of two. -/
theorem computesizesLoop_spec {nums : ℕ → ℕ} (hnums : ∀ j, nums j = count t ek (slice j))
    (narray turns i a na n : ℕ) (hturns : i + turns = MAXBITS + 1) (ha : a = count t ek (below i))
    (hna : na = count t ek (inRange n)) :
    (computesizesLoop nums narray turns i a na n).2 =
      count t ek (inRange (computesizesLoop nums narray turns i a na n).1) := by
  induction turns generalizing i a na n with
  | zero => exact hna
  | succ turns ih =>
    have ha' : (if nums i > 0 then a + nums i else a) = count t ek (below (i + 1)) := by
      rw [count_add (below_succ i), ← ha, ← hnums]
      split_ifs <;> omega
    have hpow : count t ek (below (i + 1)) = count t ek (inRange (2 ^ i)) := by
      rw [below_succ_eq_inRange (by omega)]
    rw [computesizesLoop]
    by_cases h1 : 2 ^ i / 2 < narray
    · rw [if_pos h1]
      simp only [ha']
      by_cases h2 : nums i > 0 ∧ count t ek (below (i + 1)) > 2 ^ i / 2
      · simp only [if_pos h2]
        split_ifs
        · exact hpow
        · exact ih (i + 1) _ _ _ (by omega) rfl hpow
      · simp only [if_neg h2]
        split_ifs
        · exact hna
        · exact ih (i + 1) _ _ _ (by omega) rfl hna
    · rw [if_neg h1]
      exact hna

/-- The elements that go to the array part. -/
theorem computesizes_spec {nums : ℕ → ℕ} (hnums : ∀ j, nums j = count t ek (slice j))
    (narray : ℕ) :
    (computesizes nums narray).2 = count t ek (inRange (computesizes nums narray).1) := by
  have hzero : ∀ p : Key σ π ω → Bool, (∀ k, p k = false) → 0 = count t ek p := by
    intro p hp
    obtain rfl : p = fun _ => false := funext hp
    have hadd : count t ek (fun _ => false) =
        count t ek (fun _ => false) + count t ek (fun _ => false) := count_add fun _ => rfl
    omega
  refine computesizesLoop_spec hnums narray (MAXBITS + 1) 0 0 0 0 (Nat.zero_add _) (hzero _ ?_)
    (hzero _ inRange_zero)
  intro key
  cases key with
  | number k => exact decide_eq_false fun h => absurd h.2.2 (Nat.not_lt_zero _)
  | string s => rfl
  | lightuserdata p tag => rfl
  | other o => rfl

theorem adjustLoop_spec (present : ℕ → Bool) (turns size : ℕ) :
    size ≤ adjustLoop present turns size ∧
      (∀ k, size < k → k ≤ adjustLoop present turns size → present k = true) ∧
      (adjustLoop present turns size < size + turns →
        present (adjustLoop present turns size + 1) = false) := by
  induction turns generalizing size with
  | zero => exact ⟨le_rfl, fun k h1 h2 => absurd h2 (by rw [adjustLoop]; omega), fun h => by
      rw [adjustLoop] at h
      omega⟩
  | succ turns ih =>
    rw [adjustLoop]
    split_ifs with h
    · obtain ⟨h1, h2, h3⟩ := ih (size + 1)
      refine ⟨by omega, fun k hk1 hk2 => ?_, fun hlt => h3 (by omega)⟩
      by_cases e : k = size + 1
      · rw [e, h]
      · exact h2 k (by omega) hk2
    · exact ⟨le_rfl, fun k h1 h2 => absurd h2 (by omega), fun _ => by simpa using h⟩

variable [DecidableEq σ] [DecidableEq π] [DecidableEq ω]

theorem inRange_succ (k : ℕ) (key : Key σ π ω) :
    (inRange (k + 1) key).toNat =
      (inRange k key).toNat + (decide (key = .number (k + 1))).toNat := by
  cases key with
  | number n =>
    simp only [inRange, Key.number.injEq]
    rcases Int.lt_trichotomy n (k + 1) with h | h | h
    · simp [h.ne, show n ≤ k by omega, show n ≤ (k : ℤ) + 1 by omega]
    · simp [h, show (0 : ℤ) < k + 1 by omega]
    · simp [h.ne', show ¬n ≤ k by omega, show ¬n ≤ (k : ℤ) + 1 by omega]
  | string s => rfl
  | lightuserdata p tag => rfl
  | other o => rfl

/-- An element of the array part leaves the outside when the range grows over it. -/
theorem arrayCount_outside_succ {j : ℕ} (hj : j < t.sizearray) :
    arrayCount t (fun k => !inRange (j + 1) k) + (t.arrayAt j).isSome.toNat ≤
      arrayCount t (fun k => !inRange j k) := by
  have hadd : ∀ k : Key σ π ω, (!inRange j k).toNat =
      (!inRange (j + 1) k).toNat + (decide (k = .number (j + 1))).toNat := by
    intro k
    have := inRange_succ j k
    revert this
    cases inRange (j + 1) k <;> cases inRange j k <;>
      cases decide (k = Key.number ((j : ℤ) + 1)) <;> decide
  rw [arrayCount_add hadd]
  refine Nat.add_le_add_left ?_ _
  cases hv : t.arrayAt j with
  | none => exact Nat.zero_le _
  | some v => exact arrayCount_pos (Nat.succ_pos j) hj (by simp [hv]) (by simp)

/-- An index in use is counted. -/
theorem count_inRange_succ (h : Nodes hash t) {tbound : Bool} {ekindex : ℤ} {k : ℕ}
    (hek : ekindex = k + 1 → ek = some (.number (k + 1)))
    (hused : indexUsed hash t tbound ekindex (k + 1) = true) :
    count t ek (inRange k) + 1 ≤ count t ek (inRange (k + 1)) := by
  rw [count_add (inRange_succ k)]
  set p : Key σ π ω → Bool := fun key => decide (key = .number (k + 1)) with hp
  have hpk : p (.number (k + 1)) = true := decide_eq_true rfl
  refine Nat.add_le_add_left (Nat.succ_le_of_lt ?_) _
  rw [count]
  rcases Bool.or_eq_true _ _ |>.mp hused with h1 | h1
  · have hek' := hek (by simpa using (of_decide_eq_true h1).symm)
    simp [hek', hpk]
  · obtain ⟨-, h1⟩ := Bool.and_eq_true _ _ |>.mp h1
    rw [luaH_getnum] at h1
    split_ifs at h1 with h2
    · have h3 : ((k + 1 : ℕ) - 1 : ℤ).toNat = k + 1 - 1 := by omega
      rw [h3] at h1
      have := arrayCount_pos (p := p) (by omega) (by omega) h1 (by simpa using hpk)
      omega
    · obtain ⟨v, hv⟩ := Option.isSome_iff_exists.mp h1
      obtain ⟨i, hi, hk, hv⟩ := h.value_searchChain.mp hv
      have := nodeCount_pos (p := p) hi hk (by rw [hv]; rfl) (by simpa using hpk)
      omega

/-- `adjustasize` stops at a boundary, and passes only indices in use. -/
theorem adjustasize_spec (h : Nodes hash t) (ek : Option (Key σ π ω)) (size : ℕ) :
    size ≤ adjustasize hash t size ek ∧
      count t ek (inRange size) + (adjustasize hash t size ek - size) ≤
        count t ek (inRange (adjustasize hash t size ek)) ∧
      (∀ key, ek = some key → arrayindex key ≠ adjustasize hash t size ek + 1) ∧
      t.value (luaH_getnum hash t (adjustasize hash t size ek + 1)) = none := by
  set tbound : Bool := decide (t.sizenode ≠ 0 ∨ size < t.sizearray) with htb
  set ekindex : ℤ := ek.elim (-1) arrayindex with heki
  set r := adjustasize hash t size ek with hadj
  have hr : r = adjustLoop (indexUsed hash t tbound ekindex) (t.sizearray + t.sizenode + 2) size := by
    cases ek <;> rfl
  obtain ⟨h1, h2, h3⟩ := adjustLoop_spec (indexUsed hash t tbound ekindex)
    (t.sizearray + t.sizenode + 2) size
  rw [← hr] at h1 h2 h3
  have hek : ∀ k : ℕ, ekindex = k + 1 → ek = some (.number (k + 1)) := by
    intro k hk
    cases ek with
    | none => rw [heki] at hk; simp at hk; omega
    | some key =>
      have hk' : arrayindex key = k + 1 := hk
      rw [eq_number_of_arrayindex key (by omega), hk']
  have hgrow : ∀ d, size + d ≤ r →
      count t ek (inRange size) + d ≤ count t ek (inRange (size + d)) := by
    intro d
    induction d with
    | zero => exact fun _ => le_rfl
    | succ d ih =>
      intro hd
      have := count_inRange_succ (k := size + d) h (hek _) (h2 _ (by omega) (by omega))
      exact le_trans (Nat.add_le_add_right (ih (by omega)) 1) this
  have hcount : count t ek (inRange size) + (r - size) ≤ count t ek (inRange r) := by
    have := hgrow (r - size) (by omega)
    rwa [Nat.add_sub_cancel' h1] at this
  have hbound := count_le (t := t) ek (inRange r)
  have hfalse := h3 (by omega)
  rw [indexUsed, Bool.or_eq_false_iff] at hfalse
  refine ⟨h1, hcount, fun key hkey e => ?_, ?_⟩
  · have hne := of_decide_eq_false hfalse.1
    subst hkey
    exact hne (by rw [heki]; simp [e])
  · rcases (Bool.and_eq_false_iff.mp hfalse.2) with hb | hb
    · -- there are no nodes, and the index is behind the array part
      have hb' := of_decide_eq_false hb
      rw [not_or, not_not, not_lt] at hb'
      rw [luaH_getnum, if_neg (by omega), searchChain, if_pos hb'.1]
      rfl
    · simpa using hb

/-- `rehash` in two steps: it counts, and then it chooses the sizes. -/
theorem rehashSizes_eq (hash : Key σ π ω → ℕ) (hsize : t.sizearray ≤ MAXSIZE) (key : Key σ π ω) :
    ∃ total nums narray, count t (some key) (fun _ => true) ≤ total ∧
      (∀ j, nums j = count t (some key) (slice j)) ∧
      rehashSizes hash t key =
        let sizes := computesizes nums narray
        let nadjusted := adjustasize hash t sizes.1 (some key)
        if nadjusted - sizes.1 ≠ 0 then
          (adjustasize hash t (nadjusted + (nadjusted - sizes.1)) (some key),
            total - sizes.2 - (nadjusted - sizes.1))
        else (sizes.1, total - sizes.2) := by
  obtain ⟨ha1, ha2⟩ := numusearray_spec hsize
  let array := numusearray t fun _ => 0
  let nodes := numusehashLoop t.node t.sizenode 0 0 array.2
  have hnodes : 0 + nodeCount t.node t.sizenode (fun _ => true) ≤ nodes.1 ∧
      ∀ j, nodes.2.2 j = array.2 j + nodeCount t.node t.sizenode (slice j) :=
    numusehashLoop_spec t.node t.sizenode 0 0 array.2
  obtain ⟨hn1, hn2⟩ := hnodes
  let extra := match key with
    | .number _ => countint key nodes.2.2
    | _ => (0, nodes.2.2)
  have hextra : ∀ j, extra.2 j = nodes.2.2 j + (slice j key).toNat := by
    intro j
    cases key with
    | number k => exact countint_snd _ _ j
    | string s => rfl
    | lightuserdata p tag => rfl
    | other o => rfl
  refine ⟨array.1 + nodes.1 + 1, extra.2, array.1 + nodes.2.1 + extra.1, ?_, fun j => ?_, rfl⟩
  · rw [count, ha1]
    have : (Option.any (fun _ => true) (some key)).toNat = 1 := rfl
    omega
  · rw [hextra, hn2, ha2, count, Option.any_some]

/-- The elements that do not go to the array part fit the new node part, and the new size of the
array part is a boundary. -/
theorem rehashSizes_spec (h : Nodes hash t) (hsize : t.sizearray ≤ MAXSIZE) (key : Key σ π ω) :
    count t (some key) (fun k => !inRange (rehashSizes hash t key).1 k) ≤
        (rehashSizes hash t key).2 ∧
      arrayindex key ≠ (rehashSizes hash t key).1 + 1 ∧
      t.value (luaH_getnum hash t ((rehashSizes hash t key).1 + 1)) = none := by
  obtain ⟨total, nums, narray, htotal, hnums, heq⟩ := rehashSizes_eq hash hsize key
  have hna := computesizes_spec hnums narray
  rw [heq]
  set n := (computesizes nums narray).1 with hn
  set na := (computesizes nums narray).2 with hna'
  obtain ⟨h1, h2, h3, h4⟩ := adjustasize_spec h (some key) n
  set m := adjustasize hash t n (some key) with hm
  -- the elements outside of an array part of a size, given those inside
  have hout : ∀ r x, count t (some key) (inRange r) ≥ x →
      count t (some key) (fun k => !inRange r k) ≤ total - x := by
    intro r x hx
    have := count_compl t (some key) (inRange r)
    omega
  dsimp only
  split_ifs with hextra
  · obtain ⟨h1', h2', h3', h4'⟩ := adjustasize_spec h (some key) (m + (m - n))
    refine ⟨?_, h3' key rfl, h4'⟩
    have hle : count t (some key) (inRange m) ≤
        count t (some key) (inRange (adjustasize hash t (m + (m - n)) (some key))) := by
      refine count_mono fun k hk => ?_
      obtain ⟨k, rfl, hk1, hk2⟩ := exists_of_inRange hk
      exact inRange_eq_true.mpr ⟨hk1, by omega⟩
    have := hout (adjustasize hash t (m + (m - n)) (some key)) (na + (m - n)) (by omega)
    rwa [← Nat.sub_sub] at this
  · have hextra' : ¬m - n ≠ 0 := hextra
    have hmn : m = n := by omega
    rw [hmn] at h3 h4
    exact ⟨hout n na hna.le, h3 key rfl, h4⟩

end Sizes

end Table

end Jaci
