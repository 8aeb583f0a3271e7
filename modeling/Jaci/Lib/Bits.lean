import Jaci.Lib.Wire

/-!
# Bit strings

A bit string has its most significant bit first.

* `Bits.ofNat` : the low bits of a number, and `Bits.ofNat_add`, which splits them;
* `Bits.ofBytes` : the bits of a byte string, and `Bits.ofBytes_prefix`, which finds it again;
* `Bits.groups` : groups of equally many bits, the last one filled up with zeros.
-/

namespace Bits

open Wire

/-- The low `k` bits of `n`. -/
def ofNat : ℕ → ℕ → List Bool
  | 0, _ => []
  | k + 1, n => n.testBit k :: ofNat k n

/-- The number of a bit string. -/
def toNat (bits : List Bool) : ℕ := bits.foldl (fun n b => 2 * n + b.toNat) 0

/-- The bits of a byte string. -/
def ofBytes (s : Bytes) : List Bool := s.flatMap fun b => ofNat 8 b.toNat

/-- Groups of `k + 1` bits; the last one is filled up with zeros. -/
def groups (k : ℕ) : List Bool → List (List Bool)
  | [] => []
  | b :: bits => ((b :: bits).take (k + 1)).rightpad (k + 1) false :: groups k (bits.drop k)
termination_by bits => bits.length
decreasing_by simp only [List.length_drop, List.length_cons]; omega

/-! ### Numbers -/

@[simp] theorem length_ofNat (k n : ℕ) : (ofNat k n).length = k := by
  induction k with
  | zero => rfl
  | succ k ih => rw [ofNat, List.length_cons, ih]

theorem ofNat_congr {k m n : ℕ} (h : ∀ i < k, m.testBit i = n.testBit i) :
    ofNat k m = ofNat k n := by
  induction k with
  | zero => rfl
  | succ k ih => rw [ofNat, ofNat, h k k.lt_succ_self, ih fun i hi => h i (by omega)]

theorem ofNat_mod {k j : ℕ} (h : k ≤ j) (n : ℕ) : ofNat k (n % 2 ^ j) = ofNat k n :=
  ofNat_congr fun i hi => by
    rw [Nat.testBit_mod_two_pow, decide_eq_true (by omega), Bool.true_and]

/-- The bits above and below a place. -/
theorem ofNat_add (j k n : ℕ) : ofNat (j + k) n = ofNat j (n >>> k) ++ ofNat k n := by
  induction j with
  | zero => rw [Nat.zero_add, ofNat, List.nil_append]
  | succ j ih =>
    rw [Nat.succ_add, ofNat, ofNat, ih, Nat.testBit_shiftRight, Nat.add_comm k j,
      List.cons_append]

/-- A number shifted to make room for the low bits. -/
theorem ofNat_shiftLeft_or {j k n low : ℕ} (h : low < 2 ^ k) :
    ofNat (j + k) (n <<< k ||| low) = ofNat j n ++ ofNat k low := by
  rw [ofNat_add]
  congr 1
  · refine ofNat_congr fun i hi => ?_
    rw [Nat.testBit_shiftRight, Nat.testBit_or, Nat.testBit_shiftLeft,
      Nat.testBit_lt_two_pow (h.trans_le (Nat.pow_le_pow_right (by omega) (Nat.le_add_right k i))),
      decide_eq_true (Nat.le_add_right k i), Nat.add_sub_cancel_left, Bool.or_false, Bool.true_and]
  · refine ofNat_congr fun i hi => ?_
    rw [Nat.testBit_or, Nat.testBit_shiftLeft, decide_eq_false (by omega), Bool.false_and,
      Bool.false_or]

theorem ofNat_zero (k : ℕ) : ofNat k 0 = List.replicate k false := by
  induction k with
  | zero => rfl
  | succ k ih => rw [ofNat, ih, Nat.zero_testBit, List.replicate_succ]

theorem foldl_ofNat (k n a : ℕ) :
    (ofNat k n).foldl (fun n b => 2 * n + b.toNat) a = a * 2 ^ k + n % 2 ^ k := by
  induction k generalizing a with
  | zero => rw [ofNat, List.foldl_nil, pow_zero, Nat.mod_one, Nat.mul_one, Nat.add_zero]
  | succ k ih =>
    rw [ofNat, List.foldl_cons, ih, Nat.toNat_testBit, Nat.mod_pow_succ, pow_succ]
    ring

@[simp] theorem toNat_ofNat (k n : ℕ) : toNat (ofNat k n) = n % 2 ^ k := by
  rw [toNat, foldl_ofNat, Nat.zero_mul, Nat.zero_add]

theorem toNat_append (bits : List Bool) (b : Bool) :
    toNat (bits ++ [b]) = 2 * toNat bits + b.toNat := by
  rw [toNat, List.foldl_append]
  rfl

theorem ofNat_toNat (bits : List Bool) : ofNat bits.length (toNat bits) = bits := by
  induction bits using List.reverseRecOn with
  | nil => rfl
  | append_singleton bits b ih =>
    have hhigh : (2 * toNat bits + b.toNat) >>> 1 = toNat bits := by
      have := b.toNat_lt
      rw [Nat.shiftRight_one]
      omega
    have hlow : (2 * toNat bits + b.toNat).testBit 0 = b := by
      cases b <;> simp [Nat.testBit_zero]
    rw [List.length_append, List.length_singleton, toNat_append, ofNat_add, hhigh, ih, ofNat, ofNat,
      hlow]

/-! ### Bytes -/

@[simp] theorem ofBytes_cons (b : UInt8) (s : Bytes) :
    ofBytes (b :: s) = ofNat 8 b.toNat ++ ofBytes s := rfl

theorem ofBytes_append (s t : Bytes) : ofBytes (s ++ t) = ofBytes s ++ ofBytes t :=
  List.flatMap_append

@[simp] theorem length_ofBytes (s : Bytes) : (ofBytes s).length = 8 * s.length := by
  induction s with
  | nil => rfl
  | cons b s ih => rw [ofBytes_cons, List.length_append, length_ofNat, ih, List.length_cons]; ring

theorem ofBytes_inj {s t : Bytes} (hlength : s.length = t.length) (h : ofBytes s = ofBytes t) :
    s = t := by
  induction s generalizing t with
  | nil => exact (List.length_eq_zero_iff.1 hlength.symm).symm
  | cons b s ih =>
    obtain ⟨c, t, rfl⟩ := List.exists_cons_of_length_eq_add_one hlength.symm
    rw [ofBytes_cons, ofBytes_cons] at h
    obtain ⟨hb, hs⟩ := List.append_inj h (by rw [length_ofNat, length_ofNat])
    have hbc := congrArg toNat hb
    rw [toNat_ofNat, toNat_ofNat, Nat.mod_eq_of_lt b.toNat_lt, Nat.mod_eq_of_lt c.toNat_lt] at hbc
    rw [UInt8.toNat_inj.1 hbc, ih (Nat.succ.inj hlength) hs]

/-- Two byte strings whose bits are followed by less than a byte are equal. -/
theorem ofBytes_prefix {s t : Bytes} {p q : List Bool} (h : ofBytes s ++ p = ofBytes t ++ q)
    (hp : p.length < 8) (hq : q.length < 8) : s = t := by
  have hlength := congrArg List.length h
  rw [List.length_append, List.length_append, length_ofBytes, length_ofBytes] at hlength
  have hst : s.length = t.length := by omega
  refine ofBytes_inj hst (List.append_inj_left h ?_)
  rw [length_ofBytes, length_ofBytes, hst]

/-! ### Groups -/

@[simp] theorem groups_nil (k : ℕ) : groups k [] = [] := by rw [groups]

theorem groups_append {k : ℕ} {g : List Bool} (h : g.length = k + 1) (bits : List Bool) :
    groups k (g ++ bits) = g :: groups k bits := by
  obtain ⟨b, g, rfl⟩ := List.exists_cons_of_length_eq_add_one h
  have hg := Nat.succ.inj h
  rw [List.cons_append, groups, ← List.cons_append, List.take_left' h, List.drop_left' hg,
    List.rightpad, h, Nat.sub_self, List.replicate_zero, List.append_nil]

theorem groups_of_length_le {k : ℕ} {g : List Bool} (hpos : g ≠ []) (h : g.length ≤ k + 1) :
    groups k g = [g ++ List.replicate (k + 1 - g.length) false] := by
  obtain ⟨b, g, rfl⟩ := List.exists_cons_of_ne_nil hpos
  rw [groups, List.take_of_length_le h, List.drop_of_length_le (Nat.le_of_succ_le_succ h),
    groups_nil, List.rightpad]

/-- The groups of bits that zeros fill up to whole groups. -/
theorem groups_eq_take {k z : ℕ} {bits : List Bool} {gs : List (List Bool)}
    (hgs : ∀ g ∈ gs, g.length = k + 1) (h : bits ++ List.replicate z false = gs.flatten) :
    groups k bits = gs.take ((bits.length + k) / (k + 1)) := by
  induction gs generalizing bits with
  | nil =>
    obtain ⟨rfl, -⟩ := List.append_eq_nil_iff.1 h
    rw [groups_nil, List.take_nil]
  | cons g gs ih =>
    have hg := hgs g List.mem_cons_self
    rw [List.flatten_cons] at h
    rcases Nat.le_total bits.length (k + 1) with hle | hge
    · rcases List.eq_nil_or_concat' bits with rfl | hne
      · rw [groups_nil, List.length_nil, Nat.zero_add, Nat.div_eq_of_lt k.lt_succ_self,
          List.take_zero]
      · have hpos : bits ≠ [] := by rintro rfl; obtain ⟨_, _, h⟩ := hne; simp at h
        have hlen := congrArg List.length h
        rw [List.length_append, List.length_append, List.length_replicate, hg] at hlen
        have hlt := List.length_pos_iff.2 hpos
        have htake := congrArg (List.take (k + 1)) h
        rw [List.take_append, List.take_of_length_le hle, List.take_replicate,
          List.take_left' hg, Nat.min_eq_left (by omega)] at htake
        rw [groups_of_length_le hpos hle, htake, show bits.length + k = k + 1 + (bits.length - 1) by
          omega, Nat.add_div_left _ (by omega), Nat.div_eq_of_lt (by omega), List.take_succ_cons,
          List.take_zero]
    · obtain ⟨rest, rfl⟩ := List.prefix_of_prefix_length_le ⟨gs.flatten, rfl⟩ ⟨_, h⟩ (by omega)
      rw [List.append_assoc, List.append_cancel_left_eq] at h
      rw [groups_append hg, ih (fun g hg => hgs g (List.mem_cons_of_mem _ hg)) h,
        List.length_append, hg, Nat.add_assoc, Nat.add_div_left _ k.succ_pos, List.take_succ_cons]

theorem length_of_mem_groups {k : ℕ} {g bits : List Bool} (h : g ∈ groups k bits) :
    g.length = k + 1 := by
  induction bits using groups.induct k with
  | case1 => rw [groups_nil] at h; exact absurd h List.not_mem_nil
  | case2 b bits ih =>
    rw [groups, List.mem_cons] at h
    rcases h with rfl | h
    · rw [List.rightpad, List.length_append, List.length_replicate]
      have := (b :: bits).length_take_le (k + 1)
      omega
    · exact ih h

/-- The groups are the bits and less than a group of zeros. -/
theorem flatten_groups (k : ℕ) (bits : List Bool) :
    ∃ z ≤ k, (groups k bits).flatten = bits ++ List.replicate z false := by
  induction bits using groups.induct k with
  | case1 => exact ⟨0, k.zero_le, by rw [groups_nil]; rfl⟩
  | case2 b bits ih =>
    by_cases hlt : k + 1 ≤ (b :: bits).length
    · obtain ⟨z, hz, h⟩ := ih
      refine ⟨z, hz, ?_⟩
      rw [groups, List.flatten_cons, h, List.rightpad, List.length_take_of_le hlt, Nat.sub_self,
        List.replicate_zero, List.append_nil, ← List.append_assoc, ← List.drop_succ_cons (a := b),
        List.take_append_drop]
    · refine ⟨k + 1 - (b :: bits).length, ?_, ?_⟩
      · rw [List.length_cons]
        omega
      · rw [groups_of_length_le (List.cons_ne_nil _ _) (by omega), List.flatten_singleton]

end Bits
