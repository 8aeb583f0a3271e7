import Jaci.Builtins.Integer
import Mathlib.Tactic.Ring

/-!
# Fields of a 64-bit integer

`integer.extract` reads `w` bits from bit `f` on and `integer.replace` writes them.  The check that
the field ends inside of the word adds two arguments as `int64_t`, so that the sum wraps around for
a width near the end of the range.  Every shift is recorded with its amount.

* `fields_respect_iff` : the fields for which both functions respect the word;
* `extract_wide_accepted` : a field beyond the word that `integer.extract` accepts.
-/

namespace Jaci

namespace Integer

namespace Fields

/-! ### Recorded shifts -/

/-- A computation with the amounts of its shifts. -/
structure Shifted (α : Type) where
  result : Except Failure α
  amounts : List ℤ

namespace Shifted

/-- The computation of a value. -/
def pure {α : Type} (a : α) : Shifted α := ⟨.ok a, []⟩

/-- A computation after another one. -/
def bind {α β : Type} (x : Shifted α) (f : α → Shifted β) : Shifted β :=
  match x.result with
  | .ok a => ⟨(f a).result, x.amounts ++ (f a).amounts⟩
  | .error e => ⟨.error e, x.amounts⟩

instance : Monad Shifted where
  pure := Shifted.pure
  bind := Shifted.bind

/-- A computation without shifts. -/
def lift {α : Type} (x : Except Failure α) : Shifted α := ⟨x, []⟩

/-- All amounts are smaller than the word. -/
def InWord {α : Type} (x : Shifted α) : Prop := ∀ i ∈ x.amounts, 0 ≤ i ∧ i ≤ 63

variable {α β : Type} {f : α → Shifted β}

@[simp] theorem lift_ok_bind {a : α} : (lift (.ok a) >>= f) = f a := rfl

@[simp] theorem lift_error_bind {e : Failure} : (lift (.error e) >>= f) = lift (.error e) := rfl

@[simp] theorem result_lift {x : Except Failure α} : (lift x).result = x := rfl

theorem inWord_lift {x : Except Failure α} : (lift x).InWord := fun _ h => nomatch h

end Shifted

/-- `n >> i` of an `uint64_t`. -/
def shr (n i : I64) : Shifted I64 := ⟨.ok (n >>> i.toNat), [i.toInt]⟩

/-- `n << i` of an `uint64_t`. -/
def shl (n i : I64) : Shifted I64 := ⟨.ok (n <<< i.toNat), [i.toInt]⟩

/-! ### The library -/

section Library

variable (args : List Arg)

def mask64 (w : I64) : Shifted I64 := shr (BitVec.allOnes 64) (64 - w)

/-- The checks of the field of `w` bits from bit `f` on, where `f` is argument `narg`. -/
def checkField (narg : ℕ) (f w : I64) : Except Failure Unit :=
  if ¬ (0 ≤ f.toInt ∧ f.toInt ≤ 63) then .error (.argError narg "field cannot be negative")
  else if ¬ 0 < w.toInt then .error (.argError (narg + 1) "width must be positive")
  else if (f + w).toInt > 64 then .error (.error "trying to access non-existent bits")
  else .ok ()

/-- `int64_extract`, with its shifts. -/
def int64_extract : Shifted Res := do
  let n ← Shifted.lift (checkinteger64 args 1)
  let f ← Shifted.lift (checkinteger64 args 2)
  let w ← Shifted.lift (optinteger64 args 3 1)
  Shifted.lift (checkField 2 f w)
  let field ← shr n f
  let mask ← mask64 w
  return .integer (field &&& mask)

/-- `int64_replace`, with its shifts. -/
def int64_replace : Shifted Res := do
  let n ← Shifted.lift (checkinteger64 args 1)
  let r ← Shifted.lift (checkinteger64 args 2)
  let f ← Shifted.lift (checkinteger64 args 3)
  let w ← Shifted.lift (optinteger64 args 4 1)
  Shifted.lift (checkField 3 f w)
  let baseMask ← shr (BitVec.allOnes 64) (64 - w)
  let replacement ← shl (r &&& baseMask) f
  let field ← shl baseMask f
  let mask := BitVec.allOnes 64 ^^^ field
  return .integer (n &&& mask ||| replacement)

/-- Without the amounts this is the function of the library. -/
theorem result_int64_extract : (int64_extract args).result = Integer.int64_extract args := by
  unfold int64_extract Integer.int64_extract checkField
  rcases checkinteger64 args 1 with _ | n
  · rfl
  rcases checkinteger64 args 2 with _ | f
  · rfl
  rcases optinteger64 args 3 1 with _ | w
  · rfl
  have hok : ∀ {α β : Type} (a : α) (g : α → Except Failure β), (Except.ok a >>= g) = g a :=
    fun _ _ => rfl
  simp only [Shifted.lift_ok_bind, hok]
  split_ifs <;> rfl

end Library

/-! ### Calls -/

section Calls

variable (n r f : I64) (w : Option I64)

/-- The call `integer.extract(n, f, w)`, with or without a width. -/
def extract : Shifted Res := int64_extract (.integer n :: .integer f :: w.toList.map .integer)

/-- The call `integer.replace(n, r, f, w)`, with or without a width. -/
def replace : Shifted Res :=
  int64_replace (.integer n :: .integer r :: .integer f :: w.toList.map .integer)

/-- The mask of `w` bits. -/
def lowBits (w : I64) : I64 := BitVec.allOnes 64 >>> (64 - w).toNat

variable {n r f w}

/-- The end of the field is beyond the range of an `int64_t`. -/
def Wraps (f w : I64) : Prop := f.toInt ≤ 63 ∧ 0 ≤ f.toInt ∧ 2 ^ 63 ≤ f.toInt + w.toInt

theorem checkField_ok {narg : ℕ} {f w : I64} : checkField narg f w = .ok () ↔
    (0 ≤ f.toInt ∧ f.toInt ≤ 63) ∧ 0 < w.toInt ∧ ¬ (f + w).toInt > 64 := by
  unfold checkField
  split_ifs <;> simp_all

/-- A field that is accepted is inside of the word, unless its end wraps around. -/
theorem checkField_ok_iff {narg : ℕ} {f w : I64} : checkField narg f w = .ok () ↔
    Wraps f w ∨ 0 ≤ f.toInt ∧ 1 ≤ w.toInt ∧ f.toInt + w.toInt ≤ 64 := by
  have hw : w.toInt < 2 ^ 63 := w.toInt_lt
  rw [checkField_ok, BitVec.toInt_add, Wraps]
  by_cases h : (0 ≤ f.toInt ∧ f.toInt ≤ 63) ∧ 0 < w.toInt
  · obtain ⟨⟨h0, h1⟩, h2⟩ := h
    rw [Int.bmod_def]
    omega
  · constructor
    · rintro ⟨hf, hp, -⟩
      exact absurd ⟨hf, hp⟩ h
    · rintro (hr | hr) <;> exact absurd (by omega) h

theorem extract_accepted (h : checkField 2 f (w.getD 1) = .ok ()) :
    extract n f w = ⟨.ok (.integer (n >>> f.toNat &&& lowBits (w.getD 1))),
      [f.toInt, (64 - w.getD 1).toInt]⟩ := by
  have hw : optinteger64 (.integer n :: .integer f :: w.toList.map .integer) 3 1 =
      .ok (w.getD 1) := by cases w <;> rfl
  show (Shifted.lift (optinteger64 _ 3 1) >>= fun w => Shifted.lift (checkField 2 f w) >>= _) = _
  rw [hw, Shifted.lift_ok_bind, h]
  rfl

theorem extract_refused {e : Failure} (h : checkField 2 f (w.getD 1) = .error e) :
    extract n f w = Shifted.lift (.error e) := by
  have hw : optinteger64 (.integer n :: .integer f :: w.toList.map .integer) 3 1 =
      .ok (w.getD 1) := by cases w <;> rfl
  show (Shifted.lift (optinteger64 _ 3 1) >>= fun w => Shifted.lift (checkField 2 f w) >>= _) = _
  rw [hw, Shifted.lift_ok_bind, h]
  rfl

theorem replace_accepted (h : checkField 3 f (w.getD 1) = .ok ()) :
    replace n r f w = ⟨.ok (.integer (n &&& (BitVec.allOnes 64 ^^^ lowBits (w.getD 1) <<< f.toNat) |||
      (r &&& lowBits (w.getD 1)) <<< f.toNat)), [(64 - w.getD 1).toInt, f.toInt, f.toInt]⟩ := by
  have hw : optinteger64 (.integer n :: .integer r :: .integer f :: w.toList.map .integer) 4 1 =
      .ok (w.getD 1) := by cases w <;> rfl
  show (Shifted.lift (optinteger64 _ 4 1) >>= fun w => Shifted.lift (checkField 3 f w) >>= _) = _
  rw [hw, Shifted.lift_ok_bind, h]
  rfl

theorem replace_refused {e : Failure} (h : checkField 3 f (w.getD 1) = .error e) :
    replace n r f w = Shifted.lift (.error e) := by
  have hw : optinteger64 (.integer n :: .integer r :: .integer f :: w.toList.map .integer) 4 1 =
      .ok (w.getD 1) := by cases w <;> rfl
  show (Shifted.lift (optinteger64 _ 4 1) >>= fun w => Shifted.lift (checkField 3 f w) >>= _) = _
  rw [hw, Shifted.lift_ok_bind, h]
  rfl

end Calls

/-! ### The bits of a field -/

section Bits

variable {n r f w : I64}

/-- The field of `w` bits from bit `f` on lies inside of the word. -/
def InRange (f w : I64) : Prop := 0 ≤ f.toInt ∧ 1 ≤ w.toInt ∧ f.toInt + w.toInt ≤ 64

/-- In range the parameters are small natural numbers. -/
theorem InRange.toNat (h : InRange f w) : f.toInt = f.toNat ∧ w.toInt = w.toNat ∧
    (64 - w).toInt = 64 - w.toNat ∧ (64 - w).toNat = 64 - w.toNat ∧ 1 ≤ w.toNat ∧
    f.toNat + w.toNat ≤ 64 := by
  obtain ⟨hf, hw, hfw⟩ := h
  have hfn := BitVec.toInt_eq_toNat_of_lt (x := f)
  have hwn := BitVec.toInt_eq_toNat_of_lt (x := w)
  have hf' := BitVec.toInt_eq_toNat_cond f
  have hw' := BitVec.toInt_eq_toNat_cond w
  have hs : (64 - w).toNat = 64 - w.toNat := by
    rw [BitVec.toNat_sub]
    have : (64 : I64).toNat = 64 := rfl
    omega
  have hs' := BitVec.toInt_eq_toNat_cond (64 - w)
  omega

theorem getLsbD_lowBits (h : InRange f w) (i : ℕ) :
    (lowBits w).getLsbD i = decide (i < w.toNat) := by
  obtain ⟨-, -, -, hs, hpos, hle⟩ := h.toNat
  rw [lowBits, BitVec.getLsbD_ushiftRight, BitVec.getLsbD_allOnes, hs, decide_eq_decide]
  omega

/-- **Extraction.**  The result holds the bits of the field and nothing else. -/
theorem getLsbD_extract (h : InRange f w) (i : ℕ) :
    (n >>> f.toNat &&& lowBits w).getLsbD i =
      (decide (i < w.toNat) && n.getLsbD (f.toNat + i)) := by
  rw [BitVec.getLsbD_and, BitVec.getLsbD_ushiftRight, getLsbD_lowBits h, Bool.and_comm]

/-- The word with the low bits of `r` in the field. -/
def replaced (n r f w : I64) : I64 :=
  n &&& (BitVec.allOnes 64 ^^^ lowBits w <<< f.toNat) ||| (r &&& lowBits w) <<< f.toNat

/-- **Replacement.**  The field holds the low bits of `r`, the other bits are those of `n`. -/
theorem getLsbD_replaced (h : InRange f w) {i : ℕ} (hi : i < 64) :
    (replaced n r f w).getLsbD i =
      if f.toNat ≤ i ∧ i < f.toNat + w.toNat then r.getLsbD (i - f.toNat) else n.getLsbD i := by
  simp only [replaced, BitVec.getLsbD_or, BitVec.getLsbD_and, BitVec.getLsbD_xor,
    BitVec.getLsbD_allOnes, BitVec.getLsbD_shiftLeft, getLsbD_lowBits h, hi, decide_true,
    Bool.true_and]
  by_cases hlo : i < f.toNat
  · rw [if_neg (by omega)]
    simp [hlo]
  · by_cases hhi : i - f.toNat < w.toNat
    · rw [if_pos (by omega)]
      simp [hlo, hhi]
    · rw [if_neg (by omega)]
      simp [hlo, hhi]

/-- Reading the field back gives the low bits of what was written. -/
theorem extract_replaced (h : InRange f w) :
    (replaced n r f w >>> f.toNat &&& lowBits w).toNat = r.toNat % 2 ^ w.toNat := by
  obtain ⟨-, -, -, -, hpos, hle⟩ := h.toNat
  apply Nat.eq_of_testBit_eq
  intro i
  rw [BitVec.testBit_toNat, getLsbD_extract h, Nat.testBit_mod_two_pow, BitVec.testBit_toNat]
  by_cases hi : i < w.toNat
  · rw [getLsbD_replaced h (by omega), if_pos (by omega), Nat.add_sub_cancel_left]
  · simp [hi]

end Bits

/-! ### The word is respected -/

/-- What both functions promise of a field. -/
structure Respects (n r f : I64) (w : Option I64) : Prop where
  /-- An extraction without an error is the field of `n`. -/
  extract : ∀ v, (extract n f w).result = .ok v →
    InRange f (w.getD 1) ∧ (Fields.extract n f w).InWord ∧ ∃ x, v = .integer x ∧
      ∀ i, x.getLsbD i = (decide (i < (w.getD 1).toNat) && n.getLsbD (f.toNat + i))
  /-- A replacement without an error can be read back and changes the field only. -/
  replace : ∀ v, (replace n r f w).result = .ok v →
    InRange f (w.getD 1) ∧ (Fields.replace n r f w).InWord ∧ ∃ x, v = .integer x ∧
      (∃ y, (Fields.extract x f w).result = .ok (.integer y) ∧
        y.toNat = r.toNat % 2 ^ (w.getD 1).toNat) ∧
      ∀ i < 64, i < f.toNat ∨ f.toNat + (w.getD 1).toNat ≤ i → x.getLsbD i = n.getLsbD i

section Respect

variable {n r f : I64} {w : Option I64}

theorem InRange.amounts (h : InRange f (w.getD 1)) :
    (0 ≤ f.toInt ∧ f.toInt ≤ 63) ∧ 0 ≤ (64 - w.getD 1).toInt ∧ (64 - w.getD 1).toInt ≤ 63 := by
  obtain ⟨hf, -, hs, -, hpos, hle⟩ := h.toNat
  omega

theorem inRange_of_ok {narg : ℕ} (hw : ¬ Wraps f (w.getD 1))
    (h : checkField narg f (w.getD 1) = .ok ()) : InRange f (w.getD 1) :=
  (checkField_ok_iff.1 h).resolve_left hw

theorem InRange.ok {narg : ℕ} (h : InRange f (w.getD 1)) :
    checkField narg f (w.getD 1) = .ok () := checkField_ok_iff.2 (.inr h)

theorem extract_respects (hw : ¬ Wraps f (w.getD 1)) {v : Res}
    (h : (extract n f w).result = .ok v) :
    InRange f (w.getD 1) ∧ (extract n f w).InWord ∧ ∃ x, v = .integer x ∧
      ∀ i, x.getLsbD i = (decide (i < (w.getD 1).toNat) && n.getLsbD (f.toNat + i)) := by
  rcases hc : checkField 2 f (w.getD 1) with e | _
  · rw [extract_refused hc] at h
    cases h
  · have hr := inRange_of_ok hw hc
    rw [extract_accepted hc] at h ⊢
    cases h
    refine ⟨hr, fun i hi => ?_, _, rfl, getLsbD_extract hr⟩
    obtain ⟨hf, hs⟩ := hr.amounts
    rcases List.mem_cons.1 hi with rfl | hi
    · exact hf
    · exact List.mem_singleton.1 hi ▸ hs

theorem replace_respects (hw : ¬ Wraps f (w.getD 1)) {v : Res}
    (h : (replace n r f w).result = .ok v) :
    InRange f (w.getD 1) ∧ (replace n r f w).InWord ∧ ∃ x, v = .integer x ∧
      (∃ y, (extract x f w).result = .ok (.integer y) ∧
        y.toNat = r.toNat % 2 ^ (w.getD 1).toNat) ∧
      ∀ i < 64, i < f.toNat ∨ f.toNat + (w.getD 1).toNat ≤ i → x.getLsbD i = n.getLsbD i := by
  rcases hc : checkField 3 f (w.getD 1) with e | _
  · rw [replace_refused hc] at h
    cases h
  · have hr := inRange_of_ok hw hc
    rw [replace_accepted hc] at h ⊢
    cases h
    refine ⟨hr, fun i hi => ?_, replaced n r f (w.getD 1), rfl,
      ⟨_, by rw [extract_accepted hr.ok], extract_replaced hr⟩, fun i hi hout => ?_⟩
    · obtain ⟨hf, hs⟩ := hr.amounts
      simp only [List.mem_cons, List.not_mem_nil, or_false] at hi
      rcases hi with rfl | rfl | rfl
      exacts [hs, hf, hf]
    · rw [getLsbD_replaced hr hi, if_neg (by omega)]

end Respect

/-- **Fields.**  `integer.extract` and `integer.replace` respect the word, unless the end of the
field wraps around. -/
theorem fields_respect_iff (n r f : I64) (w : Option I64) :
    Respects n r f w ↔ ¬ Wraps f (w.getD 1) := by
  constructor
  · intro h hw
    -- a field whose end wraps around is accepted
    have hok := extract_accepted (n := n) (checkField_ok_iff.2 (.inl hw))
    obtain ⟨⟨-, -, hle⟩, -⟩ := h.extract _ (congrArg Shifted.result hok)
    have := hw.2.2
    omega
  · exact fun hw => ⟨fun v h => extract_respects hw h, fun v h => replace_respects hw h⟩

/-- The field of `2 ^ 63 - 1` bits from bit 1 on is accepted. -/
theorem extract_wide_accepted : ¬ ∀ (n f w : I64) (v : Res),
    (extract n f (some w)).result = .ok v → f.toInt + w.toInt ≤ 64 := by
  intro h
  have := h 5 1 (BitVec.intMax 64) (.integer (5 >>> 1 &&& lowBits (BitVec.intMax 64))) (by
    rw [extract_accepted (checkField_ok.2 (by decide))]
    rfl)
  revert this
  decide

end Fields

end Integer

end Jaci
