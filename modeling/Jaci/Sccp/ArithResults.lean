import Jaci.Sccp.ArithToK

/-!
# Arithmetic with a constant operand gives the same numbers

The visit of an instruction changes that instruction alone, and an instruction that was rewritten is
no arithmetic any more.  Whether it gives the same numbers as before depends on its opcode, on the
side of the constant and on the constant.

* `right_iff`, `left_iff` : the constants with which a rewriting gives the same numbers;
* `visitArith_right`, `visitArith_wrong` : one visit.
-/

namespace Jaci

namespace Sccp

open Double

/-! ### Instructions under changes -/

namespace BcFunction

variable {f : BcFunction} {op op' : BcOp}

/-- The opcode and the operands of an instruction. -/
def shape (f : BcFunction) (op : BcOp) : LuauOpcode × List BcOp := ((f.inst op).op, (f.inst op).ops)

theorem inst_modifyInst (g : BcInst → BcInst) : (f.modifyInst op g).inst op' =
    if op.index = op'.index ∧ op.index < f.instructions.length then g (f.inst op')
    else f.inst op' := by
  simp only [inst, modifyInst, List.getElem?_modify]
  by_cases h : op.index = op'.index
  · by_cases hlt : op'.index < f.instructions.length
    · simp [h, hlt]
    · simp [h, hlt]
  · simp [h]

theorem shape_modifyInst {g : BcInst → BcInst} (hg : ∀ x, (g x).op = x.op ∧ (g x).ops = x.ops) :
    (f.modifyInst op g).shape op' = f.shape op' := by
  simp only [shape, inst_modifyInst]
  split_ifs
  · rw [(hg _).1, (hg _).2]
  · rfl

/-- Two graphs that differ in their instructions and phis only, with the same number of
instructions. -/
structure Frame (f f' : BcFunction) : Prop where
  constants : f'.constants = f.constants
  immediates : f'.immediates = f.immediates
  blocks : f'.blocks = f.blocks
  length : f'.instructions.length = f.instructions.length

theorem Frame.refl : Frame f f := ⟨rfl, rfl, rfl, rfl⟩

theorem Frame.trans {f' f'' : BcFunction} (h : Frame f f') (h' : Frame f' f'') : Frame f f'' :=
  ⟨h'.constants.trans h.constants, h'.immediates.trans h.immediates, h'.blocks.trans h.blocks,
    h'.length.trans h.length⟩

theorem frame_modifyInst (g : BcInst → BcInst) : Frame f (f.modifyInst op g) :=
  ⟨rfl, rfl, rfl, List.length_modify _ _ _⟩

theorem recordUse_spec (usedOp user : BcOp) :
    Frame f (f.recordUse usedOp user) ∧ (f.recordUse usedOp user).shape op' = f.shape op' := by
  unfold recordUse
  split_ifs
  · exact ⟨frame_modifyInst _, shape_modifyInst fun _ => ⟨rfl, rfl⟩⟩
  · exact ⟨⟨rfl, rfl, rfl, rfl⟩, rfl⟩
  · exact ⟨.refl, rfl⟩

theorem eraseUse_spec (userOp usedOp : BcOp) :
    Frame f (f.eraseUse userOp usedOp) ∧ (f.eraseUse userOp usedOp).shape op' = f.shape op' := by
  unfold eraseUse
  split_ifs
  · exact ⟨frame_modifyInst _, shape_modifyInst fun _ => ⟨rfl, rfl⟩⟩
  · exact ⟨⟨rfl, rfl, rfl, rfl⟩, rfl⟩
  · exact ⟨.refl, rfl⟩

theorem foldl_eraseUse_spec (oldOps : List BcOp) :
    Frame f (oldOps.foldl (fun f oldOp => f.eraseUse op oldOp) f) ∧
      (oldOps.foldl (fun f oldOp => f.eraseUse op oldOp) f).shape op' = f.shape op' := by
  induction oldOps generalizing f with
  | nil => exact ⟨.refl, rfl⟩
  | cons oldOp oldOps ih =>
    obtain ⟨hframe, hshape⟩ := @eraseUse_spec f op' op oldOp
    obtain ⟨hframe', hshape'⟩ := ih (f := f.eraseUse op oldOp)
    exact ⟨hframe.trans hframe', hshape'.trans hshape⟩

/-- The operands of one instruction are extended. -/
theorem foldl_addOp_spec (newOps : List BcOp) (hlt : op.index < f.instructions.length) :
    Frame f (newOps.foldl (fun f newOp =>
      (f.modifyInst op fun x => { x with ops := x.ops ++ [newOp] }).recordUse newOp op) f) ∧
    (newOps.foldl (fun f newOp =>
      (f.modifyInst op fun x => { x with ops := x.ops ++ [newOp] }).recordUse newOp op) f).shape op' =
      if op.index = op'.index then ((f.shape op').1, (f.shape op').2 ++ newOps)
      else f.shape op' := by
  induction newOps generalizing f with
  | nil => exact ⟨.refl, by simp⟩
  | cons newOp newOps ih =>
    obtain ⟨hframe, hshape⟩ := @recordUse_spec
      (f.modifyInst op fun x => { x with ops := x.ops ++ [newOp] }) op' newOp op
    have hf := (@frame_modifyInst f op fun x =>
      { x with ops := x.ops ++ [newOp] }).trans hframe
    obtain ⟨hframe', hshape'⟩ := ih (by rw [hf.length]; exact hlt)
    refine ⟨hf.trans hframe', ?_⟩
    rw [List.foldl_cons, hshape', hshape]
    by_cases h : op.index = op'.index
    · simp [h, shape, inst_modifyInst, h ▸ hlt]
    · simp [h, shape, inst_modifyInst]

/-- **The rewriting of an instruction.**  It gets its opcode and operands, and the shapes of the
others stay. -/
theorem rewriteInst_spec (opcode : LuauOpcode) (newOps : List BcOp)
    (hlt : op.index < f.instructions.length) :
    Frame f (f.rewriteInst op opcode newOps) ∧ (f.rewriteInst op opcode newOps).shape op' =
      if op.index = op'.index then (opcode, newOps) else f.shape op' := by
  simp only [rewriteInst, setOps]
  have hframe₁ := @frame_modifyInst f op fun x => { x with op := opcode }
  have hshape₁ : (f.modifyInst op fun x => { x with op := opcode }).shape op' =
      if op.index = op'.index then (opcode, (f.inst op').ops) else f.shape op' := by
    by_cases h : op.index = op'.index
    · simp [h, shape, inst_modifyInst, h ▸ hlt]
    · simp [h, shape, inst_modifyInst]
  generalize (f.modifyInst op fun x => { x with op := opcode }) = f₁ at hframe₁ hshape₁ ⊢
  obtain ⟨hframe₂, hshape₂⟩ := @foldl_eraseUse_spec f₁ op op' (f₁.inst op).ops
  generalize (f₁.inst op).ops.foldl (fun f oldOp => f.eraseUse op oldOp) f₁ = f₂ at hframe₂ hshape₂ ⊢
  have hframe₃ := @frame_modifyInst f₂ op fun x => { x with ops := [] }
  have hlen₂ : op.index < f₂.instructions.length := by
    rwa [(hframe₁.trans hframe₂).length]
  have hshape₃ : (f₂.modifyInst op fun x => { x with ops := [] }).shape op' =
      if op.index = op'.index then ((f₂.shape op').1, []) else f₂.shape op' := by
    by_cases h : op.index = op'.index
    · simp [h, shape, inst_modifyInst, h ▸ hlen₂]
    · simp [h, shape, inst_modifyInst]
  generalize (f₂.modifyInst op fun x => { x with ops := [] }) = f₃ at hframe₃ hshape₃ ⊢
  have hframe := (hframe₁.trans hframe₂).trans hframe₃
  obtain ⟨hframe₄, hshape₄⟩ := @foldl_addOp_spec f₃ op op' newOps
    (by rwa [hframe.length])
  refine ⟨hframe.trans hframe₄, ?_⟩
  rw [hshape₄, hshape₃, hshape₂, hshape₁]
  by_cases h : op.index = op'.index <;> simp [h]

end BcFunction

/-! ### Numbers -/

section Numbers

variable (pow : Double → Double → Double) (sqrt : Double → Double)

/-- What is known of `pow` and `sqrt` of the C library. -/
structure IsLibm : Prop where
  pow_zero : ∀ x neg, pow x (zero neg) = fromInt 1
  /-- Every number to the power of 1 is that number. -/
  pow_one : ∀ x, pow x (fromInt 1) = x
  /-- A power of -inf whose exponent is positive and not an odd integer is +inf. -/
  pow_half : pow (inf true) half = inf false
  sqrt_neg : sqrt (inf true) = nan

/-- The number that an opcode with a constant operand gives. -/
def kNumber (kOpcode : LuauOpcode) (v x : Double) : Double :=
  match kOpcode with
  | .addK => v.add x
  | .subK => v.sub x
  | .mulK => v.mul x
  | .divK => v.div x
  | .modK => arith pow .mod v x
  | .powK => powK pow sqrt v x
  | .subRK => x.sub v
  | .divRK => x.div v
  | _ => nan

/-- The number after the rewriting, where `v` is the other operand, `x` the constant and `before`
the number before the rewriting. -/
def newNumber (op kOpcode : LuauOpcode) (v x before : Double) : Double :=
  if x.feq (zero false) then
    match op with
    | .add | .sub => v
    | .mul => fromInt 0
    | .pow => fromInt 1
    | _ => before
  else if x.feq (fromInt 1) then
    match op with
    | .mul | .pow | .div => v
    | _ => before
  else kNumber pow sqrt kOpcode v x

/-- The constants on the right with which the rewriting gives the same numbers. -/
def RightOk (op : LuauOpcode) (x : Double) : Prop :=
  match op with
  | .add => x ≠ zero false
  | .sub => x ≠ zero true
  | .mul => ∀ neg, x ≠ zero neg
  | .pow => x ≠ half ∧ (x = fromInt 2 → ∀ v, pow v x = v.mul v) ∧
    (x = fromInt 3 → ∀ v, pow v x = (v.mul v).mul v)
  | _ => True

/-- The constants on the left with which the rewriting gives the same numbers. -/
def LeftOk (op : LuauOpcode) (x : Double) : Prop :=
  match op with
  | .add => x ≠ zero false
  | .sub | .mul => ∀ neg, x ≠ zero neg
  | .div => x ≠ fromInt 1
  | _ => False

/-- The opcode with a constant on the left. -/
def leftOpcode : LuauOpcode → Option LuauOpcode
  | .add => some .addK
  | .sub => some .subRK
  | .mul => some .mulK
  | .div => some .divRK
  | _ => none

variable {pow sqrt}

theorem not_feq_zero_iff {x : Double} : ¬ x.feq (zero false) ↔ ∀ neg, x ≠ zero neg := by
  rw [feq_zero_iff, not_exists]

theorem half_ne_zero (neg : Bool) : half ≠ zero neg := by simp [half, zero, ofNat]

theorem half_ne_fromInt (n : ℤ) (h : n.natAbs ≤ 2 ^ 53) : half ≠ fromInt n := by
  rw [fromInt_eq h]
  intro heq
  injection heq with _ hq
  have h2 : ((2 * n.natAbs : ℕ) : ℚ) = (1 : ℕ) := by
    push_cast
    linarith
  have := Nat.cast_injective h2
  omega

theorem feq_iff {x y : Double} (hy : ∀ neg, y ≠ zero neg) (hnan : y ≠ nan) : x.feq y ↔ x = y := by
  refine ⟨fun h => eq_of_feq h hy, ?_⟩
  rintro rfl
  cases x <;> simp_all [feq]

theorem fromInt_ne_zero {n : ℤ} (h : n.natAbs ≤ 2 ^ 53) (hn : n ≠ 0) (neg : Bool) :
    fromInt n ≠ zero neg := by
  rw [fromInt_eq h]
  intro heq
  injection heq with _ hq
  exact hn (Int.natAbs_eq_zero.1 (Nat.cast_injective hq))

theorem fromInt_inj {m n : ℤ} (hm : m.natAbs ≤ 2 ^ 53) (hn : n.natAbs ≤ 2 ^ 53) (hm0 : 0 ≤ m)
    (hn0 : 0 ≤ n) (h : fromInt m = fromInt n) : m = n := by
  rw [fromInt_eq hm, fromInt_eq hn] at h
  injection h with _ hq
  have := Nat.cast_injective hq
  omega

/-- The special exponents of `LOP_POWK`. -/
theorem powK_eq (nb nk : Double) : powK pow sqrt nb nk =
    if nk = fromInt 2 then nb.mul nb
    else if nk = half then sqrt nb
    else if nk = fromInt 3 then (nb.mul nb).mul nb
    else pow nb nk := by
  have hint : ∀ {n : ℤ}, n.natAbs ≤ 2 ^ 53 → n ≠ 0 → (nk.feq (fromInt n) ↔ nk = fromInt n) :=
    fun h hn => feq_iff (fromInt_ne_zero h hn) (fromInt_ne_nan h)
  have hhalf : nk.feq half ↔ nk = half := feq_iff half_ne_zero (by simp [half])
  simp only [powK, hint (n := 2) (by norm_num) (by norm_num), hhalf,
    hint (n := 3) (by norm_num) (by norm_num)]

theorem powK_right_iff (h : IsLibm pow sqrt) (x : Double) :
    (∀ v, powK pow sqrt v x = pow v x) ↔ RightOk pow .pow x := by
  have h23 : fromInt 2 ≠ fromInt 3 := fun heq =>
    absurd (fromInt_inj (by norm_num) (by norm_num) (by norm_num) (by norm_num) heq) (by norm_num)
  have h2h : fromInt 2 ≠ half := (half_ne_fromInt 2 (by norm_num)).symm
  have h3h : fromInt 3 ≠ half := (half_ne_fromInt 3 (by norm_num)).symm
  simp only [powK_eq, RightOk]
  by_cases hx2 : x = fromInt 2
  · subst hx2
    simp [h23, h2h, eq_comm]
  by_cases hxh : x = half
  · subst hxh
    refine ⟨fun hall => ?_, fun hok => absurd rfl hok.1⟩
    -- the square root of -inf is not a number, its power is +inf
    have hinf := hall (inf true)
    rw [if_neg h2h.symm, if_pos rfl, h.sqrt_neg, h.pow_half] at hinf
    cases hinf
  by_cases hx3 : x = fromInt 3
  · subst hx3
    simp [h23.symm, h3h, eq_comm]
  · simp [hx2, hxh, hx3]

/-- A number is a zero, or 1, or one that gets an opcode with a constant operand. -/
theorem zero_one_or (x : Double) : (∃ neg, x = zero neg) ∨ x = fromInt 1 ∨
    ((∀ neg, x ≠ zero neg) ∧ x ≠ fromInt 1) := by
  by_cases h0 : ∃ neg, x = zero neg
  · exact .inl h0
  · by_cases h1 : x = fromInt 1
    · exact .inr (.inl h1)
    · exact .inr (.inr ⟨not_exists.1 h0, h1⟩)

section NewNumber

variable {op kOpcode : LuauOpcode} {v x before : Double}

theorem newNumber_zero (neg : Bool) : newNumber pow sqrt op kOpcode v (zero neg) before =
    match op with
    | .add | .sub => v
    | .mul => fromInt 0
    | .pow => fromInt 1
    | _ => before := if_pos (feq_zero_iff.2 ⟨neg, rfl⟩)

theorem newNumber_one : newNumber pow sqrt op kOpcode v (fromInt 1) before =
    match op with
    | .mul | .pow | .div => v
    | _ => before :=
  (if_neg (not_feq_zero_iff.2 fromInt_one_ne_zero)).trans (if_pos (feq_one_iff.2 rfl))

theorem newNumber_other (h0 : ∀ neg, x ≠ zero neg) (h1 : x ≠ fromInt 1) :
    newNumber pow sqrt op kOpcode v x before = kNumber pow sqrt kOpcode v x :=
  (if_neg (not_feq_zero_iff.2 h0)).trans (if_neg (feq_one_iff.not.2 h1))

end NewNumber

theorem zero_inj {a b : Bool} : zero a = zero b ↔ a = b := by
  constructor
  · intro h
    injection h
  · rintro rfl
    rfl

/-- `-0 + 0` is `0`. -/
theorem negZero_add_posZero : (zero true).add (zero false) = zero false := by
  show ofRat (true && false) (signed true ((0 : ℕ) : ℚ) + signed false ((0 : ℕ) : ℚ)) = _
  simp [signed, ofRat]

/-- **A constant on the right.** -/
theorem right_iff (h : IsLibm pow sqrt) {op kOpcode : LuauOpcode}
    (hop : arithToKOpcode op = some kOpcode) (x : Double) :
    (∀ v, newNumber pow sqrt op kOpcode v x (arith pow op v x) = arith pow op v x) ↔
      RightOk pow op x := by
  rcases zero_one_or x with ⟨neg, rfl⟩ | rfl | ⟨h0, h1⟩
  · simp only [newNumber_zero]
    cases op <;> cases hop <;> simp only [RightOk, arith]
    case add.refl =>
      cases neg
      · refine iff_of_false (fun hall => ?_) (by simp)
        have hz := hall (zero true)
        rw [negZero_add_posZero, zero_inj] at hz
        cases hz
      · exact iff_of_true (fun v => (add_negZero v).symm) (by simp [zero_inj])
    case sub.refl =>
      cases neg
      · exact iff_of_true (fun v => (sub_posZero v).symm) (by simp [zero_inj])
      · refine iff_of_false (fun hall => ?_) (by simp)
        have hz := hall (zero true)
        rw [show (zero true).sub (zero true) = zero false from negZero_add_posZero, zero_inj] at hz
        cases hz
    case mul.refl =>
      refine iff_of_false (fun hall => ?_) fun hne => hne neg rfl
      exact absurd (hall nan) (fromInt_ne_nan (by norm_num))
    case div.refl => exact iff_of_true (fun _ => trivial) trivial
    case mod.refl => exact iff_of_true (fun _ => trivial) trivial
    case pow.refl =>
      refine iff_of_true (fun v => (h.pow_zero v neg).symm) ⟨(half_ne_zero neg).symm, ?_, ?_⟩
      · exact fun heq => absurd heq.symm (fromInt_ne_zero (by norm_num) (by norm_num) neg)
      · exact fun heq => absurd heq.symm (fromInt_ne_zero (by norm_num) (by norm_num) neg)
  · simp only [newNumber_one]
    cases op <;> cases hop <;> simp only [RightOk, arith]
    case add.refl => exact iff_of_true (fun _ => trivial) (fromInt_one_ne_zero _)
    case sub.refl => exact iff_of_true (fun _ => trivial) (fromInt_one_ne_zero _)
    case mul.refl => exact iff_of_true (fun v => (Double.mul_one v).symm) fromInt_one_ne_zero
    case div.refl => exact iff_of_true (fun v => (Double.div_one v).symm) trivial
    case mod.refl => exact iff_of_true (fun _ => trivial) trivial
    case pow.refl =>
      refine iff_of_true (fun v => (h.pow_one v).symm)
        ⟨(half_ne_fromInt 1 (by norm_num)).symm, fun heq => ?_, fun heq => ?_⟩
      · exact absurd (fromInt_inj (by norm_num) (by norm_num) (by norm_num) (by norm_num) heq)
          (by norm_num)
      · exact absurd (fromInt_inj (by norm_num) (by norm_num) (by norm_num) (by norm_num) heq)
          (by norm_num)
  · simp only [newNumber_other h0 h1]
    cases op <;> cases hop
    case add.refl => exact iff_of_true (fun _ => rfl) (h0 _)
    case sub.refl => exact iff_of_true (fun _ => rfl) (h0 _)
    case mul.refl => exact iff_of_true (fun _ => rfl) h0
    case div.refl => exact iff_of_true (fun _ => rfl) trivial
    case mod.refl => exact iff_of_true (fun _ => rfl) trivial
    case pow.refl => exact powK_right_iff h x

/-- **A constant on the left.** -/
theorem left_iff {op kOpcode : LuauOpcode} (hop : leftOpcode op = some kOpcode) (x : Double) :
    (∀ v, newNumber pow sqrt op kOpcode v x (arith pow op x v) = arith pow op x v) ↔
      LeftOk op x := by
  rcases zero_one_or x with ⟨neg, rfl⟩ | rfl | ⟨h0, h1⟩
  · simp only [newNumber_zero]
    cases op <;> cases hop <;> simp only [LeftOk, arith]
    case add.refl =>
      cases neg
      · refine iff_of_false (fun hall => ?_) (by simp)
        have hz := hall (zero true)
        rw [Double.add_comm, negZero_add_posZero, zero_inj] at hz
        cases hz
      · exact iff_of_true (fun v => by rw [Double.add_comm, add_negZero]) (by simp [zero_inj])
    case sub.refl =>
      refine iff_of_false (fun hall => ?_) fun hne => hne neg rfl
      have hinf : inf false = inf true := hall (inf false)
      cases hinf
    case mul.refl =>
      refine iff_of_false (fun hall => ?_) fun hne => hne neg rfl
      exact absurd (hall nan) (fromInt_ne_nan (by norm_num))
    case div.refl => exact iff_of_true (fun _ => trivial) (fromInt_one_ne_zero neg).symm
  · simp only [newNumber_one]
    cases op <;> cases hop <;> simp only [LeftOk, arith]
    case add.refl => exact iff_of_true (fun _ => trivial) (fromInt_one_ne_zero _)
    case sub.refl => exact iff_of_true (fun _ => trivial) fromInt_one_ne_zero
    case mul.refl =>
      exact iff_of_true (fun v => by rw [Double.mul_comm, Double.mul_one]) fromInt_one_ne_zero
    case div.refl =>
      refine iff_of_false (fun hall => ?_) fun hne => hne rfl
      have hinf := hall (inf false)
      rw [fromInt_eq (by norm_num)] at hinf
      cases hinf
  · simp only [newNumber_other h0 h1]
    cases op <;> cases hop
    case add.refl => exact iff_of_true (fun v => Double.add_comm v x) (h0 _)
    case sub.refl => exact iff_of_true (fun _ => rfl) h0
    case mul.refl => exact iff_of_true (fun v => Double.mul_comm v x) h0
    case div.refl => exact iff_of_true (fun _ => rfl) h1

end Numbers

/-! ### One visit -/

section Visit

variable (pow : Double → Double → Double) (sqrt : Double → Double)

/-- The number that the instruction `op` gives. -/
def numberAt (f : BcFunction) (value : BcOp → Double) (op : BcOp) : Option Double :=
  numberResult pow sqrt f value (f.inst op)

/-- The instruction `op` gets the opcode `o` and the operands `ops`. -/
structure Becomes (f f' : BcFunction) (op : BcOp) (o : LuauOpcode) (ops : List BcOp) : Prop where
  constants : f'.constants = f.constants
  immediates : ∃ extra, f'.immediates = f.immediates ++ extra
  blocks : f'.blocks = f.blocks
  shape : ∀ op', f'.shape op' = if op.index = op'.index then (o, ops) else f.shape op'

/-- A visit leaves the graph as it is, or makes of an arithmetic instruction another one. -/
def Rewrites (f f' : BcFunction) (op : BcOp) : Prop :=
  f' = f ∨ ∃ o ops, Becomes f f' op o ops ∧ arithToKOpcode o = none ∧
    (arithToKOpcode (f.inst op).op).isSome

variable {pow sqrt} {f f' : BcFunction} {op op' : BcOp} {o : LuauOpcode} {ops : List BcOp}

theorem numberAt_of_shape (h : f.shape op = (o, ops)) (value : BcOp → Double) :
    numberAt pow sqrt f value op = numberResult pow sqrt f value { op := o, ops := ops } := by
  obtain ⟨ho, hops⟩ := Prod.mk.inj h
  subst ho hops
  rfl

theorem becomes_rewriteInst (hlt : op.index < f.instructions.length) :
    Becomes f (f.rewriteInst op o ops) op o ops :=
  have h := fun op' => @BcFunction.rewriteInst_spec _ _ op' o ops hlt
  ⟨(h op).1.constants, ⟨[], by rw [(h op).1.immediates, List.append_nil]⟩, (h op).1.blocks,
    fun op' => (h op').2⟩

/-- `LOADN` of a new immediate operand. -/
theorem becomes_loadN (hlt : op.index < f.instructions.length) (imm : BcImm) :
    Becomes f ((f.addImm imm).2.rewriteInst op .loadN [(f.addImm imm).1]) op .loadN
        [(f.addImm imm).1] ∧
      ((f.addImm imm).2.rewriteInst op .loadN [(f.addImm imm).1]).immediates[f.immediates.length]? =
        some imm := by
  have h := @becomes_rewriteInst ((f.addImm imm).2) _ .loadN [(f.addImm imm).1] hlt
  have himm := (@BcFunction.rewriteInst_spec ((f.addImm imm).2) _ op .loadN
    [(f.addImm imm).1] hlt).1.immediates
  exact ⟨⟨h.constants, ⟨[imm], himm⟩, h.blocks, h.shape⟩, by
    rw [himm]
    exact List.getElem?_concat_length⟩

/-- An instruction with an opcode is in the graph. -/
theorem lt_length_of_arith (h : (arithToKOpcode (f.inst op).op).isSome) :
    op.index < f.instructions.length := by
  by_contra hge
  rw [BcFunction.inst, List.getElem?_eq_none (not_lt.1 hge)] at h
  cases h

/-- The operands of an opcode with a constant operand. -/
def Choice.Valid (c : Choice) : Prop :=
  (c.rk = false ∧ ∃ o, arithToKOpcode o = some c.kOpcode) ∨
    (c.rk = true ∧ (c.kOpcode = .subRK ∨ c.kOpcode = .divRK))

theorem Choice.Valid.kOpcode {c : Choice} (h : c.Valid) : arithToKOpcode c.kOpcode = none := by
  rcases h with ⟨-, o, ho⟩ | ⟨-, ho | ho⟩
  · cases o <;> simp only [arithToKOpcode, Option.some.injEq, reduceCtorEq] at ho <;>
      rw [← ho] <;> rfl
  · rw [ho]; rfl
  · rw [ho]; rfl

theorem numberResult_kOpcode {c : Choice} (h : c.Valid) (k : BcOp) (value : BcOp → Double) :
    numberResult pow sqrt f value { op := c.kOpcode, ops := if c.rk then [k, c.nonConstantOp]
      else [c.nonConstantOp, k] } =
      some (kNumber pow sqrt c.kOpcode (value c.nonConstantOp) (f.asNumber k)) := by
  rcases h with ⟨hrk, o, ho⟩ | ⟨hrk, ho | ho⟩
  · rw [hrk]
    cases o <;> simp only [arithToKOpcode, Option.some.injEq, reduceCtorEq] at ho <;>
      rw [← ho] <;> rfl
  · rw [hrk, ho]; rfl
  · rw [hrk, ho]; rfl

theorem Becomes.asNumber (h : Becomes f f' op o ops) (k : BcOp) : f'.asNumber k = f.asNumber k := by
  rw [BcFunction.asNumber, BcFunction.asNumber, h.constants]

/-- The number after a rewriting. -/
theorem Becomes.numberAt (h : Becomes f f' op o ops) (value : BcOp → Double) :
    Sccp.numberAt pow sqrt f' value op = numberResult pow sqrt f' value { op := o, ops := ops } :=
  numberAt_of_shape (by rw [h.shape, if_pos rfl]) value

/-- **The rewriting.**  It gives `newNumber`, and no arithmetic instruction. -/
theorem rewriteArith_spec {c : Choice} (hc : c.Valid) (k : BcOp)
    (hop : (arithToKOpcode (f.inst op).op).isSome) :
    Rewrites f (rewriteArith f op c k) op ∧ ∀ value before,
      numberAt pow sqrt f value op = some before →
      numberAt pow sqrt (rewriteArith f op c k) value op = some (newNumber pow sqrt (f.inst op).op
        c.kOpcode (value c.nonConstantOp) (f.asNumber k) before) := by
  have hlt := lt_length_of_arith hop
  have hmove : Rewrites f (f.rewriteInst op .move [c.nonConstantOp]) op ∧ ∀ value,
      numberAt pow sqrt (f.rewriteInst op .move [c.nonConstantOp]) value op =
        some (value c.nonConstantOp) :=
    have h := @becomes_rewriteInst _ _ .move [c.nonConstantOp] hlt
    ⟨.inr ⟨_, _, h, rfl, hop⟩, fun value => h.numberAt value⟩
  have hload : ∀ n : ℤ,
      Rewrites f ((f.addImm (.int n)).2.rewriteInst op .loadN [(f.addImm (.int n)).1]) op ∧ ∀ value,
      numberAt pow sqrt ((f.addImm (.int n)).2.rewriteInst op .loadN [(f.addImm (.int n)).1]) value
        op = some (fromInt n) := fun n => by
    obtain ⟨h, himm⟩ := becomes_loadN hlt (.int n)
    refine ⟨.inr ⟨_, _, h, rfl, hop⟩, fun value => ?_⟩
    rw [h.numberAt value]
    simp only [numberResult, BcFunction.addImm] at himm ⊢
    rw [himm]
  unfold rewriteArith newNumber
  generalize hopcode : (f.inst op).op = opcode at hop
  by_cases h0 : (f.asNumber k).feq (zero false) = true
  · simp only [if_pos h0]
    cases opcode <;> try cases hop
    · exact ⟨hmove.1, fun value _ _ => hmove.2 value⟩
    · exact ⟨hmove.1, fun value _ _ => hmove.2 value⟩
    · exact ⟨(hload 0).1, fun value _ _ => (hload 0).2 value⟩
    · exact ⟨.inl rfl, fun _ _ hbefore => hbefore⟩
    · exact ⟨.inl rfl, fun _ _ hbefore => hbefore⟩
    · exact ⟨(hload 1).1, fun value _ _ => (hload 1).2 value⟩
  by_cases h1 : (f.asNumber k).feq (fromInt 1) = true
  · simp only [if_neg h0, if_pos h1]
    cases opcode <;> try cases hop
    · exact ⟨.inl rfl, fun _ _ hbefore => hbefore⟩
    · exact ⟨.inl rfl, fun _ _ hbefore => hbefore⟩
    · exact ⟨hmove.1, fun value _ _ => hmove.2 value⟩
    · exact ⟨hmove.1, fun value _ _ => hmove.2 value⟩
    · exact ⟨.inl rfl, fun _ _ hbefore => hbefore⟩
    · exact ⟨hmove.1, fun value _ _ => hmove.2 value⟩
  · simp only [if_neg h0, if_neg h1]
    have h := @becomes_rewriteInst _ _ c.kOpcode (if c.rk then [k, c.nonConstantOp] else [c.nonConstantOp, k]) hlt
    refine ⟨.inr ⟨_, _, h, hc.kOpcode, by rw [hopcode]; exact hop⟩, fun value before _ => ?_⟩
    rw [h.numberAt value, numberResult_kOpcode hc, h.asNumber]

/-! ### The sides of an instruction -/

variable {lat : OpConstness} {toErase : List BcOp} {lhs rhs k : BcOp} {kOpcode : LuauOpcode}
  {x : Double}

/-- `constant` is the number `x` of the constant `k`, and `other` is no constant. -/
structure KnownNumber (lat : OpConstness) (f : BcFunction) (constant other k : BcOp) (x : Double) :
    Prop where
  lattice : operandLattice lat constant = .vmConstant k
  number : constOp f.constants k = .number x
  other : operandLattice lat other = .notAConstant

/-- The rewriting of the instruction gives the same numbers. -/
def ConstantOk (pow : Double → Double → Double) (lat : OpConstness) (f : BcFunction)
    (inst : BcInst) : Prop :=
  ∀ lhs rhs k x, (arithToKOpcode inst.op).isSome → inst.ops = [lhs, rhs] →
    (KnownNumber lat f rhs lhs k x → RightOk pow inst.op x) ∧ (KnownNumber lat f lhs rhs k x → LeftOk inst.op x)

theorem KnownNumber.asNumber {constant other : BcOp} (h : KnownNumber lat f constant other k x) :
    f.asNumber k = x := by
  rw [BcFunction.asNumber, h.number]

theorem KnownNumber.isConstNumber {constant other : BcOp} (h : KnownNumber lat f constant other k x) :
    f.isConstNumber (operandLattice lat constant) = true := by
  rw [h.lattice, BcFunction.isConstNumber, h.number]

theorem known_of_isConstNumber {constant other : BcOp}
    (h : f.isConstNumber (operandLattice lat constant) = true)
    (hother : operandLattice lat other = .notAConstant) : ∃ k x, KnownNumber lat f constant other k x := by
  cases hlat : operandLattice lat constant with
  | vmConstant k =>
    rw [hlat, BcFunction.isConstNumber] at h
    cases hk : constOp f.constants k with
    | number x => exact ⟨k, x, hlat, hk, hother⟩
    | _ => rw [hk] at h; cases h
  | _ => rw [hlat] at h; cases h

theorem visitArith_skip (h : arithToKOpcode (f.inst op).op = none ∨
    ∀ lhs rhs, (f.inst op).ops = [lhs, rhs] → (∀ k x, ¬ KnownNumber lat f rhs lhs k x) ∧
      ∀ k x, ¬ KnownNumber lat f lhs rhs k x) :
    visitArith lat (f, toErase) op = some (f, toErase) := by
  unfold visitArith
  dsimp only
  split
  next kOpcode lhs rhs hop hops =>
    obtain ⟨hr, hl⟩ := (h.resolve_left (by rw [hop]; simp)) lhs rhs hops
    have hchoose : choose lat f (f.inst op).op lhs rhs kOpcode = none := by
      unfold choose
      rw [if_neg, if_neg]
      · rintro ⟨hk, hother⟩
        obtain ⟨k, x, hknown⟩ := known_of_isConstNumber hk hother
        exact hl k x hknown
      · rintro ⟨hk, hother⟩
        obtain ⟨k, x, hknown⟩ := known_of_isConstNumber hk hother
        exact hr k x hknown
    rw [hchoose]
  next => rfl

theorem visitArith_knownRight (hop : arithToKOpcode (f.inst op).op = some kOpcode)
    (hops : (f.inst op).ops = [lhs, rhs]) (h : KnownNumber lat f rhs lhs k x) :
    visitArith lat (f, toErase) op = some (rewriteArith f op
      { nonConstantOp := lhs, constantK := .vmConstant k, kOpcode := kOpcode } k,
      toErase ++ [rhs]) := by
  have hchoose : choose lat f (f.inst op).op lhs rhs kOpcode =
      some { nonConstantOp := lhs, constantK := .vmConstant k, kOpcode := kOpcode } := by
    unfold choose
    rw [if_pos ⟨h.isConstNumber, h.other⟩, h.lattice]
  unfold visitArith
  simp only [hop, hops, hchoose, if_true]

/-- What is chosen when the constant is on the left. -/
theorem choose_knownLeft (h : KnownNumber lat f lhs rhs k x) (opcode : LuauOpcode) :
    choose lat f opcode lhs rhs kOpcode = match opcode with
      | .add | .mul => some { nonConstantOp := rhs, constantK := .vmConstant k, kOpcode := kOpcode }
      | .sub => some { nonConstantOp := rhs, constantK := .vmConstant k, kOpcode := .subRK, rk := true }
      | .div => some { nonConstantOp := rhs, constantK := .vmConstant k, kOpcode := .divRK, rk := true }
      | _ => some { kOpcode := kOpcode } := by
  have hne : ¬ (f.isConstNumber (operandLattice lat rhs) = true ∧
      operandLattice lat lhs = .notAConstant) := by
    rw [h.lattice]
    simp
  unfold choose
  refine (if_neg hne).trans ((if_pos ⟨h.isConstNumber, h.other⟩).trans ?_)
  cases opcode <;> simp only [h.lattice]

theorem visitArith_knownLeft (hop : arithToKOpcode (f.inst op).op = some kOpcode)
    (hops : (f.inst op).ops = [lhs, rhs]) (h : KnownNumber lat f lhs rhs k x) :
    match leftOpcode (f.inst op).op with
    | some kOpcode' => ∃ (c : Choice) (toErase' : List BcOp), c.Valid ∧ c.kOpcode = kOpcode' ∧
      c.nonConstantOp = rhs ∧
      visitArith lat (f, toErase) op = some (rewriteArith f op c k, toErase')
    | none => visitArith lat (f, toErase) op = none := by
  have hchoose := @choose_knownLeft _ _ _ _ _ kOpcode _ h (f.inst op).op
  unfold visitArith
  simp only [hop, hops]
  generalize (f.inst op).op = opcode at hop hchoose ⊢
  cases opcode <;> cases hop <;> simp only [hchoose, leftOpcode]
  · exact ⟨_, _, .inl ⟨rfl, .add, rfl⟩, rfl, rfl, rfl⟩
  · exact ⟨_, _, .inr ⟨rfl, .inl rfl⟩, rfl, rfl, rfl⟩
  · exact ⟨_, _, .inl ⟨rfl, .mul, rfl⟩, rfl, rfl, rfl⟩
  · exact ⟨_, _, .inr ⟨rfl, .inr rfl⟩, rfl, rfl, rfl⟩

/-! ### Right and wrong visits -/

theorem numberAt_arith (hop : (arithToKOpcode (f.inst op).op).isSome)
    (hops : (f.inst op).ops = [lhs, rhs]) (value : BcOp → Double) :
    numberAt pow sqrt f value op =
      some (arith pow (f.inst op).op (value lhs) (value rhs)) := by
  unfold numberAt numberResult
  rw [hops]
  generalize (f.inst op).op = opcode at hop
  cases opcode <;> first | rfl | cases hop

/-- The numbers that are known, and `v` for one more operand. -/
def numbersWith (lat : OpConstness) (f : BcFunction) (other : BcOp) (v : Double) : BcOp → Double :=
  fun op => if op = other then v else match operandLattice lat op with
    | .vmConstant k => f.asNumber k
    | _ => nan

theorem consistent_numbersWith {other : BcOp} (h : operandLattice lat other = .notAConstant)
    (v : Double) : Consistent lat f (numbersWith lat f other v) := by
  intro op k c hlat hk
  have hne : op ≠ other := by
    rintro rfl
    rw [h] at hlat
    cases hlat
  rw [numbersWith, if_neg hne, hlat]
  show f.asNumber k = c
  rw [BcFunction.asNumber, hk]

theorem numbersWith_other {other : BcOp} (v : Double) : numbersWith lat f other v other = v :=
  if_pos rfl

/-- A visit with a constant on the right. -/
theorem visit_right (hop : arithToKOpcode (f.inst op).op = some kOpcode)
    (hops : (f.inst op).ops = [lhs, rhs]) (h : KnownNumber lat f rhs lhs k x) :
    ∃ f', visitArith lat (f, toErase) op = some (f', toErase ++ [rhs]) ∧ Rewrites f f' op ∧
      ∀ value, Consistent lat f value → numberAt pow sqrt f' value op =
        some (newNumber pow sqrt (f.inst op).op kOpcode (value lhs) x
          (arith pow (f.inst op).op (value lhs) x)) := by
  have hsome : (arithToKOpcode (f.inst op).op).isSome := by rw [hop]; rfl
  obtain ⟨hstep, hnew⟩ := @rewriteArith_spec pow sqrt _ _
    { nonConstantOp := lhs, constantK := .vmConstant k, kOpcode := kOpcode }
    (.inl ⟨rfl, _, hop⟩) k hsome
  refine ⟨_, visitArith_knownRight hop hops h, hstep, fun value hvalue => ?_⟩
  rw [hnew value _ (numberAt_arith hsome hops value), h.asNumber, hvalue rhs k x h.lattice h.number]

/-- A visit with a constant on the left. -/
theorem visit_left {kOpcode' : LuauOpcode} (hop : arithToKOpcode (f.inst op).op = some kOpcode)
    (hops : (f.inst op).ops = [lhs, rhs]) (h : KnownNumber lat f lhs rhs k x)
    (hleft : leftOpcode (f.inst op).op = some kOpcode') :
    ∃ f' toErase', visitArith lat (f, toErase) op = some (f', toErase') ∧ Rewrites f f' op ∧
      ∀ value, Consistent lat f value → numberAt pow sqrt f' value op =
        some (newNumber pow sqrt (f.inst op).op kOpcode' (value rhs) x
          (arith pow (f.inst op).op x (value rhs))) := by
  have hsome : (arithToKOpcode (f.inst op).op).isSome := by rw [hop]; rfl
  have hvisit := @visitArith_knownLeft _ _ _ toErase _ _ _ _ _ hop hops h
  rw [hleft] at hvisit
  obtain ⟨c, toErase', hc, hck, hcv, hrun⟩ := hvisit
  obtain ⟨hstep, hnew⟩ := @rewriteArith_spec pow sqrt _ _ _ hc k hsome
  refine ⟨_, _, hrun, hstep, fun value hvalue => ?_⟩
  rw [hnew value _ (numberAt_arith hsome hops value), hck, hcv, h.asNumber,
    hvalue lhs k x h.lattice h.number]

/-- **A right visit.** -/
theorem visitArith_right (hlibm : IsLibm pow sqrt) (h : ConstantOk pow lat f (f.inst op)) :
    ∃ f' toErase', visitArith lat (f, toErase) op = some (f', toErase') ∧ Rewrites f f' op ∧
      ∀ value, Consistent lat f value →
        numberAt pow sqrt f' value op = numberAt pow sqrt f value op := by
  cases hop : arithToKOpcode (f.inst op).op with
  | none => exact ⟨f, toErase, visitArith_skip (.inl hop), .inl rfl, fun _ _ => rfl⟩
  | some kOpcode =>
    have hsome : (arithToKOpcode (f.inst op).op).isSome := by rw [hop]; rfl
    by_cases hright : ∃ lhs rhs k x, (f.inst op).ops = [lhs, rhs] ∧ KnownNumber lat f rhs lhs k x
    · obtain ⟨lhs, rhs, k, x, hops, hk⟩ := hright
      obtain ⟨f', hrun, hstep, hnew⟩ := @visit_right pow sqrt _ _ _ toErase _ _ _ _ _ hop hops hk
      refine ⟨f', _, hrun, hstep, fun value hvalue => ?_⟩
      rw [hnew value hvalue, numberAt_arith hsome hops, hvalue rhs k x hk.lattice hk.number,
        (right_iff hlibm hop x).2 ((h lhs rhs k x hsome hops).1 hk)]
    by_cases hleft : ∃ lhs rhs k x, (f.inst op).ops = [lhs, rhs] ∧ KnownNumber lat f lhs rhs k x
    · obtain ⟨lhs, rhs, k, x, hops, hk⟩ := hleft
      have hok := (h lhs rhs k x hsome hops).2 hk
      obtain ⟨kOpcode', hleft⟩ : ∃ kOpcode', leftOpcode (f.inst op).op = some kOpcode' := by
        generalize (f.inst op).op = opcode at hop hok
        cases opcode <;> cases hop <;> first | exact ⟨_, rfl⟩ | exact hok.elim
      obtain ⟨f', toErase', hrun, hstep, hnew⟩ := @visit_left pow sqrt _ _ _ toErase _ _ _ _ _ _ hop hops hk hleft
      refine ⟨f', toErase', hrun, hstep, fun value hvalue => ?_⟩
      rw [hnew value hvalue, numberAt_arith hsome hops, hvalue lhs k x hk.lattice hk.number,
        (left_iff hleft x).2 hok]
    · refine ⟨f, toErase, visitArith_skip (.inr fun lhs rhs hops => ⟨?_, ?_⟩), .inl rfl,
        fun _ _ => rfl⟩
      · exact fun k x hk => hright ⟨lhs, rhs, k, x, hops, hk⟩
      · exact fun k x hk => hleft ⟨lhs, rhs, k, x, hops, hk⟩

/-- **A wrong visit.**  It ends the pass, or it gives another number for some operand. -/
theorem visitArith_wrong (hlibm : IsLibm pow sqrt) (h : ¬ ConstantOk pow lat f (f.inst op)) :
    visitArith lat (f, toErase) op = none ∨
      ∃ f' toErase', visitArith lat (f, toErase) op = some (f', toErase') ∧ Rewrites f f' op ∧
        ∃ value number, Consistent lat f value ∧ numberAt pow sqrt f' value op = some number ∧
          numberAt pow sqrt f value op ≠ some number := by
  simp only [ConstantOk, not_forall] at h
  obtain ⟨lhs, rhs, k, x, hsome, hops, hnot⟩ := h
  obtain ⟨kOpcode, hop⟩ := Option.isSome_iff_exists.1 hsome
  rw [not_and_or, Classical.not_imp, Classical.not_imp] at hnot
  rcases hnot with ⟨hk, hbad⟩ | ⟨hk, hbad⟩
  · obtain ⟨f', hrun, hstep, hnew⟩ := @visit_right pow sqrt _ _ _ toErase _ _ _ _ _ hop hops hk
    obtain ⟨v, hv⟩ := not_forall.1 ((right_iff hlibm hop x).not.2 hbad)
    have hcons := consistent_numbersWith (f := f) hk.other v
    refine .inr ⟨f', _, hrun, hstep, _, _, hcons, hnew _ hcons, ?_⟩
    rw [numberAt_arith hsome hops, hcons rhs k x hk.lattice hk.number, numbersWith_other]
    exact fun heq => hv (Option.some.inj heq).symm
  · cases hleft : leftOpcode (f.inst op).op with
    | none =>
      have hvisit := @visitArith_knownLeft _ _ _ toErase _ _ _ _ _ hop hops hk
      rw [hleft] at hvisit
      exact .inl hvisit
    | some kOpcode' =>
      obtain ⟨f', toErase', hrun, hstep, hnew⟩ := @visit_left pow sqrt _ _ _ toErase _ _ _ _ _ _ hop hops hk hleft
      obtain ⟨v, hv⟩ := not_forall.1 ((left_iff hleft x).not.2 hbad)
      have hcons := consistent_numbersWith (f := f) hk.other v
      refine .inr ⟨f', toErase', hrun, hstep, _, _, hcons, hnew _ hcons, ?_⟩
      rw [numberAt_arith hsome hops, hcons lhs k x hk.lattice hk.number, numbersWith_other]
      exact fun heq => hv (Option.some.inj heq).symm

end Visit

end Sccp

end Jaci
