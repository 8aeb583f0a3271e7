import Jaci.Lib.DoubleExact
import Jaci.Sccp.Evaluate

/-!
# Arithmetic with a constant operand

After the propagation `arithToK` visits the arithmetic instructions one of whose operands is a known
number: some become a `MOVE` or a `LOADN`, the others an opcode with a constant operand.  The block
that rewrites an instruction does not ask on which side the constant is.

* `arithToK` : the pass; it has no result where an empty optional is dereferenced;
* `numberResult` : what an instruction gives when its operands are numbers.
-/

namespace Jaci

namespace Sccp

/-! ### Opcodes -/

namespace LuauOpcode

/-- `LOP_GETUPVAL`. -/
abbrev getUpval : LuauOpcode := .other 9

/-- `LOP_ADDK`. -/
abbrev addK : LuauOpcode := .other 39

/-- `LOP_SUBK`. -/
abbrev subK : LuauOpcode := .other 40

/-- `LOP_MULK`. -/
abbrev mulK : LuauOpcode := .other 41

/-- `LOP_DIVK`. -/
abbrev divK : LuauOpcode := .other 42

/-- `LOP_MODK`. -/
abbrev modK : LuauOpcode := .other 43

/-- `LOP_POWK`. -/
abbrev powK : LuauOpcode := .other 44

/-- `LOP_SUBRK`. -/
abbrev subRK : LuauOpcode := .other 71

/-- `LOP_DIVRK`. -/
abbrev divRK : LuauOpcode := .other 72

end LuauOpcode

def arithToKOpcode : LuauOpcode → Option LuauOpcode
  | .add => some .addK
  | .sub => some .subK
  | .mul => some .mulK
  | .div => some .divK
  | .mod => some .modK
  | .pow => some .powK
  | _ => none

def isPureProducer : LuauOpcode → Bool
  | .loadK | .loadKX | .loadN | .loadB | .loadNil => true
  | op => op = .getUpval

/-! ### Changes of the graph -/

namespace BcFunction

variable (f : BcFunction)

/-- A change of an instruction. -/
def modifyInst (op : BcOp) (g : BcInst → BcInst) : BcFunction :=
  { f with instructions := f.instructions.modify op.index g }

def modifyPhi (op : BcOp) (g : BcPhi → BcPhi) : BcFunction :=
  { f with phis := f.phis.modify op.index g }

def recordUse (usedOp user : BcOp) : BcFunction :=
  if usedOp.kind = .inst then f.modifyInst usedOp fun x => { x with uses := x.uses ++ [user] }
  else if usedOp.kind = .phi then f.modifyPhi usedOp fun x => { x with uses := x.uses ++ [user] }
  else f

def eraseUse (userOp usedOp : BcOp) : BcFunction :=
  if usedOp.kind = .inst then
    f.modifyInst usedOp fun x => { x with uses := x.uses.filter (· ≠ userOp) }
  else if usedOp.kind = .phi then
    f.modifyPhi usedOp fun x => { x with uses := x.uses.filter (· ≠ userOp) }
  else f

def setOps (op : BcOp) (newOps : List BcOp) : BcFunction :=
  let f := (f.inst op).ops.foldl (fun f oldOp => f.eraseUse op oldOp) f
  let f := f.modifyInst op fun x => { x with ops := [] }
  newOps.foldl
    (fun f newOp => (f.modifyInst op fun x => { x with ops := x.ops ++ [newOp] }).recordUse newOp op)
    f

def addImm (imm : BcImm) : BcOp × BcFunction :=
  (⟨.imm, f.immediates.length⟩, { f with immediates := f.immediates ++ [imm] })

def eraseOp (op : BcOp) : BcFunction :=
  { f with blocks := f.blocks.modify (f.inst op).block.index fun b =>
      { b with ops := b.ops.filter (· ≠ op) } }

/-- `inst->op = opcode`, then `setOps`. -/
def rewriteInst (op : BcOp) (opcode : LuauOpcode) (newOps : List BcOp) : BcFunction :=
  (f.modifyInst op fun x => { x with op := opcode }).setOps op newOps

/-- `isArithmeticConstant` of a constant that is known. -/
def isConstNumber : ConstnessLattice → Bool
  | .vmConstant k => match constOp f.constants k with
    | .number _ => true
    | _ => false
  | _ => false

def asNumber (k : BcOp) : Double :=
  match constOp f.constants k with
  | .number x => x
  | _ => .nan

end BcFunction

/-! ### The pass -/

section Pass

variable (lat : OpConstness) (blockUses : ℕ → List BcOp)

/-- What is found out of an instruction before it is rewritten. -/
structure Choice where
  nonConstantOp : BcOp := {}
  constantK : ConstnessLattice := .undetermined
  kOpcode : LuauOpcode
  rk : Bool := false

/-- The sides of an instruction; there is nothing to do if no operand is a known number. -/
def choose (f : BcFunction) (op : LuauOpcode) (lhs rhs : BcOp) (kOpcode : LuauOpcode) :
    Option Choice :=
  let lhsLat := operandLattice lat lhs
  let rhsLat := operandLattice lat rhs
  if f.isConstNumber rhsLat ∧ lhsLat = .notAConstant then
    some { nonConstantOp := lhs, constantK := rhsLat, kOpcode }
  else if f.isConstNumber lhsLat ∧ rhsLat = .notAConstant then
    match op with
    | .add | .mul => some { nonConstantOp := rhs, constantK := lhsLat, kOpcode }
    | .sub => some { nonConstantOp := rhs, constantK := lhsLat, kOpcode := .subRK, rk := true }
    | .div => some { nonConstantOp := rhs, constantK := lhsLat, kOpcode := .divRK, rk := true }
    | _ => some { kOpcode }
  else none

/-- The rewriting of an instruction, with the constant `k`. -/
def rewriteArith (f : BcFunction) (op : BcOp) (c : Choice) (k : BcOp) : BcFunction :=
  let valueNumber := f.asNumber k
  if valueNumber.feq (.zero false) then
    match (f.inst op).op with
    | .add | .sub => f.rewriteInst op .move [c.nonConstantOp]
    | .mul =>
      let (imm, f) := f.addImm (.int 0)
      f.rewriteInst op .loadN [imm]
    | .pow =>
      let (imm, f) := f.addImm (.int 1)
      f.rewriteInst op .loadN [imm]
    | _ => f
  else if valueNumber.feq (.fromInt 1) then
    match (f.inst op).op with
    | .mul | .pow | .div => f.rewriteInst op .move [c.nonConstantOp]
    | _ => f
  else f.rewriteInst op c.kOpcode (if c.rk then [k, c.nonConstantOp] else [c.nonConstantOp, k])

/-- The visit of an instruction, with `toErase`. -/
def visitArith (s : BcFunction × List BcOp) (op : BcOp) : Option (BcFunction × List BcOp) :=
  let (f, toErase) := s
  match arithToKOpcode (f.inst op).op, (f.inst op).ops with
  | some kOpcode, [lhs, rhs] =>
    match choose lat f (f.inst op).op lhs rhs kOpcode with
    | some c =>
      let prevConstOperand := if c.nonConstantOp = lhs then rhs else lhs
      match c.constantK with
      | .vmConstant k => some (rewriteArith f op c k, toErase ++ [prevConstOperand])
      -- `constantK.vmConst.value()` without a constant
      | _ => none
    | none => some (f, toErase)
  | _, _ => some (f, toErase)

def eraseDeadProducer (f : BcFunction) (op : BcOp) : BcFunction :=
  if op.kind ≠ .inst then f
  else if ¬ isPureProducer (f.inst op).op then f
  else if (f.inst op).uses ≠ [] then f
  else f.eraseOp op

def arithToKBlock (f : BcFunction) (blockidx : ℕ) : Option BcFunction :=
  if blockUses blockidx = [] then some f
  else do
    let (f, toErase) ← (f.block ⟨.block, blockidx⟩).ops.foldlM (visitArith lat) (f, [])
    return toErase.foldl eraseDeadProducer f

def arithToK (f : BcFunction) : Option BcFunction :=
  (List.range f.blocks.length).foldlM (arithToKBlock lat blockUses) f

end Pass

/-! ### Results -/

/-- `0.5`. -/
def half : Double :=
  .finite false (1 / 2) ⟨⟨1, -1, by norm_num, by norm_num, by norm_num⟩,
    lt_of_lt_of_le (by norm_num) (one_le_pow₀ one_le_two)⟩

/-- `LOP_POWK` on a number, where `pow` and `sqrt` are the ones of the C library. -/
def powK (pow : Double → Double → Double) (sqrt : Double → Double) (nb nk : Double) : Double :=
  if nk.feq (.fromInt 2) then nb.mul nb
  else if nk.feq half then sqrt nb
  else if nk.feq (.fromInt 3) then (nb.mul nb).mul nb
  else pow nb nk

/-- The number that an instruction gives, where `value` are the numbers in its operands. -/
def numberResult (pow : Double → Double → Double) (sqrt : Double → Double) (f : BcFunction)
    (value : BcOp → Double) (inst : BcInst) : Option Double :=
  match inst.op, inst.ops with
  | .add, [a, b] | .sub, [a, b] | .mul, [a, b] | .div, [a, b] | .mod, [a, b] | .pow, [a, b] =>
    some (arith pow inst.op (value a) (value b))
  | .move, [a] => some (value a)
  | .loadN, [a] => match f.immediates[a.index]? with
    | some (.int n) => some (.fromInt n)
    | _ => none
  | .addK, [a, k] => some ((value a).add (f.asNumber k))
  | .subK, [a, k] => some ((value a).sub (f.asNumber k))
  | .mulK, [a, k] => some ((value a).mul (f.asNumber k))
  | .divK, [a, k] => some ((value a).div (f.asNumber k))
  | .modK, [a, k] => some (arith pow .mod (value a) (f.asNumber k))
  | .powK, [a, k] => some (powK pow sqrt (value a) (f.asNumber k))
  | .subRK, [k, a] => some ((f.asNumber k).sub (value a))
  | .divRK, [k, a] => some ((f.asNumber k).div (value a))
  | _, _ => none

/-- The values agree with what is known of the operands. -/
def Consistent (lat : OpConstness) (f : BcFunction) (value : BcOp → Double) : Prop :=
  ∀ op k c, operandLattice lat op = .vmConstant k → constOp f.constants k = .number c → value op = c

end Sccp

end Jaci
