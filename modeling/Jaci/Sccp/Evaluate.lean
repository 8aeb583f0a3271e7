import Jaci.Sccp.Graph

/-!
# Evaluation of constants

What the pass makes of an instruction whose operands are known.  The constants of the function grow
on the way: a result that is a new constant, or a nil, is put at their end.

* `evaluate` : the constant that an instruction produces;
* `jumpTargets` : where it goes, and which of the two ways is dead.
-/

namespace Jaci

namespace Sccp

/-! ### Constants -/

/-- `BcVmConst::operator==`.  Numbers are compared as numbers. -/
def BcVmConst.eqv : BcVmConst → BcVmConst → Bool
  | .nil, .nil => true
  | .boolean a, .boolean b => a = b
  | .number x, .number y => x.feq y
  | .vectorf l, .vectorf r | .vectord l, .vectord r =>
    l.length = r.length && (l.zip r).all fun p => p.1.feq p.2
  | .string s, .string t => s = t
  | .integer n, .integer k => n = k
  | .object a n, .object b k => a = b && n = k
  | _, _ => false

/-- `kind ==` on two constants. -/
def BcVmConst.sameKind : BcVmConst → BcVmConst → Bool
  | .nil, .nil | .boolean _, .boolean _ | .number _, .number _ | .vectorf _, .vectorf _
  | .vectord _, .vectord _ | .string _, .string _ | .integer _, .integer _ => true
  | .object a _, .object b _ => a = b
  | _, _ => false

/-- `func.constOp(op)`. -/
def constOp (ks : List BcVmConst) (op : BcOp) : BcVmConst := ks[op.index]?.getD .nil

def findOrAddConst (ks : List BcVmConst) (value : BcVmConst) : BcOp × List BcVmConst :=
  match ks.findIdx? (·.eqv value) with
  | some i => (⟨.vmConst, i⟩, ks)
  | none => (⟨.vmConst, ks.length⟩, ks ++ [value])

/-- The arithmetic opcodes on two numbers, in the folder and in the machine. -/
def arith (pow : Double → Double → Double) (op : LuauOpcode) (a b : Double) : Double :=
  match op with
  | .add => a.add b
  | .sub => a.sub b
  | .mul => a.mul b
  | .div => a.div b
  | .mod => a.sub ((a.div b).floor.mul b)
  | .pow => pow a b
  | .iDiv => (a.div b).floor
  | _ => .nan

/-- `BcVmConstImpl::evaluate`. -/
def evaluateConsts (pow : Double → Double → Double) (ks : List BcVmConst) (lhsOp rhsOp : BcOp)
    (op : LuauOpcode) : Option (BcOp × List BcVmConst) :=
  match constOp ks lhsOp, constOp ks rhsOp with
  | .number a, .number b =>
    if op = .mod ∧ b.feq (Double.zero false) then none
    else some (findOrAddConst ks (.number (arith pow op a b)))
  | _, _ => none

/-- `BcVmConstImpl::falsey` of a constant. -/
def BcVmConst.falsey : BcVmConst → Bool
  | .nil | .boolean false => true
  | _ => false

def threeWay (gt lt : Bool) : ℤ := gt.toNat - lt.toNat

/-- `threeWay` on numbers. -/
def threeWayNumber (a b : Double) : ℤ := threeWay (b.flt a) (a.flt b)

/-- `threeWay` on integers. -/
def threeWayInt (a b : ℤ) : ℤ := threeWay (decide (b < a)) (decide (a < b))

/-- The order of strings of bytes. -/
def strLt : List UInt8 → List UInt8 → Bool
  | _, [] => false
  | [], _ :: _ => true
  | a :: s, b :: t => if a = b then strLt s t else a < b

/-- `BcVmConstImpl::cmp` on two constants. -/
def cmpConsts : BcVmConst → BcVmConst → ℤ
  | .number a, .number b => threeWayNumber a b
  | .integer a, .integer b => threeWayInt a b
  | .boolean a, .boolean b => if a = b then 0 else 1
  | .string s, .string t => threeWay (strLt t s) (strLt s t)
  | _, _ => 0

/-- `BcVmConstImpl::cmp` on a constant and an immediate. -/
def cmpImm : BcVmConst → BcImm → ℤ
  | .number a, .int n => threeWayNumber a (Double.fromInt n)
  | .integer a, .int n => threeWayInt a n
  | .boolean a, .boolean b => if a = b then 0 else 1
  | _, _ => 0

def BcVmConst.isOrderable : BcVmConst → Bool
  | .number _ | .integer _ | .string _ => true
  | _ => false

/-- `BcVmConstImpl::eq` on two constants. -/
def eqConsts : BcVmConst → BcVmConst → Option Bool
  | .number a, .number b => some (a.feq b)
  | .integer a, .integer b => some (a = b)
  | .number a, .integer b => some (a.feq (Double.fromInt b))
  | .integer a, .number b => some ((Double.fromInt a).feq b)
  | .string s, .string t => some (s = t)
  | _, _ => none

/-- `BcVmConstImpl::eq` on a constant and an immediate boolean. -/
def eqImm : BcVmConst → BcImm → Option Bool
  | .boolean a, .boolean b => some (a = b)
  | _, _ => none

/-- `BcVmConstImpl::eq` on a constant and an `int32_t`. -/
def eqInt : BcVmConst → ℤ → Option Bool
  | .number a, n => some ((Double.fromInt n).feq a)
  | .integer a, n => some (n = a)
  | _, _ => none

/-! ### Conditions -/

inductive ConditionState where
  | alwaysFalse | alwaysTrue | unknown
deriving DecidableEq

/-- The state for a truth value. -/
def ConditionState.of (b : Bool) : ConditionState := if b then alwaysTrue else alwaysFalse

def applyOp (cmp : ℤ) (op : LuauOpcode) : Bool :=
  match op with
  | .jumpIfEq | .jumpIfNotEq => cmp = 0
  | .jumpIfLt | .jumpIfNotLt => cmp < 0
  | .jumpIfLe | .jumpIfNotLe => cmp ≤ 0
  | _ => false

/-- The comparisons that need an order. -/
def LuauOpcode.isOrdering : LuauOpcode → Bool
  | .jumpIfLt | .jumpIfLe | .jumpIfNotLt | .jumpIfNotLe => true
  | _ => false

/-- The comparisons that jump when they do not hold. -/
def LuauOpcode.negated : LuauOpcode → Bool
  | .jumpIfNotEq | .jumpIfNotLe | .jumpIfNotLt => true
  | _ => false

def isOrderableLattice (ks : List BcVmConst) : ConstnessLattice → Bool
  | .vmConstant c => (constOp ks c).isOrderable
  | .immConstant (.int _) => true
  | _ => false

def evaluateComparisonCondition (ks : List BcVmConst) (lat : OpConstness) (op : LuauOpcode)
    (lhs rhs : BcOp) : ConditionState :=
  let lhsConst := operandLattice lat lhs
  let rhsConst := operandLattice lat rhs
  if op.isOrdering && (!isOrderableLattice ks lhsConst || !isOrderableLattice ks rhsConst) then
    .unknown
  else match lhsConst, rhsConst with
    | .vmConstant a, .vmConstant b =>
      if !(constOp ks a).sameKind (constOp ks b) then .unknown
      else .of (applyOp (cmpConsts (constOp ks a) (constOp ks b)) op)
    | .immConstant (.int a), .immConstant (.int b) => .of (applyOp (threeWayInt a b) op)
    | .immConstant (.boolean a), .immConstant (.boolean b) =>
      .of (applyOp (if a = b then 0 else 1) op)
    | .vmConstant a, .immConstant b => .of (applyOp (cmpImm (constOp ks a) b) op)
    | .immConstant a, .vmConstant b => .of (applyOp (-cmpImm (constOp ks b) a) op)
    | _, _ => .unknown

/-- The state for an answer of `eq`. -/
def ConditionState.ofOption : Option Bool → ConditionState
  | some b => of b
  | none => unknown

/-- `evaluateXeqkCondition`.  There is no result when it reads the constant of an immediate, which
throws. -/
def evaluateXeqkCondition (f : BcFunction) (ks : List BcVmConst) (lat : OpConstness)
    (inst : BcInst) : Option (ConditionState × List BcVmConst) :=
  let valConst := operandLattice lat (inst.arg 0)
  match inst.op with
  | .jumpXEqKNil =>
    match valConst with
    | .vmConstant c =>
      let (nil, ks') := findOrAddConst ks .nil
      if (constOp ks c).falsey && (constOp ks c).sameKind (constOp ks' nil) then
        some (.alwaysTrue, ks')
      else if !(constOp ks c).sameKind (constOp ks' nil) then some (.alwaysFalse, ks')
      else some (.unknown, ks')
    | .immConstant _ => some (.alwaysFalse, ks)
    | _ => some (.unknown, ks)
  | .jumpXEqKB =>
    match valConst with
    | .immConstant (.boolean _) => none
    | .vmConstant c => some (.ofOption (eqImm (constOp ks c) (f.immOp (inst.arg 3))), ks)
    | _ => some (.unknown, ks)
  | .jumpXEqKN =>
    match valConst with
    | .vmConstant c => some (.ofOption (eqConsts (constOp ks c) (constOp ks (inst.arg 3))), ks)
    | .immConstant (.int n) => some (.ofOption (eqInt (constOp ks (inst.arg 3)) n), ks)
    | _ => some (.unknown, ks)
  | .jumpXEqKS =>
    match valConst with
    | .vmConstant c => some (.ofOption (eqConsts (constOp ks c) (constOp ks (inst.arg 3))), ks)
    | _ => some (.unknown, ks)
  | _ => some (.unknown, ks)

def evaluateCondition (ks : List BcVmConst) (lat : OpConstness) (op : BcOp) : ConditionState :=
  match operandLattice lat op with
  | .vmConstant c => .of (!(constOp ks c).falsey)
  | .immConstant (.boolean b) => .of b
  | _ => .unknown

/-- The jumps whose condition the pass may know. -/
inductive Test where
  | truth (op : BcOp)
  | compare (lhs rhs : BcOp)
  | xeqk (op : BcOp)

/-- The test of an instruction, its target, and whether it jumps when the test holds. -/
def test (f : BcFunction) (inst : BcInst) : Option (Test × BcOp × Bool) :=
  match inst.op with
  | .jumpIf | .jumpIfNot => some (.truth (inst.arg 0), inst.arg 1, inst.op = .jumpIf)
  | .jumpIfEq | .jumpIfLe | .jumpIfLt | .jumpIfNotEq | .jumpIfNotLe | .jumpIfNotLt =>
    some (.compare (inst.arg 0) (inst.arg 1), inst.arg 2, !inst.op.negated)
  | .jumpXEqKNil | .jumpXEqKB | .jumpXEqKN | .jumpXEqKS =>
    some (.xeqk (inst.arg 0), inst.arg 2, f.immOp (inst.arg 1) = .boolean false)
  | _ => none

/-- The condition of a test. -/
def condition (f : BcFunction) (ks : List BcVmConst) (lat : OpConstness) (inst : BcInst) :
    Test → Option (ConditionState × List BcVmConst)
  | .truth op => some (evaluateCondition ks lat op, ks)
  | .compare lhs rhs => some (evaluateComparisonCondition ks lat inst.op lhs rhs, ks)
  | .xeqk _ => evaluateXeqkCondition f ks lat inst

/-- The operands of a test. -/
def Test.ops : Test → List BcOp
  | truth op | xeqk op => [op]
  | compare lhs rhs => [lhs, rhs]

def unknownConditionConstness (lat : OpConstness) (ops : List BcOp) : ConstnessLattice :=
  if ops.any fun op => operandLattice lat op = .notAConstant then .notAConstant else .undetermined

/-! ### Instructions -/

/-- The `switch` of `evaluateArith` on two integers. -/
def foldInt (op : LuauOpcode) (lv rv : ℤ) : Option ℤ :=
  match op with
  | .add => some (lv + rv)
  | .sub => some (lv - rv)
  | .mul => some (lv * rv)
  | .mod =>
    let remainder := lv.tmod rv
    some (if remainder ≠ 0 ∧ decide (lv < 0) ≠ decide (rv < 0) then remainder + rv else remainder)
  | .iDiv =>
    let result := lv.tdiv rv
    some (if result < 0 ∧ lv.tmod rv ≠ 0 then result - 1 else result)
  | _ => none

def evaluateArith (pow : Double → Double → Double) (ks : List BcVmConst) (lat : OpConstness)
    (inst : BcInst) : ConstnessLattice × List BcVmConst :=
  match operandLattice lat (inst.arg 0), operandLattice lat (inst.arg 1) with
  | .immConstant (.int lv), .immConstant (.int rv) =>
    if rv = 0 ∧ (inst.op = .div ∨ inst.op = .mod ∨ inst.op = .iDiv) then (.notAConstant, ks)
    else if inst.op = .div ∨ inst.op = .pow then (.notAConstant, ks)
    else match foldInt inst.op lv rv with
      | some n => if n < -32768 ∨ 32767 < n then (.notAConstant, ks) else (.immConstant (.int n), ks)
      | none => (.notAConstant, ks)
  | .vmConstant a, .vmConstant b =>
    match evaluateConsts pow ks a b inst.op with
    | some (c, ks) => (.vmConstant c, ks)
    | none => (.notAConstant, ks)
  | .undetermined, .undetermined => (.undetermined, ks)
  | _, _ => (.notAConstant, ks)

def evaluate (pow : Double → Double → Double) (f : BcFunction) (ks : List BcVmConst)
    (lat : OpConstness) (inst : BcInst) : Option (ConstnessLattice × List BcVmConst) :=
  match test f inst with
  | some (t, _, onTrue) =>
    (condition f ks lat inst t).map fun (cond, ks) =>
      if cond = .unknown then (unknownConditionConstness lat t.ops, ks)
      else (.immConstant (.boolean (decide (cond = .alwaysTrue) == onTrue)), ks)
  | none =>
    match inst.op with
    | .loadK | .loadKX => some (.vmConstant (inst.arg 0), ks)
    | .loadB | .loadN => some (.immConstant (f.immOp (inst.arg 0)), ks)
    | .loadNil =>
      let (nil, ks) := findOrAddConst ks .nil
      some (.vmConstant nil, ks)
    | .add | .sub | .mul | .div | .mod | .pow | .iDiv => some (evaluateArith pow ks lat inst)
    | .move => some (operandLattice lat (inst.arg 0), ks)
    | _ => some (.notAConstant, ks)

/-! ### Jumps -/

structure JumpTarget where
  dead : Bool := false
  blockOp : BcOp

def getFallthrough (block : BcBlock) : Option BcOp :=
  match block.successors.filter (·.kind = .fallthrough) with
  | [e] => some e.target
  | _ => none

/-- `conditionalTargets`.  A block that ends with a jump falls through to another one; otherwise the
source reads outside of the edges. -/
def conditionalTargets (f : BcFunction) (inst : BcInst) (target : BcOp) (cond : ConditionState)
    (targetTakenOnTrue : Bool) : List JumpTarget :=
  let fallthrough := (getFallthrough (f.block inst.block)).getD {}
  [{ dead := cond ≠ .unknown && (decide (cond = .alwaysTrue) != targetTakenOnTrue)
     blockOp := target },
   { dead := cond ≠ .unknown && (decide (cond = .alwaysTrue) == targetTakenOnTrue)
     blockOp := fallthrough }]

/-- The target of a jump whose condition is never known. -/
def looseTarget (inst : BcInst) : Option BcOp :=
  match inst.op with
  | .forNPrep | .forNLoop | .forGPrep | .forGPrepNext | .forGPrepInext => some (inst.arg 3)
  | .forGLoop => some (inst.arg 5)
  | .cmpProto => some (inst.arg 2)
  | _ => none

def jumpTargets (f : BcFunction) (ks : List BcVmConst) (lat : OpConstness) (inst : BcInst) :
    Option (List JumpTarget × List BcVmConst) :=
  match test f inst with
  | some (t, target, onTrue) =>
    (condition f ks lat inst t).map fun (cond, ks) =>
      (conditionalTargets f inst target cond onTrue, ks)
  | none =>
    if inst.op = .jump ∨ inst.op = .jumpBack then some ([{ blockOp := inst.arg 0 }], ks)
    else match looseTarget inst with
      | some target => some (conditionalTargets f inst target .unknown true, ks)
      | none => some ([], ks)

end Sccp

end Jaci
