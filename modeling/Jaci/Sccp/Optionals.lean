import Jaci.Sccp.Steps

/-!
# Lattice values with two optionals

`ConstnessLattice` as it is stored: a kind, an optional constant and an optional immediate.  Nothing
but the constructors keeps the kind and the two optionals together, and the evaluators read the
optionals with `value()`.

* `Raw.ConstnessLattice` : the stored lattice values;
* `Raw.evaluate`, `Raw.jumpTargets` : the evaluators, with no result if an empty optional is read;
* `Raw.sccpLoops` : the propagation.
-/

namespace Jaci

namespace Sccp

namespace Raw

inductive Constness where
  | undetermined | notAConstant | vmConstant | immConstant
deriving DecidableEq

structure ConstnessLattice where
  kind : Constness := .undetermined
  vmConst : Option BcOp := none
  immConst : Option BcImm := none

abbrev OpConstness := BcOp → ConstnessLattice

namespace ConstnessLattice

/-- The constructor for a constant. -/
def ofVmConst (op : BcOp) : ConstnessLattice := { kind := .vmConstant, vmConst := some op }

/-- The constructor for an immediate. -/
def ofImm (imm : BcImm) : ConstnessLattice := { kind := .immConstant, immConst := some imm }

/-- The constructor for a kind alone. -/
def ofKind (kind : Constness) : ConstnessLattice := { kind := kind }

/-- `operator==`. -/
def eqv (x y : ConstnessLattice) : Bool :=
  if x.kind ≠ y.kind then false
  else if x.kind = .immConstant then x.immConst = y.immConst
  else if x.kind = .vmConstant then x.vmConst = y.vmConst
  else true

def merge (x y : ConstnessLattice) : ConstnessLattice :=
  if x.kind = .undetermined then y
  else if y.kind = .undetermined then x
  else if x.eqv y then x
  else ofKind .notAConstant

end ConstnessLattice

def operandLattice (lat : OpConstness) (op : BcOp) : ConstnessLattice :=
  if op.kind = .proj ∨ op.kind = .vmReg ∨ op.kind = .vmUpvalue then .ofKind .notAConstant else lat op

def unknownConditionConstness (lat : OpConstness) (ops : List BcOp) : Constness :=
  if ops.any fun op => (operandLattice lat op).kind = .notAConstant then .notAConstant
  else .undetermined

/-! ### Evaluators -/

def evaluateArith (pow : Double → Double → Double) (ks : List BcVmConst) (lat : OpConstness)
    (inst : BcInst) : Option (ConstnessLattice × List BcVmConst) :=
  let lhsConstness := operandLattice lat (inst.arg 0)
  let rhsConstness := operandLattice lat (inst.arg 1)
  if lhsConstness.kind = .immConstant ∧ rhsConstness.kind = .immConstant then do
    let lhsImm ← lhsConstness.immConst
    let rhsImm ← rhsConstness.immConst
    match lhsImm, rhsImm with
    | .int lv, .int rv =>
      if rv = 0 ∧ (inst.op = .div ∨ inst.op = .mod ∨ inst.op = .iDiv) then
        return (.ofKind .notAConstant, ks)
      else if inst.op = .div ∨ inst.op = .pow then return (.ofKind .notAConstant, ks)
      else match foldInt inst.op lv rv with
        | some n =>
          if n < -32768 ∨ 32767 < n then return (.ofKind .notAConstant, ks)
          else return (.ofImm (.int n), ks)
        | none => return (.ofKind .notAConstant, ks)
    | _, _ => return (.ofKind .notAConstant, ks)
  else if lhsConstness.kind = .vmConstant ∧ rhsConstness.kind = .vmConstant then do
    let a ← lhsConstness.vmConst
    let b ← rhsConstness.vmConst
    match evaluateConsts pow ks a b inst.op with
    | some (c, ks) => return (.ofVmConst c, ks)
    | none => return (.ofKind .notAConstant, ks)
  else if lhsConstness.kind = .undetermined ∧ rhsConstness.kind = .undetermined then
    some (.ofKind .undetermined, ks)
  else some (.ofKind .notAConstant, ks)

def isOrderableLattice (ks : List BcVmConst) (c : ConstnessLattice) : Option Bool :=
  if c.kind = .vmConstant then do return (constOp ks (← c.vmConst)).isOrderable
  else if c.kind = .immConstant then do
    match ← c.immConst with
    | .int _ => return true
    | _ => return false
  else some false

/-- `isOrderingOp` and an operand without an order. -/
def lacksOrder (ks : List BcVmConst) (op : LuauOpcode) (lhs rhs : ConstnessLattice) : Option Bool :=
  if op.isOrdering then do
    if !(← isOrderableLattice ks lhs) then return true
    else return !(← isOrderableLattice ks rhs)
  else some false

def evaluateComparisonCondition (ks : List BcVmConst) (lat : OpConstness) (op : LuauOpcode)
    (lhs rhs : BcOp) : Option ConditionState := do
  let lhsConst := operandLattice lat lhs
  let rhsConst := operandLattice lat rhs
  if ← lacksOrder ks op lhsConst rhsConst then return .unknown
  if lhsConst.kind = .vmConstant ∧ rhsConst.kind = .vmConstant then
    let a ← lhsConst.vmConst
    let b ← rhsConst.vmConst
    if !(constOp ks a).sameKind (constOp ks b) then return .unknown
    else return .of (applyOp (cmpConsts (constOp ks a) (constOp ks b)) op)
  else if lhsConst.kind = .immConstant ∧ rhsConst.kind = .immConstant then
    let lhsImm ← lhsConst.immConst
    let rhsImm ← rhsConst.immConst
    match lhsImm, rhsImm with
    | .int lv, .int rv => return .of (applyOp (threeWayInt lv rv) op)
    | .boolean lv, .boolean rv => return .of (applyOp (if lv = rv then 0 else 1) op)
    | _, _ => return .unknown
  else if lhsConst.kind = .vmConstant ∧ rhsConst.kind = .immConstant then
    let a ← lhsConst.vmConst
    let rhsImm ← rhsConst.immConst
    return .of (applyOp (cmpImm (constOp ks a) rhsImm) op)
  else if lhsConst.kind = .immConstant ∧ rhsConst.kind = .vmConstant then
    let b ← rhsConst.vmConst
    let lhsImm ← lhsConst.immConst
    return .of (applyOp (-cmpImm (constOp ks b) lhsImm) op)
  else return .unknown

def evaluateXeqkCondition (f : BcFunction) (ks : List BcVmConst) (lat : OpConstness)
    (inst : BcInst) : Option (ConditionState × List BcVmConst) :=
  let valConst := operandLattice lat (inst.arg 0)
  match inst.op with
  | .jumpXEqKNil =>
    if valConst.kind = .vmConstant then do
      let c ← valConst.vmConst
      let (nil, ks') := findOrAddConst ks .nil
      if (constOp ks c).falsey && (constOp ks c).sameKind (constOp ks' nil) then
        return (.alwaysTrue, ks')
      else if !(constOp ks c).sameKind (constOp ks' nil) then return (.alwaysFalse, ks')
      else return (.unknown, ks')
    else if valConst.kind = .immConstant then some (.alwaysFalse, ks)
    else some (.unknown, ks)
  | .jumpXEqKB =>
    if valConst.kind = .immConstant then do
      match ← valConst.immConst with
      | .boolean _ =>
        -- the constant is read although the value is an immediate
        let c ← valConst.vmConst
        return (.ofOption (eqImm (constOp ks c) (f.immOp (inst.arg 3))), ks)
      | _ => return (.unknown, ks)
    else if valConst.kind = .vmConstant then do
      let c ← valConst.vmConst
      return (.ofOption (eqImm (constOp ks c) (f.immOp (inst.arg 3))), ks)
    else some (.unknown, ks)
  | .jumpXEqKN =>
    if valConst.kind = .vmConstant then do
      let c ← valConst.vmConst
      return (.ofOption (eqConsts (constOp ks c) (constOp ks (inst.arg 3))), ks)
    else if valConst.kind = .immConstant then do
      match ← valConst.immConst with
      | .int n => return (.ofOption (eqInt (constOp ks (inst.arg 3)) n), ks)
      | _ => return (.unknown, ks)
    else some (.unknown, ks)
  | .jumpXEqKS =>
    if valConst.kind = .vmConstant then do
      let c ← valConst.vmConst
      return (.ofOption (eqConsts (constOp ks c) (constOp ks (inst.arg 3))), ks)
    else some (.unknown, ks)
  | _ => some (.unknown, ks)

def evaluateCondition (ks : List BcVmConst) (lat : OpConstness) (op : BcOp) :
    Option ConditionState :=
  let lhs := operandLattice lat op
  if lhs.kind = .vmConstant then do return .of (!(constOp ks (← lhs.vmConst)).falsey)
  else if lhs.kind = .immConstant then do
    match ← lhs.immConst with
    | .boolean b => return .of b
    | _ => return .unknown
  else some .unknown

/-- The condition of a test. -/
def condition (f : BcFunction) (ks : List BcVmConst) (lat : OpConstness) (inst : BcInst) :
    Test → Option (ConditionState × List BcVmConst)
  | .truth op => (evaluateCondition ks lat op).map (·, ks)
  | .compare lhs rhs => (evaluateComparisonCondition ks lat inst.op lhs rhs).map (·, ks)
  | .xeqk _ => evaluateXeqkCondition f ks lat inst

def evaluate (pow : Double → Double → Double) (f : BcFunction) (ks : List BcVmConst)
    (lat : OpConstness) (inst : BcInst) : Option (ConstnessLattice × List BcVmConst) :=
  match test f inst with
  | some (t, _, onTrue) =>
    (condition f ks lat inst t).map fun (cond, ks) =>
      if cond = .unknown then (.ofKind (unknownConditionConstness lat t.ops), ks)
      else (.ofImm (.boolean (decide (cond = .alwaysTrue) == onTrue)), ks)
  | none =>
    match inst.op with
    | .loadK | .loadKX => some (.ofVmConst (inst.arg 0), ks)
    | .loadB | .loadN => some (.ofImm (f.immOp (inst.arg 0)), ks)
    | .loadNil =>
      let (nil, ks) := findOrAddConst ks .nil
      some (.ofVmConst nil, ks)
    | .add | .sub | .mul | .div | .mod | .pow | .iDiv => evaluateArith pow ks lat inst
    | .move => some (operandLattice lat (inst.arg 0), ks)
    | _ => some (.ofKind .notAConstant, ks)

def jumpTargets (f : BcFunction) (ks : List BcVmConst) (lat : OpConstness) (inst : BcInst) :
    Option (List JumpTarget × List BcVmConst) :=
  match test f inst with
  | some (t, target, onTrue) =>
    (condition f ks lat inst t).map fun (cond, ks) =>
      (conditionalTargets f inst target cond onTrue, ks)
  | none =>
    if inst.op = .jump ∨ inst.op = .jumpBack then some ([{ blockOp := inst.arg 0 }], ks)
    else match looseTarget inst with
      | some target => some (conditionalTargets f inst target .unknown true, ks)
      | none => some ([], ks)

/-! ### The propagation -/

/-- The state of `Sccp`. -/
structure SccpState where
  constants : List BcVmConst
  opConstness : OpConstness := fun _ => {}
  blockUses : ℕ → List BcOp := fun _ => []
  flowWorklist : List BcOp := []
  flowWorklistSet : List BcOp := []
  ssaWorklist : List BcOp := []

namespace SccpState

/-- `blockUses[block].insert(pred)`. -/
def insertUse (st : SccpState) (block : ℕ) (pred : BcOp) : SccpState :=
  if pred ∈ st.blockUses block then st
  else { st with blockUses := Function.update st.blockUses block (pred :: st.blockUses block) }

/-- `flowWorklist.push_back(block)`, but for a block that was visited. -/
def pushFlow (st : SccpState) (block : BcOp) : SccpState :=
  if block ∈ st.flowWorklistSet then st
  else { st with flowWorklist := st.flowWorklist ++ [block] }

/-- `opConstness[op] = lattice`, and the uses of `op` on the list if that is a change. -/
def setLattice (st : SccpState) (op : BcOp) (lattice : ConstnessLattice) (uses : List BcOp) :
    SccpState :=
  { st with
    opConstness := Function.update st.opConstness op lattice
    ssaWorklist := if !lattice.eqv (st.opConstness op) then st.ssaWorklist ++ uses
      else st.ssaWorklist }

/-- The state at the start of `propagate`. -/
def initial (f : BcFunction) : SccpState :=
  let st : SccpState := { constants := f.constants, flowWorklist := [f.entryBlock] }
  (st.insertUse f.entryBlock.index f.entryBlock).insertUse f.exitBlock.index f.exitBlock

end SccpState

def visitPhi (f : BcFunction) (st : SccpState) (op : BcOp) : SccpState :=
  let fold := (f.phi op).ops.foldl
    (fun fold op => (operandLattice st.opConstness op).merge fold) {}
  st.setLattice op fold (f.phi op).uses

/-- The head of `visitInst`. -/
def visitCapture (f : BcFunction) (st : SccpState) (inst : BcInst) : SccpState :=
  match inst.captured f with
  | some src =>
    if (st.opConstness src).kind ≠ .notAConstant ∧ (src.kind = .inst ∨ src.kind = .phi) then
      { st with
        opConstness := Function.update st.opConstness src (.ofKind .notAConstant)
        ssaWorklist := st.ssaWorklist ++ f.usesOf src }
    else st
  | none => st

/-- The loop over the targets of an instruction. -/
def visitTarget (block : BcOp) (st : SccpState) (target : JumpTarget) : SccpState :=
  if target.dead then st
  else (st.insertUse target.blockOp.index block).pushFlow target.blockOp

/-- The loop over the edges of a block. -/
def visitEdge (blockOp : BcOp) (blockEndsWithBranch : Bool) (st : SccpState) (edge : BcBlockEdge) :
    SccpState :=
  if edge.kind = .fallthrough then
    if blockEndsWithBranch && !(blockOp ∈ st.blockUses edge.target.index) then st
    else (st.insertUse edge.target.index blockOp).pushFlow edge.target
  else st

section

variable (pow : Double → Double → Double) (f : BcFunction)

def visitInst (st : SccpState) (op : BcOp) : Option SccpState :=
  let inst := f.inst op
  let st := visitCapture f st inst
  (evaluate pow f st.constants st.opConstness inst).bind fun (lattice, ks) =>
    let newVal := lattice.merge (st.opConstness op)
    (jumpTargets f ks st.opConstness inst).map fun (targets, ks) =>
      (targets.foldl (visitTarget inst.block) { st with constants := ks }).setLattice op newVal
        inst.uses

/-- Whether the last instruction of a block has targets. -/
def endsWithBranch (st : SccpState) (block : BcBlock) : Option (Bool × SccpState) :=
  match block.ops.getLast? with
  | some last =>
    if last.kind = .inst then
      (jumpTargets f st.constants st.opConstness (f.inst last)).map fun (targets, ks) =>
        (!targets.isEmpty, { st with constants := ks })
    else some (false, st)
  | none => some (false, st)

/-- The end of the visit of a block. -/
def leaveBlock (st : SccpState) (blockOp : BcOp) : Option SccpState :=
  (endsWithBranch f st (f.block blockOp)).map fun (branch, st) =>
    let st := (f.block blockOp).successors.foldl (visitEdge blockOp branch) st
    { st with flowWorklistSet := blockOp :: st.flowWorklistSet }

def perform (task : Task) (st : SccpState) : Option SccpState :=
  match task with
  | .phi op => some (visitPhi f st op)
  | .inst op => visitInst pow f st op
  | .leave block => leaveBlock f st block

/-- The loops of `propagate`. -/
def sccpLoops : Loops SccpState where
  flow st := st.flowWorklist
  popFlow st := { st with flowWorklist := st.flowWorklist.tail }
  seen st := st.flowWorklistSet
  ssa st := st.ssaWorklist
  popSsa st := { st with ssaWorklist := st.ssaWorklist.tail }
  perform := perform pow f
  initial := SccpState.initial f

end

end Raw

end Sccp

end Jaci
