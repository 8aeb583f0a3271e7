import Jaci.Sccp.Evaluate
import Mathlib.Logic.Function.Basic

/-!
# Sparse conditional constant propagation

Two lists of work: blocks that were found to be reachable, each of which is visited once, and
instructions and phis whose operands changed.  A visit puts what it changes on the lists.

* `visitPhi`, `visitInst` : what a visit does.
-/

namespace Jaci

namespace Sccp

/-- The state of `Sccp`. -/
structure SccpState where
  constants : List BcVmConst
  opConstness : OpConstness := fun _ => .undetermined
  blockUses : ℕ → List BcOp := fun _ => []
  flowWorklist : List BcOp := []
  flowWorklistSet : List BcOp := []
  ssaWorklist : List BcOp := []

namespace SccpState

/-- `blockUses[block].insert(pred)`. -/
def insertUse (st : SccpState) (block : ℕ) (pred : BcOp) : SccpState :=
  if pred ∈ st.blockUses block then st
  else { st with blockUses := Function.update st.blockUses block (pred :: st.blockUses block) }

/-- `flowWorklist.push_back(block)`, but for a block that was visited. -/
def pushFlow (st : SccpState) (block : BcOp) : SccpState :=
  if block ∈ st.flowWorklistSet then st
  else { st with flowWorklist := st.flowWorklist ++ [block] }

/-- `opConstness[op] = lattice`, and the uses of `op` on the list if that is a change. -/
def setLattice (st : SccpState) (op : BcOp) (lattice : ConstnessLattice) (uses : List BcOp) :
    SccpState :=
  { st with
    opConstness := Function.update st.opConstness op lattice
    ssaWorklist := if lattice ≠ st.opConstness op then st.ssaWorklist ++ uses
      else st.ssaWorklist }

end SccpState

/-- The lattice values of the operands of a phi, merged. -/
def phiLattice (lat : OpConstness) (phi : BcPhi) : ConstnessLattice :=
  phi.ops.foldl (fun fold op => (operandLattice lat op).merge fold) .undetermined

def visitPhi (f : BcFunction) (st : SccpState) (op : BcOp) : SccpState :=
  st.setLattice op (phiLattice st.opConstness (f.phi op)) (f.phi op).uses

/-- A `CAPTURE` by reference, with the variable that it captures. -/
def BcInst.captured (f : BcFunction) (inst : BcInst) : Option BcOp :=
  if inst.op = .capture ∧ 2 ≤ inst.ops.length ∧ f.immOp (inst.arg 0) = .int 1 then some (inst.arg 1)
  else none

/-- The head of `visitInst`: a captured variable can change at any time. -/
def visitCapture (f : BcFunction) (st : SccpState) (inst : BcInst) : SccpState :=
  match inst.captured f with
  | some src =>
    if src.kind = .inst ∨ src.kind = .phi then st.setLattice src .notAConstant (f.usesOf src)
    else st
  | none => st

/-- The loop over the targets of an instruction. -/
def visitTarget (block : BcOp) (st : SccpState) (target : JumpTarget) : SccpState :=
  if target.dead then st
  else (st.insertUse target.blockOp.index block).pushFlow target.blockOp

section

variable (pow : Double → Double → Double) (f : BcFunction)

def visitInst (st : SccpState) (op : BcOp) : Option SccpState :=
  let inst := f.inst op
  let st := visitCapture f st inst
  (evaluate pow f st.constants st.opConstness inst).bind fun (lattice, ks) =>
    let newVal := lattice.merge (st.opConstness op)
    (jumpTargets f ks st.opConstness inst).map fun (targets, ks) =>
      (targets.foldl (visitTarget inst.block) { st with constants := ks }).setLattice op newVal
        inst.uses

/-- The loop over the edges of a block. -/
def visitEdge (blockOp : BcOp) (blockEndsWithBranch : Bool) (st : SccpState) (edge : BcBlockEdge) :
    SccpState :=
  if edge.kind = .fallthrough then
    if blockEndsWithBranch && !(blockOp ∈ st.blockUses edge.target.index) then st
    else (st.insertUse edge.target.index blockOp).pushFlow edge.target
  else st

/-- Whether the last instruction of a block has targets. -/
def endsWithBranch (st : SccpState) (block : BcBlock) : Option (Bool × SccpState) :=
  match block.ops.getLast? with
  | some last =>
    if last.kind = .inst then
      (jumpTargets f st.constants st.opConstness (f.inst last)).map fun (targets, ks) =>
        (!targets.isEmpty, { st with constants := ks })
    else some (false, st)
  | none => some (false, st)

/-- The state at the start of `propagate`. -/
def SccpState.initial : SccpState :=
  let st : SccpState := { constants := f.constants, flowWorklist := [f.entryBlock] }
  (st.insertUse f.entryBlock.index f.entryBlock).insertUse f.exitBlock.index f.exitBlock

end

end Sccp

end Jaci
