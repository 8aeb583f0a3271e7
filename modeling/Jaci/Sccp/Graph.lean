import Jaci.Lib.DoubleArith
import Mathlib.Data.List.Basic

/-!
# Graphs of bytecode

A function in the form in which constants are propagated: blocks of instructions whose operands name
the instructions and the phis that they read.  The operands of a phi are not in the order of the
edges into its block, and a register that has no value on an edge has no operand for it.

* `BcFunction` : the graph;
* `ConstnessLattice` : what is known of the value of an instruction.
-/

namespace Jaci

namespace Sccp

inductive BcOpKind where
  | none | imm | inst | block | phi | proj | vmReg | vmConst | vmUpvalue | vmProto
deriving DecidableEq

structure BcOp where
  /-- What `index` is an index of. -/
  kind : BcOpKind := .none
  index : ℕ := 0
deriving DecidableEq

inductive BcImm where
  | boolean (b : Bool)
  | int (n : ℤ)
  | importPath (n : ℕ)
deriving DecidableEq

/-- `BcVmConst`.  The kinds that name an object by a number are one constructor. -/
inductive BcVmConst where
  | nil
  | boolean (b : Bool)
  | number (x : Double)
  | vectorf (l : List Double)
  | vectord (l : List Double)
  | string (s : List UInt8)
  | integer (n : ℤ)
  | object (kind n : ℕ)

/-- The opcodes that the pass or the runs tell apart. -/
inductive LuauOpcode where
  -- Loads
  | loadK | loadKX | loadB | loadN | loadNil | move
  -- Arithmetic
  | add | sub | mul | div | mod | pow | iDiv
  -- Jumps
  | jump | jumpBack | jumpIf | jumpIfNot
  | jumpIfEq | jumpIfLe | jumpIfLt | jumpIfNotEq | jumpIfNotLe | jumpIfNotLt
  | jumpXEqKNil | jumpXEqKB | jumpXEqKN | jumpXEqKS
  -- Loops, and the guard of an inlined call
  | forNPrep | forNLoop | forGPrep | forGPrepNext | forGPrepInext | forGLoop | cmpProto
  -- Upvalues
  | capture | closeUpvals
  | ret
  | other (code : ℕ)
deriving DecidableEq

structure BcInst where
  op : LuauOpcode := .other 0
  block : BcOp := {}
  ops : List BcOp := []
  /-- The instructions and phis of which it is an operand. -/
  uses : List BcOp := []
deriving DecidableEq

inductive BcBlockEdgeKind where
  | branch | fallthrough | loop
deriving DecidableEq

structure BcBlockEdge where
  kind : BcBlockEdgeKind
  target : BcOp
deriving DecidableEq

structure BcBlock where
  dead : Bool := false
  /-- The number of blocks from which it was reached. -/
  useCount : ℕ := 0
  phis : List BcOp := []
  ops : List BcOp := []
  successors : List BcBlockEdge := []
deriving DecidableEq

structure BcPhi where
  ops : List BcOp := []
  /-- The instructions and phis of which it is an operand. -/
  uses : List BcOp := []
deriving DecidableEq

structure BcFunction where
  blocks : List BcBlock := []
  instructions : List BcInst := []
  constants : List BcVmConst := []
  immediates : List BcImm := []
  phis : List BcPhi := []
  regs : List (BcOp × ℕ) := []
  entryBlock : BcOp := ⟨.block, 0⟩
  exitBlock : BcOp := ⟨.block, 1⟩

namespace BcFunction

/-- `func.block(op)`. -/
def block (f : BcFunction) (op : BcOp) : BcBlock := f.blocks[op.index]?.getD {}

/-- `func.inst(op)`. -/
def inst (f : BcFunction) (op : BcOp) : BcInst := f.instructions[op.index]?.getD {}

/-- `func.phi(op)`. -/
def phi (f : BcFunction) (op : BcOp) : BcPhi := f.phis[op.index]?.getD {}

/-- `func.immOp(op)`. -/
def immOp (f : BcFunction) (op : BcOp) : BcImm := f.immediates[op.index]?.getD (.boolean false)

/-- `usesOf(func, op)`. -/
def usesOf (f : BcFunction) (op : BcOp) : List BcOp :=
  if op.kind = .inst then (f.inst op).uses else (f.phi op).uses

/-- The operands of an instruction or a phi. -/
def opsOf (f : BcFunction) (op : BcOp) : List BcOp :=
  if op.kind = .inst then (f.inst op).ops else (f.phi op).ops

end BcFunction

/-- `inst->ops[i]`. -/
def BcInst.arg (x : BcInst) (i : ℕ) : BcOp := x.ops[i]?.getD {}

/-! ### The lattice -/

inductive ConstnessLattice where
  | undetermined
  | notAConstant
  | vmConstant (op : BcOp)
  | immConstant (imm : BcImm)
deriving DecidableEq

/-- `OpConstness`; what is not in the map is undetermined. -/
abbrev OpConstness := BcOp → ConstnessLattice

namespace ConstnessLattice

def merge (x y : ConstnessLattice) : ConstnessLattice :=
  if x = undetermined then y
  else if y = undetermined then x
  else if x = y then x
  else notAConstant

/-- What `y` says holds if what `x` says does. -/
def Below (x y : ConstnessLattice) : Prop := x = undetermined ∨ y = notAConstant ∨ x = y

variable {x y z : ConstnessLattice}

theorem below_merge_left : x.Below (x.merge y) := by
  rw [merge]
  split_ifs with h1 h2 h3
  · exact .inl h1
  · exact .inr (.inr rfl)
  · exact .inr (.inr rfl)
  · exact .inr (.inl rfl)

theorem below_merge_right : y.Below (x.merge y) := by
  rw [merge]
  split_ifs with h1 h2 h3
  · exact .inr (.inr rfl)
  · exact .inl h2
  · exact .inr (.inr h3.symm)
  · exact .inr (.inl rfl)

theorem Below.refl : x.Below x := .inr (.inr rfl)

theorem Below.trans (hxy : x.Below y) (hyz : y.Below z) : x.Below z := by
  rcases hxy with rfl | rfl | rfl
  · exact .inl rfl
  · rcases hyz with h | rfl | rfl
    · cases h
    · exact .inr (.inl rfl)
    · exact .inr (.inl rfl)
  · exact hyz

@[simp] theorem merge_undetermined : x.merge undetermined = x := by
  cases x <;> simp [merge]

@[simp] theorem merge_notAConstant : x.merge notAConstant = notAConstant := by
  cases x <;> simp [merge]

@[simp] theorem notAConstant_merge : notAConstant.merge x = notAConstant := by
  cases x <;> simp [merge]

end ConstnessLattice

def operandLattice (lat : OpConstness) (op : BcOp) : ConstnessLattice :=
  if op.kind = .proj ∨ op.kind = .vmReg ∨ op.kind = .vmUpvalue then .notAConstant else lat op

end Sccp

end Jaci
