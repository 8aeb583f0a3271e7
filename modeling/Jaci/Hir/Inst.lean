import Mathlib

/-!
# The high-level representation

Instructions of the high-level intermediate representation, their operands and their types.
-/

namespace Jaci

namespace Hir

/-- The types of values. -/
inductive TypeKind where
  | Bottom | Nil | Boolean | Number | Integer | String | Table | Function | Thread | Userdata
  | Vector | Buffer | Any
deriving DecidableEq

/-- A type, with or without nil. -/
structure Ty where
  kind : TypeKind
  optional : Bool
deriving DecidableEq

def Ty.of (kind : TypeKind) : Ty := ⟨kind, false⟩

/-- The smallest `int64_t`. -/
def int64Min : ℤ := -2 ^ 63

/-- The largest `int64_t`. -/
def int64Max : ℤ := 2 ^ 63 - 1

/-- A range of integers. -/
structure Range where
  min : ℤ
  max : ℤ
deriving DecidableEq

namespace Range

def full : Range := ⟨int64Min, int64Max⟩

end Range

inductive EscapeState where
  | NoEscape | EscapeArg | GlobalEscape
deriving DecidableEq

/-- The commands. -/
inductive Cmd where
  | Nop | ConstNil | ConstBool | ConstInt | ConstInt64 | ConstDouble | ConstString | ConstTag
  | Phi | BlockArg | Jump | Branch | Return | Unreachable | StructuredIf | StructuredLoop
  | Add | Sub | Mul | Div | FloorDiv | Mod | Pow | Neg | Not | Len
  | BitAnd | BitOr | BitXor | BitNot | BitLShift | BitRShift | BitARShift | CmpEq | CmpLt | CmpLe
  | CheckTag | CheckType | CheckNotNil | CheckShape | CheckBounds | AssertTruth | Cast
  | AllocTable | GetTable | SetTable | GetTableRaw | SetTableRaw | GetShapeSlot | SetShapeSlot
  | GetArrayElement | SetArrayElement | GetArrayLength | TableLen | TableNext
  | AllocVirtualTable | ReadVirtualField | WriteVirtualField | MaterializeVirtual
  | AllocClosure | GetUpvalue | SetUpvalue | CloseUpvalues
  | Call | CallBuiltin | ReturnValues | PackMultivalue | ExtractMultivalue | GetVarargs
  | Snapshot | GcBarrier | LoadVmReg | StoreVmReg | VmExit
deriving DecidableEq

/-- The kinds of operands. -/
inductive ValueKind where
  | None | Inst | Constant | BlockArg | VirtualObject | VmRegister | Multivalue
deriving DecidableEq

/-- An operand. -/
structure Value where
  kind : ValueKind
  /-- The index of the instruction, constant or register. -/
  index : ℕ
deriving DecidableEq

/-- An instruction. -/
structure Inst where
  cmd : Cmd
  type : Ty
  range : Range
  args : List Value
  /-- The register, the shape or the virtual table. -/
  extra : ℕ
deriving DecidableEq

/-- An instruction that does nothing. -/
def Inst.nop : Inst := ⟨.Nop, .of .Any, .full, [], 0⟩

/-- `~0u`. -/
def noShape : ℕ := 2 ^ 32 - 1

end Hir

end Jaci
