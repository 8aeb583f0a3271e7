import Mathlib

/-!
# Instruction words

* `LuauOpcode` : the opcodes, with what the builder knows about them;
* `insnD`, `insnE` : the offsets of a jump, as the interpreter decodes them;
* `withD`, `withE` : an offset is written into a word.
-/

namespace Jaci

namespace Bytecode

/-! ### Opcodes -/

inductive LuauOpcode where
  | NOP | BREAK | LOADNIL | LOADB | LOADN | LOADK | MOVE | GETGLOBAL | SETGLOBAL | GETUPVAL
  | SETUPVAL | CLOSEUPVALS | GETIMPORT | GETTABLE | SETTABLE | GETTABLEKS | SETTABLEKS
  | GETTABLEN | SETTABLEN | NEWCLOSURE | NAMECALL | CALL | RETURN | JUMP | JUMPBACK | JUMPIF
  | JUMPIFNOT | JUMPIFEQ | JUMPIFLE | JUMPIFLT | JUMPIFNOTEQ | JUMPIFNOTLE | JUMPIFNOTLT | ADD
  | SUB | MUL | DIV | MOD | POW | ADDK | SUBK | MULK | DIVK | MODK | POWK | AND | OR | ANDK | ORK
  | CONCAT | NOT | MINUS | LENGTH | NEWTABLE | DUPTABLE | SETLIST | FORNPREP | FORNLOOP
  | FORGLOOP | FORGPREP_INEXT | FASTCALL3 | FORGPREP_NEXT | NATIVECALL | GETVARARGS | DUPCLOSURE
  | PREPVARARGS | LOADKX | JUMPX | FASTCALL | COVERAGE | CAPTURE | SUBRK | DIVRK | FASTCALL1
  | FASTCALL2 | FASTCALL2K | FORGPREP | JUMPXEQKNIL | JUMPXEQKB | JUMPXEQKN | JUMPXEQKS | IDIV
  | IDIVK | GETUDATAKS | SETUDATAKS | NAMECALLUDATA | NEWCLASSMEMBER | CALLFB | CMPPROTO
  | NEWCLASS
deriving DecidableEq

namespace LuauOpcode

/-- The opcodes in their order. -/
def all : List LuauOpcode :=
  [.NOP, .BREAK, .LOADNIL, .LOADB, .LOADN, .LOADK, .MOVE, .GETGLOBAL, .SETGLOBAL, .GETUPVAL,
    .SETUPVAL, .CLOSEUPVALS, .GETIMPORT, .GETTABLE, .SETTABLE, .GETTABLEKS, .SETTABLEKS,
    .GETTABLEN, .SETTABLEN, .NEWCLOSURE, .NAMECALL, .CALL, .RETURN, .JUMP, .JUMPBACK, .JUMPIF,
    .JUMPIFNOT, .JUMPIFEQ, .JUMPIFLE, .JUMPIFLT, .JUMPIFNOTEQ, .JUMPIFNOTLE, .JUMPIFNOTLT, .ADD,
    .SUB, .MUL, .DIV, .MOD, .POW, .ADDK, .SUBK, .MULK, .DIVK, .MODK, .POWK, .AND, .OR, .ANDK,
    .ORK, .CONCAT, .NOT, .MINUS, .LENGTH, .NEWTABLE, .DUPTABLE, .SETLIST, .FORNPREP, .FORNLOOP,
    .FORGLOOP, .FORGPREP_INEXT, .FASTCALL3, .FORGPREP_NEXT, .NATIVECALL, .GETVARARGS, .DUPCLOSURE,
    .PREPVARARGS, .LOADKX, .JUMPX, .FASTCALL, .COVERAGE, .CAPTURE, .SUBRK, .DIVRK, .FASTCALL1,
    .FASTCALL2, .FASTCALL2K, .FORGPREP, .JUMPXEQKNIL, .JUMPXEQKB, .JUMPXEQKN, .JUMPXEQKS, .IDIV,
    .IDIVK, .GETUDATAKS, .SETUDATAKS, .NAMECALLUDATA, .NEWCLASSMEMBER, .CALLFB, .CMPPROTO,
    .NEWCLASS]

/-- The number of an opcode. -/
def code (op : LuauOpcode) : UInt32 := .ofNat (all.idxOf op)

def getOpLength : LuauOpcode → ℕ
  | GETGLOBAL | SETGLOBAL | GETIMPORT | GETTABLEKS | SETTABLEKS | NAMECALL | JUMPIFEQ | JUMPIFLE
  | JUMPIFLT | JUMPIFNOTEQ | JUMPIFNOTLE | JUMPIFNOTLT | NEWTABLE | SETLIST | FORGLOOP | LOADKX
  | FASTCALL2 | FASTCALL2K | FASTCALL3 | JUMPXEQKNIL | JUMPXEQKB | JUMPXEQKN | JUMPXEQKS
  | GETUDATAKS | SETUDATAKS | NAMECALLUDATA | NEWCLASSMEMBER | CALLFB | CMPPROTO | NEWCLASS => 2
  | _ => 1

def isJumpD : LuauOpcode → Bool
  | JUMP | JUMPIF | JUMPIFNOT | JUMPIFEQ | JUMPIFLE | JUMPIFLT | JUMPIFNOTEQ | JUMPIFNOTLE
  | JUMPIFNOTLT | FORNPREP | FORNLOOP | FORGPREP | FORGLOOP | FORGPREP_INEXT | FORGPREP_NEXT
  | JUMPBACK | JUMPXEQKNIL | JUMPXEQKB | JUMPXEQKN | JUMPXEQKS | CMPPROTO => true
  | _ => false

theorem getOpLength_pos (op : LuauOpcode) : 0 < op.getOpLength := by
  cases op <;> decide

end LuauOpcode

/-! ### Fields -/

/-- `LUAU_INSN_OP`, as a number. -/
def insnOp (insn : UInt32) : UInt32 := insn &&& 0xff

/-- The opcode of a word, if there is one. -/
def opcode (insn : UInt32) : Option LuauOpcode := LuauOpcode.all[(insnOp insn).toNat]?

/-- `LUAU_INSN_D`. -/
def insnD (insn : UInt32) : ℤ := insn.toInt32.toInt >>> (16 : ℕ)

/-- `LUAU_INSN_E`. -/
def insnE (insn : UInt32) : ℤ := insn.toInt32.toInt >>> (8 : ℕ)

/-- `insn &= 0xffff; insn |= uint16_t(offset) << 16`. -/
def withD (insn : UInt32) (offset : ℤ) : UInt32 :=
  (insn &&& (0xffff : UInt32)) ||| ((UInt16.ofInt offset).toUInt32 <<< 16)

/-- `insn &= 0xff; insn |= uint32_t(offset) << 8`. -/
def withE (insn : UInt32) (offset : ℤ) : UInt32 := (insn &&& (0xff : UInt32)) |||
  (UInt32.ofInt offset <<< 8)

/-- `int16_t(offset) == offset`. -/
def FitsD (offset : ℤ) : Prop := -2 ^ 15 ≤ offset ∧ offset < 2 ^ 15

/-- The offset fits into the signed 24-bit field. -/
def FitsE (offset : ℤ) : Prop := -2 ^ 23 ≤ offset ∧ offset < 2 ^ 23

instance (offset : ℤ) : Decidable (FitsD offset) := inferInstanceAs (Decidable (_ ∧ _))

instance (offset : ℤ) : Decidable (FitsE offset) := inferInstanceAs (Decidable (_ ∧ _))

theorem toInt_eq (w : UInt32) : w.toInt32.toInt = (w.toNat : ℤ).bmod (2 ^ 32) :=
  BitVec.toInt_eq_toNat_bmod w.toBitVec

theorem insnD_eq (w : UInt32) : insnD w = ((w.toNat / 2 ^ 16 : ℕ) : ℤ).bmod (2 ^ 16) := by
  have hlt := w.toNat_lt
  rw [insnD, toInt_eq, Int.shiftRight_eq_div_pow, Int.bmod_def, Int.bmod_def]
  split_ifs <;> omega

theorem insnE_eq (w : UInt32) : insnE w = ((w.toNat / 2 ^ 8 : ℕ) : ℤ).bmod (2 ^ 24) := by
  have hlt := w.toNat_lt
  rw [insnE, toInt_eq, Int.shiftRight_eq_div_pow, Int.bmod_def, Int.bmod_def]
  split_ifs <;> omega

theorem toNat_withD (w : UInt32) (offset : ℤ) :
    (withD w offset).toNat = 2 ^ 16 * (offset % 2 ^ 16).toNat + w.toNat % 2 ^ 16 := by
  have hmask : (w &&& 0xffff).toNat = w.toNat % 2 ^ 16 := by
    rw [UInt32.toNat_and]
    exact Nat.and_two_pow_sub_one_eq_mod _ 16
  have hfield : ((UInt16.ofInt offset).toUInt32 <<< 16).toNat = 2 ^ 16 * (offset % 2 ^ 16).toNat := by
    rw [UInt32.toNat_shiftLeft, UInt16.toNat_toUInt32, UInt16.ofInt, UInt16.toNat_ofNat',
      Nat.shiftLeft_eq]
    simp only [UInt32.reduceToNat, Nat.reduceMod, Nat.reducePow]
    omega
  rw [withD, UInt32.toNat_or, hmask, hfield, Nat.or_comm,
    ← Nat.two_pow_add_eq_or_of_lt (Nat.mod_lt _ (by decide))]

theorem toNat_withE (w : UInt32) (offset : ℤ) :
    (withE w offset).toNat = 2 ^ 8 * (offset % 2 ^ 24).toNat + w.toNat % 2 ^ 8 := by
  have hmask : (w &&& 0xff).toNat = w.toNat % 2 ^ 8 := by
    rw [UInt32.toNat_and]
    exact Nat.and_two_pow_sub_one_eq_mod _ 8
  have hfield : (UInt32.ofInt offset <<< 8).toNat = 2 ^ 8 * (offset % 2 ^ 24).toNat := by
    rw [UInt32.toNat_shiftLeft, UInt32.ofInt, UInt32.toNat_ofNat', Nat.shiftLeft_eq]
    simp only [UInt32.reduceToNat, Nat.reduceMod, Nat.reducePow]
    omega
  rw [withE, UInt32.toNat_or, hmask, hfield, Nat.or_comm,
    ← Nat.two_pow_add_eq_or_of_lt (Nat.mod_lt _ (by decide))]

/-- The interpreter decodes an offset that fits. -/
theorem insnD_withD (w : UInt32) {offset : ℤ} (h : FitsD offset) : insnD (withD w offset) = offset := by
  rw [insnD_eq, toNat_withD, Int.bmod_def]
  obtain ⟨h1, h2⟩ := h
  split_ifs <;> omega

theorem insnE_withE (w : UInt32) {offset : ℤ} (h : FitsE offset) : insnE (withE w offset) = offset := by
  rw [insnE_eq, toNat_withE, Int.bmod_def]
  obtain ⟨h1, h2⟩ := h
  split_ifs <;> omega

theorem fitsD_insnD (w : UInt32) : FitsD (insnD w) := by
  have hlt := w.toNat_lt
  rw [FitsD, insnD_eq, Int.bmod_def]
  split_ifs <;> omega

theorem insnOp_eq {w w' : UInt32} (h : w.toNat % 2 ^ 8 = w'.toNat % 2 ^ 8) :
    insnOp w = insnOp w' := by
  refine UInt32.toNat_inj.1 ?_
  have hmask : ∀ w : UInt32, (insnOp w).toNat = w.toNat % 2 ^ 8 := by
    intro w
    rw [insnOp, UInt32.toNat_and]
    exact Nat.and_two_pow_sub_one_eq_mod _ 8
  rw [hmask, hmask, h]

@[simp] theorem opcode_withD (w : UInt32) (offset : ℤ) : opcode (withD w offset) = opcode w := by
  rw [opcode, opcode, @insnOp_eq _ w]
  rw [toNat_withD]
  omega

@[simp] theorem opcode_withE (w : UInt32) (offset : ℤ) : opcode (withE w offset) = opcode w := by
  rw [opcode, opcode, @insnOp_eq _ w]
  rw [toNat_withE]
  omega

/-- A second offset replaces the first. -/
@[simp] theorem withD_withD (w : UInt32) (offset offset' : ℤ) :
    withD (withD w offset) offset' = withD w offset' := by
  refine UInt32.toNat_inj.1 ?_
  rw [toNat_withD, toNat_withD, toNat_withD]
  omega

/-- A word has the offset that is decoded. -/
theorem withD_insnD (w : UInt32) : withD w (insnD w) = w := by
  refine UInt32.toNat_inj.1 ?_
  have hlt := w.toNat_lt
  rw [toNat_withD, insnD_eq, Int.bmod_def]
  split_ifs <;> omega

/-! ### Instructions -/

/-- Where the instructions of a function start. -/
inductive Starts (insns : List UInt32) : ℕ → Prop
  | first (h : insns ≠ []) : Starts insns 0
  | next {pc : ℕ} {insn : UInt32} {op : LuauOpcode} (h : Starts insns pc) (hinsn : insns[pc]? = some insn)
      (hop : opcode insn = some op) (hlt : pc + op.getOpLength < insns.length) :
      Starts insns (pc + op.getOpLength)

theorem Starts.lt {insns : List UInt32} {pc : ℕ} (h : Starts insns pc) : pc < insns.length := by
  cases h with
  | first h => exact List.length_pos_iff.2 h
  | next _ _ _ hlt => exact hlt

/-- Where the instruction at `pc` jumps. -/
def jumpTarget (insns : List UInt32) (pc : ℕ) : ℤ := pc + 1 + insnD (insns.getD pc 0)

end Bytecode

end Jaci
