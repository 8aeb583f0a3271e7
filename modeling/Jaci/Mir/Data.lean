import Mathlib.Data.List.Basic

/-!
# The machine intermediate representation

A function of the machine intermediate representation is a list of instructions and a list of
blocks, and a block lists the instructions it runs by their index.  An operand of an instruction
names another instruction, a constant or an argument of a block; the targets of a jump are
operands too.

* `Function.layout` : the instructions in the order in which the passes visit them;
* `Function.Reaches` : the instructions that come before one of them on a path from the entry.
-/

namespace Jaci

namespace Mir

/-! ### Data -/

inductive TypeKind where
  | void | bool | int32 | int64 | float64 | tag | rawPtr | gcPtr | managedRef | tvalueBoxed
deriving DecidableEq

inductive LocationClass where
  | genericHeap | tableHeader | tableProperties | tableArray | upvalueSlot | bufferBytes
  | globalEnv | vmRegisterStack
deriving DecidableEq

inductive MemoryEffect where
  | none | read | write | readWrite | gcBarrier
deriving DecidableEq

/-- `Cmd`, in the order of the source: its number goes into the keys of the passes. -/
inductive Cmd where
  | nop
  -- Constants
  | constBool | constInt32 | constInt64 | constFloat64 | constTag | constNull
  -- Control flow
  | blockArg | jump | branchCond | switch | ret | unreachable | vmExit
  -- Arithmetic and logic
  | addInt | subInt | mulInt | divInt | modInt | andInt | orInt | xorInt | shlInt | shrInt
  | sarInt | negInt | notInt
  | addFloat | subFloat | mulFloat | divFloat | negFloat | absFloat | sqrtFloat
  -- Comparisons
  | cmpEqInt | cmpLtInt | cmpLeInt | cmpEqFloat | cmpLtFloat | cmpLeFloat | cmpEqPtr
  -- Conversions
  | intToFloat | floatToInt | boxValue | unboxValue | getTag | getPayload
  -- Guards
  | guardTag | guardShape | guardBounds | guardNotNil | guardCondition
  -- Memory
  | load | store | loadField | storeField | loadArrayElement | storeArrayElement | getElementPtr
  -- Allocations
  | allocTable | allocClosure | allocBuffer | gcWriteBarrier
  -- Calls
  | callDirect | callIndirect | callBuiltin
  -- Metadata
  | snapshot
deriving DecidableEq

inductive ValueKind where
  | none | inst | constant | blockArg
deriving DecidableEq

structure Value where
  /-- What `index` is an index of. -/
  kind : ValueKind := .none
  index : UInt32 := 0xffffffff
deriving DecidableEq

structure Inst where
  cmd : Cmd := .nop
  type : TypeKind := .void
  args : List Value := []
  extra : UInt32 := 0
  offset : Int32 := 0
  locationClass : LocationClass := .genericHeap
  memoryEffect : MemoryEffect := .none
deriving DecidableEq

structure Block where
  instIndices : List ℕ := []
  predecessors : List ℕ := []
  successors : List ℕ := []
  isDead : Bool := false
  isLoopHeader : Bool := false
deriving DecidableEq

structure Function where
  blocks : List Block := []
  instructions : List Inst := []
  entryBlock : ℕ := 0
deriving DecidableEq

namespace Function

/-- `function.instructions[i]`.  A read outside of the list has no meaning in the source; here it
is a `nop`, on which no pass acts. -/
def inst (f : Function) (i : ℕ) : Inst := f.instructions[i]?.getD {}

/-- `function.instructions[i] = x`. -/
def setInst (f : Function) (i : ℕ) (x : Inst) : Function :=
  { f with instructions := f.instructions.set i x }

/-- The instructions of a block. -/
def instsOf (f : Function) (b : ℕ) : List ℕ := (f.blocks[b]?.getD {}).instIndices

/-- The instructions with their blocks, in the order in which the passes visit them. -/
def layout (f : Function) : List (ℕ × ℕ) :=
  f.blocks.zipIdx.flatMap fun x => x.1.instIndices.map (x.2, ·)

variable {f : Function} {i j : ℕ} {x : Inst}

theorem inst_setInst (h : (f.inst i).cmd ≠ .nop) :
    (f.setInst i x).inst j = if i = j then x else f.inst j := by
  have hi : i < f.instructions.length := by
    by_contra hi
    exact h (by simp [inst, List.getElem?_eq_none (Nat.le_of_not_lt hi)])
  simp only [inst, setInst, List.getElem?_set]
  split_ifs <;> simp

@[simp] theorem blocks_setInst : (f.setInst i x).blocks = f.blocks := rfl

@[simp] theorem entryBlock_setInst : (f.setInst i x).entryBlock = f.entryBlock := rfl

theorem mem_layout {b : ℕ} : (b, i) ∈ f.layout ↔ i ∈ f.instsOf b := by
  simp only [layout, instsOf, List.mem_flatMap, List.mem_map, Prod.mk.injEq, Prod.exists]
  constructor
  · rintro ⟨blk, c, hc, k, hk, rfl, rfl⟩
    rw [List.mk_mem_zipIdx_iff_getElem?] at hc
    simpa [hc] using hk
  · intro h
    cases hb : f.blocks[b]? with
    | none => simp [hb] at h
    | some blk =>
      refine ⟨blk, b, ?_, i, by simpa [hb] using h, rfl, rfl⟩
      rw [List.mk_mem_zipIdx_iff_getElem?]
      exact hb

/-! ### Paths -/

/-- The targets of the last instruction of a block. -/
def successorsOf (f : Function) (b : ℕ) : List ℕ :=
  let block := f.blocks[b]?.getD {}
  if block.isDead then []
  else match block.instIndices.getLast? with
    | none => []
    | some last =>
      let x := f.inst last
      match x.cmd, x.args with
      | .jump, t :: _ => if t.kind = .inst then [t.index.toNat] else []
      | .branchCond, _ :: t :: e :: _ =>
        (if t.kind = .inst then [t.index.toNat] else []) ++
          (if e.kind = .inst then [e.index.toNat] else [])
      | _, _ => []

/-- A path from the entry to a block, with the blocks it comes through. -/
inductive Path (f : Function) : List ℕ → ℕ → Prop where
  | entry : Path f [] f.entryBlock
  | jump {p b c} : Path f p b → c ∈ f.successorsOf b → Path f (p ++ [b]) c

/-- There is a path from the entry to instruction `i` on which the instructions `before` come
before it. -/
def Reaches (f : Function) (before : List ℕ) (i : ℕ) : Prop :=
  ∃ p b pre post, Path f p b ∧ f.instsOf b = pre ++ i :: post ∧
    before = p.flatMap f.instsOf ++ pre

theorem Path.of_mem {p : List ℕ} {b c : ℕ} (h : Path f p b) (hc : c ∈ p) :
    ∃ q, Path f q c := by
  induction h with
  | entry => simp at hc
  | @jump p b d hp _ ih =>
    rcases List.mem_append.1 hc with hc | hc
    · exact ih hc
    · rw [List.mem_singleton.1 hc]
      exact ⟨p, hp⟩

theorem Path.reaches {p : List ℕ} {b : ℕ} (h : Path f p b) (hi : i ∈ f.instsOf b) :
    ∃ before, f.Reaches before i := by
  obtain ⟨pre, post, heq⟩ := List.append_of_mem hi
  exact ⟨_, p, b, pre, post, h, heq, rfl⟩

theorem Reaches.before {before : List ℕ} (h : f.Reaches before i) (hj : j ∈ before) :
    ∃ before', f.Reaches before' j := by
  obtain ⟨p, b, pre, post, hp, heq, rfl⟩ := h
  rcases List.mem_append.1 hj with hj | hj
  · obtain ⟨c, hc, hj⟩ := List.mem_flatMap.1 hj
    obtain ⟨q, hq⟩ := hp.of_mem hc
    exact hq.reaches hj
  · exact hp.reaches (by simp [heq, hj])

theorem Reaches.mem_layout {before : List ℕ} (h : f.Reaches before i) :
    ∃ b, (b, i) ∈ f.layout := by
  obtain ⟨p, b, pre, post, -, heq, -⟩ := h
  exact ⟨b, Function.mem_layout.2 (by simp [heq])⟩

end Function

end Mir

end Jaci
