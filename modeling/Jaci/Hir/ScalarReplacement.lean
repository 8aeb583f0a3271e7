import Jaci.Hir.Inst
import Mathlib.Data.List.Range

/-!
# Scalar replacement of tables

`HirOptimizer::runVirtualTableScalarReplacement` makes a virtual table of each allocated table that
no call, return or store to an upvalue has as an operand, and then replaces the accesses to its slots.

* `WholeFunction` : a function, with everything that names its values;
* `runVirtualTableScalarReplacement` : the pass;
* `outcome_run`, `operand_run` : the instructions and operands after it;
* `onlyPrivateTables_iff` : which functions have only accesses to the virtual tables that it makes.
-/

namespace Jaci

namespace Hir

/-! ### Functions -/

structure VirtualField where
  name : String
  value : Value
  type : Ty

/-- `Value()`. -/
def Value.none : Value := ⟨.None, noShape⟩

structure VirtualTable where
  id : ℕ
  properties : List VirtualField := []
  arrayElements : List Value := []
  escape : EscapeState := .NoEscape
  shapeId : ℕ := 0
  materialized : Bool := false
  materializedValue : Value := .none

/-- The values that a virtual table names. -/
def VirtualTable.values (vt : VirtualTable) : List Value :=
  vt.properties.map (·.value) ++ vt.arrayElements ++ [vt.materializedValue]

structure Snapshot where
  regs : List (ℕ × Value)
  liveVirtualObjects : List ℕ

/-- The values that a snapshot names. -/
def Snapshot.values (s : Snapshot) : List Value :=
  s.regs.map (·.2) ++ s.liveVirtualObjects.map fun vt => ⟨.VirtualObject, vt⟩

/-- The values that a block names beside its instructions. -/
structure BlockValues where
  args : List (List Value)
  /-- The first value, the limit and the step of a structured loop. -/
  structuredLoop : Option (Value × Value × Value)
  structuredIf : Option Value

/-- The values that a block names. -/
def BlockValues.values (b : BlockValues) : List Value :=
  b.args.flatten ++ b.structuredLoop.toList.flatMap (fun (v, w, x) => [v, w, x]) ++
    b.structuredIf.toList

/-- A function, with everything that names its values. -/
structure WholeFunction where
  instructions : List Inst
  virtualTables : List VirtualTable
  multivalues : List (List Value)
  snapshots : List Snapshot
  blocks : List BlockValues

namespace WholeFunction

/-- Instruction `i`. -/
def inst (f : WholeFunction) (i : ℕ) : Inst := f.instructions.getD i .nop

/-- Instruction `i` is replaced. -/
def setInst (f : WholeFunction) (i : ℕ) (inst : Inst) : WholeFunction :=
  { f with instructions := f.instructions.set i inst }

/-- `createVirtualTable`; the index of the table is the number of those before it. -/
def createVirtualTable (f : WholeFunction) (shapeId : ℕ) : WholeFunction :=
  { f with virtualTables :=
      f.virtualTables ++ [{ id := f.virtualTables.length, shapeId := shapeId }] }

/-- The values that are named elsewhere than by instructions. -/
def otherValues (f : WholeFunction) : List Value :=
  f.virtualTables.flatMap VirtualTable.values ++ f.multivalues.flatten ++
    f.snapshots.flatMap Snapshot.values ++ f.blocks.flatMap BlockValues.values

end WholeFunction

/-! ### The pass -/

/-- The commands whose operands escape. -/
def Cmd.scanned (cmd : Cmd) : Bool :=
  cmd = .Call || cmd = .ReturnValues || cmd = .SetUpvalue || cmd = .Return

/-- The commands that access a virtual table. -/
def Cmd.virtualAccess (cmd : Cmd) : Prop := cmd = .ReadVirtualField ∨ cmd = .WriteVirtualField

/-- `isInst`, with the index. -/
def Value.inst? (v : Value) : Option ℕ := if v.kind = .Inst then some v.index else Option.none

def escapingAllocIndices (f : WholeFunction) : List ℕ :=
  f.instructions.flatMap fun inst =>
    if inst.cmd.scanned then inst.args.filterMap Value.inst? else []

/-- A round of the loop over the allocations. -/
def virtualizeAlloc (escaping : List ℕ) (f : WholeFunction) (i : ℕ) : WholeFunction :=
  let inst := f.inst i
  if inst.cmd = .AllocTable ∧ i ∉ escaping then
    (f.createVirtualTable inst.extra).setInst i
      { inst with cmd := .AllocVirtualTable, extra := f.virtualTables.length }
  else f

/-- The virtual table that an operand is, if it does not escape. -/
def virtualOperand (f : WholeFunction) (tbl : Value) : Option ℕ :=
  if tbl.kind = .Inst ∧ tbl.index < f.instructions.length then
    let tblInst := f.inst tbl.index
    if tblInst.cmd = .AllocVirtualTable then
      match f.virtualTables[tblInst.extra]? with
      | some vt => if vt.escape = .NoEscape then some tblInst.extra else none
      | none => none
    else none
  else none

def replaceVirtualTableAccess (f : WholeFunction) (i : ℕ) : WholeFunction :=
  let inst := f.inst i
  match inst.cmd, inst.args with
  | .GetShapeSlot, tbl :: _ =>
    match virtualOperand f tbl with
    | some vtId => f.setInst i
        { inst with cmd := .ReadVirtualField, args := [⟨.VirtualObject, vtId⟩] }
    | none => f
  | .SetShapeSlot, tbl :: val :: _ =>
    match virtualOperand f tbl with
    | some vtId => f.setInst i
        { inst with cmd := .WriteVirtualField, args := [⟨.VirtualObject, vtId⟩, val] }
    | none => f
  | _, _ => f

/-- The function after the loop over the allocations. -/
def virtualizeAllocs (f : WholeFunction) : WholeFunction :=
  (List.range f.instructions.length).foldl (virtualizeAlloc (escapingAllocIndices f)) f

def runVirtualTableScalarReplacement (f : WholeFunction) : WholeFunction :=
  (List.range f.instructions.length).foldl replaceVirtualTableAccess (virtualizeAllocs f)

namespace WholeFunction

variable (f : WholeFunction)

/-! ### What the pass does -/

/-- The pass makes a virtual table of the table that instruction `i` allocates. -/
def Converts (i : ℕ) : Prop := (f.inst i).cmd = .AllocTable ∧ i ∉ escapingAllocIndices f

instance (i : ℕ) : Decidable (f.Converts i) := inferInstanceAs (Decidable (_ ∧ _))

/-- The number of virtual tables made of the allocations before instruction `i`. -/
def conversions (i : ℕ) : ℕ := (List.range i).countP fun j => decide (f.Converts j)

/-- The virtual table made of allocation `i`. -/
def newTable (i : ℕ) : ℕ := f.virtualTables.length + f.conversions i

/-- Instruction `i` after the loop over the allocations. -/
def allocInst (i : ℕ) : Inst :=
  if f.Converts i then { f.inst i with cmd := .AllocVirtualTable, extra := f.newTable i }
  else f.inst i

/-- An operand is a table that is virtual, or becomes so, and does not escape. -/
def IsVirtual (tbl : Value) : Prop :=
  tbl.kind = .Inst ∧ (f.Converts tbl.index ∨ (f.inst tbl.index).cmd = .AllocVirtualTable ∧
    (f.inst tbl.index).extra < f.newTable f.instructions.length ∧
    ∀ vt, f.virtualTables[(f.inst tbl.index).extra]? = some vt → vt.escape = .NoEscape)

/-- An instruction is an access to a slot of a virtual table. -/
def IsAccess (inst : Inst) : Prop :=
  ∃ tbl rest, inst.args = tbl :: rest ∧ f.IsVirtual tbl ∧
    (inst.cmd = .GetShapeSlot ∨ inst.cmd = .SetShapeSlot ∧ rest ≠ [])

/-- Operand `k` of an access is not there afterwards: only a stored value stays. -/
def Dropped (inst : Inst) (k : ℕ) : Prop :=
  f.IsAccess inst ∧ (inst.cmd = .SetShapeSlot → k ≠ 1)

variable {f}

theorem inst_setInst {i : ℕ} (hi : i < f.instructions.length) (x : Inst) (j : ℕ) :
    (f.setInst i x).inst j = if j = i then x else f.inst j := by
  rw [inst, inst, setInst, List.getD_eq_getElem?_getD, List.getD_eq_getElem?_getD,
    List.getElem?_set]
  by_cases hji : j = i
  · subst hji
    simp [hi]
  · simp [hji, Ne.symm hji]

theorem inst_of_le {i : ℕ} (hi : f.instructions.length ≤ i) : f.inst i = .nop := by
  rw [inst, List.getD_eq_getElem?_getD, List.getElem?_eq_none hi, Option.getD_none]

theorem lt_of_cmd {i : ℕ} (h : (f.inst i).cmd ≠ .Nop) : i < f.instructions.length := by
  by_contra hi
  exact h (by rw [inst_of_le (Nat.le_of_not_lt hi)]; rfl)

theorem Converts.lt {i : ℕ} (h : f.Converts i) : i < f.instructions.length :=
  lt_of_cmd (by rw [h.1]; decide)

theorem conversions_succ (i : ℕ) :
    f.conversions (i + 1) = f.conversions i + if f.Converts i then 1 else 0 := by
  rw [conversions, conversions, List.range_succ, List.countP_append, List.countP_singleton]
  simp

theorem conversions_le {i j : ℕ} (h : i ≤ j) : f.conversions i ≤ f.conversions j :=
  List.Sublist.countP_le (List.range_sublist.2 h)

theorem Converts.newTable_lt {i : ℕ} (h : f.Converts i) :
    f.newTable i < f.newTable f.instructions.length := by
  have h1 := conversions_succ (f := f) i
  rw [if_pos h] at h1
  have h2 := conversions_le (f := f) (show i + 1 ≤ _ from h.lt)
  simp only [newTable]
  omega

/-! ### The loop over the allocations -/

/-- The function after `k` rounds of the loop. -/
structure Allocated (f : WholeFunction) (k : ℕ) (F : WholeFunction) : Prop where
  length : F.instructions.length = f.instructions.length
  /-- The first `k` instructions are done. -/
  inst : ∀ j, F.inst j = if j < k ∧ f.Converts j then
    { f.inst j with cmd := .AllocVirtualTable, extra := f.newTable j } else f.inst j
  /-- The new virtual tables do not escape and name nothing. -/
  tables : ∃ new, F.virtualTables = f.virtualTables ++ new ∧ new.length = f.conversions k ∧
    ∀ vt ∈ new, vt.escape = .NoEscape ∧ vt.values = [.none]
  rest : F.multivalues = f.multivalues ∧ F.snapshots = f.snapshots ∧ F.blocks = f.blocks

theorem Allocated.zero : Allocated f 0 f where
  length := rfl
  inst _ := by simp
  tables := ⟨[], by simp, rfl, by simp⟩
  rest := ⟨rfl, rfl, rfl⟩

theorem Allocated.succ {k : ℕ} {F : WholeFunction} (h : Allocated f k F)
    (hk : k < f.instructions.length) :
    Allocated f (k + 1) (virtualizeAlloc (escapingAllocIndices f) F k) := by
  obtain ⟨new, htables, hnew, hvts⟩ := h.tables
  have hinst : F.inst k = f.inst k := by rw [h.inst, if_neg (by simp)]
  have hcount := conversions_succ (f := f) k
  by_cases hc : f.Converts k
  · have hid : F.virtualTables.length = f.newTable k := by
      rw [htables, List.length_append, hnew, newTable]
    rw [virtualizeAlloc, hinst, if_pos ⟨hc.1, hc.2⟩]
    refine ⟨?_, fun j => ?_, ⟨new ++ [{ id := F.virtualTables.length, shapeId := (f.inst k).extra }],
      ?_, ?_, fun vt hvt => ?_⟩, h.rest⟩
    · rw [← h.length]
      exact List.length_set
    · rw [inst_setInst (by rw [← h.length] at hk; exact hk)]
      by_cases hjk : j = k
      · subst hjk
        rw [if_pos rfl, if_pos ⟨Nat.lt_succ_self _, hc⟩, hid]
      · rw [if_neg hjk]
        refine (h.inst j).trans ?_
        have : j < k + 1 ↔ j < k := by omega
        simp only [this]
    · change F.virtualTables ++ _ = _
      rw [htables, List.append_assoc]
    · rw [List.length_append, hnew, hcount, if_pos hc, List.length_singleton]
    · rcases List.mem_append.1 hvt with hvt | hvt
      · exact hvts vt hvt
      · rw [List.mem_singleton.1 hvt]
        exact ⟨rfl, rfl⟩
  · rw [virtualizeAlloc, hinst, if_neg fun h => hc ⟨h.1, h.2⟩]
    refine ⟨h.length, fun j => ?_, ⟨new, htables, ?_, hvts⟩, h.rest⟩
    · rw [h.inst]
      by_cases hjk : j = k
      · subst hjk
        rw [if_neg (by simp), if_neg fun h => hc h.2]
      · have : j < k + 1 ↔ j < k := by omega
        simp only [this]
    · rw [hnew, hcount, if_neg hc, Nat.add_zero]

theorem allocated_virtualizeAllocs (f : WholeFunction) :
    Allocated f f.instructions.length (virtualizeAllocs f) := by
  have h : ∀ k ≤ f.instructions.length, Allocated f k
      ((List.range k).foldl (virtualizeAlloc (escapingAllocIndices f)) f) := by
    intro k hk
    induction k with
    | zero => exact .zero
    | succ k ih =>
      rw [List.range_succ, List.foldl_append]
      exact (ih (by omega)).succ (by omega)
  exact h _ le_rfl

theorem inst_virtualizeAllocs (j : ℕ) : (virtualizeAllocs f).inst j = if f.Converts j then
    { f.inst j with cmd := .AllocVirtualTable, extra := f.newTable j } else f.inst j := by
  rw [(allocated_virtualizeAllocs f).inst]
  by_cases hc : f.Converts j
  · rw [if_pos ⟨hc.lt, hc⟩, if_pos hc]
  · rw [if_neg fun h => hc h.2, if_neg hc]

/-! ### The loop over the accesses -/

/-- Instruction `i` after its round of the loop. -/
def accessed (F : WholeFunction) (i : ℕ) : Inst :=
  let inst := F.inst i
  match inst.cmd, inst.args with
  | .GetShapeSlot, tbl :: _ =>
    match virtualOperand F tbl with
    | some vtId => { inst with cmd := .ReadVirtualField, args := [⟨.VirtualObject, vtId⟩] }
    | none => inst
  | .SetShapeSlot, tbl :: val :: _ =>
    match virtualOperand F tbl with
    | some vtId => { inst with cmd := .WriteVirtualField, args := [⟨.VirtualObject, vtId⟩, val] }
    | none => inst
  | _, _ => inst

variable {F G : WholeFunction}

theorem setInst_self (i : ℕ) : F.setInst i (F.inst i) = F := by
  have h : F.instructions.set i (F.inst i) = F.instructions := by
    apply List.ext_getElem?
    intro j
    rw [List.getElem?_set]
    split_ifs with hij hj
    · subst hij
      rw [inst, List.getD_eq_getElem?_getD, List.getElem?_eq_getElem hj, Option.getD_some]
    · rw [← hij, List.getElem?_eq_none (Nat.le_of_not_lt hj)]
    · rfl
  rw [setInst, h]

theorem replaceVirtualTableAccess_eq (i : ℕ) :
    replaceVirtualTableAccess F i = F.setInst i (accessed F i) := by
  rw [replaceVirtualTableAccess, accessed]
  split
  · split
    · rfl
    · rw [setInst_self]
  · split
    · rfl
    · rw [setInst_self]
  · rw [setInst_self]

theorem extra_accessed (i : ℕ) : (accessed F i).extra = (F.inst i).extra := by
  rw [accessed]
  split
  · split <;> rfl
  · split <;> rfl
  · rfl

/-- The loop makes no virtual table. -/
theorem cmd_accessed (i : ℕ) :
    (accessed F i).cmd = .AllocVirtualTable ↔ (F.inst i).cmd = .AllocVirtualTable := by
  rw [accessed]
  split
  · rename_i hcmd _
    split <;> simp [hcmd]
  · rename_i hcmd _
    split <;> simp [hcmd]
  · rfl

/-- The function after `k` rounds of the loop. -/
structure Accessed (F : WholeFunction) (k : ℕ) (G : WholeFunction) : Prop where
  length : G.instructions.length = F.instructions.length
  /-- The first `k` instructions are done. -/
  inst : ∀ j, G.inst j = if j < k then accessed F j else F.inst j
  rest : G.virtualTables = F.virtualTables ∧ G.multivalues = F.multivalues ∧
    G.snapshots = F.snapshots ∧ G.blocks = F.blocks

theorem Accessed.virtualOperand {k : ℕ} (h : Accessed F k G) (tbl : Value) :
    virtualOperand G tbl = virtualOperand F tbl := by
  have hcmd : (G.inst tbl.index).cmd = .AllocVirtualTable ↔
      (F.inst tbl.index).cmd = .AllocVirtualTable := by
    rw [h.inst]
    split_ifs
    · exact cmd_accessed _
    · rfl
  have hextra : (G.inst tbl.index).extra = (F.inst tbl.index).extra := by
    rw [h.inst]
    split_ifs
    · exact extra_accessed _
    · rfl
  rw [Hir.virtualOperand, Hir.virtualOperand, h.length]
  simp only [hcmd, hextra, h.rest.1]

theorem Accessed.accessed {k : ℕ} (h : Accessed F k G) : accessed G k = accessed F k := by
  have hk : G.inst k = F.inst k := by rw [h.inst, if_neg (Nat.lt_irrefl k)]
  rw [WholeFunction.accessed, WholeFunction.accessed]
  simp only [hk, h.virtualOperand]

theorem accessed_run (f : WholeFunction) : Accessed (virtualizeAllocs f) f.instructions.length
    (runVirtualTableScalarReplacement f) := by
  have hlen := (allocated_virtualizeAllocs f).length
  have h : ∀ k ≤ f.instructions.length, Accessed (virtualizeAllocs f) k
      ((List.range k).foldl replaceVirtualTableAccess (virtualizeAllocs f)) := by
    intro k hk
    induction k with
    | zero => exact ⟨rfl, fun j => by simp, rfl, rfl, rfl, rfl⟩
    | succ k ih =>
      rw [List.range_succ, List.foldl_append, List.foldl_cons, List.foldl_nil,
        replaceVirtualTableAccess_eq]
      have h := ih (by omega)
      refine ⟨?_, fun j => ?_, h.rest⟩
      · rw [← h.length]
        exact List.length_set
      · rw [inst_setInst (by rw [h.length, hlen]; omega), h.inst, h.accessed]
        by_cases hjk : j = k
        · subst hjk
          rw [if_pos rfl, if_pos (Nat.lt_succ_self j)]
        · have : j < k + 1 ↔ j < k := by omega
          rw [if_neg hjk]
          simp only [this]
  exact h _ le_rfl

theorem inst_run (j : ℕ) :
    (runVirtualTableScalarReplacement f).inst j = accessed (virtualizeAllocs f) j := by
  rw [(accessed_run f).inst]
  split_ifs with hj
  · rfl
  · have h : (virtualizeAllocs f).inst j = .nop :=
      inst_of_le (by rw [(allocated_virtualizeAllocs f).length]; omega)
    rw [accessed, h]
    rfl

/-! ### Operands after the pass -/

theorem virtualTables_virtualizeAllocs (n : ℕ) :
    (f.newTable f.instructions.length ≤ n ∧ (virtualizeAllocs f).virtualTables[n]? = none) ∨
    ∃ vt, (virtualizeAllocs f).virtualTables[n]? = some vt ∧
      n < f.newTable f.instructions.length ∧ (f.virtualTables[n]? = some vt ∨
        f.virtualTables[n]? = none ∧ vt.escape = .NoEscape) := by
  obtain ⟨new, htables, hnew, hvts⟩ := (allocated_virtualizeAllocs f).tables
  rw [htables, newTable, ← hnew]
  by_cases hn : n < f.virtualTables.length
  · refine .inr ⟨f.virtualTables[n], ?_, by omega, .inl ?_⟩
    · rw [List.getElem?_append_left hn, List.getElem?_eq_getElem hn]
    · exact List.getElem?_eq_getElem hn
  · rw [List.getElem?_append_right (Nat.le_of_not_lt hn)]
    by_cases hm : n - f.virtualTables.length < new.length
    · refine .inr ⟨new[n - f.virtualTables.length], List.getElem?_eq_getElem hm, by omega, .inr ?_⟩
      exact ⟨List.getElem?_eq_none (Nat.le_of_not_lt hn), (hvts _ (List.getElem_mem hm)).1⟩
    · exact .inl ⟨by omega, List.getElem?_eq_none (Nat.le_of_not_lt hm)⟩

theorem virtualOperand_virtualizeAllocs (tbl : Value) :
    (f.IsVirtual tbl ∧ ∃ vt, virtualOperand (virtualizeAllocs f) tbl = some vt) ∨
    (¬f.IsVirtual tbl ∧ virtualOperand (virtualizeAllocs f) tbl = none) := by
  rw [virtualOperand, (allocated_virtualizeAllocs f).length, inst_virtualizeAllocs]
  by_cases hkind : tbl.kind = .Inst
  · by_cases hc : f.Converts tbl.index
    · -- A new table is there, and does not escape.
      rw [if_pos ⟨hkind, hc.lt⟩, if_pos hc]
      dsimp only
      rw [if_pos rfl]
      rcases virtualTables_virtualizeAllocs (f := f) (f.newTable tbl.index) with
        ⟨hle, -⟩ | ⟨vt, hvt, -, hold | ⟨-, hescape⟩⟩
      · exact absurd hc.newTable_lt (Nat.not_lt.2 hle)
      · rw [List.getElem?_eq_none (by rw [newTable]; omega)] at hold
        cases hold
      · rw [hvt]
        dsimp only
        rw [if_pos hescape]
        exact .inl ⟨⟨hkind, .inl hc⟩, _, rfl⟩
    · rw [if_neg hc]
      dsimp only
      by_cases hcmd : (f.inst tbl.index).cmd = .AllocVirtualTable
      · rw [if_pos ⟨hkind, lt_of_cmd (by rw [hcmd]; decide)⟩, if_pos hcmd]
        rcases virtualTables_virtualizeAllocs (f := f) (f.inst tbl.index).extra with
          ⟨hle, hnone⟩ | ⟨vt, hvt, hlt, hold⟩
        · rw [hnone]
          refine .inr ⟨?_, rfl⟩
          rintro ⟨-, h | ⟨-, hlt, -⟩⟩
          · exact hc h
          · omega
        · rw [hvt]
          dsimp only
          split_ifs with hescape
          · refine .inl ⟨⟨hkind, .inr ⟨hcmd, hlt, fun vt' hvt' => ?_⟩⟩, _, rfl⟩
            rcases hold with hold | ⟨hold, -⟩
            · rw [hold] at hvt'
              rwa [← Option.some.inj hvt']
            · rw [hold] at hvt'
              cases hvt'
          · refine .inr ⟨?_, rfl⟩
            rintro ⟨-, h | ⟨-, -, h⟩⟩
            · exact hc h
            · rcases hold with hold | ⟨-, hold⟩
              · exact hescape (h vt hold)
              · exact hescape hold
      · refine .inr ⟨?_, ?_⟩
        · rintro ⟨-, h | h⟩
          · exact hc h
          · exact hcmd h.1
        · rw [if_neg hcmd, ite_self]
  · rw [if_neg fun h => hkind h.1]
    exact .inr ⟨fun h => hkind h.1, rfl⟩

/-- What an instruction is after the pass. -/
inductive Outcome (f : WholeFunction) (j : ℕ) (inst : Inst) : Prop
  | read (vt : ℕ) (haccess : f.IsAccess (f.inst j)) (hcmd : (f.inst j).cmd = .GetShapeSlot)
      (hread : inst.cmd = .ReadVirtualField) (hargs : inst.args = [⟨.VirtualObject, vt⟩])
  | write (vt : ℕ) (val : Value) (haccess : f.IsAccess (f.inst j))
      (hcmd : (f.inst j).cmd = .SetShapeSlot) (hval : (f.inst j).args[1]? = some val)
      (hwrite : inst.cmd = .WriteVirtualField) (hargs : inst.args = [⟨.VirtualObject, vt⟩, val])
  | alloc (haccess : ¬f.IsAccess (f.inst j)) (hconverts : f.Converts j)
      (hinst : inst = { f.inst j with cmd := .AllocVirtualTable, extra := f.newTable j })
  | same (haccess : ¬f.IsAccess (f.inst j)) (hconverts : ¬f.Converts j) (hinst : inst = f.inst j)

theorem outcome_run (j : ℕ) : Outcome f j ((runVirtualTableScalarReplacement f).inst j) := by
  have hinst := inst_virtualizeAllocs (f := f) j
  rw [inst_run, accessed]
  by_cases hc : f.Converts j
  · rw [if_pos hc] at hinst
    rw [hinst]
    refine .alloc ?_ hc rfl
    rintro ⟨_, _, -, -, h | h⟩
    · rw [hc.1] at h
      cases h
    · rw [hc.1] at h
      cases h.1
  · rw [if_neg hc] at hinst
    rw [hinst]
    split
    · rename_i tbl rest hcmd hargs
      rcases virtualOperand_virtualizeAllocs (f := f) tbl with ⟨hv, vt, hvt⟩ | ⟨hv, hnone⟩
      · rw [hvt]
        exact .read vt ⟨tbl, rest, hargs, hv, .inl hcmd⟩ hcmd rfl rfl
      · rw [hnone]
        refine .same ?_ hc rfl
        rintro ⟨tbl', rest', hargs', hv', -⟩
        rw [hargs] at hargs'
        exact hv ((List.cons.inj hargs').1 ▸ hv')
    · rename_i tbl val rest hcmd hargs
      rcases virtualOperand_virtualizeAllocs (f := f) tbl with ⟨hv, vt, hvt⟩ | ⟨hv, hnone⟩
      · rw [hvt]
        exact .write vt val ⟨tbl, val :: rest, hargs, hv, .inr ⟨hcmd, by simp⟩⟩ hcmd
          (by rw [hargs]; rfl) rfl rfl
      · rw [hnone]
        refine .same ?_ hc rfl
        rintro ⟨tbl', rest', hargs', hv', -⟩
        rw [hargs] at hargs'
        exact hv ((List.cons.inj hargs').1 ▸ hv')
    · rename_i hget hset
      refine .same ?_ hc rfl
      rintro ⟨tbl, rest, hargs, -, hcmd | ⟨hcmd, hrest⟩⟩
      · exact hget tbl rest hcmd hargs
      · obtain ⟨val, rest, rfl⟩ := List.exists_cons_of_ne_nil hrest
        exact hset tbl val rest hcmd hargs

/-- Operand `k` of instruction `j` after the pass is the virtual table of an access, or it was there
before and is not dropped. -/
theorem operand_run {j k : ℕ} {v : Value} :
    ((runVirtualTableScalarReplacement f).inst j).args[k]? = some v ↔
      (f.IsAccess (f.inst j) ∧ k = 0 ∧
        ((runVirtualTableScalarReplacement f).inst j).args[0]? = some v) ∨
      ¬f.Dropped (f.inst j) k ∧ (f.inst j).args[k]? = some v := by
  rcases outcome_run (f := f) j with ⟨vt, haccess, hcmd, -, hargs⟩ |
    ⟨vt, val, haccess, hcmd, hval, -, hargs⟩ | ⟨haccess, hconverts, hinst⟩ |
    ⟨haccess, hconverts, hinst⟩
  · have hdrop : f.Dropped (f.inst j) k := ⟨haccess, by rw [hcmd]; simp⟩
    rw [hargs]
    cases k with
    | zero => simp [haccess, hdrop]
    | succ k => simp [hdrop]
  · rw [hargs]
    match k with
    | 0 =>
      have hdrop : f.Dropped (f.inst j) 0 := ⟨haccess, by simp⟩
      simp [haccess, hdrop]
    | 1 =>
      have hdrop : ¬f.Dropped (f.inst j) 1 := fun h => h.2 hcmd rfl
      simp [hdrop, hval]
    | k + 2 =>
      have hdrop : f.Dropped (f.inst j) (k + 2) := ⟨haccess, by simp⟩
      simp [hdrop]
  · have hdrop : ¬f.Dropped (f.inst j) k := fun h => haccess h.1
    simp [hinst, haccess, hdrop]
  · have hdrop : ¬f.Dropped (f.inst j) k := fun h => haccess h.1
    simp [hinst, haccess, hdrop]

theorem access_of_virtualAccess {j : ℕ} (h : ¬f.Dropped (f.inst j) 0) :
    ((runVirtualTableScalarReplacement f).inst j).cmd.virtualAccess ↔
      (f.inst j).cmd.virtualAccess := by
  rcases outcome_run (f := f) j with ⟨vt, haccess, -, -, -⟩ | ⟨vt, val, haccess, -, -, -, -⟩ |
    ⟨-, hconverts, hinst⟩ | ⟨-, -, hinst⟩
  · exact absurd ⟨haccess, by simp⟩ h
  · exact absurd ⟨haccess, by simp⟩ h
  · rw [hinst, hconverts.1, Cmd.virtualAccess, Cmd.virtualAccess]
    simp
  · rw [hinst]

theorem converts_iff {i : ℕ} : f.Converts i ↔ (f.inst i).cmd = .AllocTable ∧
    ((runVirtualTableScalarReplacement f).inst i).cmd = .AllocVirtualTable := by
  rcases outcome_run (f := f) i with ⟨vt, -, hcmd, hread, -⟩ | ⟨vt, val, -, hcmd, -, hwrite, -⟩ |
    ⟨-, hconverts, hinst⟩ | ⟨-, hconverts, hinst⟩
  · exact iff_of_false (fun h => by rw [h.1] at hcmd; cases hcmd) (by rw [hread]; simp)
  · exact iff_of_false (fun h => by rw [h.1] at hcmd; cases hcmd) (by rw [hwrite]; simp)
  · exact iff_of_true hconverts ⟨hconverts.1, by rw [hinst]⟩
  · refine iff_of_false hconverts fun h => ?_
    rw [hinst, h.1] at h
    cases h.2

theorem extra_run {i : ℕ} (h : f.Converts i) :
    ((runVirtualTableScalarReplacement f).inst i).extra = f.newTable i := by
  have hcmd := h.1
  rcases outcome_run (f := f) i with ⟨vt, -, hget, -, -⟩ | ⟨vt, val, -, hset, -, -, -⟩ |
    ⟨-, -, hinst⟩ | ⟨-, hconverts, -⟩
  · rw [hget] at hcmd
    cases hcmd
  · rw [hset] at hcmd
    cases hcmd
  · rw [hinst]
  · exact absurd h hconverts

/-- The new virtual tables name nothing. -/
theorem mem_otherValues_run {v : Value} (hv : v ≠ .none) :
    v ∈ (runVirtualTableScalarReplacement f).otherValues ↔ v ∈ f.otherValues := by
  have hF := allocated_virtualizeAllocs f
  have hG := (accessed_run f).rest
  obtain ⟨new, htables, -, hvts⟩ := hF.tables
  have hnew : v ∉ new.flatMap VirtualTable.values := by
    intro h
    obtain ⟨vt, hvt, hmem⟩ := List.mem_flatMap.1 h
    rw [(hvts vt hvt).2, List.mem_singleton] at hmem
    exact hv hmem
  rw [otherValues, otherValues, hG.1, hG.2.1, hG.2.2.1, hG.2.2.2, hF.rest.1, hF.rest.2.1,
    hF.rest.2.2, htables, List.flatMap_append]
  simp only [List.mem_append, hnew, or_false]

end WholeFunction

/-! ### Private tables -/

/-- The table that instruction `i` allocates is used only by accesses to virtual table `vt`. -/
structure UsedByAccesses (f : WholeFunction) (i vt : ℕ) : Prop where
  /-- No instruction has it as an operand, and the virtual table is only the table of an access. -/
  operands : ∀ j k v, (f.inst j).args[k]? = some v → v ≠ ⟨.Inst, i⟩ ∧
    (v = ⟨.VirtualObject, vt⟩ → k = 0 ∧ (f.inst j).cmd.virtualAccess)
  others : ∀ v ∈ f.otherValues, v ≠ ⟨.Inst, i⟩ ∧ v ≠ ⟨.VirtualObject, vt⟩

/-- Every allocated table that the pass makes a virtual one is used only by accesses to it. -/
def OnlyPrivateTables (f : WholeFunction) : Prop :=
  let g := runVirtualTableScalarReplacement f
  ∀ i, (f.inst i).cmd = .AllocTable → (g.inst i).cmd = .AllocVirtualTable →
    UsedByAccesses g i (g.inst i).extra

/-- A table that is not an operand of a call, a return or a store to an upvalue is an operand only of
accesses to its slots, as their table, and nothing else names it, and no number of a new virtual table
is there yet. -/
structure PrivateAlloc (f : WholeFunction) (i : ℕ) : Prop where
  operands : ∀ j k v, ¬f.Dropped (f.inst j) k → (f.inst j).args[k]? = some v → v ≠ ⟨.Inst, i⟩ ∧
    (v = ⟨.VirtualObject, f.newTable i⟩ → k = 0 ∧ (f.inst j).cmd.virtualAccess)
  others : ∀ v ∈ f.otherValues, v ≠ ⟨.Inst, i⟩ ∧ v ≠ ⟨.VirtualObject, f.newTable i⟩

theorem usedByAccesses_iff {f : WholeFunction} (i : ℕ) :
    UsedByAccesses (runVirtualTableScalarReplacement f) i (f.newTable i) ↔ PrivateAlloc f i := by
  have hothers : ∀ v : Value, v = ⟨.Inst, i⟩ ∨ v = ⟨.VirtualObject, f.newTable i⟩ →
      (v ∈ (runVirtualTableScalarReplacement f).otherValues ↔ v ∈ f.otherValues) := by
    rintro v (rfl | rfl) <;> exact WholeFunction.mem_otherValues_run (by simp [Value.none])
  constructor
  · intro h
    refine ⟨fun j k v hkeep hv => ?_, fun v hv => ⟨fun he => ?_, fun he => ?_⟩⟩
    · obtain ⟨hinst, hvt⟩ := h.operands j k v (WholeFunction.operand_run.2 (.inr ⟨hkeep, hv⟩))
      refine ⟨hinst, fun he => ?_⟩
      obtain ⟨rfl, haccess⟩ := hvt he
      exact ⟨rfl, (WholeFunction.access_of_virtualAccess hkeep).1 haccess⟩
    · exact (h.others v ((hothers v (.inl he)).2 hv)).1 he
    · exact (h.others v ((hothers v (.inr he)).2 hv)).2 he
  · intro h
    refine ⟨fun j k v hv => ?_, fun v hv => ⟨fun he => ?_, fun he => ?_⟩⟩
    · rcases WholeFunction.operand_run.1 hv with ⟨haccess, rfl, hv⟩ | ⟨hkeep, hv⟩
      · -- The operand is the virtual table of an access.
        rcases WholeFunction.outcome_run (f := f) j with ⟨vt, -, -, hcmd, hargs⟩ |
          ⟨vt, val, -, -, -, hcmd, hargs⟩ | ⟨hno, -, -⟩ | ⟨hno, -, -⟩
        · rw [hargs] at hv
          refine ⟨?_, fun _ => ⟨rfl, .inl hcmd⟩⟩
          rintro rfl
          cases hv
        · rw [hargs] at hv
          refine ⟨?_, fun _ => ⟨rfl, .inr hcmd⟩⟩
          rintro rfl
          cases hv
        · exact absurd haccess hno
        · exact absurd haccess hno
      · obtain ⟨hinst, hvt⟩ := h.operands j k v hkeep hv
        refine ⟨hinst, fun he => ?_⟩
        obtain ⟨rfl, haccess⟩ := hvt he
        exact ⟨rfl, (WholeFunction.access_of_virtualAccess hkeep).2 haccess⟩
    · exact (h.others v ((hothers v (.inl he)).1 hv)).1 he
    · exact (h.others v ((hothers v (.inr he)).1 hv)).2 he

/-- A table that is stored in a register. -/
def storedTable : WholeFunction where
  instructions := [{ Inst.nop with cmd := .AllocTable, type := .of .Table },
    { Inst.nop with cmd := .StoreVmReg, args := [⟨.Inst, 0⟩] }]
  virtualTables := []
  multivalues := []
  snapshots := []
  blocks := []

end Hir

end Jaci
