import Jaci.Mir.Guards
import Mathlib.Data.List.Induction

/-!
# Forwarding, value numbering and hoisting

Three passes take away a load or an addition whose value they believe to have already.  None of
them asks which object a field belongs to, on which path a computation lies or what runs in
between.

* `runLoadStoreElimination` : a load of a field after a store to a field at the same offset of the
  same block;
* `runGvnCse` : a computation that looks like one before it in the layout;
* `runLicm` : a computation of a loop header with small operands, moved to the end of the first
  predecessor of the header.

The second half says what each of them does to one instruction and to one block, in terms of the
function before the first of them.
-/

namespace Jaci

namespace Mir

/-! ### Forwarding -/

/-- The function and `fieldValues`. -/
structure ForwardState where
  function : Function
  fieldValues : List (Int32 × Value) := []

/-- A `StoreField` with its operands: the offset, and the value that is remembered for it. -/
def Inst.stored (x : Inst) : Option (Int32 × Value) :=
  match x.cmd, x.args with
  | .storeField, _ :: v :: _ => some (x.offset, v)
  | _, _ => none

/-- The body of the loop of `runLoadStoreElimination`. -/
def visitForward (s : ForwardState) (instIdx : ℕ) : ForwardState :=
  let inst := s.function.inst instIdx
  match inst.stored with
  | some entry => { s with fieldValues := entry :: s.fieldValues }
  | none =>
    if inst.cmd = .loadField then
      match s.fieldValues.lookup inst.offset with
      | some v =>
        { s with function := s.function.setInst instIdx { inst with cmd := .nop, args := [v] } }
      | none => s
    else if inst.memoryEffect = .write ∧ inst.locationClass = .genericHeap then
      { s with fieldValues := [] }
    else s

def runLoadStoreElimination (f : Function) : Function :=
  f.blocks.foldl (fun f block => (block.instIndices.foldl visitForward { function := f }).function)
    f

/-! ### Value numbering -/

structure InstKey where
  cmd : Cmd
  type : TypeKind
  offset : Int32
  arg0 : UInt32
  arg1 : UInt32
deriving DecidableEq

/-- The commands that are numbered. -/
def Cmd.numbered : Cmd → Bool
  | .addInt | .subInt | .mulInt | .divInt | .addFloat | .subFloat | .mulFloat | .divFloat
  | .loadField => true
  | _ => false

/-- The key of an instruction: of an operand only the index, and `~0u` for one that is missing. -/
def Inst.key (x : Inst) : InstKey :=
  { cmd := x.cmd, type := x.type, offset := x.offset
    arg0 := (x.args[0]?.map Value.index).getD 0xffffffff
    arg1 := (x.args[1]?.map Value.index).getD 0xffffffff }

/-- `exprMap` and `replacements`. -/
structure Numbering where
  exprMap : List (InstKey × Value) := []
  replacements : List (UInt32 × Value) := []

namespace Numbering

/-- An operand after `replacements`. -/
def operand (n : Numbering) (arg : Value) : Value :=
  if arg.kind = .inst then (n.replacements.lookup arg.index).getD arg else arg

/-- An instruction with its operands after `replacements`. -/
def rewrite (n : Numbering) (x : Inst) : Inst := { x with args := x.args.map n.operand }

/-- The body of the loop of `runGvnCse`: the tables, and the instruction. -/
def visit (n : Numbering) (instIdx : ℕ) (inst : Inst) : Numbering × Inst :=
  let inst := n.rewrite inst
  if inst.cmd.numbered then
    match n.exprMap.lookup inst.key with
    | some v =>
      ({ n with replacements := (UInt32.ofNat instIdx, v) :: n.replacements }, inst.cleared)
    | none => ({ n with exprMap := (inst.key, ⟨.inst, UInt32.ofNat instIdx⟩) :: n.exprMap }, inst)
  else (n, inst)

end Numbering

/-- The loop of `runGvnCse` at one instruction. -/
def visitGvn (s : Function × Numbering) (instIdx : ℕ) : Function × Numbering :=
  let (n, inst) := s.2.visit instIdx (s.1.inst instIdx)
  (s.1.setInst instIdx inst, n)

/-- The instructions in the order in which the passes visit them. -/
def Function.order (f : Function) : List ℕ := f.layout.map Prod.snd

def runGvnCse (f : Function) : Function := (f.order.foldl visitGvn (f, {})).1

/-! ### Hoisting -/

/-- The test of `runLicm` on an instruction of a header whose first instruction is `front`. -/
def Inst.loopInvariant (front : ℕ) (x : Inst) : Bool :=
  (x.cmd = .loadField || x.cmd = .addInt || x.cmd = .addFloat) &&
    x.args.all fun arg => !(arg.kind = .inst && decide (front ≤ arg.index.toNat))

/-- The loop over `toHoist` at one instruction: `push_back` on the preheader and `erase` on the
header. -/
def hoist (bidx preheader : ℕ) (f : Function) (instIdx : ℕ) : Function :=
  { f with
    blocks := (f.blocks.modify preheader fun b =>
      { b with instIndices := b.instIndices ++ [instIdx] }).modify bidx fun b =>
        { b with instIndices := b.instIndices.filter (· ≠ instIdx) } }

/-- The block into which the instructions of a header go. -/
def Function.preheader (f : Function) (bidx : ℕ) : Option ℕ :=
  let header := f.blocks[bidx]?.getD {}
  if header.isLoopHeader then
    header.predecessors.head?.filter fun p => p < f.blocks.length ∧ p ≠ bidx
  else none

/-- The body of the loop of `runLicm`. -/
def visitHeader (f : Function) (bidx : ℕ) : Function :=
  match f.preheader bidx with
  | none => f
  | some preheader =>
    let indices := f.instsOf bidx
    (indices.filter fun i => (f.inst i).loopInvariant (indices.headD 0)).foldl
      (hoist bidx preheader) f

/-- `runLicm`.  It computes the dominators too, and does not read them. -/
def runLicm (f : Function) : Function :=
  let f := computeControlFlow f
  (List.range f.blocks.length).foldl visitHeader f

/-- The three passes, in the order of `runAllPasses`. -/
def runValuePasses (f : Function) : Function := runLicm (runGvnCse (runLoadStoreElimination f))

/-! ### What forwarding does -/

/-- An instruction at which every remembered value is forgotten. -/
def Inst.forgets (x : Inst) : Bool :=
  x.stored.isNone && x.cmd ≠ .loadField && x.memoryEffect = .write &&
    x.locationClass = .genericHeap

namespace Function

/-- The last value that the instructions `before` store at an offset, of any object, after the last
of them at which everything is forgotten. -/
def fieldValue (f : Function) (before : List ℕ) (offset : Int32) : Option Value :=
  (before.reverse.takeWhile fun i => !(f.inst i).forgets).findSome? fun i =>
    (f.inst i).stored.bind fun e => if e.1 = offset then some e.2 else none

/-- A load in a block, after forwarding. -/
def forwardIn (f : Function) (l : List ℕ) (i : ℕ) : Inst :=
  if (f.inst i).cmd = .loadField then
    match f.fieldValue (l.takeWhile (· ≠ i)) (f.inst i).offset with
    | some v => { f.inst i with cmd := .nop, args := [v] }
    | none => f.inst i
  else f.inst i

/-- An instruction after forwarding. -/
def forwarded (f : Function) (i : ℕ) : Inst :=
  match f.blocks.find? (i ∈ ·.instIndices) with
  | some b => f.forwardIn b.instIndices i
  | none => f.inst i

variable {f g : Function} {i x : ℕ} {l p : List ℕ} {o : Int32}

theorem fieldValue_append_singleton : f.fieldValue (p ++ [x]) o =
    if (f.inst x).forgets then none
    else ((f.inst x).stored.bind fun e => if e.1 = o then some e.2 else none).or
      (f.fieldValue p o) := by
  simp only [fieldValue, List.reverse_append, List.reverse_singleton, List.singleton_append,
    List.takeWhile_cons]
  by_cases hx : (f.inst x).forgets
  · simp [hx]
  · simp only [hx, Bool.not_false, if_true, List.findSome?_cons, Bool.false_eq_true, if_false]
    cases (f.inst x).stored.bind fun e => if e.1 = o then some e.2 else none <;> simp

theorem takeWhile_ne_append_of_mem (hi : i ∈ p) :
    (p ++ l).takeWhile (· ≠ i) = p.takeWhile (· ≠ i) := by
  induction p with
  | nil => simp at hi
  | cons y p ih =>
    by_cases hy : y = i
    · simp [hy]
    · have hp : i ∈ p := (List.mem_cons.1 hi).resolve_left (Ne.symm hy)
      simp only [List.cons_append, List.takeWhile_cons, ih hp]

theorem forwardIn_append_of_mem (hi : i ∈ p) : f.forwardIn (p ++ l) i = f.forwardIn p i := by
  rw [forwardIn, forwardIn, takeWhile_ne_append_of_mem hi]

theorem takeWhile_ne_append_singleton (hx : x ∉ p) : (p ++ [x]).takeWhile (· ≠ x) = p := by
  rw [List.takeWhile_append_of_pos]
  · simp
  · rintro y hy
    simpa using fun h : y = x => hx (h ▸ hy)

theorem forwardIn_append_singleton (hx : x ∉ p) : f.forwardIn (p ++ [x]) x =
    if (f.inst x).cmd = .loadField then
      match f.fieldValue p (f.inst x).offset with
      | some v => { f.inst x with cmd := .nop, args := [v] }
      | none => f.inst x
    else f.inst x := by
  rw [forwardIn, takeWhile_ne_append_singleton hx]

end Function

section Forward

variable {f g : Function} {i x : ℕ} {l p : List ℕ} {s : ForwardState}

/-- What is known when the instructions `p` of a block have been visited. -/
structure Forwarded (f g : Function) (p : List ℕ) (s : ForwardState) : Prop where
  lookup : ∀ o, s.fieldValues.lookup o = f.fieldValue p o
  /-- The instructions that have been visited are forwarded. -/
  inst : ∀ i, s.function.inst i = if i ∈ p then f.forwardIn p i else g.inst i
  blocks : s.function.blocks = g.blocks
  entryBlock : s.function.entryBlock = g.entryBlock

theorem forwardIn_of_ne (h : (f.inst i).cmd ≠ .loadField) : f.forwardIn l i = f.inst i := by
  rw [Function.forwardIn, if_neg h]

/-- The instructions after a step that changes at most the visited one. -/
theorem Forwarded.inst_append (h : Forwarded f g p s) (hx : x ∉ p) (hgx : g.inst x = f.inst x)
    (hxx : f.forwardIn (p ++ [x]) x = f.inst x) :
    s.function.inst i = if i ∈ p ++ [x] then f.forwardIn (p ++ [x]) i else g.inst i := by
  rw [h.inst]
  by_cases hi : i ∈ p
  · simp [hi, Function.forwardIn_append_of_mem hi]
  · by_cases hix : i = x
    · subst hix
      simp [hi, hxx, hgx]
    · simp [hi, hix]

theorem Forwarded.visitForward (h : Forwarded f g p s) (hx : x ∉ p) (hgx : g.inst x = f.inst x) :
    Forwarded f g (p ++ [x]) (visitForward s x) := by
  have hinst : s.function.inst x = f.inst x := by rw [h.inst, if_neg hx, hgx]
  rw [Mir.visitForward]
  simp only [hinst]
  cases hst : (f.inst x).stored with
  | some e =>
    have hcmd : (f.inst x).cmd ≠ .loadField := by
      intro hc
      simp [Inst.stored, hc] at hst
    refine ⟨fun o => ?_, fun i => h.inst_append hx hgx (forwardIn_of_ne hcmd), h.blocks,
      h.entryBlock⟩
    have hforget : (f.inst x).forgets = false := by simp [Inst.forgets, hst]
    rw [Function.fieldValue_append_singleton, hforget, hst]
    obtain ⟨o', v⟩ := e
    by_cases ho : o' = o
    · simp [ho]
    · have hne : (o == o') = false := by simpa using Ne.symm ho
      simp [ho, hne, List.lookup_cons, h.lookup]
  | none =>
    by_cases hcmd : (f.inst x).cmd = .loadField
    · have hforget : (f.inst x).forgets = false := by simp [Inst.forgets, hcmd]
      have hlook : ∀ o, s.fieldValues.lookup o = f.fieldValue (p ++ [x]) o := by
        intro o
        rw [Function.fieldValue_append_singleton, hst, hforget, h.lookup]
        simp
      have hself := Function.forwardIn_append_singleton (f := f) hx
      rw [if_pos hcmd] at hself
      simp only [hcmd, if_true, h.lookup]
      cases hv : f.fieldValue p (f.inst x).offset with
      | none =>
        rw [hv] at hself
        exact ⟨hlook, fun i => h.inst_append hx hgx hself, h.blocks, h.entryBlock⟩
      | some v =>
        rw [hv] at hself
        refine ⟨hlook, fun i => ?_, h.blocks, h.entryBlock⟩
        rw [Function.inst_setInst (by simp [hinst, hcmd])]
        by_cases hix : x = i
        · subst hix
          simp [hself]
        · rw [if_neg hix, h.inst]
          by_cases hi : i ∈ p
          · simp [hi, Function.forwardIn_append_of_mem hi]
          · simp [hi, Ne.symm hix]
    · have hself : f.forwardIn (p ++ [x]) x = f.inst x := forwardIn_of_ne hcmd
      simp only [hcmd, if_false]
      split_ifs with heff
      · refine ⟨fun o => ?_, fun i => h.inst_append hx hgx hself, h.blocks, h.entryBlock⟩
        rw [Function.fieldValue_append_singleton, if_pos (by simp [Inst.forgets, hst, hcmd, heff])]
        simp
      · refine ⟨fun o => ?_, fun i => h.inst_append hx hgx hself, h.blocks, h.entryBlock⟩
        have hforget : (f.inst x).forgets = false := by
          simpa [Inst.forgets, hst] using fun _ => heff
        rw [Function.fieldValue_append_singleton, hst, hforget, h.lookup]
        simp

theorem forwarded_foldl (hl : l.Nodup) (hg : ∀ i ∈ l, g.inst i = f.inst i) :
    Forwarded f g l (l.foldl visitForward { function := g }) := by
  induction l using List.reverseRecOn with
  | nil => exact ⟨by simp [Function.fieldValue], by simp, rfl, rfl⟩
  | append_singleton p x ih =>
    rw [List.foldl_append]
    have hx : x ∉ p := fun hx => by
      simpa using (List.nodup_append.1 hl).2.2 x hx x
    exact (ih (List.nodup_append.1 hl).1 fun i hi => hg i (by simp [hi])).visitForward hx
      (hg x (by simp))

theorem Function.order_eq : f.order = f.blocks.flatMap Block.instIndices := by
  rw [Function.order, Function.layout, List.map_flatMap]
  simp only [List.map_map, Function.comp_def, List.map_id']
  generalize 0 = k
  induction f.blocks generalizing k with
  | nil => rfl
  | cons b bs ih => simp only [List.zipIdx_cons, List.flatMap_cons, ih]

/-- The loop over the blocks of a list. -/
theorem inst_foldl_blocks {bs : List Block} (hl : (bs.flatMap Block.instIndices).Nodup)
    (hg : ∀ i ∈ bs.flatMap Block.instIndices, g.inst i = f.inst i) :
    (bs.foldl (fun f block =>
      (block.instIndices.foldl visitForward { function := f }).function) g).inst i =
      match bs.find? (i ∈ ·.instIndices) with
      | some b => f.forwardIn b.instIndices i
      | none => g.inst i := by
  induction bs generalizing g with
  | nil => rfl
  | cons b bs ih =>
    rw [List.flatMap_cons] at hl hg
    obtain ⟨hb, hbs, hdisj⟩ := List.nodup_append.1 hl
    have hfwd := forwarded_foldl (f := f) hb fun i hi => hg i (List.mem_append_left _ hi)
    rw [List.foldl_cons, ih hbs]
    · by_cases hi : i ∈ b.instIndices
      · have hnone : bs.find? (i ∈ ·.instIndices) = none := by
          simp only [List.find?_eq_none, decide_eq_true_eq]
          exact fun c hc hic => hdisj i hi i (List.mem_flatMap.2 ⟨c, hc, hic⟩) rfl
        rw [hnone, List.find?_cons_of_pos (by simpa using hi)]
        simp only [hfwd.inst, if_pos hi]
      · rw [List.find?_cons_of_neg (by simpa using hi)]
        cases bs.find? (i ∈ ·.instIndices) with
        | some c => rfl
        | none => simp only [hfwd.inst, if_neg hi]
    · intro j hj
      rw [hfwd.inst, if_neg fun hjb => hdisj j hjb j hj rfl]
      exact hg j (List.mem_append_right _ hj)

theorem foldl_visitForward_blocks :
    (l.foldl visitForward s).function.blocks = s.function.blocks ∧
      (l.foldl visitForward s).function.entryBlock = s.function.entryBlock := by
  induction l generalizing s with
  | nil => exact ⟨rfl, rfl⟩
  | cons x l ih =>
    rw [List.foldl_cons, ih.1, ih.2, visitForward]
    split
    · exact ⟨rfl, rfl⟩
    · split_ifs
      · split <;> exact ⟨rfl, rfl⟩
      · exact ⟨rfl, rfl⟩
      · exact ⟨rfl, rfl⟩

theorem runLoadStoreElimination_blocks : (runLoadStoreElimination f).blocks = f.blocks ∧
    (runLoadStoreElimination f).entryBlock = f.entryBlock := by
  suffices h : ∀ (bs : List Block) (g : Function), (bs.foldl (fun f block =>
      (block.instIndices.foldl visitForward { function := f }).function) g).blocks = g.blocks ∧
      (bs.foldl (fun f block =>
      (block.instIndices.foldl visitForward { function := f }).function) g).entryBlock =
        g.entryBlock from h f.blocks f
  intro bs
  induction bs with
  | nil => exact fun g => ⟨rfl, rfl⟩
  | cons b bs ih =>
    intro g
    rw [List.foldl_cons, (ih _).1, (ih _).2]
    exact foldl_visitForward_blocks

/-- **Forwarding.**  A load goes where a store of its block has the same offset and nothing forgets
it in between. -/
theorem inst_runLoadStoreElimination (hf : f.order.Nodup) :
    (runLoadStoreElimination f).inst i = f.forwarded i := by
  rw [Function.order_eq] at hf
  exact inst_foldl_blocks hf fun _ _ => rfl

end Forward

/-! ### What value numbering does -/

/-- The tables after the instructions of a list. -/
def numberingOf (inst : ℕ → Inst) (l : List ℕ) : Numbering :=
  l.foldl (fun n i => (n.visit i (inst i)).1) {}

namespace Function

/-- The tables at the visit of an instruction. -/
def numberingBefore (f : Function) (i : ℕ) : Numbering :=
  numberingOf f.forwarded (f.order.takeWhile (· ≠ i))

/-- An instruction after forwarding and value numbering. -/
def numbered (f : Function) (i : ℕ) : Inst :=
  if i ∈ f.order then ((f.numberingBefore i).visit i (f.forwarded i)).2 else f.forwarded i

end Function

section Gvn

variable {f g : Function} {i x : ℕ} {l p : List ℕ} {n : Numbering} {y : Inst}

theorem numberingOf_append_singleton {inst : ℕ → Inst} :
    numberingOf inst (p ++ [x]) = ((numberingOf inst p).visit x (inst x)).1 := by
  rw [numberingOf, numberingOf, List.foldl_append]
  rfl

theorem Function.inst_of_length_le (h : f.instructions.length ≤ i) : f.inst i = {} := by
  simp [Function.inst, List.getElem?_eq_none h]

theorem visit_nop : (n.visit i {}).2 = {} := rfl

theorem inst_visitGvn {j : ℕ} : (f.setInst i (n.visit i (f.inst i)).2).inst j =
    if i = j then (n.visit i (f.inst i)).2 else f.inst j := by
  by_cases hi : i < f.instructions.length
  · simp only [Function.inst, Function.setInst, List.getElem?_set, hi]
    split_ifs <;> simp
  · have hle : f.instructions.length ≤ i := Nat.le_of_not_lt hi
    have hset : f.setInst i (n.visit i (f.inst i)).2 = f := by
      rw [Function.setInst, List.set_eq_of_length_le hle]
    rw [hset, Function.inst_of_length_le hle, visit_nop]
    split_ifs with hij
    · rw [← hij, Function.inst_of_length_le hle]
    · rfl

/-- The loop over the instructions of a list, each listed once. -/
theorem foldl_visitGvn (hl : l.Nodup) :
    (l.foldl visitGvn (g, {})).2 = numberingOf g.inst l ∧
      (l.foldl visitGvn (g, {})).1.blocks = g.blocks ∧
      (l.foldl visitGvn (g, {})).1.entryBlock = g.entryBlock ∧
      ∀ i, (l.foldl visitGvn (g, {})).1.inst i =
        if i ∈ l then ((numberingOf g.inst (l.takeWhile (· ≠ i))).visit i (g.inst i)).2
        else g.inst i := by
  induction l using List.reverseRecOn with
  | nil => exact ⟨rfl, rfl, rfl, by simp⟩
  | append_singleton p x ih =>
    have hx : x ∉ p := fun hx => by
      simpa using (List.nodup_append.1 hl).2.2 x hx x
    obtain ⟨hn, hblocks, hentry, hinst⟩ := ih (List.nodup_append.1 hl).1
    simp only [List.foldl_append, List.foldl_cons, List.foldl_nil, visitGvn, hn]
    have hgx : (p.foldl visitGvn (g, {})).1.inst x = g.inst x := by rw [hinst, if_neg hx]
    refine ⟨?_, hblocks, hentry, fun i => ?_⟩
    · rw [hgx, numberingOf_append_singleton]
    · rw [inst_visitGvn]
      by_cases hix : x = i
      · subst hix
        rw [if_pos rfl, hgx, if_pos (by simp), Function.takeWhile_ne_append_singleton hx]
      · rw [if_neg hix, hinst]
        by_cases hi : i ∈ p
        · rw [if_pos hi, if_pos (by simp [hi]), Function.takeWhile_ne_append_of_mem hi]
        · rw [if_neg hi, if_neg (by simp [hi, Ne.symm hix])]

/-- **Value numbering** after forwarding. -/
theorem inst_runGvnCse (hf : f.order.Nodup) :
    (runGvnCse (runLoadStoreElimination f)).inst i = f.numbered i := by
  have hinst : (runLoadStoreElimination f).inst = f.forwarded :=
    funext fun _ => inst_runLoadStoreElimination hf
  have horder : (runLoadStoreElimination f).order = f.order := by
    rw [Function.order_eq, Function.order_eq, runLoadStoreElimination_blocks.1]
  rw [runGvnCse, horder, (foldl_visitGvn hf).2.2.2, hinst]
  rfl

theorem runGvnCse_blocks (hf : f.order.Nodup) :
    (runGvnCse (runLoadStoreElimination f)).blocks = f.blocks ∧
      (runGvnCse (runLoadStoreElimination f)).entryBlock = f.entryBlock := by
  have horder : (runLoadStoreElimination f).order = f.order := by
    rw [Function.order_eq, Function.order_eq, runLoadStoreElimination_blocks.1]
  obtain ⟨-, hblocks, hentry, -⟩ := foldl_visitGvn (g := runLoadStoreElimination f) hf
  rw [runGvnCse, horder, hblocks, hentry]
  exact runLoadStoreElimination_blocks

/-- Two instructions that differ in their operands at most. -/
def Inst.LooksLike (x y : Inst) : Prop := x.cmd = y.cmd ∧ x.type = y.type ∧ x.offset = y.offset

theorem mem_of_lookup {α β : Type*} [BEq α] [LawfulBEq α] {k : α} {v : β} {l : List (α × β)}
    (h : l.lookup k = some v) : (k, v) ∈ l := by
  obtain ⟨l₁, l₂, rfl, -⟩ := List.lookup_eq_some_iff.1 h
  simp

/-- The entries of the tables: each names numbered instructions, and a replacement names two that
look alike. -/
theorem mem_numberingOf {inst : ℕ → Inst} :
    (∀ e ∈ (numberingOf inst l).exprMap, ∃ j ∈ l, e.2 = ⟨.inst, UInt32.ofNat j⟩ ∧
      (inst j).cmd.numbered ∧ e.1.cmd = (inst j).cmd ∧ e.1.type = (inst j).type ∧
      e.1.offset = (inst j).offset) ∧
    ∀ e ∈ (numberingOf inst l).replacements, ∃ i ∈ l, ∃ j ∈ l, e.1 = UInt32.ofNat i ∧
      e.2 = ⟨.inst, UInt32.ofNat j⟩ ∧ (inst i).cmd.numbered ∧ (inst i).LooksLike (inst j) := by
  induction l using List.reverseRecOn with
  | nil => simp [numberingOf]
  | append_singleton p x ih =>
    -- The entries of `p` are entries of the longer list.
    have hold₁ : ∀ e ∈ (numberingOf inst p).exprMap, ∃ j ∈ p ++ [x],
        e.2 = ⟨.inst, UInt32.ofNat j⟩ ∧ (inst j).cmd.numbered ∧ e.1.cmd = (inst j).cmd ∧
        e.1.type = (inst j).type ∧ e.1.offset = (inst j).offset := fun e he =>
      let ⟨j, hj, h⟩ := ih.1 e he
      ⟨j, List.mem_append_left _ hj, h⟩
    have hold₂ : ∀ e ∈ (numberingOf inst p).replacements, ∃ i ∈ p ++ [x], ∃ j ∈ p ++ [x],
        e.1 = UInt32.ofNat i ∧ e.2 = ⟨.inst, UInt32.ofNat j⟩ ∧ (inst i).cmd.numbered ∧
        (inst i).LooksLike (inst j) := fun e he =>
      let ⟨i, hi, j, hj, h⟩ := ih.2 e he
      ⟨i, List.mem_append_left _ hi, j, List.mem_append_left _ hj, h⟩
    rw [numberingOf_append_singleton, Numbering.visit]
    split_ifs with hnum
    · split
      · rename_i v hv
        refine ⟨hold₁, fun e he => ?_⟩
        rcases List.mem_cons.1 he with rfl | he
        · obtain ⟨j, hj, hval, -, hcmd, htype, hoff⟩ := hold₁ _ (mem_of_lookup hv)
          exact ⟨x, by simp, j, hj, rfl, hval, hnum, hcmd, htype, hoff⟩
        · exact hold₂ e he
      · refine ⟨fun e he => ?_, hold₂⟩
        rcases List.mem_cons.1 he with rfl | he
        · exact ⟨x, by simp, rfl, hnum, rfl, rfl, rfl⟩
        · exact hold₁ e he
    · exact ⟨hold₁, hold₂⟩

end Gvn

/-! ### What hoisting does -/

/-- The commands after which nothing of a block runs. -/
def Cmd.ends : Cmd → Bool
  | .jump | .branchCond | .switch | .ret | .unreachable | .vmExit => true
  | _ => false

/-- The second list runs like the first one, but for some of the instructions in `drop`.  What comes
after an instruction in `stop` does not matter. -/
inductive Trim (stop drop : ℕ → Prop) : List ℕ → List ℕ → Prop where
  | nil : Trim stop drop [] []
  | stop {i r r'} : stop i → Trim stop drop (i :: r) (i :: r')
  | keep {i r r'} : Trim stop drop r r' → Trim stop drop (i :: r) (i :: r')
  | drop {i r r'} : drop i → Trim stop drop r r' → Trim stop drop (i :: r) r'

namespace Trim

variable {stop drop : ℕ → Prop} {l l' e : List ℕ} {i : ℕ}

theorem refl : ∀ l, Trim stop drop l l
  | [] => nil
  | _ :: l => keep (refl l)

theorem append (h : Trim stop drop l l') (hl : ∃ t ∈ l, stop t) (hdrop : ∀ j, drop j → ¬stop j) :
    Trim stop drop l (l' ++ e) := by
  induction h with
  | nil => simp at hl
  | stop ht => exact .stop ht
  | @keep j r r' hr ih =>
    obtain ⟨t, ht, hstop⟩ := hl
    rcases List.mem_cons.1 ht with rfl | ht
    · exact .stop hstop
    · exact keep (ih ⟨t, ht, hstop⟩)
  | @drop j r r' hj hr ih =>
    obtain ⟨t, ht, hstop⟩ := hl
    rcases List.mem_cons.1 ht with rfl | ht
    · exact absurd hstop (hdrop _ hj)
    · exact .drop hj (ih ⟨t, ht, hstop⟩)

theorem filter_ne (h : Trim stop drop l l') (hi : drop i) (hdrop : ∀ j, drop j → ¬stop j) :
    Trim stop drop l (l'.filter (· ≠ i)) := by
  induction h with
  | nil => exact nil
  | @stop t r r' ht =>
    have hne : t ≠ i := fun h => hdrop i hi (h ▸ ht)
    rw [List.filter_cons_of_pos (by simpa using hne)]
    exact .stop ht
  | @keep j r r' hr ih =>
    by_cases hj : j = i
    · subst hj
      rw [List.filter_cons_of_neg (by simp)]
      exact .drop hi ih
    · rw [List.filter_cons_of_pos (by simpa using hj)]
      exact keep ih
  | drop hj hr ih => exact .drop hj ih

end Trim

namespace Function

/-- An instruction that may leave its loop header: it passes the test there, after forwarding and
value numbering. -/
def Hoistable (f : Function) (i : ℕ) : Prop :=
  ∃ b < f.blocks.length, ((computeControlFlow f).preheader b).isSome ∧ i ∈ f.instsOf b ∧
    (f.numbered i).loopInvariant ((f.instsOf b).headD 0)

instance (f : Function) (i : ℕ) : Decidable (f.Hoistable i) :=
  inferInstanceAs (Decidable (∃ b < f.blocks.length, _))

end Function

section Licm

variable {f g c : Function} {b i p bidx : ℕ} {stop drop done : ℕ → Prop}

/-- What is known of the blocks while the headers are visited: `c` is the function at the start. -/
structure Hoisted (stop drop done : ℕ → Prop) (c g : Function) : Prop where
  instructions : g.instructions = c.instructions
  entryBlock : g.entryBlock = c.entryBlock
  /-- So are the blocks, but for their instructions. -/
  blocks : g.blocks.map ({ · with instIndices := [] }) =
    c.blocks.map ({ · with instIndices := [] })
  /-- A block runs as before, but for what is dropped. -/
  trim : ∀ b, Trim stop drop (c.instsOf b) (g.instsOf b)
  /-- A block that was not visited has only got more instructions. -/
  notDone : ∀ b, ¬done b → ∃ e, g.instsOf b = c.instsOf b ++ e ∧ ∀ i ∈ e, drop i

theorem instsOf_hoist (hp : p ≠ bidx) : (hoist bidx p g i).instsOf b =
    if b = bidx then (g.instsOf b).filter (· ≠ i)
    else if b = p ∧ p < g.blocks.length then g.instsOf b ++ [i] else g.instsOf b := by
  simp only [Function.instsOf, hoist, List.getElem?_modify]
  cases hb : g.blocks[b]? with
  | none =>
    have hlen : g.blocks.length ≤ b := List.getElem?_eq_none_iff.1 hb
    have : ¬(b = p ∧ p < g.blocks.length) := by omega
    simp [this]
  | some blk =>
    have hlen : b < g.blocks.length := (List.getElem?_eq_some_iff.1 hb).1
    by_cases h1 : bidx = b
    · subst h1
      simp [hp]
    · by_cases h2 : p = b
      · subst h2
        simp [h1, Ne.symm h1, hlen]
      · simp [h1, h2, Ne.symm h1, Ne.symm h2]

theorem blocks_hoist : (hoist bidx p g i).blocks.map ({ · with instIndices := [] }) =
    g.blocks.map ({ · with instIndices := [] }) := by
  apply List.ext_getElem?
  intro k
  simp only [hoist, List.getElem?_map, List.getElem?_modify]
  cases g.blocks[k]? with
  | none => rfl
  | some blk =>
    simp only [Option.map_some]
    split_ifs <;> rfl

theorem Hoisted.length (h : Hoisted stop drop done c g) : g.blocks.length = c.blocks.length := by
  simpa using congrArg List.length h.blocks

theorem Hoisted.hoist (h : Hoisted stop drop done c g) (hp : p ≠ bidx) (hdone : done bidx)
    (hstop : ∃ t ∈ c.instsOf p, stop t) (hi : drop i) (hdrop : ∀ j, drop j → ¬stop j) :
    Hoisted stop drop done c (hoist bidx p g i) := by
  refine ⟨h.instructions, h.entryBlock, blocks_hoist.trans h.blocks, fun b => ?_, fun b hb => ?_⟩
  · rw [instsOf_hoist hp]
    split_ifs with h1 h2
    · exact (h.trim b).filter_ne hi hdrop
    · rw [h2.1]
      exact (h.trim p).append hstop hdrop
    · exact h.trim b
  · obtain ⟨e, he, hall⟩ := h.notDone b hb
    have hne : b ≠ bidx := fun h => hb (h ▸ hdone)
    rw [instsOf_hoist hp, if_neg hne, he]
    split_ifs
    · exact ⟨e ++ [i], List.append_assoc _ _ _, by
        simpa [or_imp, forall_and] using ⟨hall, hi⟩⟩
    · exact ⟨e, rfl, hall⟩

theorem Hoisted.foldl_hoist {l : List ℕ} (h : Hoisted stop drop done c g) (hp : p ≠ bidx)
    (hdone : done bidx) (hstop : ∃ t ∈ c.instsOf p, stop t) (hl : ∀ i ∈ l, drop i)
    (hdrop : ∀ j, drop j → ¬stop j) :
    Hoisted stop drop done c (l.foldl (Mir.hoist bidx p) g) := by
  induction l generalizing g with
  | nil => exact h
  | cons i l ih =>
    exact ih (h.hoist hp hdone hstop (hl i (by simp)) hdrop) fun j hj => hl j (by simp [hj])

theorem Hoisted.mono {done' : ℕ → Prop} (h : Hoisted stop drop done c g)
    (hsub : ∀ b, done b → done' b) : Hoisted stop drop done' c g :=
  { h with notDone := fun b hb => h.notDone b fun hd => hb (hsub b hd) }

theorem Hoisted.preheader (h : Hoisted stop drop done c g) :
    g.preheader b = c.preheader b := by
  have hb : (g.blocks[b]?.map ({ · with instIndices := [] } : Block → Block)) =
      c.blocks[b]?.map ({ · with instIndices := [] }) := by
    rw [← List.getElem?_map, h.blocks, List.getElem?_map]
  rw [Function.preheader, Function.preheader, h.length]
  cases hg : g.blocks[b]? <;> cases hc : c.blocks[b]? <;> simp [hg, hc] at hb
  · rfl
  · obtain ⟨h1, -, -, h2⟩ := hb
    simp [h1, h2]

/-- The headers of `c` lose only instructions in `drop`, and pass them to blocks that stop
before. -/
structure HoistsOnly (stop drop : ℕ → Prop) (c : Function) : Prop where
  /-- What passes the test of a header is in `drop`. -/
  test : ∀ b i, (c.preheader b).isSome → i ∈ c.instsOf b →
    (c.inst i).loopInvariant ((c.instsOf b).headD 0) → drop i
  preheader : ∀ b p, c.preheader b = some p → p ≠ b ∧ ∃ t ∈ c.instsOf p, stop t
  /-- Nothing in `drop` stops. -/
  disjoint : ∀ i, drop i → ¬stop i

theorem Hoisted.visitHeader (hc : HoistsOnly stop drop c) (h : Hoisted stop drop done c g)
    (hb : ¬done bidx) : Hoisted stop drop (fun b => done b ∨ b = bidx) c (visitHeader g bidx) := by
  have hmono : Hoisted stop drop (fun b => done b ∨ b = bidx) c g := h.mono fun b => Or.inl
  rw [Mir.visitHeader, h.preheader]
  cases hpre : c.preheader bidx with
  | none => exact hmono
  | some p =>
    obtain ⟨hp, hstop⟩ := hc.preheader bidx p hpre
    refine hmono.foldl_hoist hp (Or.inr rfl) hstop (fun i hi => ?_) hc.disjoint
    obtain ⟨e, he, hall⟩ := h.notDone bidx hb
    rw [he, List.mem_filter, Function.inst, h.instructions] at hi
    obtain ⟨hmem, htest⟩ := hi
    rcases List.mem_append.1 hmem with hmem | hmem
    · refine hc.test bidx i (by simp [hpre]) hmem ?_
      have hhead : (c.instsOf bidx ++ e).headD 0 = (c.instsOf bidx).headD 0 := by
        cases hl : c.instsOf bidx with
        | nil => simp [hl] at hmem
        | cons x l => rfl
      rwa [hhead] at htest
    · exact hall i hmem

theorem hoisted_foldl {l : List ℕ} (hc : HoistsOnly stop drop c) (hl : l.Nodup) :
    Hoisted stop drop (· ∈ l) c (l.foldl visitHeader c) := by
  induction l using List.reverseRecOn with
  | nil => exact ⟨rfl, rfl, rfl, fun b => Trim.refl _, fun b _ => ⟨[], by simp, by simp⟩⟩
  | append_singleton p x ih =>
    have hx : x ∉ p := fun hx => by
      simpa using (List.nodup_append.1 hl).2.2 x hx x
    rw [List.foldl_append]
    exact ((ih (List.nodup_append.1 hl).1).visitHeader hc hx).mono fun b hb => by
      simpa using hb

theorem computeControlFlow_instsOf : (computeControlFlow f).instsOf b = f.instsOf b := by
  simp only [Function.instsOf, computeControlFlow, List.getElem?_map, List.getElem?_zipIdx]
  cases f.blocks[b]? <;> rfl

/-- The predecessor into which instructions go ends with a jump. -/
theorem mem_successorsOf_of_preheader (h : (computeControlFlow f).preheader b = some p) :
    p ≠ b ∧ b ∈ f.successorsOf p := by
  simp only [Function.preheader, computeControlFlow, List.getElem?_map, List.getElem?_zipIdx] at h
  cases hb : f.blocks[b]? with
  | none => simp [hb] at h
  | some blk =>
    simp only [hb, Option.map_some, Option.getD_some, Nat.zero_add] at h
    split_ifs at h with hloop
    · rw [Option.filter_eq_some_iff] at h
      obtain ⟨hhead, hp⟩ := h
      have hmem := List.mem_of_head? hhead
      simp only [List.mem_flatMap, List.mem_map, List.mem_filter, decide_eq_true_eq] at hmem
      obtain ⟨q, -, c, ⟨hc, rfl⟩, rfl⟩ := hmem
      exact ⟨(of_decide_eq_true hp).2, hc⟩

theorem exists_ends_of_mem_successorsOf (h : b ∈ f.successorsOf p) :
    ∃ t ∈ f.instsOf p, (f.inst t).cmd.ends := by
  rw [Function.successorsOf] at h
  dsimp only at h
  split_ifs at h with hdead
  · simp at h
  · cases hlast : (f.blocks[p]?.getD {}).instIndices.getLast? with
    | none => simp [hlast] at h
    | some t =>
      refine ⟨t, List.mem_of_getLast? hlast, ?_⟩
      simp only [hlast] at h
      split at h
      · rename_i hcmd _
        simp [hcmd, Cmd.ends]
      · rename_i hcmd _
        simp [hcmd, Cmd.ends]
      · simp at h

end Licm

end Mir

end Jaci
