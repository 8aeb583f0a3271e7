import Jaci.Sccp.ArithResults

/-!
# The pass over arithmetic with a constant operand

Every arithmetic instruction is visited at most once as such, since it is none after a rewriting, and
the producers that are erased are not arithmetic.  So the pass is right where each visit is.

* `arithToK_right_iff` : the graphs on which the pass gives the same numbers;
* `zero_minus_rewritten` : `0 - x` becomes `x`.
-/

namespace Jaci

namespace Sccp

open Double

/-! ### Folds that can fail -/

section FoldlM

variable {σ α : Type} (step : σ → α → Option σ) (P Q : σ → Prop)

theorem foldlM_some {l : List α} (h : ∀ a ∈ l, ∀ s, P s → ∃ s', step s a = some s' ∧ P s') {s : σ}
    (hs : P s) : ∃ s', l.foldlM step s = some s' ∧ P s' := by
  induction l generalizing s with
  | nil => exact ⟨s, rfl, hs⟩
  | cons a l ih =>
    obtain ⟨s', hstep, hs'⟩ := h a List.mem_cons_self s hs
    obtain ⟨s'', hrun, hs''⟩ := ih (fun b hb => h b (List.mem_cons_of_mem _ hb)) hs'
    exact ⟨s'', by rw [List.foldlM_cons, hstep]; exact hrun, hs''⟩

theorem foldlM_keeps {l : List α} (h : ∀ a ∈ l, ∀ s s', P s → step s a = some s' → P s') {s s' : σ}
    (hs : P s) (hrun : l.foldlM step s = some s') : P s' := by
  induction l generalizing s with
  | nil =>
    cases hrun
    exact hs
  | cons a l ih =>
    rw [List.foldlM_cons] at hrun
    obtain ⟨s₁, hstep, hrest⟩ := Option.bind_eq_some_iff.1 hrun
    exact ih (fun b hb => h b (List.mem_cons_of_mem _ hb)) (h a List.mem_cons_self s s₁ hs hstep)
      hrest

/-- What one element brings about holds in the end. -/
theorem foldlM_reaches {l : List α} (hP : ∀ a ∈ l, ∀ s s', P s → step s a = some s' → P s')
    (hQ : ∀ a ∈ l, ∀ s s', Q s → step s a = some s' → Q s') {a₀ : α} (ha₀ : a₀ ∈ l)
    (hhit : ∀ s s', P s → step s a₀ = some s' → Q s') {s s' : σ} (hs : P s)
    (hrun : l.foldlM step s = some s') : Q s' := by
  induction l generalizing s with
  | nil => cases ha₀
  | cons a l ih =>
    rw [List.foldlM_cons] at hrun
    obtain ⟨s₁, hstep, hrest⟩ := Option.bind_eq_some_iff.1 hrun
    rcases List.mem_cons.1 ha₀ with rfl | hmem
    · exact foldlM_keeps step Q (fun b hb => hQ b (List.mem_cons_of_mem _ hb)) (hhit s s₁ hs hstep)
        hrest
    · exact ih (fun b hb => hP b (List.mem_cons_of_mem _ hb))
        (fun b hb => hQ b (List.mem_cons_of_mem _ hb)) hmem (hP a List.mem_cons_self s s₁ hs hstep)
        hrest

end FoldlM

/-! ### The graph during the pass -/

section Pass

variable {pow : Double → Double → Double} {sqrt : Double → Double} {lat : OpConstness}
  {blockUses : ℕ → List BcOp} {f f' f'' : BcFunction} {op op' : BcOp} {toErase toErase' : List BcOp}

/-- An arithmetic instruction with two operands. -/
def Binary (f : BcFunction) (op : BcOp) : Prop :=
  (arithToKOpcode (f.inst op).op).isSome ∧ (f.inst op).ops.length = 2

/-- The graph `f'` of the pass on `f`: constants stay, and an instruction is as before or was
arithmetic. -/
structure Rel (f f' : BcFunction) : Prop where
  constants : f'.constants = f.constants
  blocks : f'.blocks.length = f.blocks.length
  shape : ∀ op, f'.shape op = f.shape op ∨
    (arithToKOpcode (f.inst op).op).isSome ∧ arithToKOpcode (f'.inst op).op = none

theorem Rel.refl : Rel f f := ⟨rfl, rfl, fun _ => .inl rfl⟩

theorem shape_congr (h : op.index = op'.index) : f.inst op = f.inst op' := by
  rw [BcFunction.inst, BcFunction.inst, h]

theorem op_eq_of_shape (h : f'.shape op = f.shape op) :
    (f'.inst op).op = (f.inst op).op ∧ (f'.inst op).ops = (f.inst op).ops := Prod.mk.inj h

theorem Rel.rewrites (h : Rel f f') (hstep : Rewrites f' f'' op) : Rel f f'' := by
  rcases hstep with rfl | ⟨o, ops, hb, ho, harith⟩
  · exact h
  refine ⟨hb.constants.trans h.constants, by rw [hb.blocks, h.blocks], fun op' => ?_⟩
  by_cases hi : op.index = op'.index
  · -- the instruction was arithmetic, thus as before
    have hshape : f''.shape op' = (o, ops) := by rw [hb.shape, if_pos hi]
    have ho' : (f''.inst op').op = o := congrArg Prod.fst hshape
    rw [shape_congr hi] at harith
    refine .inr ⟨?_, by rw [ho', ho]⟩
    rcases h.shape op' with hsame | ⟨hold, -⟩
    · rwa [(op_eq_of_shape hsame).1] at harith
    · exact hold
  · have hshape : f''.shape op' = f'.shape op' := by rw [hb.shape, if_neg hi]
    rcases h.shape op' with hsame | ⟨hold, hnone⟩
    · exact .inl (hshape.trans hsame)
    · exact .inr ⟨hold, by rw [(op_eq_of_shape hshape).1, hnone]⟩

theorem Rel.consistent (h : Rel f f') {value : BcOp → Double} :
    Consistent lat f' value ↔ Consistent lat f value := by
  simp only [Consistent, h.constants]

theorem constantOk_congr (hk : f'.constants = f.constants) (h : f'.shape op = f.shape op) :
    ConstantOk pow lat f' (f'.inst op) ↔ ConstantOk pow lat f (f.inst op) := by
  have hknown : ∀ a b k x, KnownNumber lat f' a b k x ↔ KnownNumber lat f a b k x := fun a b k x =>
    ⟨fun h => ⟨h.lattice, hk ▸ h.number, h.other⟩, fun h => ⟨h.lattice, hk ▸ h.number, h.other⟩⟩
  simp only [ConstantOk, (op_eq_of_shape h).1, (op_eq_of_shape h).2, hknown]

/-- The number of an instruction stays when another one is rewritten. -/
theorem numberAt_becomes {o : LuauOpcode} {ops : List BcOp} {value : BcOp → Double} {number : Double}
    (h : Becomes f f' op o ops) (hne : op.index ≠ op'.index)
    (hnumber : numberAt pow sqrt f value op' = some number) :
    numberAt pow sqrt f' value op' = some number := by
  have hshape : f'.shape op' = f.shape op' := by rw [h.shape, if_neg hne]
  rw [numberAt_of_shape (f := f) rfl] at hnumber
  rw [@numberAt_of_shape _ _ _ _ ((f.inst op').op) ((f.inst op').ops) (hshape.trans rfl)]
  revert hnumber
  unfold numberResult
  dsimp only
  split <;> try simp only [h.asNumber]
  all_goals try exact id
  next a _ _ =>
    -- a new immediate operand leaves the ones before it
    intro hnumber
    obtain ⟨extra, himm⟩ := h.immediates
    cases hget : f.immediates[a.index]? with
    | none => rw [hget] at hnumber; cases hnumber
    | some imm =>
      have hlt := (List.getElem?_eq_some_iff.1 hget).1
      rw [himm, List.getElem?_append_left hlt, hget]
      rwa [hget] at hnumber

/-! ### What a visit and an erasure keep -/

theorem visitArith_rewrites (hlibm : IsLibm pow sqrt)
    (h : visitArith lat (f, toErase) op = some (f', toErase')) : Rewrites f f' op := by
  by_cases hok : ConstantOk pow lat f (f.inst op)
  · obtain ⟨f₁, _, hrun, hstep, -⟩ := @visitArith_right _ _ _ _ _ toErase hlibm hok
    rw [h] at hrun
    cases hrun
    exact hstep
  · rcases @visitArith_wrong _ _ _ _ _ toErase hlibm hok with hnone | ⟨f₁, _, hrun, hstep, -⟩
    · rw [h] at hnone
      cases hnone
    · rw [h] at hrun
      cases hrun
      exact hstep

/-- An instruction that is not arithmetic keeps its number. -/
theorem visitArith_number (hlibm : IsLibm pow sqrt)
    (h : visitArith lat (f, toErase) op = some (f', toErase'))
    (hnone : op.index = op'.index → arithToKOpcode (f.inst op').op = none)
    {value : BcOp → Double} {number : Double}
    (hnumber : numberAt pow sqrt f value op' = some number) :
    numberAt pow sqrt f' value op' = some number := by
  by_cases hi : op.index = op'.index
  · have hskip := @visitArith_skip _ _ lat toErase
      (.inl (by rw [shape_congr hi]; exact hnone hi) : arithToKOpcode (f.inst op).op = none ∨ _)
    rw [h] at hskip
    cases hskip
    exact hnumber
  · rcases visitArith_rewrites hlibm h with rfl | ⟨o, ops, hb, -⟩
    · exact hnumber
    · exact numberAt_becomes hb hi hnumber

theorem eraseDeadProducer_cases (f : BcFunction) (op : BcOp) : eraseDeadProducer f op = f ∨
    isPureProducer (f.inst op).op = true ∧ eraseDeadProducer f op = f.eraseOp op := by
  unfold eraseDeadProducer
  by_cases hkind : op.kind ≠ .inst
  · exact .inl (if_pos hkind)
  by_cases hpure : ¬ isPureProducer (f.inst op).op
  · exact .inl (by rw [if_neg hkind, if_pos hpure])
  by_cases huses : (f.inst op).uses ≠ []
  · exact .inl (by rw [if_neg hkind, if_neg hpure, if_pos huses])
  · exact .inr ⟨not_not.1 hpure, by rw [if_neg hkind, if_neg hpure, if_neg huses]⟩

theorem eraseDeadProducer_rel (h : Rel f f') : Rel f (eraseDeadProducer f' op) := by
  rcases eraseDeadProducer_cases f' op with heq | ⟨-, heq⟩
  · rwa [heq]
  · rw [heq]
    exact ⟨h.constants, (List.length_modify _ _ _).trans h.blocks, h.shape⟩

theorem eraseDeadProducer_number (value : BcOp → Double) :
    numberAt pow sqrt (eraseDeadProducer f op) value op' = numberAt pow sqrt f value op' := by
  rcases eraseDeadProducer_cases f op with heq | ⟨-, heq⟩ <;> rw [heq]
  rfl

theorem eraseDeadProducer_inst : (eraseDeadProducer f op).inst op' = f.inst op' := by
  rcases eraseDeadProducer_cases f op with heq | ⟨-, heq⟩ <;> rw [heq]
  rfl

theorem not_pure_of_arith {opcode : LuauOpcode} (h : (arithToKOpcode opcode).isSome) :
    isPureProducer opcode = false := by
  cases opcode <;> first | rfl | cases h

/-- What is erased is no arithmetic. -/
theorem mem_eraseDeadProducer (harith : (arithToKOpcode (f.inst op').op).isSome) {block : BcOp}
    (h : op' ∈ (f.block block).ops) : op' ∈ ((eraseDeadProducer f op).block block).ops := by
  rcases eraseDeadProducer_cases f op with heq | ⟨hpure, heq⟩
  · rwa [heq]
  have hne : op' ≠ op := by
    rintro rfl
    rw [not_pure_of_arith harith] at hpure
    cases hpure
  rw [heq]
  simp only [BcFunction.eraseOp, BcFunction.block, List.getElem?_modify] at h ⊢
  cases hget : f.blocks[block.index]? with
  | none => rw [hget] at h; cases h
  | some b =>
    rw [hget] at h
    by_cases hi : (f.inst op).block.index = block.index
    · simpa [hi, hne] using h
    · simpa [hi] using h

/-! ### Where the pass is right -/

/-- The instruction is in a block that the pass visits. -/
def VisitedArith (f : BcFunction) (blockUses : ℕ → List BcOp) (op : BcOp) : Prop :=
  ∃ i < f.blocks.length, blockUses i ≠ [] ∧ op ∈ (f.block ⟨.block, i⟩).ops

/-- The pass ends, and every arithmetic instruction gives the same number as before. -/
def PassRight (pow : Double → Double → Double) (sqrt : Double → Double) (lat : OpConstness)
    (blockUses : ℕ → List BcOp) (f : BcFunction) : Prop :=
  ∃ f', arithToK lat blockUses f = some f' ∧ ∀ op, Binary f op →
    ∀ value, Consistent lat f value → numberAt pow sqrt f' value op = numberAt pow sqrt f value op

theorem numberAt_binary (h : Binary f op) (value : BcOp → Double) :
    ∃ number, numberAt pow sqrt f value op = some number := by
  obtain ⟨lhs, rhs, hops⟩ := List.length_eq_two.1 h.2
  exact ⟨_, numberAt_arith h.1 hops value⟩

/-- The graph `f'` of a right pass on `f`. -/
structure RightSoFar (pow : Double → Double → Double) (sqrt : Double → Double) (lat : OpConstness)
    (f f' : BcFunction) : Prop where
  rel : Rel f f'
  numbers : ∀ op, Binary f op → ∀ value, Consistent lat f value →
    numberAt pow sqrt f' value op = numberAt pow sqrt f value op

theorem RightSoFar.erase (h : RightSoFar pow sqrt lat f f') :
    RightSoFar pow sqrt lat f (eraseDeadProducer f' op) :=
  ⟨eraseDeadProducer_rel h.rel, fun op' hop' value hvalue => by
    rw [eraseDeadProducer_number, h.numbers op' hop' value hvalue]⟩

theorem RightSoFar.eraseAll (h : RightSoFar pow sqrt lat f f') (ops : List BcOp) :
    RightSoFar pow sqrt lat f (ops.foldl eraseDeadProducer f') := by
  induction ops generalizing f' with
  | nil => exact h
  | cons op ops ih => exact ih h.erase

/-- An instruction that is as before is rewritten rightly or not at all; another one is skipped. -/
theorem constantOk_of_rel (h : Rel f f') (hok : ConstantOk pow lat f (f.inst op)) :
    ConstantOk pow lat f' (f'.inst op) := by
  rcases h.shape op with hshape | ⟨-, hnone⟩
  · exact (constantOk_congr h.constants hshape).2 hok
  · intro lhs rhs k x hsome
    rw [hnone] at hsome
    cases hsome

theorem RightSoFar.visit (hlibm : IsLibm pow sqrt) (h : RightSoFar pow sqrt lat f f')
    (hok : ConstantOk pow lat f (f.inst op)) (toErase : List BcOp) :
    ∃ s', visitArith lat (f', toErase) op = some s' ∧ RightSoFar pow sqrt lat f s'.1 := by
  obtain ⟨f'', toErase', hrun, hstep, hsame⟩ :=
    @visitArith_right _ sqrt _ _ _ toErase hlibm (constantOk_of_rel h.rel hok)
  refine ⟨_, hrun, h.rel.rewrites hstep, fun op' hop' value hvalue => ?_⟩
  by_cases hi : op.index = op'.index
  · have hat : ∀ g : BcFunction, numberAt pow sqrt g value op' = numberAt pow sqrt g value op :=
      fun g => by rw [numberAt, numberAt, shape_congr hi]
    rw [← h.numbers op' hop' value hvalue, hat, hat, hsame value (h.rel.consistent.2 hvalue)]
  · obtain ⟨number, hnumber⟩ := @numberAt_binary pow sqrt _ _ hop' value
    rw [hnumber]
    exact visitArith_number hlibm hrun (fun heq => absurd heq hi)
      ((h.numbers op' hop' value hvalue).trans hnumber)

theorem Rewrites.blocks (h : Rewrites f f' op) : f'.blocks = f.blocks := by
  rcases h with rfl | ⟨o, ops, hb, -⟩
  · rfl
  · exact hb.blocks

theorem mem_of_mem_erase {block : BcOp}
    (h : op' ∈ ((eraseDeadProducer f op).block block).ops) : op' ∈ (f.block block).ops := by
  rcases eraseDeadProducer_cases f op with heq | ⟨-, heq⟩
  · rwa [heq] at h
  rw [heq] at h
  simp only [BcFunction.eraseOp, BcFunction.block, List.getElem?_modify] at h ⊢
  cases hget : f.blocks[block.index]? with
  | none => simp [hget] at h
  | some b =>
    by_cases hi : (f.inst op).block.index = block.index
    · simp only [hget, hi, if_true, Option.map_eq_map, Option.map_some, Option.getD_some,
        List.mem_filter] at h
      exact h.1
    · simpa [hget, hi] using h

/-- The instructions of a block are among the ones of the graph `f`. -/
def Within (f f' : BcFunction) : Prop := ∀ block, ∀ op ∈ (f'.block block).ops, op ∈ (f.block block).ops

theorem Within.eraseAll (h : Within f f') (ops : List BcOp) :
    Within f (ops.foldl eraseDeadProducer f') := by
  induction ops generalizing f' with
  | nil => exact h
  | cons op ops ih => exact ih fun block op' hop' => h block op' (mem_of_mem_erase hop')

/-- **Right visits.**  If every visited instruction can be rewritten, the pass is right. -/
theorem passRight_of_constantOk (hlibm : IsLibm pow sqrt)
    (h : ∀ op, VisitedArith f blockUses op → ConstantOk pow lat f (f.inst op)) :
    PassRight pow sqrt lat blockUses f := by
  have hblock : ∀ i ∈ List.range f.blocks.length, ∀ f',
      RightSoFar pow sqrt lat f f' ∧ Within f f' →
      ∃ f'', arithToKBlock lat blockUses f' i = some f'' ∧
        RightSoFar pow sqrt lat f f'' ∧ Within f f'' := by
    rintro i hi f' ⟨hright, hwithin⟩
    unfold arithToKBlock
    by_cases huses : blockUses i = []
    · exact ⟨f', if_pos huses, hright, hwithin⟩
    rw [if_neg huses]
    have hvisit : ∀ op ∈ (f'.block ⟨.block, i⟩).ops, ∀ s : BcFunction × List BcOp,
        RightSoFar pow sqrt lat f s.1 ∧ Within f s.1 →
        ∃ s', visitArith lat s op = some s' ∧ RightSoFar pow sqrt lat f s'.1 ∧ Within f s'.1 := by
      rintro op hop ⟨f₁, toErase⟩ ⟨hright₁, hwithin₁⟩
      obtain ⟨⟨f₂, toErase₂⟩, hrun, hright₂⟩ := hright₁.visit hlibm
        (h op ⟨i, List.mem_range.1 hi, huses, hwithin _ op hop⟩) toErase
      refine ⟨_, hrun, hright₂, fun block op' hop' => hwithin₁ block op' ?_⟩
      rwa [BcFunction.block, (visitArith_rewrites hlibm hrun).blocks] at hop'
    obtain ⟨⟨f₁, toErase⟩, hrun, hright₁, hwithin₁⟩ := foldlM_some (visitArith lat) _ hvisit
      (s := (f', [])) ⟨hright, hwithin⟩
    exact ⟨_, by rw [hrun]; rfl, hright₁.eraseAll toErase, hwithin₁.eraseAll toErase⟩
  obtain ⟨f', hrun, hright, -⟩ := foldlM_some _ _ hblock (s := f)
    ⟨⟨.refl, fun _ _ _ _ => rfl⟩, fun _ _ hop => hop⟩
  exact ⟨f', hrun, hright.numbers⟩

/-! ### Where the pass is wrong -/

/-- The instruction `op` was rewritten, and gives another number for some operands. -/
def Bad (pow : Double → Double → Double) (sqrt : Double → Double) (lat : OpConstness)
    (f : BcFunction) (op : BcOp) (f' : BcFunction) : Prop :=
  Rel f f' ∧ arithToKOpcode (f'.inst op).op = none ∧ ∃ value number, Consistent lat f value ∧
    numberAt pow sqrt f' value op = some number ∧ numberAt pow sqrt f value op ≠ some number

/-- The instruction `op` is as before, or it is bad. -/
def Pending (pow : Double → Double → Double) (sqrt : Double → Double) (lat : OpConstness)
    (f : BcFunction) (op : BcOp) (f' : BcFunction) : Prop :=
  Rel f f' ∧ f'.shape op = f.shape op ∨ Bad pow sqrt lat f op f'

variable {bad : BcOp}

theorem Bad.visit (hlibm : IsLibm pow sqrt) (h : Bad pow sqrt lat f bad f')
    (hrun : visitArith lat (f', toErase) op = some (f'', toErase')) :
    Bad pow sqrt lat f bad f'' := by
  obtain ⟨hrel, hnone, value, number, hvalue, hnumber, hne⟩ := h
  have hstep := visitArith_rewrites hlibm hrun
  refine ⟨hrel.rewrites hstep, ?_, value, number, hvalue,
    visitArith_number hlibm hrun (fun _ => hnone) hnumber, hne⟩
  rcases hstep with rfl | ⟨o, ops, hb, ho, -⟩
  · exact hnone
  · have hshape := hb.shape bad
    by_cases hi : op.index = bad.index
    · rw [if_pos hi] at hshape
      rw [show (f''.inst bad).op = o from congrArg Prod.fst hshape, ho]
    · rw [if_neg hi] at hshape
      rw [(op_eq_of_shape hshape).1, hnone]

theorem binary_of_not_constantOk (h : ¬ ConstantOk pow lat f (f.inst op)) : Binary f op := by
  simp only [ConstantOk, not_forall] at h
  obtain ⟨lhs, rhs, -, -, hsome, hops, -⟩ := h
  exact ⟨hsome, by rw [hops]; rfl⟩

/-- Instructions of one shape give the same number when they are arithmetic. -/
theorem numberAt_same (h : Binary f op) (hshape : f'.shape op = f.shape op)
    (value : BcOp → Double) :
    numberAt pow sqrt f' value op = numberAt pow sqrt f value op := by
  obtain ⟨hop, hops'⟩ := op_eq_of_shape hshape
  obtain ⟨lhs, rhs, hops⟩ := List.length_eq_two.1 h.2
  rw [numberAt_arith (by rw [hop]; exact h.1) (hops'.trans hops), numberAt_arith h.1 hops, hop]

theorem numberAt_congr (h : op.index = op'.index) (value : BcOp → Double) :
    numberAt pow sqrt f value op = numberAt pow sqrt f value op' := by
  rw [numberAt, numberAt, shape_congr h]

/-- The visit of the instruction makes it bad. -/
theorem Pending.hit (hlibm : IsLibm pow sqrt) (hbad : ¬ ConstantOk pow lat f (f.inst bad))
    (h : Pending pow sqrt lat f bad f') (hi : op.index = bad.index)
    (hrun : visitArith lat (f', toErase) op = some (f'', toErase')) :
    Bad pow sqrt lat f bad f'' := by
  rcases h with ⟨hrel, hshape⟩ | h
  · have hbad' : ¬ ConstantOk pow lat f' (f'.inst op) := by
      rw [shape_congr hi]
      exact (constantOk_congr hrel.constants hshape).not.2 hbad
    rcases @visitArith_wrong _ sqrt _ _ _ toErase hlibm hbad' with
      hnone | ⟨f₁, _, hrun', hstep, value, number, hvalue, hnumber, hne⟩
    · rw [hrun] at hnone
      cases hnone
    rw [hrun] at hrun'
    cases hrun'
    rw [numberAt_congr hi] at hnumber hne
    refine ⟨hrel.rewrites hstep, ?_, value, number, hrel.consistent.1 hvalue, hnumber, ?_⟩
    · rcases hstep with rfl | ⟨o, ops, hb, ho, -⟩
      · exact absurd hnumber hne
      · have hnew := hb.shape bad
        rw [if_pos hi] at hnew
        rw [show (f''.inst bad).op = o from congrArg Prod.fst hnew, ho]
    · rwa [numberAt_same (binary_of_not_constantOk hbad) hshape] at hne
  · exact h.visit hlibm hrun

theorem Pending.visit (hlibm : IsLibm pow sqrt) (hbad : ¬ ConstantOk pow lat f (f.inst bad))
    (h : Pending pow sqrt lat f bad f')
    (hrun : visitArith lat (f', toErase) op = some (f'', toErase')) :
    Pending pow sqrt lat f bad f'' := by
  by_cases hi : op.index = bad.index
  · exact .inr (h.hit hlibm hbad hi hrun)
  rcases h with ⟨hrel, hshape⟩ | h
  · have hstep := visitArith_rewrites hlibm hrun
    refine .inl ⟨hrel.rewrites hstep, ?_⟩
    rcases hstep with rfl | ⟨o, ops, hb, -⟩
    · exact hshape
    · rw [hb.shape, if_neg hi, hshape]
  · exact .inr (h.visit hlibm hrun)

theorem Bad.erase (h : Bad pow sqrt lat f bad f') :
    Bad pow sqrt lat f bad (eraseDeadProducer f' op) := by
  obtain ⟨hrel, hnone, value, number, hvalue, hnumber, hne⟩ := h
  refine ⟨eraseDeadProducer_rel hrel, ?_, value, number, hvalue, ?_, hne⟩
  · rwa [eraseDeadProducer_inst]
  · rwa [eraseDeadProducer_number]

theorem Bad.eraseAll (h : Bad pow sqrt lat f bad f') (ops : List BcOp) :
    Bad pow sqrt lat f bad (ops.foldl eraseDeadProducer f') := by
  induction ops generalizing f' with
  | nil => exact h
  | cons op ops ih => exact ih h.erase

/-- The instruction `op` of the block `block` is still to be visited, or it is bad. -/
def ToVisit (pow : Double → Double → Double) (sqrt : Double → Double) (lat : OpConstness)
    (f : BcFunction) (op block : BcOp) (f' : BcFunction) : Prop :=
  Pending pow sqrt lat f op f' ∧ op ∈ (f'.block block).ops ∨ Bad pow sqrt lat f op f'

variable {b : BcOp}

theorem ToVisit.visit (hlibm : IsLibm pow sqrt) (hbad : ¬ ConstantOk pow lat f (f.inst bad))
    (h : ToVisit pow sqrt lat f bad b f')
    (hrun : visitArith lat (f', toErase) op = some (f'', toErase')) :
    ToVisit pow sqrt lat f bad b f'' := by
  rcases h with ⟨hpending, hmem⟩ | h
  · refine .inl ⟨hpending.visit hlibm hbad hrun, ?_⟩
    rwa [BcFunction.block, (visitArith_rewrites hlibm hrun).blocks]
  · exact .inr (h.visit hlibm hrun)

theorem ToVisit.erase (hbad : ¬ ConstantOk pow lat f (f.inst bad))
    (h : ToVisit pow sqrt lat f bad b f') :
    ToVisit pow sqrt lat f bad b (eraseDeadProducer f' op) := by
  rcases h with ⟨⟨hrel, hshape⟩ | h, hmem⟩ | h
  · -- an arithmetic instruction is not erased
    have harith : (arithToKOpcode (f'.inst bad).op).isSome := by
      rw [(op_eq_of_shape hshape).1]
      exact (binary_of_not_constantOk hbad).1
    refine .inl ⟨.inl ⟨eraseDeadProducer_rel hrel, ?_⟩, mem_eraseDeadProducer harith hmem⟩
    rw [← hshape, BcFunction.shape, BcFunction.shape, eraseDeadProducer_inst]
  · exact .inr h.erase
  · exact .inr h.erase

theorem ToVisit.eraseAll (hbad : ¬ ConstantOk pow lat f (f.inst bad))
    (h : ToVisit pow sqrt lat f bad b f') (ops : List BcOp) :
    ToVisit pow sqrt lat f bad b (ops.foldl eraseDeadProducer f') := by
  induction ops generalizing f' with
  | nil => exact h
  | cons op ops ih => exact ih (h.erase hbad)

/-! ### The visit of a block -/

theorem arithToKBlock_some {i : ℕ} (huses : blockUses i ≠ [])
    (hrun : arithToKBlock lat blockUses f' i = some f'') : ∃ f₁ toErase,
      (f'.block ⟨.block, i⟩).ops.foldlM (visitArith lat) (f', []) = some (f₁, toErase) ∧
      f'' = toErase.foldl eraseDeadProducer f₁ := by
  rw [arithToKBlock, if_neg huses] at hrun
  obtain ⟨⟨f₁, toErase⟩, hfold, hrest⟩ := Option.bind_eq_some_iff.1 hrun
  exact ⟨f₁, toErase, hfold, (Option.some.inj hrest).symm⟩

theorem Bad.visitBlock (hlibm : IsLibm pow sqrt) {i : ℕ} (h : Bad pow sqrt lat f bad f')
    (hrun : arithToKBlock lat blockUses f' i = some f'') : Bad pow sqrt lat f bad f'' := by
  by_cases huses : blockUses i = []
  · rw [arithToKBlock, if_pos huses] at hrun
    rwa [← Option.some.inj hrun]
  obtain ⟨f₁, toErase, hfold, rfl⟩ := arithToKBlock_some huses hrun
  refine Bad.eraseAll ?_ toErase
  exact foldlM_keeps (visitArith lat) (fun s : BcFunction × List BcOp => Bad pow sqrt lat f bad s.1)
    (fun _ _ _ _ hs hstep => Bad.visit hlibm hs hstep) h hfold

theorem ToVisit.visitBlock (hlibm : IsLibm pow sqrt) (hbad : ¬ ConstantOk pow lat f (f.inst bad)) {i : ℕ}
    (h : ToVisit pow sqrt lat f bad b f')
    (hrun : arithToKBlock lat blockUses f' i = some f'') : ToVisit pow sqrt lat f bad b f'' := by
  by_cases huses : blockUses i = []
  · rw [arithToKBlock, if_pos huses] at hrun
    rwa [← Option.some.inj hrun]
  obtain ⟨f₁, toErase, hfold, rfl⟩ := arithToKBlock_some huses hrun
  refine ToVisit.eraseAll hbad ?_ toErase
  exact foldlM_keeps (visitArith lat) (fun s : BcFunction × List BcOp => ToVisit pow sqrt lat f bad b s.1)
    (fun _ _ _ _ hs hstep => ToVisit.visit hlibm hbad hs hstep) h hfold

/-- The visit of the block of the instruction makes it bad. -/
theorem ToVisit.hit (hlibm : IsLibm pow sqrt) (hbad : ¬ ConstantOk pow lat f (f.inst bad)) {i : ℕ}
    (h : ToVisit pow sqrt lat f bad ⟨.block, i⟩ f') (huses : blockUses i ≠ [])
    (hrun : arithToKBlock lat blockUses f' i = some f'') : Bad pow sqrt lat f bad f'' := by
  rcases h with ⟨hpending, hmem⟩ | h
  · obtain ⟨f₁, toErase, hfold, rfl⟩ := arithToKBlock_some huses hrun
    refine Bad.eraseAll ?_ toErase
    exact foldlM_reaches (visitArith lat)
      (fun s : BcFunction × List BcOp => Pending pow sqrt lat f bad s.1)
      (fun s : BcFunction × List BcOp => Bad pow sqrt lat f bad s.1)
      (fun _ _ _ _ hs hstep => Pending.visit hlibm hbad hs hstep)
      (fun _ _ _ _ hs hstep => Bad.visit hlibm hs hstep) hmem
      (fun _ _ hs hstep => Pending.hit hlibm hbad hs rfl hstep) hpending hfold
  · exact h.visitBlock hlibm hrun

/-- **Wrong visits.**  If a visited instruction cannot be rewritten, the pass does not end or some
number is another one. -/
theorem not_passRight (hlibm : IsLibm pow sqrt) (hvisited : VisitedArith f blockUses bad)
    (hbad : ¬ ConstantOk pow lat f (f.inst bad)) : ¬ PassRight pow sqrt lat blockUses f := by
  rintro ⟨f', hrun, hright⟩
  obtain ⟨i, hi, huses, hmem⟩ := hvisited
  have hstart : ToVisit pow sqrt lat f bad ⟨.block, i⟩ f := .inl ⟨.inl ⟨.refl, rfl⟩, hmem⟩
  obtain ⟨-, -, value, number, hvalue, hnumber, hne⟩ : Bad pow sqrt lat f bad f' :=
    foldlM_reaches (arithToKBlock lat blockUses) _ (Bad pow sqrt lat f bad)
      (fun _ _ _ _ hs hstep => ToVisit.visitBlock hlibm hbad hs hstep)
      (fun _ _ _ _ hs hstep => Bad.visitBlock hlibm hs hstep) (List.mem_range.2 hi)
      (fun _ _ hs hstep => ToVisit.hit hlibm hbad hs huses hstep) hstart hrun
  rw [hright bad (binary_of_not_constantOk hbad) value hvalue] at hnumber
  exact hne hnumber

/-- **Arithmetic with a constant operand.**  The pass ends with the same numbers exactly if the
constant of each visited instruction is one that its rewriting is right for. -/
theorem arithToK_right_iff (hlibm : IsLibm pow sqrt) : PassRight pow sqrt lat blockUses f ↔
    ∀ op, VisitedArith f blockUses op → ConstantOk pow lat f (f.inst op) :=
  ⟨fun h _ hvisited => by_contra fun hbad => not_passRight hlibm hvisited hbad h,
    passRight_of_constantOk hlibm⟩

end Pass

/-! ### Examples -/

/-- `pow` on the numbers that `IsLibm` is about. -/
def corePow (x y : Double) : Double :=
  if y = zero true ∨ y = zero false then fromInt 1
  else if y = fromInt 1 then x
  else if x = inf true ∧ y = half then inf false
  else nan

/-- `sqrt` on -inf, 0, 1 and inf. -/
def coreSqrt (x : Double) : Double := if x = inf true then nan else x

theorem isLibm_core : IsLibm corePow coreSqrt where
  pow_zero x neg := by cases neg <;> simp [corePow]
  pow_one x := by
    rw [corePow, if_neg, if_pos rfl]
    rintro (h | h)
    · exact fromInt_one_ne_zero true h
    · exact fromInt_one_ne_zero false h
  pow_half := by
    have hone : half ≠ fromInt 1 := half_ne_fromInt 1 (by norm_num)
    simp [corePow, half_ne_zero, hone]
  sqrt_neg := if_pos rfl

/-- `return x op c`, or `return c op x` if `left`, where `x` is an upvalue. -/
def withUpvalue (op : LuauOpcode) (c : ℤ) (left : Bool) : BcFunction where
  blocks := [{ ops := [⟨.inst, 0⟩, ⟨.inst, 1⟩, ⟨.inst, 2⟩] }, {}]
  instructions := [
    { op := .loadK, ops := [⟨.vmConst, 0⟩], uses := [⟨.inst, 2⟩] },
    { op := .getUpval, ops := [⟨.vmUpvalue, 0⟩], uses := [⟨.inst, 2⟩] },
    { op := op, ops := if left then [⟨.inst, 0⟩, ⟨.inst, 1⟩] else [⟨.inst, 1⟩, ⟨.inst, 0⟩] }]
  constants := [.number (fromInt c)]

/-- What the propagation finds out of `withUpvalue`. -/
def withUpvalueLattice : OpConstness := fun op =>
  if op = ⟨.inst, 0⟩ then .vmConstant ⟨.vmConst, 0⟩ else .notAConstant

/-- The block of `withUpvalue` is the entry. -/
def entryUses : ℕ → List BcOp := fun i => if i = 0 then [⟨.block, 0⟩] else []

theorem arithToK_right_iff_five_plus :
    PassRight corePow coreSqrt withUpvalueLattice entryUses (withUpvalue .add 5 true) := by
  refine (arithToK_right_iff isLibm_core).2 ?_
  rintro op ⟨i, -, huses, hop⟩
  have hi : i = 0 := by
    by_contra h
    exact huses (if_neg h)
  subst hi
  have hmem : op = ⟨.inst, 0⟩ ∨ op = ⟨.inst, 1⟩ ∨ op = ⟨.inst, 2⟩ := by
    simpa [withUpvalue, BcFunction.block] using hop
  intro lhs rhs k x hsome hops
  rcases hmem with rfl | rfl | rfl
  · cases hsome
  · cases hsome
  · cases hops
    refine ⟨fun h => ?_, fun h => ?_⟩
    · cases h.lattice
    · cases h.lattice
      cases h.number
      exact fromInt_ne_zero (by norm_num) (by norm_num) false

/-- The constant on the left of `withUpvalue` is known. -/
theorem known_withUpvalue (op : LuauOpcode) (c : ℤ) :
    KnownNumber withUpvalueLattice (withUpvalue op c true) ⟨.inst, 0⟩ ⟨.inst, 1⟩ ⟨.vmConst, 0⟩
      (fromInt c) := ⟨rfl, rfl, rfl⟩

theorem visited_withUpvalue (op : LuauOpcode) (c : ℤ) :
    VisitedArith (withUpvalue op c true) entryUses ⟨.inst, 2⟩ :=
  ⟨0, Nat.zero_lt_two, by decide, by simp [withUpvalue, BcFunction.block]⟩

/-- `0 - x` becomes `x`, and in `2 ^ x` the constant is read although there is none. -/
theorem zero_minus_rewritten :
    ¬ PassRight corePow coreSqrt withUpvalueLattice entryUses (withUpvalue .sub 0 true) ∧
      arithToK withUpvalueLattice entryUses (withUpvalue .pow 2 true) = none := by
  constructor
  · refine not_passRight isLibm_core (visited_withUpvalue _ _) fun h => ?_
    refine ((h _ _ _ _ rfl rfl).2 (known_withUpvalue .sub 0)) false ?_
    rw [fromInt_eq (by norm_num)]
    rfl
  · rfl

end Sccp

end Jaci
