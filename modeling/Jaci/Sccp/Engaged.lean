import Jaci.Sccp.Optionals

/-!
# Optionals that are read

All lattice values of a run were made by the constructors, so a kind says which optional is engaged.
The evaluators then read no empty optional but one: a comparison of an immediate boolean with a
boolean reads the constant that it does not have.

* `ofState`, `next_ofPlace` : the runs are those of the propagation on lattice values without
  optionals;
* `throws_iff` : where an empty optional is read.
-/

namespace Jaci

namespace Sccp

namespace Raw

variable {pow : Double → Double → Double} {f : BcFunction} {ks : List BcVmConst}
  {lat : Sccp.OpConstness} {inst : BcInst} {op : BcOp}

/-! ### Lattice values -/

/-- The stored lattice value. -/
def ofLattice : Sccp.ConstnessLattice → ConstnessLattice
  | .undetermined => {}
  | .notAConstant => .ofKind .notAConstant
  | .vmConstant op => .ofVmConst op
  | .immConstant imm => .ofImm imm

/-- The stored lattice values. -/
def ofLat (lat : Sccp.OpConstness) : OpConstness := fun op => ofLattice (lat op)

theorem ofLattice_eqv (x y : Sccp.ConstnessLattice) :
    (ofLattice x).eqv (ofLattice y) = decide (x = y) := by
  cases x <;> cases y <;>
    simp [ofLattice, ConstnessLattice.eqv, ConstnessLattice.ofKind, ConstnessLattice.ofVmConst,
      ConstnessLattice.ofImm]

theorem ofLattice_merge (x y : Sccp.ConstnessLattice) :
    (ofLattice x).merge (ofLattice y) = ofLattice (x.merge y) := by
  have hkind : ∀ z, (ofLattice z).kind = .undetermined ↔ z = .undetermined := fun z => by
    cases z <;> simp [ofLattice, ConstnessLattice.ofKind, ConstnessLattice.ofVmConst,
      ConstnessLattice.ofImm]
  simp only [ConstnessLattice.merge, Sccp.ConstnessLattice.merge, hkind, ofLattice_eqv,
    decide_eq_true_eq]
  split_ifs <;> rfl

theorem operandLattice_ofLat :
    operandLattice (ofLat lat) op = ofLattice (Sccp.operandLattice lat op) := by
  simp only [operandLattice, Sccp.operandLattice, ofLat]
  split_ifs <;> rfl

theorem unknownConditionConstness_ofLat (ops : List BcOp) :
    ConstnessLattice.ofKind (unknownConditionConstness (ofLat lat) ops) =
      ofLattice (Sccp.unknownConditionConstness lat ops) := by
  have hkind : ∀ op, (operandLattice (ofLat lat) op).kind = .notAConstant ↔
      Sccp.operandLattice lat op = .notAConstant := fun op => by
    rw [operandLattice_ofLat]
    cases Sccp.operandLattice lat op <;> simp [ofLattice, ConstnessLattice.ofKind,
      ConstnessLattice.ofVmConst, ConstnessLattice.ofImm]
  simp only [unknownConditionConstness, Sccp.unknownConditionConstness, hkind]
  split_ifs <;> rfl

/-! ### Evaluators -/

theorem evaluateArith_ofLat : evaluateArith pow ks (ofLat lat) inst =
    some (ofLattice (Sccp.evaluateArith pow ks lat inst).1,
      (Sccp.evaluateArith pow ks lat inst).2) := by
  simp only [evaluateArith, Sccp.evaluateArith, operandLattice_ofLat]
  generalize Sccp.operandLattice lat (inst.arg 0) = x
  generalize Sccp.operandLattice lat (inst.arg 1) = y
  rcases x with _ | _ | a | (_ | lv | _) <;> rcases y with _ | _ | b | (_ | rv | _) <;> try rfl
  · cases h : evaluateConsts pow ks a b inst.op <;>
      simp [ofLattice, ConstnessLattice.ofVmConst, ConstnessLattice.ofKind, h]
  · simp only [ofLattice, ConstnessLattice.ofImm, and_self, if_true, Option.bind_eq_bind,
      Option.bind_some]
    split_ifs
    · rfl
    · rfl
    · cases foldInt inst.op lv rv with
      | none => rfl
      | some n =>
        dsimp only
        split_ifs <;> rfl

theorem isOrderableLattice_ofLattice (x : Sccp.ConstnessLattice) :
    isOrderableLattice ks (ofLattice x) = some (Sccp.isOrderableLattice ks x) := by
  cases x with
  | immConstant imm => cases imm <;> rfl
  | _ => rfl

theorem lacksOrder_ofLattice (o : LuauOpcode) (x y : Sccp.ConstnessLattice) :
    lacksOrder ks o (ofLattice x) (ofLattice y) = some (o.isOrdering &&
      (!Sccp.isOrderableLattice ks x || !Sccp.isOrderableLattice ks y)) := by
  simp only [lacksOrder, isOrderableLattice_ofLattice, Option.bind_eq_bind, Option.bind_some]
  cases o.isOrdering <;> cases Sccp.isOrderableLattice ks x <;> rfl

theorem evaluateComparisonCondition_ofLat (o : LuauOpcode) (lhs rhs : BcOp) :
    evaluateComparisonCondition ks (ofLat lat) o lhs rhs =
      some (Sccp.evaluateComparisonCondition ks lat o lhs rhs) := by
  simp only [evaluateComparisonCondition, Sccp.evaluateComparisonCondition, operandLattice_ofLat,
    lacksOrder_ofLattice, Option.bind_eq_bind, Option.bind_some]
  generalize Sccp.operandLattice lat lhs = x
  generalize Sccp.operandLattice lat rhs = y
  generalize (o.isOrdering &&
    (!Sccp.isOrderableLattice ks x || !Sccp.isOrderableLattice ks y)) = unordered
  cases unordered with
  | true => rfl
  | false =>
    rcases x with _ | _ | a | (_ | lv | _) <;> rcases y with _ | _ | b | (_ | rv | _) <;> try rfl
    simp only [ofLattice, ConstnessLattice.ofVmConst, and_self, if_true, Option.bind_some,
      Bool.false_eq_true, if_false]
    split_ifs <;> rfl

theorem evaluateCondition_ofLat :
    evaluateCondition ks (ofLat lat) op = some (Sccp.evaluateCondition ks lat op) := by
  simp only [evaluateCondition, Sccp.evaluateCondition, operandLattice_ofLat]
  generalize Sccp.operandLattice lat op = x
  rcases x with _ | _ | a | (_ | _ | _) <;> rfl

theorem evaluateXeqkCondition_ofLat :
    evaluateXeqkCondition f ks (ofLat lat) inst = Sccp.evaluateXeqkCondition f ks lat inst := by
  simp only [evaluateXeqkCondition, Sccp.evaluateXeqkCondition, operandLattice_ofLat]
  generalize Sccp.operandLattice lat (inst.arg 0) = x
  generalize inst.op = o
  cases o <;> rcases x with _ | _ | a | (_ | _ | _) <;> rfl

theorem condition_ofLat (t : Test) :
    condition f ks (ofLat lat) inst t = Sccp.condition f ks lat inst t := by
  cases t with
  | truth op => rw [condition, evaluateCondition_ofLat]; rfl
  | compare lhs rhs => rw [condition, evaluateComparisonCondition_ofLat]; rfl
  | xeqk op => exact evaluateXeqkCondition_ofLat

theorem evaluate_ofLat : evaluate pow f ks (ofLat lat) inst =
    (Sccp.evaluate pow f ks lat inst).map fun r => (ofLattice r.1, r.2) := by
  rw [evaluate, Sccp.evaluate]
  cases test f inst with
  | some r =>
    obtain ⟨t, target, onTrue⟩ := r
    simp only [condition_ofLat, Option.map_map]
    congr 1
    funext r
    simp only [Function.comp]
    split_ifs
    · rw [unknownConditionConstness_ofLat]
    · rfl
  | none =>
    cases inst.op <;> simp only [operandLattice_ofLat, evaluateArith_ofLat, Option.map_some] <;> rfl

theorem jumpTargets_ofLat :
    jumpTargets f ks (ofLat lat) inst = Sccp.jumpTargets f ks lat inst := by
  rw [jumpTargets, Sccp.jumpTargets]
  cases test f inst with
  | some r => simp only [condition_ofLat]
  | none => rfl

/-! ### Visits -/

def ofState (st : Sccp.SccpState) : SccpState where
  constants := st.constants
  opConstness := ofLat st.opConstness
  blockUses := st.blockUses
  flowWorklist := st.flowWorklist
  flowWorklistSet := st.flowWorklistSet
  ssaWorklist := st.ssaWorklist

variable {st : Sccp.SccpState}

theorem ofLat_update (l : Sccp.ConstnessLattice) :
    Function.update (ofLat lat) op (ofLattice l) = ofLat (Function.update lat op l) := by
  funext op'
  simp only [ofLat, Function.update_apply]
  split_ifs <;> rfl

theorem setLattice_ofState (l : Sccp.ConstnessLattice) (uses : List BcOp) :
    (ofState st).setLattice op (ofLattice l) uses = ofState (st.setLattice op l uses) := by
  have hchange : (!(ofLattice l).eqv (ofLat st.opConstness op)) = true ↔ l ≠ st.opConstness op := by
    rw [ofLat, ofLattice_eqv]
    simp
  simp only [SccpState.setLattice, ofState, Sccp.SccpState.setLattice, ofLat_update, hchange]

theorem insertUse_ofState (block : ℕ) (pred : BcOp) :
    (ofState st).insertUse block pred = ofState (st.insertUse block pred) := by
  by_cases h : pred ∈ st.blockUses block
  · rw [Sccp.SccpState.insertUse, if_pos h]
    exact if_pos h
  · rw [Sccp.SccpState.insertUse, if_neg h]
    exact if_neg h

theorem pushFlow_ofState (block : BcOp) :
    (ofState st).pushFlow block = ofState (st.pushFlow block) := by
  by_cases h : block ∈ st.flowWorklistSet
  · rw [Sccp.SccpState.pushFlow, if_pos h]
    exact if_pos h
  · rw [Sccp.SccpState.pushFlow, if_neg h]
    exact if_neg h

theorem initial_ofState : SccpState.initial f = ofState (Sccp.SccpState.initial f) := by
  rw [SccpState.initial, Sccp.SccpState.initial, ← insertUse_ofState, ← insertUse_ofState]
  rfl

theorem visitPhi_ofState : visitPhi f (ofState st) op = ofState (Sccp.visitPhi f st op) := by
  have hfold : ∀ (ops : List BcOp) (l : Sccp.ConstnessLattice),
      ops.foldl (fun fold op => (operandLattice (ofLat st.opConstness) op).merge fold)
        (ofLattice l) =
      ofLattice (ops.foldl (fun fold op =>
        (Sccp.operandLattice st.opConstness op).merge fold) l) := fun ops => by
    induction ops with
    | nil => exact fun _ => rfl
    | cons y ops ih =>
      intro l
      rw [List.foldl_cons, List.foldl_cons, operandLattice_ofLat, ofLattice_merge, ih]
  rw [visitPhi, Sccp.visitPhi, ← setLattice_ofState, phiLattice, ← hfold]
  rfl

theorem visitCapture_ofState :
    visitCapture f (ofState st) inst = ofState (Sccp.visitCapture f st inst) := by
  rw [visitCapture, Sccp.visitCapture]
  cases inst.captured f with
  | none => rfl
  | some src =>
    have hkind : ((ofState st).opConstness src).kind ≠ .notAConstant ↔
        .notAConstant ≠ st.opConstness src := by
      show (ofLattice (st.opConstness src)).kind ≠ .notAConstant ↔ _
      cases st.opConstness src <;> simp [ofLattice, ConstnessLattice.ofKind,
        ConstnessLattice.ofVmConst, ConstnessLattice.ofImm]
    dsimp only
    by_cases hsrc : src.kind = .inst ∨ src.kind = .phi
    · by_cases hne : .notAConstant ≠ st.opConstness src
      · rw [if_pos ⟨hkind.2 hne, hsrc⟩, if_pos hsrc]
        simp only [ofState, Sccp.SccpState.setLattice, if_pos hne, ← ofLat_update]
        rfl
      · -- the value stays, and nothing is put on the list
        rw [if_neg fun h => hne (hkind.1 h.1), if_pos hsrc]
        have heq := not_not.1 hne
        simp only [Sccp.SccpState.setLattice, heq, Function.update_eq_self, ne_eq, not_true,
          if_false]
    · rw [if_neg fun h => hsrc h.2, if_neg hsrc]

theorem visitTarget_ofState (block : BcOp) (target : JumpTarget) :
    visitTarget block (ofState st) target = ofState (Sccp.visitTarget block st target) := by
  rw [visitTarget, Sccp.visitTarget]
  split_ifs
  · rfl
  · rw [insertUse_ofState, pushFlow_ofState]

theorem visitEdge_ofState (branch : Bool) (edge : BcBlockEdge) :
    visitEdge op branch (ofState st) edge = ofState (Sccp.visitEdge op branch st edge) := by
  have huses : (ofState st).blockUses = st.blockUses := rfl
  rw [visitEdge, Sccp.visitEdge, huses]
  split_ifs
  · rfl
  · rw [insertUse_ofState, pushFlow_ofState]
  · rfl

theorem foldl_ofState {α : Type} {visit : SccpState → α → SccpState}
    {visit' : Sccp.SccpState → α → Sccp.SccpState}
    (h : ∀ st a, visit (ofState st) a = ofState (visit' st a)) (l : List α) :
    l.foldl visit (ofState st) = ofState (l.foldl visit' st) := by
  induction l generalizing st with
  | nil => rfl
  | cons a l ih => rw [List.foldl_cons, List.foldl_cons, h, ih]

theorem visitInst_ofState :
    visitInst pow f (ofState st) op = (Sccp.visitInst pow f st op).map ofState := by
  rw [visitInst, Sccp.visitInst]
  simp only [visitCapture_ofState]
  generalize Sccp.visitCapture f st (f.inst op) = st₁
  show ((evaluate pow f st₁.constants (ofLat st₁.opConstness) (f.inst op)).bind _) = _
  rw [evaluate_ofLat]
  cases Sccp.evaluate pow f st₁.constants st₁.opConstness (f.inst op) with
  | none => rfl
  | some r =>
    obtain ⟨l, ks⟩ := r
    show ((jumpTargets f ks (ofLat st₁.opConstness) (f.inst op)).map _) = _
    rw [jumpTargets_ofLat]
    simp only [Option.bind_some, Option.map_map]
    congr 1
    funext r
    have hfold := @foldl_ofState { st₁ with constants := r.2 } _ _ _
      (fun st a => @visitTarget_ofState st (f.inst op).block a) r.1
    show SccpState.setLattice (r.1.foldl (visitTarget (f.inst op).block)
      (ofState { st₁ with constants := r.2 })) op
        ((ofLattice l).merge (ofLattice (st₁.opConstness op))) (f.inst op).uses = _
    rw [hfold, ofLattice_merge, setLattice_ofState]
    rfl

theorem leaveBlock_ofState :
    leaveBlock f (ofState st) op = (Sccp.leaveBlock f st op).map ofState := by
  have hends : endsWithBranch f (ofState st) (f.block op) =
      (Sccp.endsWithBranch f st (f.block op)).map fun r => (r.1, ofState r.2) := by
    rw [endsWithBranch, Sccp.endsWithBranch]
    cases (f.block op).ops.getLast? with
    | none => rfl
    | some last =>
      dsimp only
      split_ifs
      · show (jumpTargets f st.constants (ofLat st.opConstness) (f.inst last)).map _ = _
        rw [jumpTargets_ofLat, Option.map_map]
        rfl
      · rfl
  rw [leaveBlock, Sccp.leaveBlock, hends, Option.map_map, Option.map_map]
  congr 1
  funext r
  have hfold := @foldl_ofState r.2 _ _ _
    (fun st a => @visitEdge_ofState op st r.1 a) (f.block op).successors
  simp only [Function.comp, hfold]
  rfl

/-! ### Runs -/

def ofPlace (p : Place Sccp.SccpState) : Place SccpState where
  state := ofState p.state
  tasks := p.tasks
  inSsa := p.inSsa

theorem perform_ofState (task : Task) :
    perform pow f task (ofState st) = (Sccp.perform pow f task st).map ofState := by
  cases task with
  | phi op => exact congrArg some visitPhi_ofState
  | inst op => exact visitInst_ofState
  | leave block => exact leaveBlock_ofState

/-- **The propagation.**  On stored places it does what it does on places. -/
theorem next_ofPlace (p : Place Sccp.SccpState) :
    (sccpLoops pow f).next f (ofPlace p) = match (Sccp.sccpLoops pow f).next f p with
      | .thrown => .thrown
      | .ended => .ended
      | .goes p' => .goes (ofPlace p') := by
  obtain ⟨st, tasks, inSsa⟩ := p
  cases tasks with
  | cons task tasks =>
    have h := @perform_ofState pow f st task
    simp only [Loops.next, ofPlace, sccpLoops, Sccp.sccpLoops, h]
    cases Sccp.perform pow f task st <;> rfl
  | nil =>
    obtain ⟨ks, lat, uses, flow, seen, ssa⟩ := st
    cases inSsa with
    | true =>
      cases ssa with
      | cons op rest => rfl
      | nil => cases flow <;> rfl
    | false => cases flow <;> rfl

theorem reachable_ofPlace {p : Place SccpState} (h : (sccpLoops pow f).Reachable f p) :
    ∃ p', (Sccp.sccpLoops pow f).Reachable f p' ∧ p = ofPlace p' := by
  refine h.induction (Q := fun p => ∃ p', (Sccp.sccpLoops pow f).Reachable f p' ∧ p = ofPlace p')
    ⟨_, .start, ?_⟩ ?_
  · show (⟨SccpState.initial f, [], false⟩ : Place SccpState) = _
    rw [initial_ofState]
    rfl
  · rintro _ q - ⟨p', hreach, rfl⟩ hstep
    rw [next_ofPlace] at hstep
    cases hnext : (Sccp.sccpLoops pow f).next f p' with
    | goes p'' =>
      rw [hnext] at hstep
      cases hstep
      exact ⟨p'', hreach.goes hnext, rfl⟩
    | _ => rw [hnext] at hstep; cases hstep

/-! ### Empty optionals -/

/-- The instruction that is evaluated for a task. -/
def evaluated (f : BcFunction) : Task → Option BcOp
  | .phi _ => none
  | .inst op => some op
  | .leave block => (f.block block).ops.getLast?.filter (·.kind = .inst)

/-- The instruction compares an immediate boolean with a boolean. -/
def ComparesImm (lat : OpConstness) (inst : BcInst) : Prop :=
  inst.op = .jumpXEqKB ∧ ∃ b, operandLattice lat (inst.arg 0) = .ofImm (.boolean b)

theorem comparesImm_ofLat : ComparesImm (ofLat lat) inst ↔
    inst.op = .jumpXEqKB ∧ ∃ b, Sccp.operandLattice lat (inst.arg 0) = .immConstant (.boolean b) := by
  simp only [ComparesImm, operandLattice_ofLat]
  cases Sccp.operandLattice lat (inst.arg 0) <;>
    simp [ofLattice, ConstnessLattice.ofKind, ConstnessLattice.ofVmConst, ConstnessLattice.ofImm]

theorem evaluateXeqk_none_iff : Sccp.evaluateXeqkCondition f ks lat inst = none ↔
    inst.op = .jumpXEqKB ∧ ∃ b, Sccp.operandLattice lat (inst.arg 0) = .immConstant (.boolean b) := by
  rw [Sccp.evaluateXeqkCondition]
  generalize Sccp.operandLattice lat (inst.arg 0) = x
  generalize inst.op = o
  cases o <;> rcases x with _ | _ | a | (_ | _ | _) <;> simp
  -- a nil is compared with a constant in one of three ways
  split_ifs <;> simp

theorem condition_none_iff {t : Test} {target : BcOp} {onTrue : Bool}
    (ht : test f inst = some (t, target, onTrue)) : Sccp.condition f ks lat inst t = none ↔
    inst.op = .jumpXEqKB ∧ ∃ b, Sccp.operandLattice lat (inst.arg 0) = .immConstant (.boolean b) := by
  cases t with
  | xeqk op => exact evaluateXeqk_none_iff
  | truth op | compare lhs rhs =>
    refine iff_of_false (by simp [Sccp.condition]) fun h => ?_
    simp [test, h.1] at ht

theorem evaluate_none_iff : Sccp.evaluate pow f ks lat inst = none ↔
    inst.op = .jumpXEqKB ∧ ∃ b, Sccp.operandLattice lat (inst.arg 0) = .immConstant (.boolean b) := by
  rw [Sccp.evaluate]
  cases ht : test f inst with
  | some r =>
    obtain ⟨t, target, onTrue⟩ := r
    simp only [Option.map_eq_none_iff]
    exact condition_none_iff ht
  | none =>
    refine iff_of_false ?_ fun h => by simp [test, h.1] at ht
    cases inst.op <;> simp

theorem jumpTargets_none_iff : Sccp.jumpTargets f ks lat inst = none ↔
    inst.op = .jumpXEqKB ∧ ∃ b, Sccp.operandLattice lat (inst.arg 0) = .immConstant (.boolean b) := by
  rw [Sccp.jumpTargets]
  cases ht : test f inst with
  | some r =>
    obtain ⟨t, target, onTrue⟩ := r
    simp only [Option.map_eq_none_iff]
    exact condition_none_iff ht
  | none =>
    refine iff_of_false ?_ fun h => by simp [test, h.1] at ht
    split_ifs
    · simp
    · cases looseTarget inst <;> simp

/-- A `CAPTURE` compares nothing. -/
theorem visitCapture_eq (h : inst.op = .jumpXEqKB) : Sccp.visitCapture f st inst = st := by
  have hnone : inst.captured f = none := by simp [BcInst.captured, h]
  rw [Sccp.visitCapture, hnone]

theorem visitInst_none_iff : Sccp.visitInst pow f st op = none ↔
    (f.inst op).op = .jumpXEqKB ∧
      ∃ b, Sccp.operandLattice st.opConstness ((f.inst op).arg 0) = .immConstant (.boolean b) := by
  have hat : ∀ st₁ : Sccp.SccpState, Sccp.visitCapture f st (f.inst op) = st₁ →
      ((f.inst op).op = .jumpXEqKB ∧ (∃ b, Sccp.operandLattice st₁.opConstness
        ((f.inst op).arg 0) = .immConstant (.boolean b)) ↔
      (f.inst op).op = .jumpXEqKB ∧ ∃ b, Sccp.operandLattice st.opConstness
        ((f.inst op).arg 0) = .immConstant (.boolean b)) := fun st₁ hst₁ =>
    and_congr_right fun hop => by rw [← hst₁, visitCapture_eq hop]
  rw [Sccp.visitInst, ← hat _ rfl]
  generalize Sccp.visitCapture f st (f.inst op) = st₁
  simp only
  cases hev : Sccp.evaluate pow f st₁.constants st₁.opConstness (f.inst op) with
  | none => exact iff_of_true rfl (evaluate_none_iff.1 hev)
  | some r =>
    rw [Option.bind_some]
    simp only [Option.map_eq_none_iff]
    exact jumpTargets_none_iff

theorem leaveBlock_none_iff : Sccp.leaveBlock f st op = none ↔
    ∃ last, evaluated f (.leave op) = some last ∧ (f.inst last).op = .jumpXEqKB ∧
      ∃ b, Sccp.operandLattice st.opConstness ((f.inst last).arg 0) = .immConstant (.boolean b) := by
  rw [Sccp.leaveBlock, Option.map_eq_none_iff, Sccp.endsWithBranch, evaluated]
  cases (f.block op).ops.getLast? with
  | none => simp
  | some last =>
    by_cases hkind : last.kind = .inst
    · simp only [hkind, if_true, Option.map_eq_none_iff, jumpTargets_none_iff, Option.filter_some,
        decide_true, Option.some.injEq, exists_eq_left']
    · simp [hkind]

/-- **Empty optionals.**  The only one that is read is the constant of an immediate boolean that is
compared with a boolean. -/
theorem throws_iff {p : Place SccpState} (h : (sccpLoops pow f).Reachable f p) :
    (sccpLoops pow f).next f p = .thrown ↔ ∃ task tasks op, p.tasks = task :: tasks ∧
      evaluated f task = some op ∧ ComparesImm p.state.opConstness (f.inst op) := by
  obtain ⟨p', -, rfl⟩ := reachable_ofPlace h
  rw [Loops.next_thrown_iff]
  refine exists_congr fun task => exists_congr fun tasks => ?_
  have hperform : (sccpLoops pow f).perform task (ofPlace p').state = none ↔
      ∃ op, evaluated f task = some op ∧
        ComparesImm (ofLat p'.state.opConstness) (f.inst op) := by
    show perform pow f task (ofState p'.state) = none ↔ _
    rw [perform_ofState, Option.map_eq_none_iff]
    simp only [comparesImm_ofLat]
    cases task with
    | phi op => simp [Sccp.perform, evaluated]
    | inst op => simp [Sccp.perform, evaluated, visitInst_none_iff]
    | leave block => exact leaveBlock_none_iff
  rw [hperform]
  constructor
  · rintro ⟨htasks, op, hop, hcompares⟩
    exact ⟨op, htasks, hop, hcompares⟩
  · rintro ⟨op, htasks, hop, hcompares⟩
    exact ⟨htasks, op, hop, hcompares⟩

/-- `local x = true; if x == true then end`. -/
def trueIsTrue : BcFunction where
  blocks := [
    { ops := [⟨.inst, 0⟩, ⟨.inst, 1⟩]
      successors := [⟨.branch, ⟨.block, 3⟩⟩, ⟨.fallthrough, ⟨.block, 2⟩⟩] },
    {}, {}, {}]
  instructions := [
    { op := .loadB, block := ⟨.block, 0⟩, ops := [⟨.imm, 0⟩], uses := [⟨.inst, 1⟩] },
    { op := .jumpXEqKB, block := ⟨.block, 0⟩
      ops := [⟨.inst, 0⟩, ⟨.imm, 1⟩, ⟨.block, 3⟩, ⟨.imm, 0⟩] }]
  immediates := [.boolean true, .boolean false]

theorem throws_iff_true : ∃ p, (sccpLoops (fun _ _ => .nan) trueIsTrue).after trueIsTrue 2 = some p ∧
    (sccpLoops (fun _ _ => .nan) trueIsTrue).next trueIsTrue p = .thrown :=
  ⟨_, rfl, (throws_iff (Loops.reachable_after (n := 2) rfl)).2
    ⟨.inst ⟨.inst, 1⟩, _, _, rfl, rfl, rfl, true, rfl⟩⟩

/-- The propagation reads the constant of an immediate. -/
theorem missing_constant_read : ∃ p,
    (sccpLoops (fun _ _ => .nan) trueIsTrue).Reachable trueIsTrue p ∧
    (sccpLoops (fun _ _ => .nan) trueIsTrue).next trueIsTrue p = .thrown :=
  ⟨_, Loops.reachable_after (n := 2) rfl, rfl⟩

end Raw

end Sccp

end Jaci
