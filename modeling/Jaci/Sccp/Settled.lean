import Jaci.Sccp.Settling

/-!
# The propagation ends

The loops end when no step forces a phi below what its operands meet to, and then no visit changes a
lattice value.  A phi that is forced below is raised again by its next visit.

* `propagate_settles` : the loops end;
* `captured_unsettled` : a phi that a visit would change at the end.
-/

namespace Jaci

namespace Sccp

variable {pow : Double → Double → Double} {f : BcFunction} {x : BcOp} {st : SccpState}
  {p : Place SccpState}

/-! ### The end -/

/-- No visit of an instruction or a phi of a visited block changes a lattice value. -/
def Settled (pow : Double → Double → Double) (f : BcFunction) (st : SccpState) : Prop :=
  ∀ b ∈ st.flowWorklistSet,
    (∀ x ∈ (f.block b).phis, (visitPhi f st x).opConstness = st.opConstness) ∧
    ∀ x ∈ (f.block b).ops, ∃ st', visitInst pow f st x = some st' ∧
      st'.opConstness = st.opConstness

theorem settling_initial : Settling pow f (SccpState.initial f) [] := by
  have hwork : ∀ (st : SccpState) (i : ℕ) (b : BcOp), (st.insertUse i b).constants = st.constants ∧
      (st.insertUse i b).opConstness = st.opConstness ∧
      (st.insertUse i b).flowWorklist = st.flowWorklist ∧
      (st.insertUse i b).flowWorklistSet = st.flowWorklistSet ∧
      (st.insertUse i b).ssaWorklist = st.ssaWorklist := fun st i b => by
    rw [SccpState.insertUse]
    split_ifs <;> exact ⟨rfl, rfl, rfl, rfl, rfl⟩
  obtain ⟨hk₁, hl₁, hf₁, hs₁, hw₁⟩ := hwork
    { constants := f.constants, flowWorklist := [f.entryBlock] } f.entryBlock.index f.entryBlock
  obtain ⟨hk, hl, hf, hs, hw⟩ := hwork
    (({ constants := f.constants, flowWorklist := [f.entryBlock] } : SccpState).insertUse
      f.entryBlock.index f.entryBlock) f.exitBlock.index f.exitBlock
  rw [hk₁] at hk
  rw [hl₁] at hl
  rw [hf₁] at hf
  rw [hs₁] at hs
  rw [hw₁] at hw
  refine ⟨⟨?_, fun x c hc => ?_, fun x i hi => ?_⟩, fun x hx => .inl ?_, fun b hb => ?_, by simp,
    fun x hx => ?_, fun b hb => ?_, fun i hi => ?_⟩
  · rw [SccpState.initial, hk]
  · rw [SccpState.initial, hl] at hc
    cases hc
  · rw [SccpState.initial, hl] at hi
    cases hi
  · rw [SccpState.initial, hl]
  · rw [Begun, SccpState.initial, hs] at hb
    rcases hb with hb | hb <;> cases hb
  · rw [SccpState.initial, hw] at hx
    cases hx
  · rw [SccpState.initial, hf] at hb
    obtain rfl := List.mem_singleton.1 hb
    exact List.mem_append_left _ (List.mem_append_left _ List.mem_cons_self)
  · by_cases hexit : i = f.exitBlock.index
    · exact .inl hexit
    · refine .inr ⟨f.entryBlock, ?_, .inr ?_⟩
      · by_contra hne
        apply hi
        have huses : ∀ (st : SccpState) (j : ℕ) (b : BcOp), i ≠ j →
            (st.insertUse j b).blockUses i = st.blockUses i := fun st j b hij => by
          rw [SccpState.insertUse]
          split_ifs
          · rfl
          · exact Function.update_of_ne hij _ _
        rw [SccpState.initial, huses _ _ _ hexit, huses _ _ _ (Ne.symm hne)]
      · rw [SccpState.initial, hf]
        exact List.mem_singleton_self _

theorem StableAt.visitPhi (hx : x.kind = .phi)
    (h : StableAt pow f st.constants st.opConstness x) : visitPhi f st x = st := by
  rw [StableAt, if_neg (by rw [hx]; decide)] at h
  rw [Sccp.visitPhi, ← h, setLattice_self]

theorem StableAt.visitInst (hx : x.kind = .inst)
    (h : StableAt pow f st.constants st.opConstness x) :
    ∃ st', visitInst pow f st x = some st' ∧ st'.opConstness = st.opConstness := by
  rw [StableAt, if_pos hx] at h
  obtain ⟨⟨l, ks, hev, hbelow⟩, hcapture⟩ := h
  have hcap : visitCapture f st (f.inst x) = st := by
    rw [visitCapture]
    cases hsrc : (f.inst x).captured f with
    | none => rfl
    | some src =>
      dsimp only
      split_ifs with hk
      · rw [← hcapture src hsrc hk, setLattice_self]
      · rfl
  cases hjt : jumpTargets f ks st.opConstness (f.inst x) with
  | none =>
    -- what is evaluated without a result has no targets, and the other way round
    rw [Raw.evaluate_none_iff.2 (Raw.jumpTargets_none_iff.1 hjt)] at hev
    cases hev
  | some r =>
    obtain ⟨ts, ks'⟩ := r
    simp only [Sccp.visitInst, hcap, hev, Option.bind_some, hjt, Option.map_some,
      merge_eq_right hbelow]
    refine ⟨_, rfl, ?_⟩
    have hlat := (extends_visitTargets { st with constants := ks' } [] (f.inst x).block ts).1.lattice
    exact (congrArg (Function.update · x (st.opConstness x)) hlat).trans
      (Function.update_eq_self _ _)

theorem Settling.settled (hwf : WellFormed f) (h : Settling pow f st [])
    (hssa : st.ssaWorklist = []) : Settled pow f st := by
  have hstable : ∀ b ∈ st.flowWorklistSet, ∀ x, Item f b x →
      StableAt pow f st.constants st.opConstness x := fun b hb x hx => by
    refine (h.stable b (.inl hb) x hx).resolve_right ?_
    rintro (hw | hw)
    · rw [hssa] at hw
      cases hw
    · cases hw
  refine fun b hb => ⟨fun x hx => ?_, fun x hx => ?_⟩
  · rw [(hstable b hb x (.inl hx)).visitPhi (hwf.phis b x hx)]
  · exact (hstable b hb x (.inr hx)).visitInst (hwf.ops b x hx).1

/-- A step that settles does not throw. -/
theorem StepSettles.not_thrown (h : StepSettles pow f p) : (sccpLoops pow f).next f p ≠ .thrown := by
  intro hthrown
  obtain ⟨task, tasks, htasks, hrun⟩ := Loops.next_thrown_iff.1 hthrown
  have hnone : perform pow f task p.state = none := hrun
  cases task with
  | phi x => cases hnone
  | inst x => exact h.compares _ _ x htasks rfl (Raw.visitInst_none_iff.1 hnone)
  | leave b =>
    obtain ⟨last, hlast, hcompares⟩ := Raw.leaveBlock_none_iff.1 hnone
    exact h.compares _ _ last htasks hlast hcompares

/-- **The propagation ends.**  No visit of what is in a visited block changes a lattice value then,
and every block that was reached was visited. -/
theorem propagate_settles (hwf : WellFormed f)
    (hok : ∀ p, (sccpLoops pow f).Reachable f p → StepSettles pow f p) :
    ∃ n p, (sccpLoops pow f).after f n = some p ∧ (sccpLoops pow f).next f p = .ended ∧
      Settled pow f p.state ∧ ∀ i, p.state.blockUses i ≠ [] → i = f.exitBlock.index ∨
        ∃ b ∈ p.state.flowWorklistSet, b.index = i := by
  have hends : ∀ w n p, w = workLeft f p → (sccpLoops pow f).after f n = some p →
      Settling pow f p.state p.tasks → ∃ n p, (sccpLoops pow f).after f n = some p ∧
        (sccpLoops pow f).next f p = .ended ∧ Settling pow f p.state p.tasks := by
    intro w
    induction w using less_wf.induction with
    | _ w ih =>
      rintro n p rfl hafter hset
      have hstep := hok p (Loops.reachable_after hafter)
      cases hnext : (sccpLoops pow f).next f p with
      | thrown => exact absurd hnext hstep.not_thrown
      | ended => exact ⟨n, p, hafter, hnext, hset⟩
      | goes p' =>
        obtain ⟨hset', hless⟩ := hset.next hwf hstep hnext
        refine ih _ hless (n + 1) p' rfl ?_ hset'
        rw [Loops.after, hafter, Option.bind_some, hnext]
  obtain ⟨n, p, hafter, hnext, hset⟩ := hends _ 0 { state := SccpState.initial f } rfl rfl
    settling_initial
  obtain ⟨htasks, -, hssa, hflow⟩ := Loops.next_ended_iff.1 hnext
  rw [htasks] at hset
  refine ⟨n, p, hafter, hnext, hset.settled hwf hssa, fun i hi => ?_⟩
  refine (hset.reached i hi).imp_right fun ⟨b, hat, hb⟩ => ?_
  rcases hb with (hb | hb) | hb
  · exact ⟨b, hb, hat⟩
  · cases hb
  · have hflow' : p.state.flowWorklist = [] := hflow
    rw [hflow'] at hb
    cases hb

/-- A graph without the instructions that `StepSettles` is about. -/
theorem stepSettles_of_instructions (h : ∀ inst ∈ f.instructions,
    inst.op ≠ .jumpXEqKB ∧ inst.op ≠ .capture ∧ ¬ inst.op.isArith) (p : Place SccpState) :
    StepSettles pow f p := by
  have hinst : ∀ op, (f.inst op).op ≠ .jumpXEqKB ∧ (f.inst op).op ≠ .capture ∧
      ¬ (f.inst op).op.isArith := fun op => by
    rw [BcFunction.inst]
    cases hget : f.instructions[op.index]? with
    | none => exact ⟨by simp, by simp, by simp [LuauOpcode.isArith]⟩
    | some inst => exact h inst (List.mem_of_getElem? hget)
  refine ⟨fun _ _ op _ _ h => (hinst op).1 h.1, fun op _ src _ hsrc _ => ?_,
    fun op _ _ h => absurd h.1 (hinst op).2.2⟩
  rw [BcInst.captured, if_neg fun h => (hinst op).2.1 h.1] at hsrc
  cases hsrc

/-- What the machine takes from elsewhere. -/
structure Vm where
  pow : Double → Double → Double
  /-- The components of a vector, as the machine stores them. -/
  vec : List Double → List Double

/-- A graph is well-formed if its lists are. -/
theorem wellFormed_of_lists (hinst : ∀ inst ∈ f.instructions, InstWf f inst)
    (huses : ∀ n < f.instructions.length, ∀ x ∈ (f.inst ⟨.inst, n⟩).ops,
      x.kind = .inst ∨ x.kind = .phi → ⟨.inst, n⟩ ∈ f.usesOf x)
    (huses' : ∀ n < f.phis.length, ∀ x ∈ (f.phi ⟨.phi, n⟩).ops,
      x.kind = .inst ∨ x.kind = .phi → ⟨.phi, n⟩ ∈ f.usesOf x)
    (hops : ∀ n < f.blocks.length, ∀ i ∈ (f.block ⟨.block, n⟩).ops,
      i.kind = .inst ∧ (f.inst i).block.index = n)
    (hphis : ∀ b ∈ f.blocks, ∀ p ∈ b.phis, p.kind = .phi) : WellFormed f where
  inst i := by
    rw [BcFunction.inst]
    cases h : f.instructions[i.index]? with
    | some inst => exact hinst inst (List.mem_of_getElem? h)
    | none => constructor <;> simp
  uses x y hx hy hmem := by
    rw [BcFunction.opsOf] at hmem
    split_ifs at hmem with hk
    · obtain ⟨kind, n⟩ := y
      obtain rfl : kind = .inst := hk
      by_cases hn : n < f.instructions.length
      · exact huses n hn x hmem hx
      · simp [BcFunction.inst, List.getElem?_eq_none (not_lt.1 hn)] at hmem
    · obtain ⟨kind, n⟩ := y
      obtain rfl : kind = .phi := hy.resolve_left hk
      by_cases hn : n < f.phis.length
      · exact huses' n hn x hmem hx
      · simp [BcFunction.phi, List.getElem?_eq_none (not_lt.1 hn)] at hmem
  ops b i hi := by
    by_cases hn : b.index < f.blocks.length
    · exact hops b.index hn i hi
    · simp [BcFunction.block, List.getElem?_eq_none (not_lt.1 hn)] at hi
  phis b p hp := by
    rw [BcFunction.block] at hp
    cases h : f.blocks[b.index]? with
    | some block =>
      rw [h] at hp
      exact hphis block (List.mem_of_getElem? h) p hp
    | none => simp [h] at hp

/-- `if 3 < 5 then return nil == false end`. -/
def nilIsFalse : BcFunction where
  blocks := [
    { ops := [⟨.inst, 0⟩, ⟨.inst, 1⟩, ⟨.inst, 2⟩]
      successors := [⟨.branch, ⟨.block, 3⟩⟩, ⟨.fallthrough, ⟨.block, 2⟩⟩] },
    {},
    { ops := [⟨.inst, 3⟩] },
    { ops := [⟨.inst, 4⟩, ⟨.inst, 5⟩, ⟨.inst, 6⟩]
      successors := [⟨.branch, ⟨.block, 4⟩⟩, ⟨.fallthrough, ⟨.block, 5⟩⟩] },
    { ops := [⟨.inst, 7⟩] },
    { ops := [⟨.inst, 8⟩] }]
  instructions := [
    { op := .loadN, block := ⟨.block, 0⟩, ops := [⟨.imm, 0⟩], uses := [⟨.inst, 2⟩] },
    { op := .loadN, block := ⟨.block, 0⟩, ops := [⟨.imm, 1⟩], uses := [⟨.inst, 2⟩] },
    { op := .jumpIfLt, block := ⟨.block, 0⟩, ops := [⟨.inst, 0⟩, ⟨.inst, 1⟩, ⟨.block, 3⟩] },
    { op := .ret, block := ⟨.block, 2⟩ },
    { op := .loadNil, block := ⟨.block, 3⟩, uses := [⟨.inst, 6⟩] },
    { op := .loadB, block := ⟨.block, 3⟩, ops := [⟨.imm, 2⟩], uses := [⟨.inst, 6⟩] },
    { op := .jumpIfEq, block := ⟨.block, 3⟩, ops := [⟨.inst, 4⟩, ⟨.inst, 5⟩, ⟨.block, 4⟩] },
    { op := .ret, block := ⟨.block, 4⟩ },
    { op := .ret, block := ⟨.block, 5⟩ }]
  immediates := [.int 3, .int 5, .boolean false]
  regs := [(⟨.inst, 0⟩, 0), (⟨.inst, 1⟩, 1), (⟨.inst, 4⟩, 0), (⟨.inst, 5⟩, 1)]

theorem nilIsFalse_wellFormed : WellFormed nilIsFalse := by
  refine wellFormed_of_lists ?_ (by decide) (by decide) (by decide) (by decide)
  intro inst h
  simp only [nilIsFalse, List.mem_cons, List.not_mem_nil, or_false] at h
  rcases h with rfl | rfl | rfl | rfl | rfl | rfl | rfl | rfl | rfl
  case inl | inr.inl =>
    exact ⟨by simp, by simp, fun _ => ⟨_, rfl, by decide⟩, by simp, by simp⟩
  case inr.inr.inr.inr.inr.inl =>
    exact ⟨by simp, fun _ => ⟨_, rfl⟩, by simp, by simp, by simp⟩
  all_goals constructor <;> simp

def plainVm : Vm := ⟨fun _ _ => .nan, id⟩

/-- It applies to a graph with two comparisons. -/
theorem propagate_settles_comparisons :
    ∃ n p, (sccpLoops plainVm.pow nilIsFalse).after nilIsFalse n = some p ∧
      (sccpLoops plainVm.pow nilIsFalse).next nilIsFalse p = .ended ∧
      Settled plainVm.pow nilIsFalse p.state ∧
      ∀ i, p.state.blockUses i ≠ [] → i = nilIsFalse.exitBlock.index ∨
        ∃ b ∈ p.state.flowWorklistSet, b.index = i :=
  propagate_settles nilIsFalse_wellFormed fun p _ => stepSettles_of_instructions (by decide) p

/-! ### A captured phi -/

/-- `local x = 5 if c then x = 5 end return function() x = 6 end`. -/
def capturedPhi : BcFunction where
  blocks := [
    { ops := [⟨.inst, 0⟩, ⟨.inst, 1⟩]
      successors := [⟨.branch, ⟨.block, 3⟩⟩, ⟨.fallthrough, ⟨.block, 2⟩⟩] },
    {},
    { ops := [⟨.inst, 2⟩], successors := [⟨.fallthrough, ⟨.block, 3⟩⟩] },
    { phis := [⟨.phi, 0⟩], ops := [⟨.inst, 3⟩, ⟨.inst, 4⟩, ⟨.inst, 5⟩] }]
  instructions := [
    { op := .loadN, block := ⟨.block, 0⟩, ops := [⟨.imm, 0⟩], uses := [⟨.phi, 0⟩] },
    { op := .jumpIfNot, block := ⟨.block, 0⟩, ops := [⟨.vmReg, 0⟩, ⟨.block, 3⟩] },
    { op := .loadN, block := ⟨.block, 2⟩, ops := [⟨.imm, 0⟩], uses := [⟨.phi, 0⟩] },
    { op := .other 19, block := ⟨.block, 3⟩, uses := [⟨.inst, 5⟩] },
    { op := .capture, block := ⟨.block, 3⟩, ops := [⟨.imm, 1⟩, ⟨.phi, 0⟩] },
    { op := .ret, block := ⟨.block, 3⟩, ops := [⟨.inst, 3⟩] }]
  immediates := [.int 5, .int 1]
  phis := [{ ops := [⟨.inst, 0⟩, ⟨.inst, 2⟩], uses := [⟨.inst, 4⟩] }]

theorem after_capturedPhi : ∃ p,
    (sccpLoops (fun _ _ => .nan) capturedPhi).after capturedPhi 33 = some p ∧
      (sccpLoops (fun _ _ => .nan) capturedPhi).next capturedPhi p = .ended ∧
      (⟨.block, 3⟩ : BcOp) ∈ p.state.flowWorklistSet ∧
      p.state.opConstness ⟨.phi, 0⟩ = .notAConstant ∧
      (visitPhi capturedPhi p.state ⟨.phi, 0⟩).opConstness ⟨.phi, 0⟩ = .immConstant (.int 5) :=
  ⟨_, rfl, rfl, by decide, rfl, rfl⟩

/-- The variable may change, but it is a constant for the next visit. -/
theorem captured_unsettled : WellFormed capturedPhi ∧
    ∃ n p, (sccpLoops (fun _ _ => .nan) capturedPhi).after capturedPhi n = some p ∧
      (sccpLoops (fun _ _ => .nan) capturedPhi).next capturedPhi p = .ended ∧
      ¬ Settled (fun _ _ => .nan) capturedPhi p.state := by
  refine ⟨wellFormed_of_lists ?_ (by decide) (by decide) (by decide) (by decide), ?_⟩
  · intro inst h
    simp only [capturedPhi, List.mem_cons, List.not_mem_nil, or_false] at h
    rcases h with rfl | rfl | rfl | rfl | rfl | rfl
    case inl | inr.inr.inl => exact ⟨by simp, by simp, fun _ => ⟨_, rfl, by decide⟩, by simp, by simp⟩
    all_goals constructor <;> simp
  · obtain ⟨p, hafter, hended, hblock, hbefore, hvisit⟩ := after_capturedPhi
    refine ⟨33, p, hafter, hended, fun hsettled => ?_⟩
    rw [(hsettled _ hblock).1 ⟨.phi, 0⟩ (by decide), hbefore] at hvisit
    cases hvisit

end Sccp

end Jaci
