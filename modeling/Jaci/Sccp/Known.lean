import Jaci.Sccp.Propagate

/-!
# What the lattice says

A lattice value that is a constant is computed from constants: those of the table, or the immediate
ones.

* `Known`, `evaluate_known` : what holds of the lattice values, and that an evaluation keeps it;
* `condition_congr` : a condition depends on the constants of its operands only;
* `WellFormed` : the constants are as the instructions expect them, and the lists of uses complete;
* `Extends` : what the targets of a jump put on the lists of work.
-/

namespace Jaci

namespace Sccp

/-- The arithmetic opcodes. -/
def LuauOpcode.isArith : LuauOpcode → Bool
  | .add | .sub | .mul | .div | .mod | .pow | .iDiv => true
  | _ => false

/-! ### What is computed from constants -/

/-- What is computed from constants only: those of the table, or the immediate ones.  A jump on a
known condition counts as an immediate. -/
inductive Derived (f : BcFunction) : Bool → BcOp → Prop where
  | vm {x} : (f.inst x).op = .loadK ∨ (f.inst x).op = .loadKX ∨ (f.inst x).op = .loadNil →
    Derived f false x
  | imm {x} : (f.inst x).op = .loadB ∨ (f.inst x).op = .loadN ∨ (test f (f.inst x)).isSome →
    Derived f true x
  | arith {x r} : (f.inst x).op.isArith → Derived f r ((f.inst x).arg 0) →
    Derived f r ((f.inst x).arg 1) → Derived f r x
  | move {x r} : (f.inst x).op = .move → Derived f r ((f.inst x).arg 0) → Derived f r x
  | phi {x y r} : x.kind = .phi → y ∈ (f.phi x).ops → Derived f r y → Derived f r x

variable {f : BcFunction} {ks ks' : List BcVmConst} {lat lat' : OpConstness} {inst : BcInst}
  {op x : BcOp} {l : ConstnessLattice} {onTrue : Bool} {t : Test} {tgt : BcOp}
  {pow : Double → Double → Double} {st st' : SccpState} {cur : List BcOp}

/-! ### Constants of the table -/

theorem constOp_of_table (h : ks <+: ks') (hop : op.index < ks.length) :
    constOp ks' op = constOp ks op := by
  obtain ⟨t, rfl⟩ := h
  rw [constOp, constOp, List.getElem?_append_left hop]

theorem findOrAddConst_spec (ks : List BcVmConst) (c : BcVmConst) : ks <+: (findOrAddConst ks c).2 ∧
    (findOrAddConst ks c).1.index < (findOrAddConst ks c).2.length ∧
    (constOp (findOrAddConst ks c).2 (findOrAddConst ks c).1 = c ∨
      ks.find? (·.eqv c) =
        some (constOp (findOrAddConst ks c).2 (findOrAddConst ks c).1)) := by
  rw [findOrAddConst]
  cases h : ks.findIdx? (·.eqv c) with
  | none =>
    refine ⟨List.prefix_append _ _, by simp, .inl ?_⟩
    simp [constOp]
  | some i =>
    obtain ⟨hi, hci, -⟩ := List.findIdx?_eq_some_iff_getElem.1 h
    refine ⟨List.prefix_refl _, hi, .inr ?_⟩
    simp only [constOp, List.getElem?_eq_getElem hi, Option.getD_some]
    rw [List.find?_eq_some_iff_getElem]
    obtain ⟨hi, hci, hlt⟩ := List.findIdx?_eq_some_iff_getElem.1 h
    exact ⟨hci, i, hi, rfl, fun j hj => by simpa using hlt j hj⟩

theorem findOrAddConst_nil :
    constOp (findOrAddConst ks .nil).2 (findOrAddConst ks .nil).1 = .nil := by
  rcases (findOrAddConst_spec ks .nil).2.2 with h | h
  · exact h
  · have heq := List.find?_some h
    generalize constOp (findOrAddConst ks .nil).2 (findOrAddConst ks .nil).1 = c at heq
    cases c <;> simp_all [BcVmConst.eqv]

/-! ### What the lattice says about a value -/

/-- What an analysis says of the constants: they are in the table, and small if they are immediate,
and they are computed from constants. -/
structure Known (f : BcFunction) (ks : List BcVmConst) (lat : OpConstness) : Prop where
  table : f.constants <+: ks
  vm : ∀ x c, lat x = .vmConstant c → Derived f false x ∧ c.index < ks.length
  imm : ∀ x i, lat x = .immConstant i → Derived f true x ∧
    ∀ n, i = .int n → n.natAbs ≤ 2 ^ 15

/-- The constants of an instruction are in the table, and of the kind that it expects. -/
structure InstWf (f : BcFunction) (inst : BcInst) : Prop where
  /-- `LOADK` and `LOADKX`. -/
  loadK : inst.op = .loadK ∨ inst.op = .loadKX → (inst.arg 0).index < f.constants.length
  loadB : inst.op = .loadB → ∃ b, f.immOp (inst.arg 0) = .boolean b
  /-- `LOADN`, whose operand has 16 bits. -/
  loadN : inst.op = .loadN → ∃ n, f.immOp (inst.arg 0) = .int n ∧ n.natAbs ≤ 2 ^ 15
  /-- `JUMPXEQKN`. -/
  xeqkN : inst.op = .jumpXEqKN → (inst.arg 3).index < f.constants.length ∧
    ∃ x, constOp f.constants (inst.arg 3) = .number x
  /-- `JUMPXEQKS`. -/
  xeqkS : inst.op = .jumpXEqKS → (inst.arg 3).index < f.constants.length ∧
    ∃ s, constOp f.constants (inst.arg 3) = .string s

/-! ### Evaluation -/

theorem evaluateXeqk_table {cond : ConditionState}
    (h : evaluateXeqkCondition f ks lat inst = some (cond, ks')) : ks <+: ks' := by
  have hnil : ks <+: (findOrAddConst ks .nil).2 := (findOrAddConst_spec _ _).1
  rw [evaluateXeqkCondition] at h
  split at h
  · split at h
    · simp only at h
      split_ifs at h <;> obtain ⟨-, rfl⟩ := Prod.mk.inj (Option.some.inj h) <;> exact hnil
    all_goals
      obtain ⟨-, rfl⟩ := Prod.mk.inj (Option.some.inj h)
      exact List.prefix_refl _
  case h_5 => obtain ⟨-, rfl⟩ := Prod.mk.inj (Option.some.inj h); exact List.prefix_refl _
  all_goals
    split at h <;> cases h
    all_goals exact List.prefix_refl _

theorem condition_table {cond : ConditionState}
    (h : condition f ks lat inst t = some (cond, ks')) : ks <+: ks' := by
  cases t with
  | xeqk => exact evaluateXeqk_table h
  | truth | compare =>
    obtain ⟨-, rfl⟩ := Prod.mk.inj (Option.some.inj h)
    exact List.prefix_refl _

theorem jumpTargets_table {targets : List JumpTarget}
    (h : jumpTargets f ks lat inst = some (targets, ks')) : ks <+: ks' := by
  rw [jumpTargets] at h
  split at h
  · obtain ⟨⟨cond, ks''⟩, hc, heq⟩ := Option.map_eq_some_iff.1 h
    obtain ⟨-, rfl⟩ := Prod.mk.inj heq
    exact condition_table hc
  · split_ifs at h
    · obtain ⟨-, rfl⟩ := Prod.mk.inj (Option.some.inj h)
      exact List.prefix_refl _
    · split at h <;>
      · obtain ⟨-, rfl⟩ := Prod.mk.inj (Option.some.inj h)
        exact List.prefix_refl _

/-- What holds of the lattice value of an instruction. -/
structure LatticeOk (f : BcFunction) (ks : List BcVmConst) (x : BcOp) (l : ConstnessLattice) :
    Prop where
  vm : ∀ c, l = .vmConstant c → Derived f false x ∧ c.index < ks.length
  imm : ∀ i, l = .immConstant i → Derived f true x ∧ ∀ n, i = .int n → n.natAbs ≤ 2 ^ 15

theorem LatticeOk.trivial (h1 : ∀ c, l ≠ .vmConstant c) (h2 : ∀ i, l ≠ .immConstant i) :
    LatticeOk f ks x l := ⟨fun c h => absurd h (h1 c), fun i h => absurd h (h2 i)⟩

theorem LatticeOk.notAConstant : LatticeOk f ks x .notAConstant :=
  .trivial (by simp) (by simp)

theorem LatticeOk.undetermined : LatticeOk f ks x .undetermined :=
  .trivial (by simp) (by simp)

theorem LatticeOk.mono (h : LatticeOk f ks x l) (hks : ks <+: ks') : LatticeOk f ks' x l :=
  ⟨fun c hc => ⟨(h.vm c hc).1, (h.vm c hc).2.trans_le hks.length_le⟩, h.imm⟩

theorem Known.lattice (h : Known f ks lat) : LatticeOk f ks x (lat x) := ⟨h.vm x, h.imm x⟩

theorem Known.operand (h : Known f ks lat) : LatticeOk f ks x (operandLattice lat x) := by
  rw [operandLattice]
  split_ifs
  · exact .notAConstant
  · exact h.lattice

theorem LatticeOk.merge {l' : ConstnessLattice} (h : LatticeOk f ks x l)
    (h' : LatticeOk f ks x l') : LatticeOk f ks x (l.merge l') := by
  rw [ConstnessLattice.merge]
  split_ifs
  · exact h'
  · exact h
  · exact h
  · exact .notAConstant

theorem evaluateConsts_eq_some {a b c : BcOp} {o : LuauOpcode}
    (h : evaluateConsts pow ks a b o = some (c, ks')) :
    ∃ p q, constOp ks a = .number p ∧ constOp ks b = .number q ∧
      findOrAddConst ks (.number (arith pow o p q)) = (c, ks') := by
  rw [evaluateConsts] at h
  split at h
  · rename_i p q hp hq
    split_ifs at h
    exact ⟨p, q, hp, hq, Option.some.inj h⟩
  · cases h

theorem evaluateArith_known (pow : Double → Double → Double) (hlat : Known f ks lat)
    (hop : (f.inst x).op.isArith) :
    ks <+: (evaluateArith pow ks lat (f.inst x)).2 ∧
      LatticeOk f (evaluateArith pow ks lat (f.inst x)).2 x
        (evaluateArith pow ks lat (f.inst x)).1 := by
  have h0 := hlat.operand (x := (f.inst x).arg 0)
  have h1 := hlat.operand (x := (f.inst x).arg 1)
  rw [evaluateArith]
  generalize operandLattice lat ((f.inst x).arg 0) = l0 at h0
  generalize operandLattice lat ((f.inst x).arg 1) = l1 at h1
  split
  · split_ifs
    · exact ⟨List.prefix_refl _, .notAConstant⟩
    · exact ⟨List.prefix_refl _, .notAConstant⟩
    · split
      · split_ifs with hr
        · exact ⟨List.prefix_refl _, .notAConstant⟩
        · refine ⟨List.prefix_refl _, by simp, fun i hi => ⟨.arith hop (h0.imm _ rfl).1
            (h1.imm _ rfl).1, fun n hn => ?_⟩⟩
          obtain rfl := ConstnessLattice.immConstant.inj hi
          obtain rfl := BcImm.int.inj hn
          norm_num
          omega
      · exact ⟨List.prefix_refl _, .notAConstant⟩
  · split
    · rename_i c ks' heq
      obtain ⟨p, q, -, -, hadd⟩ := evaluateConsts_eq_some heq
      have hspec := findOrAddConst_spec ks (.number (arith pow (f.inst x).op p q))
      rw [hadd] at hspec
      refine ⟨hspec.1, fun d hd => ⟨.arith hop (h0.vm _ rfl).1 (h1.vm _ rfl).1, ?_⟩, by simp⟩
      obtain rfl := ConstnessLattice.vmConstant.inj hd
      exact hspec.2.1
    · exact ⟨List.prefix_refl _, .notAConstant⟩
  · exact ⟨List.prefix_refl _, .undetermined⟩
  · exact ⟨List.prefix_refl _, .notAConstant⟩

/-- The lattice value of an instruction is computed from constants if it is one. -/
theorem evaluate_known (hwf : InstWf f (f.inst x)) (hlat : Known f ks lat)
    (h : evaluate pow f ks lat (f.inst x) = some (l, ks')) : ks <+: ks' ∧ LatticeOk f ks' x l := by
  rw [evaluate] at h
  split at h
  case h_1 t tgt onTrue ht =>
    obtain ⟨⟨cond, ks''⟩, hc, heq⟩ := Option.map_eq_some_iff.1 h
    have hks := condition_table hc
    simp only at heq
    split_ifs at heq
    · obtain ⟨rfl, rfl⟩ := Prod.mk.inj heq
      refine ⟨hks, ?_⟩
      rw [unknownConditionConstness]
      split_ifs
      · exact .notAConstant
      · exact .undetermined
    · obtain ⟨rfl, rfl⟩ := Prod.mk.inj heq
      refine ⟨hks, by simp, fun i hi => ⟨.imm (.inr (.inr (by rw [ht]; rfl))), fun n hn => ?_⟩⟩
      rw [← ConstnessLattice.immConstant.inj hi] at hn
      cases hn
  case h_2 =>
    split at h
    case h_1 hop | h_2 hop =>
      obtain ⟨rfl, rfl⟩ := Prod.mk.inj (Option.some.inj h)
      refine ⟨List.prefix_refl _, fun c hc => ?_, by simp⟩
      obtain rfl := ConstnessLattice.vmConstant.inj hc
      exact ⟨.vm (by simp [hop]), (hwf.loadK (by simp [hop])).trans_le hlat.table.length_le⟩
    case h_3 hop =>
      obtain ⟨b, hb⟩ := hwf.loadB hop
      obtain ⟨rfl, rfl⟩ := Prod.mk.inj (Option.some.inj h)
      refine ⟨List.prefix_refl _, by simp, fun i hi => ⟨.imm (.inl hop), fun n hn => ?_⟩⟩
      rw [← ConstnessLattice.immConstant.inj hi, hb] at hn
      cases hn
    case h_4 hop =>
      obtain ⟨k, hk, hsmall⟩ := hwf.loadN hop
      obtain ⟨rfl, rfl⟩ := Prod.mk.inj (Option.some.inj h)
      refine ⟨List.prefix_refl _, by simp, fun i hi => ⟨.imm (.inr (.inl hop)), fun n hn => ?_⟩⟩
      rw [← ConstnessLattice.immConstant.inj hi, hk] at hn
      rwa [← BcImm.int.inj hn]
    case h_5 hop =>
      obtain ⟨rfl, rfl⟩ := Prod.mk.inj (Option.some.inj h)
      refine ⟨(findOrAddConst_spec _ _).1, fun c hc => ?_, by simp⟩
      obtain rfl := ConstnessLattice.vmConstant.inj hc
      exact ⟨.vm (by simp [hop]), (findOrAddConst_spec _ _).2.1⟩
    case h_13 hop =>
      obtain ⟨rfl, rfl⟩ := Prod.mk.inj (Option.some.inj h)
      have hx := hlat.operand (x := (f.inst x).arg 0)
      exact ⟨List.prefix_refl _, fun c hc => ⟨.move hop (hx.vm c hc).1, (hx.vm c hc).2⟩,
        fun i hi => ⟨.move hop (hx.imm i hi).1, (hx.imm i hi).2⟩⟩
    case h_14 =>
      obtain ⟨rfl, rfl⟩ := Prod.mk.inj (Option.some.inj h)
      exact ⟨List.prefix_refl _, .notAConstant⟩
    all_goals
      rename_i hop
      have := evaluateArith_known pow hlat (x := x) (by rw [hop]; rfl)
      rw [Option.some.inj h] at this
      exact this

theorem test_eq_none (h : inst.op.isArith ∨ inst.op = .loadK ∨ inst.op = .loadKX ∨
    inst.op = .loadB ∨ inst.op = .loadN ∨ inst.op = .loadNil ∨ inst.op = .move ∨
    inst.op = .jump ∨ inst.op = .jumpBack ∨ inst.op = .capture ∨ inst.op = .closeUpvals ∨
    (looseTarget inst).isSome ∨ ∃ code, inst.op = .other code) : test f inst = none := by
  rw [test]
  split <;> simp_all [LuauOpcode.isArith, looseTarget]

/-! ### Conditions -/

def ConstnessLattice.isConst : ConstnessLattice → Bool
  | vmConstant _ | immConstant _ => true
  | _ => false

/-- A condition depends on the constants of its operands only. -/
theorem condition_congr (hwf : InstWf f inst) (htable : f.constants <+: ks) (hks : ks <+: ks')
    (ht : test f inst = some (t, tgt, onTrue))
    (hlat : ∀ op ∈ t.ops, operandLattice lat' op = operandLattice lat op)
    (hvalid : ∀ op ∈ t.ops, ∀ c, operandLattice lat op = .vmConstant c → c.index < ks.length) :
    (condition f ks' lat' inst t).map (·.1) = (condition f ks lat inst t).map (·.1) := by
  cases t with
  | truth a =>
    have ha := hvalid a (by simp [Test.ops])
    simp only [condition, evaluateCondition, hlat a (by simp [Test.ops]), Option.map_some,
      Option.some.injEq]
    generalize operandLattice lat a = l at ha
    cases l with
    | vmConstant c => simp only [constOp_of_table hks (ha c rfl)]
    | immConstant i => cases i <;> rfl
    | _ => rfl
  | compare a b =>
    have ha := hvalid a (by simp [Test.ops])
    have hb := hvalid b (by simp [Test.ops])
    simp only [condition, evaluateComparisonCondition, hlat a (by simp [Test.ops]),
      hlat b (by simp [Test.ops]), Option.map_some, Option.some.injEq]
    have hord : ∀ {l}, (∀ c, l = .vmConstant c → c.index < ks.length) →
        isOrderableLattice ks' l = isOrderableLattice ks l := by
      intro l h
      cases l with
      | vmConstant c => rw [isOrderableLattice, isOrderableLattice, constOp_of_table hks (h c rfl)]
      | immConstant i => cases i <;> rfl
      | _ => rfl
    generalize operandLattice lat a = l at ha
    generalize operandLattice lat b = l' at hb
    rw [hord ha, hord hb]
    cases l with
    | vmConstant c =>
      have hc := constOp_of_table hks (ha c rfl)
      cases l' with
      | vmConstant d => simp only [hc, constOp_of_table hks (hb d rfl)]
      | immConstant i => simp only [hc]
      | _ => rfl
    | immConstant i =>
      cases l' with
      | vmConstant d => cases i <;> simp only [constOp_of_table hks (hb d rfl)]
      | immConstant j => cases i <;> cases j <;> rfl
      | _ => cases i <;> rfl
    | _ => rfl
  | xeqk a =>
    obtain rfl : a = inst.arg 0 := by
      rw [test] at ht
      split at ht <;> simp_all
    have ha := hvalid (inst.arg 0) (by simp [Test.ops])
    simp only [condition, evaluateXeqkCondition, hlat (inst.arg 0) (by simp [Test.ops])]
    generalize operandLattice lat (inst.arg 0) = l at ha
    have hxn : inst.op = .jumpXEqKN → constOp ks' (inst.arg 3) = constOp ks (inst.arg 3) := fun h =>
      constOp_of_table hks ((hwf.xeqkN h).1.trans_le htable.length_le)
    have hxs : inst.op = .jumpXEqKS → constOp ks' (inst.arg 3) = constOp ks (inst.arg 3) := fun h =>
      constOp_of_table hks ((hwf.xeqkS h).1.trans_le htable.length_le)
    cases l with
    | vmConstant c =>
      have hc := constOp_of_table hks (ha c rfl)
      split
      · simp only [hc, findOrAddConst_nil]
        split_ifs <;> rfl
      · simp only [hc, Option.map_some]
      · rename_i h
        simp only [hc, hxn h, Option.map_some]
      · rename_i h
        simp only [hc, hxs h, Option.map_some]
      · rfl
    | immConstant i =>
      split
      · rfl
      · cases i <;> rfl
      · rename_i h
        cases i <;> simp only [hxn h, Option.map_some]
      · rfl
      · rfl
    | _ => split <;> rfl

theorem merge_eq_of_isConst {l' : ConstnessLattice} (h : (l.merge l').isConst) :
    l = .undetermined ∧ l.merge l' = l' ∨ l.merge l' = l := by
  rw [ConstnessLattice.merge] at h ⊢
  split_ifs at h ⊢ with h1 h2 h3
  · exact .inl ⟨h1, rfl⟩
  · exact .inr rfl
  · exact .inr rfl
  · cases h

/-! ### Graphs -/

/-- A graph whose constants are as its instructions expect them, and whose lists of uses are
complete. -/
structure WellFormed (f : BcFunction) : Prop where
  inst : ∀ i, InstWf f (f.inst i)
  uses : ∀ x y, x.kind = .inst ∨ x.kind = .phi → y.kind = .inst ∨ y.kind = .phi →
    x ∈ f.opsOf y → y ∈ f.usesOf x
  ops : ∀ b, ∀ i ∈ (f.block b).ops, i.kind = .inst ∧ (f.inst i).block.index = b.index
  phis : ∀ b, ∀ p ∈ (f.block b).phis, p.kind = .phi

/-! ### Phis -/

theorem exists_of_foldl (ops : List BcOp) (m : ConstnessLattice)
    (h : (ops.foldl (fun fold op => (operandLattice lat op).merge fold) m).isConst) :
    ops.foldl (fun fold op => (operandLattice lat op).merge fold) m = m ∨
      ∃ y ∈ ops, operandLattice lat y =
        ops.foldl (fun fold op => (operandLattice lat op).merge fold) m := by
  induction ops generalizing m with
  | nil => exact .inl rfl
  | cons z ops ih =>
    rw [List.foldl_cons] at h ⊢
    rcases ih _ h with h1 | ⟨y, hy, h1⟩
    · rw [h1] at h ⊢
      rcases merge_eq_of_isConst h with ⟨-, h2⟩ | h2
      · exact .inl h2
      · exact .inr ⟨z, List.mem_cons_self, h2.symm⟩
    · exact .inr ⟨y, List.mem_cons_of_mem _ hy, h1⟩

theorem exists_of_phiLattice {p : BcPhi} (h : (phiLattice lat p).isConst) :
    ∃ y ∈ p.ops, operandLattice lat y = phiLattice lat p := by
  rcases exists_of_foldl p.ops .undetermined h with h1 | h1
  · rw [phiLattice, h1] at h
    cases h
  · exact h1

theorem phiLattice_known (hlat : Known f ks lat) (hx : x.kind = .phi) :
    LatticeOk f ks x (phiLattice lat (f.phi x)) := by
  refine ⟨fun c hc => ?_, fun i hi => ?_⟩
  · obtain ⟨y, hy, hly⟩ := exists_of_phiLattice (p := f.phi x) (by rw [hc]; rfl)
    obtain ⟨hd, hindex⟩ := (hlat.operand (x := y)).vm c (hly.trans hc)
    exact ⟨.phi hx hy hd, hindex⟩
  · obtain ⟨y, hy, hly⟩ := exists_of_phiLattice (p := f.phi x) (by rw [hi]; rfl)
    obtain ⟨hd, hsmall⟩ := (hlat.operand (x := y)).imm i (hly.trans hi)
    exact ⟨.phi hx hy hd, hsmall⟩

/-! ### What a visit puts on the lists -/

/-- The blocks that were visited or will be; `cur` are those that are visited now. -/
def Reach (st : SccpState) (cur : List BcOp) (t : BcOp) : Prop :=
  t ∈ st.flowWorklistSet ∨ t ∈ st.flowWorklist ∨ t ∈ cur

/-- Blocks were put on the list of work, and nothing else. -/
structure Extends (st st' : SccpState) : Prop where
  constants : st'.constants = st.constants
  lattice : st'.opConstness = st.opConstness
  visited : st'.flowWorklistSet = st.flowWorklistSet
  ssa : st'.ssaWorklist = st.ssaWorklist
  flow : ∀ t ∈ st.flowWorklist, t ∈ st'.flowWorklist

theorem Extends.refl : Extends st st := ⟨rfl, rfl, rfl, rfl, fun _ h => h⟩

theorem Extends.trans {st'' : SccpState} (h : Extends st st') (h' : Extends st' st'') :
    Extends st st'' :=
  ⟨h'.constants.trans h.constants, h'.lattice.trans h.lattice, h'.visited.trans h.visited,
    h'.ssa.trans h.ssa, fun t ht => h'.flow t (h.flow t ht)⟩

theorem Extends.reached (h : Extends st st') {t : BcOp} (ht : Reach st cur t) : Reach st' cur t :=
  ht.imp (fun h1 => by rwa [h.visited]) fun h1 => h1.imp_left (h.flow t)

theorem extends_insertUse {block : ℕ} {pred : BcOp} : Extends st (st.insertUse block pred) := by
  rw [SccpState.insertUse]
  split_ifs
  · exact .refl
  · exact ⟨rfl, rfl, rfl, rfl, fun _ h => h⟩

theorem extends_pushFlow {t : BcOp} : Extends st (st.pushFlow t) := by
  rw [SccpState.pushFlow]
  split_ifs
  · exact .refl
  · exact ⟨rfl, rfl, rfl, rfl, fun _ h => List.mem_append_left _ h⟩

theorem reach_pushFlow {t : BcOp} : Reach (st.pushFlow t) cur t := by
  rw [SccpState.pushFlow]
  split_ifs with h
  · exact .inl h
  · exact .inr (.inl (List.mem_append_right _ (List.mem_singleton_self t)))

theorem extends_visitTarget {block : BcOp} {e : JumpTarget} :
    Extends st (visitTarget block st e) := by
  rw [visitTarget]
  split_ifs
  · exact .refl
  · exact extends_insertUse.trans extends_pushFlow

theorem extends_visitTargets (st : SccpState) (cur : List BcOp) (block : BcOp)
    (targets : List JumpTarget) :
    Extends st (targets.foldl (visitTarget block) st) ∧ ∀ e ∈ targets, e.dead = false →
      Reach (targets.foldl (visitTarget block) st) cur e.blockOp := by
  induction targets generalizing st with
  | nil => exact ⟨.refl, by simp⟩
  | cons d targets ih =>
    obtain ⟨h1, h2⟩ := ih (visitTarget block st d)
    refine ⟨extends_visitTarget.trans h1, fun e he hlive => ?_⟩
    rcases List.mem_cons.1 he with rfl | he
    · refine h1.reached ?_
      rw [visitTarget, if_neg (by simp [hlive])]
      exact reach_pushFlow
    · exact h2 e he hlive

/-! ### Blocks -/

/-- It is a phi or an instruction of the block. -/
def Item (f : BcFunction) (b x : BcOp) : Prop := x ∈ (f.block b).phis ∨ x ∈ (f.block b).ops

theorem WellFormed.kind (hwf : WellFormed f) {b : BcOp} (h : Item f b x) :
    x.kind = .inst ∨ x.kind = .phi :=
  h.elim (fun h => .inr (hwf.phis b x h)) fun h => .inl (hwf.ops b x h).1

end Sccp

end Jaci
