import Jaci.Sccp.Engaged
import Jaci.Sccp.Known

/-!
# Visits that change nothing

An instruction is evaluated again: the table of constants has grown, but its operands are the same.
It produces what it produced before, unless that is a number that is not equal to itself: then a new
constant is made each time.

* `evaluate_again` : the second evaluation;
* `StableAt` : a visit changes no lattice value;
* `StableAt.constants`, `StableAt.update` : it stays so while the operands do.
-/

namespace Jaci

namespace Sccp

variable {pow : Double → Double → Double} {f : BcFunction} {ks ks' ks₁ : List BcVmConst}
  {lat lat' : OpConstness} {inst : BcInst} {x y : BcOp} {l m : ConstnessLattice}

/-! ### A table that has grown -/

theorem findOrAddConst_again {v : BcVmConst} (hks : ks <+: ks')
    (h : (findOrAddConst ks v).1.index < ks.length ∨ (findOrAddConst ks v).2 <+: ks' ∧ v.eqv v) :
    (findOrAddConst ks' v).1 = (findOrAddConst ks v).1 := by
  unfold findOrAddConst at h ⊢
  cases hfind : ks.findIdx? (·.eqv v) with
  | some i =>
    obtain ⟨t, rfl⟩ := hks
    rw [List.findIdx?_append, hfind]
    rfl
  | none =>
    rw [hfind] at h
    rcases h with h | ⟨⟨t, rfl⟩, hv⟩
    · exact absurd h (lt_irrefl _)
    · -- the constant that was added is the first one that is found
      rw [List.append_assoc, List.findIdx?_append, hfind, List.singleton_append, List.findIdx?_cons,
        if_pos hv]
      simp

theorem number_eqv_self {r : Double} (h : r ≠ .nan) : (BcVmConst.number r).eqv (.number r) := by
  show r.feq r = true
  cases r with
  | nan => exact absurd rfl h
  | _ => simp [Double.feq]

/-- The operands are known numbers whose result is not a number. -/
def FoldsNan (pow : Double → Double → Double) (ks : List BcVmConst) (lat : OpConstness)
    (inst : BcInst) : Prop :=
  inst.op.isArith ∧ ∃ a b p q, operandLattice lat (inst.arg 0) = .vmConstant a ∧
    operandLattice lat (inst.arg 1) = .vmConstant b ∧ constOp ks a = .number p ∧
    constOp ks b = .number q ∧ ¬ (inst.op = .mod ∧ q.feq (.zero false)) ∧
    arith pow inst.op p q = .nan

/-- What arithmetic makes of two constants. -/
theorem evaluateArith_vm {a b : BcOp} (h0 : operandLattice lat (inst.arg 0) = .vmConstant a)
    (h1 : operandLattice lat (inst.arg 1) = .vmConstant b) : evaluateArith pow ks lat inst =
      match evaluateConsts pow ks a b inst.op with
      | some (c, ks) => (.vmConstant c, ks)
      | none => (.notAConstant, ks) := by
  cases h : evaluateConsts pow ks a b inst.op <;> simp only [evaluateArith, h0, h1, h]

/-- Without two constants the table is not read. -/
theorem evaluateArith_not_vm
    (h : ∀ a b, operandLattice lat (inst.arg 0) = .vmConstant a →
      operandLattice lat (inst.arg 1) ≠ .vmConstant b) :
    (evaluateArith pow ks' lat inst).1 = (evaluateArith pow ks lat inst).1 := by
  rw [evaluateArith, evaluateArith]
  generalize operandLattice lat (inst.arg 0) = l0 at h
  generalize operandLattice lat (inst.arg 1) = l1 at h
  rcases l0 with _ | _ | a | (_ | lv | _) <;> rcases l1 with _ | _ | b | (_ | rv | _) <;> try rfl
  · exact absurd rfl (h a b rfl)
  · dsimp only
    split_ifs
    · rfl
    · rfl
    · cases foldInt inst.op lv rv with
      | none => rfl
      | some n =>
        dsimp only
        split_ifs <;> rfl

theorem evaluateArith_again (hop : inst.op.isArith) (hlat : Known f ks lat) (hks : ks <+: ks')
    (hagain : (∀ c, (evaluateArith pow ks lat inst).1 = .vmConstant c → c.index < ks.length) ∨
      (evaluateArith pow ks lat inst).2 <+: ks' ∧ ¬ FoldsNan pow ks lat inst) :
    (evaluateArith pow ks' lat inst).1 = (evaluateArith pow ks lat inst).1 := by
  by_cases hvm : ∃ a b, operandLattice lat (inst.arg 0) = .vmConstant a ∧
      operandLattice lat (inst.arg 1) = .vmConstant b
  · obtain ⟨a, b, h0, h1⟩ := hvm
    have ha : constOp ks' a = constOp ks a :=
      constOp_of_table hks ((hlat.operand (x := inst.arg 0)).vm a h0).2
    have hb : constOp ks' b = constOp ks b :=
      constOp_of_table hks ((hlat.operand (x := inst.arg 1)).vm b h1).2
    rw [evaluateArith_vm h0 h1] at hagain ⊢
    rw [evaluateArith_vm h0 h1]
    by_cases hnum : ∃ p q, constOp ks a = .number p ∧ constOp ks b = .number q
    · obtain ⟨p, q, hp, hq⟩ := hnum
      by_cases hmod : inst.op = .mod ∧ q.feq (.zero false)
      · simp only [evaluateConsts, ha, hb, hp, hq, hmod, and_self, if_true]
      · have hconsts : ∀ ks, constOp ks a = .number p → constOp ks b = .number q →
            evaluateConsts pow ks a b inst.op =
              some (findOrAddConst ks (.number (arith pow inst.op p q))) := fun ks hp hq => by
          rw [evaluateConsts, hp, hq]
          exact if_neg hmod
        rw [hconsts ks hp hq] at hagain ⊢
        rw [hconsts ks' (ha.trans hp) (hb.trans hq)]
        show ConstnessLattice.vmConstant _ = .vmConstant _
        rw [findOrAddConst_again hks (hagain.imp (fun h => h _ rfl) fun h => ⟨h.1, ?_⟩)]
        exact number_eqv_self fun hnan => h.2 ⟨hop, a, b, p, q, h0, h1, hp, hq, hmod, hnan⟩
    · have hconsts : ∀ ks, (∀ p q, constOp ks a = .number p → constOp ks b ≠ .number q) →
          evaluateConsts pow ks a b inst.op = none := fun ks h => by
        rw [evaluateConsts]
        split
        · rename_i p q hp hq
          exact absurd hq (h p q hp)
        · rfl
      rw [hconsts ks fun p q hp hq => hnum ⟨p, q, hp, hq⟩,
        hconsts ks' fun p q hp hq => hnum ⟨p, q, ha ▸ hp, hb ▸ hq⟩]
  · exact evaluateArith_not_vm fun a b h0 h1 => hvm ⟨a, b, h0, h1⟩

theorem evaluate_arith (hop : inst.op.isArith) :
    evaluate pow f ks lat inst = some (evaluateArith pow ks lat inst) := by
  rw [evaluate, test_eq_none (.inl hop)]
  cases hinst : inst.op <;> first | rfl | (rw [hinst] at hop; cases hop)

/-- **A second evaluation.**  The constants are the same, or those of the first one were kept. -/
theorem evaluate_again (hwf : InstWf f inst) (hlat : Known f ks lat) (hks : ks <+: ks')
    (h : evaluate pow f ks lat inst = some (l, ks₁))
    (hagain : (∀ c, l = .vmConstant c → c.index < ks.length) ∨
      ks₁ <+: ks' ∧ ¬ FoldsNan pow ks lat inst) :
    ∃ ks₂, evaluate pow f ks' lat inst = some (l, ks₂) := by
  by_cases hop : inst.op.isArith
  · rw [evaluate_arith hop] at h ⊢
    have heq := Option.some.inj h
    have hfst := evaluateArith_again hop hlat hks (by rwa [heq])
    rw [heq] at hfst
    refine ⟨(evaluateArith pow ks' lat inst).2, ?_⟩
    show some ((evaluateArith pow ks' lat inst).1, (evaluateArith pow ks' lat inst).2) = _
    rw [hfst]
  rw [evaluate] at h ⊢
  cases ht : test f inst with
  | some r =>
    obtain ⟨t, tgt, onTrue⟩ := r
    simp only [ht] at h ⊢
    obtain ⟨⟨cond, ks₂⟩, hcond, heq⟩ := Option.map_eq_some_iff.1 h
    have hcongr := @condition_congr _ _ _ _ lat _ _ _ _ hwf hlat.table hks ht (fun _ _ => rfl)
      fun op _ c hc => ((hlat.operand (x := op)).vm c hc).2
    rw [hcond] at hcongr
    obtain ⟨⟨cond', ks₃⟩, hcond', heq'⟩ := Option.map_eq_some_iff.1 hcongr
    obtain rfl : cond' = cond := heq'
    rw [hcond']
    dsimp only at heq
    split_ifs at heq with hunknown
    · obtain ⟨rfl, -⟩ := Prod.mk.inj heq
      exact ⟨ks₃, by simp only [Option.map_some, if_pos hunknown]⟩
    · obtain ⟨rfl, -⟩ := Prod.mk.inj heq
      exact ⟨ks₃, by simp only [Option.map_some, if_neg hunknown]⟩
  | none =>
    simp only [ht] at h ⊢
    cases hinst : inst.op <;> simp only [hinst] at h hop ⊢ <;> try exact absurd rfl hop
    case loadNil =>
      obtain ⟨rfl, rfl⟩ := Prod.mk.inj (Option.some.inj h)
      refine ⟨(findOrAddConst ks' .nil).2, ?_⟩
      rw [← findOrAddConst_again (v := .nil) hks (hagain.imp (fun h => h _ rfl) fun h => ⟨h.1, rfl⟩)]
    all_goals
      obtain ⟨rfl, -⟩ := Prod.mk.inj (Option.some.inj h)
      exact ⟨_, rfl⟩

/-! ### The same operands -/

/-- What an instruction reads of the lattice values. -/
def SameArgs (lat lat' : OpConstness) (inst : BcInst) : Prop :=
  ∀ i, operandLattice lat' (inst.arg i) = operandLattice lat (inst.arg i)

theorem test_ops_arg {t : Test} {tgt : BcOp} {onTrue : Bool}
    (ht : test f inst = some (t, tgt, onTrue)) :
    t = .truth (inst.arg 0) ∨ t = .compare (inst.arg 0) (inst.arg 1) ∨ t = .xeqk (inst.arg 0) := by
  rw [test] at ht
  split at ht <;> cases ht <;> simp

theorem condition_sameArgs (h : SameArgs lat lat' inst) {t : Test} {tgt : BcOp} {onTrue : Bool}
    (ht : test f inst = some (t, tgt, onTrue)) :
    condition f ks lat' inst t = condition f ks lat inst t := by
  rcases test_ops_arg ht with rfl | rfl | rfl
  · simp only [condition, evaluateCondition, h 0]
  · simp only [condition, evaluateComparisonCondition, h 0, h 1]
  · simp only [condition, evaluateXeqkCondition, h 0]

theorem evaluate_sameArgs (h : SameArgs lat lat' inst) :
    evaluate pow f ks lat' inst = evaluate pow f ks lat inst := by
  rw [evaluate, evaluate]
  cases ht : test f inst with
  | some r =>
    obtain ⟨t, tgt, onTrue⟩ := r
    have hmem : ∀ op ∈ t.ops, operandLattice lat' op = operandLattice lat op := by
      rcases test_ops_arg ht with rfl | rfl | rfl <;> simp [Test.ops, h 0, h 1]
    have hops : unknownConditionConstness lat' t.ops = unknownConditionConstness lat t.ops := by
      simp only [unknownConditionConstness, List.any_eq_true, decide_eq_true_eq]
      exact if_congr (exists_congr fun op => and_congr_right fun hop => by rw [hmem op hop]) rfl rfl
    simp only [condition_sameArgs h ht, hops]
  | none => simp only [evaluateArith, h 0, h 1]

/-- The lattice value of something that is no operand changes. -/
theorem sameArgs_update (hy : y.kind = .inst ∨ y.kind = .phi) (hops : y ∉ inst.ops) :
    SameArgs lat (Function.update lat y m) inst := by
  intro i
  have hne : inst.arg i ≠ y := by
    rintro rfl
    rw [BcInst.arg] at hops hy
    cases hget : inst.ops[i]? with
    | none => rw [hget] at hy; simp at hy
    | some z =>
      rw [hget] at hops
      exact hops (List.mem_of_getElem? hget)
  rw [operandLattice, operandLattice, Function.update_of_ne hne]

/-! ### Stable instructions and phis -/

theorem merge_eq_right (h : l.Below m) : l.merge m = m := by
  rcases h with rfl | rfl | rfl
  · simp [ConstnessLattice.merge]
  · simp
  · simp [ConstnessLattice.merge]

/-- A visit changes no lattice value. -/
def StableAt (pow : Double → Double → Double) (f : BcFunction) (ks : List BcVmConst)
    (lat : OpConstness) (x : BcOp) : Prop :=
  if x.kind = .inst then
    (∃ l ks', evaluate pow f ks lat (f.inst x) = some (l, ks') ∧ l.Below (lat x)) ∧
      ∀ src, (f.inst x).captured f = some src → src.kind = .inst ∨ src.kind = .phi →
        lat src = .notAConstant
  else lat x = phiLattice lat (f.phi x)

theorem evaluate_isSome (h : evaluate pow f ks lat inst = some (l, ks₁)) :
    ∃ l' ks₂, evaluate pow f ks' lat inst = some (l', ks₂) := by
  cases hev : evaluate pow f ks' lat inst with
  | none =>
    rw [Raw.evaluate_none_iff.2 (Raw.evaluate_none_iff.1 hev)] at h
    cases h
  | some r => exact ⟨r.1, r.2, rfl⟩

theorem StableAt.constants (hwf : WellFormed f) (hlat : Known f ks lat) (hks : ks <+: ks')
    (h : StableAt pow f ks lat x) : StableAt pow f ks' lat x := by
  rw [StableAt] at h ⊢
  split_ifs at h ⊢
  · obtain ⟨⟨l, ks₁, hev, hbelow⟩, hcapture⟩ := h
    refine ⟨?_, hcapture⟩
    by_cases hnac : lat x = .notAConstant
    · obtain ⟨l', ks₂, hev'⟩ := @evaluate_isSome _ _ _ ks' _ _ _ _ hev
      exact ⟨l', ks₂, hev', .inr (.inl hnac)⟩
    · -- the value is a constant of the table, or none
      obtain ⟨ks₂, hev'⟩ := evaluate_again (hwf.inst x) hlat hks hev (.inl fun c hc => by
        rcases hbelow with h | h | h
        · rw [h] at hc
          cases hc
        · exact absurd h hnac
        · exact (hlat.vm x c (h ▸ hc)).2)
      exact ⟨l, ks₂, hev', hbelow⟩
  · exact h

theorem captured_mem_ops {src : BcOp} (h : inst.captured f = some src) : src ∈ inst.ops := by
  rw [BcInst.captured] at h
  split_ifs at h with hcap
  obtain rfl := Option.some.inj h
  have h1 : 1 < inst.ops.length := hcap.2.1
  rw [BcInst.arg, List.getElem?_eq_getElem h1]
  exact List.getElem_mem h1

theorem phiLattice_update {p : BcPhi} (h : y ∉ p.ops) :
    phiLattice (Function.update lat y m) p = phiLattice lat p := by
  refine List.foldl_ext _ _ _ fun fold op hop => ?_
  have hne : op ≠ y := fun heq => h (heq ▸ hop)
  rw [operandLattice, operandLattice, Function.update_of_ne hne]

theorem StableAt.update (h : StableAt pow f ks lat x) (hy : y.kind = .inst ∨ y.kind = .phi)
    (hops : y ∉ f.opsOf x) (hne : y ≠ x ∨ m = .notAConstant ∧ x.kind = .inst) :
    StableAt pow f ks (Function.update lat y m) x := by
  rw [BcFunction.opsOf] at hops
  rw [StableAt] at h ⊢
  split_ifs at h hops ⊢ with hk
  · obtain ⟨⟨l, ks₁, hev, hbelow⟩, hcapture⟩ := h
    refine ⟨⟨l, ks₁, by rw [evaluate_sameArgs (sameArgs_update hy hops), hev], ?_⟩, ?_⟩
    · by_cases hyx : y = x
      · subst hyx
        rw [Function.update_self]
        exact .inr (.inl (hne.resolve_left fun h => h rfl).1)
      · rwa [Function.update_of_ne (Ne.symm hyx)]
    · intro src hsrc hksrc
      have hne' : src ≠ y := fun h => hops (h ▸ captured_mem_ops hsrc)
      rw [Function.update_of_ne hne']
      exact hcapture src hsrc hksrc
  · rw [Function.update_of_ne (Ne.symm (hne.resolve_right fun h => hk h.2)), phiLattice_update hops]
    exact h

end Sccp

end Jaci
