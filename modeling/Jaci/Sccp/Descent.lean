import Jaci.Sccp.Again

/-!
# What there is to visit

Lattice values go down, each at most twice, and a graph names finitely many instructions, phis and
blocks.

* `phiLattice_below` : a phi goes down with its operands;
* `namedOps`, `namedBlocks` : all that is ever put on a list of work;
* `jumpTargets_mem` : so are the targets of the jumps.
-/

namespace Jaci

namespace Sccp

variable {pow : Double → Double → Double} {f : BcFunction} {ks ks' : List BcVmConst}
  {lat lat' : OpConstness} {inst : BcInst} {x y : BcOp} {l l' m m' : ConstnessLattice}

/-! ### Lattice values that go down -/

theorem ConstnessLattice.Below.merge (h : l.Below l') (h' : m.Below m') :
    (l.merge m).Below (l'.merge m') := by
  rcases h with rfl | rfl | rfl
  · have heq : ConstnessLattice.undetermined.merge m = m := by simp [ConstnessLattice.merge]
    rw [heq]
    exact h'.trans ConstnessLattice.below_merge_right
  · exact .inr (.inl (by simp))
  · rcases h' with rfl | rfl | rfl
    · rw [ConstnessLattice.merge_undetermined]
      exact ConstnessLattice.below_merge_left
    · exact .inr (.inl (by simp))
    · exact .refl

theorem below_update (h : (lat x).Below l) (y : BcOp) :
    (lat y).Below (Function.update lat x l y) := by
  rw [Function.update_apply]
  split_ifs with hy
  · rwa [hy]
  · exact .refl

theorem phiLattice_below (h : ∀ y, (lat y).Below (lat' y)) (p : BcPhi) :
    (phiLattice lat p).Below (phiLattice lat' p) := by
  have hoperand : ∀ y, (operandLattice lat y).Below (operandLattice lat' y) := fun y => by
    rw [operandLattice, operandLattice]
    split_ifs
    · exact .refl
    · exact h y
  have hfold : ∀ (ops : List BcOp) (m m' : ConstnessLattice), m.Below m' →
      (ops.foldl (fun fold op => (operandLattice lat op).merge fold) m).Below
        (ops.foldl (fun fold op => (operandLattice lat' op).merge fold) m') := by
    intro ops
    induction ops with
    | nil => exact fun _ _ h => h
    | cons z ops ih => exact fun m m' hm => ih _ _ ((hoperand z).merge hm)
  exact hfold _ _ _ .refl

/-- How often a lattice value can go down. -/
def ConstnessLattice.height : ConstnessLattice → ℕ
  | .undetermined => 2
  | .notAConstant => 0
  | _ => 1

theorem height_lt (h : l.Below m) (hne : m ≠ l) : m.height < l.height := by
  rcases h with rfl | rfl | rfl
  · cases m <;> first | exact absurd rfl hne | exact Nat.lt_succ_self _ | exact Nat.succ_pos _
  · cases l <;> first | exact absurd rfl hne | exact Nat.succ_pos _
  · exact absurd rfl hne

theorem height_le (h : l.Below m) : m.height ≤ l.height := by
  by_cases hne : m = l
  · rw [hne]
  · exact (height_lt h hne).le

/-! ### What there is to visit -/

/-- The instructions and phis that the graph names. -/
def namedOps (f : BcFunction) : List BcOp :=
  f.blocks.flatMap (fun b => b.phis ++ b.ops) ++
    f.instructions.flatMap (fun i => i.ops ++ i.uses) ++
    f.phis.flatMap fun p => p.ops ++ p.uses

/-- The blocks that the graph names, and the one that is read outside of the edges. -/
def namedBlocks (f : BcFunction) : List BcOp :=
  [f.entryBlock, {}] ++ f.blocks.flatMap (fun b => b.successors.map (·.target)) ++
    f.instructions.flatMap (·.ops)

theorem mem_namedOps_block {b : BcOp} (h : Item f b x) : x ∈ namedOps f := by
  rw [Item, BcFunction.block] at h
  cases hget : f.blocks[b.index]? with
  | none => simp [hget] at h
  | some block =>
    rw [hget] at h
    refine List.mem_append_left _ (List.mem_append_left _ (List.mem_flatMap.2
      ⟨block, List.mem_of_getElem? hget, List.mem_append.2 h⟩))

theorem mem_namedOps_inst (h : x ∈ (f.inst y).ops ∨ x ∈ (f.inst y).uses) : x ∈ namedOps f := by
  rw [BcFunction.inst] at h
  cases hget : f.instructions[y.index]? with
  | none => simp [hget] at h
  | some inst =>
    rw [hget] at h
    exact List.mem_append_left _ (List.mem_append_right _ (List.mem_flatMap.2
      ⟨inst, List.mem_of_getElem? hget, List.mem_append.2 h⟩))

theorem mem_namedOps_phi (h : x ∈ (f.phi y).ops ∨ x ∈ (f.phi y).uses) : x ∈ namedOps f := by
  rw [BcFunction.phi] at h
  cases hget : f.phis[y.index]? with
  | none => simp [hget] at h
  | some phi =>
    rw [hget] at h
    exact List.mem_append_right _ (List.mem_flatMap.2
      ⟨phi, List.mem_of_getElem? hget, List.mem_append.2 h⟩)

theorem mem_namedOps_uses (h : x ∈ f.usesOf y) : x ∈ namedOps f := by
  rw [BcFunction.usesOf] at h
  split_ifs at h
  · exact mem_namedOps_inst (.inr h)
  · exact mem_namedOps_phi (.inr h)

theorem arg_mem_namedBlocks (i : BcOp) (n : ℕ) : (f.inst i).arg n ∈ namedBlocks f := by
  rw [BcInst.arg]
  cases hget : (f.inst i).ops[n]? with
  | none => simp [namedBlocks]
  | some z =>
    refine List.mem_append_right _ ?_
    rw [BcFunction.inst] at hget
    cases hinst : f.instructions[i.index]? with
    | none => simp [hinst] at hget
    | some inst =>
      rw [hinst] at hget
      exact List.mem_flatMap.2 ⟨inst, List.mem_of_getElem? hinst, List.mem_of_getElem? hget⟩

theorem successor_mem_namedBlocks {b : BcOp} {e : BcBlockEdge} (h : e ∈ (f.block b).successors) :
    e.target ∈ namedBlocks f := by
  rw [BcFunction.block] at h
  cases hget : f.blocks[b.index]? with
  | none => simp [hget] at h
  | some block =>
    rw [hget] at h
    exact List.mem_append_left _ (List.mem_append_right _ (List.mem_flatMap.2
      ⟨block, List.mem_of_getElem? hget, List.mem_map_of_mem h⟩))

theorem fallthrough_mem_namedBlocks (b : BcOp) : (getFallthrough (f.block b)).getD {} ∈ namedBlocks f := by
  rw [getFallthrough]
  split
  · rename_i e hfilter
    have he : e ∈ (f.block b).successors.filter (·.kind = .fallthrough) := by rw [hfilter]; simp
    exact successor_mem_namedBlocks (List.mem_of_mem_filter he)
  · simp [namedBlocks]

theorem jumpTargets_mem {i : BcOp} {ts : List JumpTarget}
    (h : jumpTargets f ks lat (f.inst i) = some (ts, ks')) : ∀ t ∈ ts, t.blockOp ∈ namedBlocks f := by
  have hcond : ∀ (n : ℕ) (cond : ConditionState) (onTrue : Bool), ∀ t ∈
      conditionalTargets f (f.inst i) ((f.inst i).arg n) cond onTrue, t.blockOp ∈ namedBlocks f := by
    intro n cond onTrue t ht
    rcases List.mem_cons.1 ht with rfl | ht
    · exact arg_mem_namedBlocks i n
    · obtain rfl := List.mem_singleton.1 ht
      exact fallthrough_mem_namedBlocks _
  rw [jumpTargets] at h
  cases htest : test f (f.inst i) with
  | some r =>
    obtain ⟨t, tgt, onTrue⟩ := r
    simp only [htest] at h
    obtain ⟨⟨cond, ks''⟩, -, heq⟩ := Option.map_eq_some_iff.1 h
    obtain ⟨rfl, -⟩ := Prod.mk.inj heq
    obtain ⟨n, rfl⟩ : ∃ n, tgt = (f.inst i).arg n := by
      rw [test] at htest
      split at htest <;> cases htest <;> exact ⟨_, rfl⟩
    exact hcond n cond onTrue
  | none =>
    simp only [htest] at h
    split_ifs at h
    · obtain ⟨rfl, -⟩ := Prod.mk.inj (Option.some.inj h)
      intro t ht
      obtain rfl := List.mem_singleton.1 ht
      exact arg_mem_namedBlocks i 0
    · cases hloose : looseTarget (f.inst i) with
      | some tgt =>
        simp only [hloose] at h
        obtain ⟨rfl, -⟩ := Prod.mk.inj (Option.some.inj h)
        obtain ⟨n, rfl⟩ : ∃ n, tgt = (f.inst i).arg n := by
          rw [looseTarget] at hloose
          split at hloose <;> cases hloose <;> exact ⟨_, rfl⟩
        exact hcond n .unknown true
      | none =>
        simp only [hloose] at h
        obtain ⟨rfl, -⟩ := Prod.mk.inj (Option.some.inj h)
        simp

end Sccp

end Jaci
