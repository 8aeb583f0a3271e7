import Jaci.Mir.Runs
import Mathlib

/-!
# Values after forwarding, numbering and hoisting

A load that is forwarded or a computation that is numbered becomes a `Nop`, which has no value, and
a hoisted computation lands behind the jump of the preheader, where nothing runs.  So an operand
has its value after the three passes only if what it names is still there, and if what stands in
its place was computed before it, from the same operands, with nothing in between that would change
the result.

* `values_preserved` : in a run in which every operand is of that kind, the passes keep the values
  of the operands, the effects and the memory;
* `store_forwarded_to_other_object` : a load of one object that loses its value because of a store
  to another.
-/

namespace Jaci

namespace Mir

variable {V M : Type*}

namespace Function

/-- An instruction with its operands after value numbering. -/
def rewritten (f : Function) (i : ℕ) : Inst := (f.numberingBefore i).rewrite (f.inst i)

/-- An instruction that is neither forwarded nor replaced. -/
def Kept (f : Function) (i : ℕ) : Prop := (f.numbered i).cmd = (f.inst i).cmd

instance (f : Function) (i : ℕ) : Decidable (f.Kept i) := inferInstanceAs (Decidable (_ = _))

/-- Each instruction is listed once, the indices have 32 bits, and no target of a jump looks like
an instruction that is replaced. -/
structure Orderly (f : Function) : Prop where
  nodup : f.order.Nodup
  bound : ∀ i ∈ f.order, i < 2 ^ 32
  targets : ∀ i ∈ f.order, ∀ t ∈ (f.inst i).targets, (f.numberingBefore i).operand t = t

/-- Instruction `i` ran after `j` with the same operands: neither ran again, the operands did not
change in between, nor, for a load, the memory. -/
def Fresh (f : Function) (history : List ℕ) (i j : ℕ) : Prop :=
  (f.rewritten i).args.take 2 = (f.rewritten j).args.take 2 ∧
    ∃ h₁ h₂ h₃, history = h₁ ++ j :: (h₂ ++ i :: h₃) ∧ j ∉ h₂ ++ i :: h₃ ∧ i ∉ h₃ ∧
      (∀ v ∈ (f.rewritten j).args.take 2, v.kind = .inst → v.index.toNat ∉ j :: h₂) ∧
      ((f.inst i).cmd = .loadField → ∀ k ∈ h₂, (f.inst k).cmd.writes = false)

/-- The operands of the next instruction: what they name after value numbering is kept, stays in its
block and was computed in time. -/
def OperandsOk (f : Function) (s : State V M) : Prop :=
  ∀ u ∈ s.rest.head?, ∀ v ∈ (f.inst u).uses, v.kind = .inst →
    let w := (f.numberingBefore u).operand v
    f.Kept w.index.toNat ∧ ¬f.Hoistable w.index.toNat ∧
      (w ≠ v → f.Fresh s.history v.index.toNat w.index.toNat)

variable {f : Function} {i u : ℕ} {n : Numbering} {x y : Inst} {v : Value}

/-! ### Instructions after the passes -/

theorem forwarded_eq_or : f.forwarded i = f.inst i ∨
    (f.forwarded i).cmd = .nop ∧ (f.inst i).cmd = .loadField := by
  rw [forwarded]
  split
  · rw [forwardIn]
    split_ifs with hcmd
    · split
      · exact Or.inr ⟨rfl, hcmd⟩
      · exact Or.inl rfl
    · exact Or.inl rfl
  · exact Or.inl rfl

theorem numbered_eq_or (hi : i ∈ f.order) : f.numbered i = f.rewritten i ∨
    (f.numbered i).cmd = .nop ∧ (f.inst i).cmd.numbered := by
  rw [numbered, if_pos hi, rewritten]
  rcases forwarded_eq_or (f := f) (i := i) with hfwd | ⟨hnop, hload⟩
  · rw [hfwd, Numbering.visit]
    split_ifs with hnum
    · split
      · exact Or.inr ⟨rfl, hnum⟩
      · exact Or.inl rfl
    · exact Or.inl rfl
  · refine Or.inr ⟨?_, by simp [hload, Cmd.numbered]⟩
    rw [Numbering.visit, if_neg (by simp [Numbering.rewrite, hnop, Cmd.numbered])]
    exact hnop

theorem numbered_cmd : (f.numbered i).cmd = (f.inst i).cmd ∨
    (f.numbered i).cmd = .nop ∧ (f.inst i).cmd.numbered := by
  by_cases hi : i ∈ f.order
  · exact (numbered_eq_or hi).imp_left fun h => by rw [h]; rfl
  · rw [numbered, if_neg hi]
    rcases forwarded_eq_or (f := f) (i := i) with hfwd | ⟨hnop, hload⟩
    · exact Or.inl (by rw [hfwd])
    · exact Or.inr ⟨hnop, by simp [hload, Cmd.numbered]⟩

theorem Kept.numbered_eq (h : f.Kept i) (hi : i ∈ f.order) : f.numbered i = f.rewritten i := by
  refine (numbered_eq_or hi).resolve_right fun ⟨hnop, hnum⟩ => ?_
  rw [← h, hnop] at hnum
  simp [Cmd.numbered] at hnum

theorem not_kept (h : ¬f.Kept i) : (f.numbered i).cmd = .nop ∧ (f.inst i).cmd.numbered :=
  numbered_cmd.resolve_left h

theorem numbered_ends : (f.numbered i).cmd.ends = (f.inst i).cmd.ends := by
  rcases numbered_cmd (f := f) (i := i) with h | ⟨h, hnum⟩
  · rw [h]
  · rw [h, (Cmd.numbered_ne hnum).2.2.1]
    rfl

theorem Hoistable.numbered (h : f.Hoistable i) : (f.inst i).cmd.numbered := by
  obtain ⟨b, -, -, -, htest⟩ := h
  rw [Inst.loopInvariant, Bool.and_eq_true] at htest
  rcases numbered_cmd (f := f) (i := i) with hcmd | ⟨-, hnum⟩
  · rw [hcmd] at htest
    cases hc : (f.inst i).cmd <;> simp_all [Cmd.numbered]
  · exact hnum

theorem uses_of_cmd (h : y.cmd = x.cmd) (hargs : y.args = x.args.map n.operand) :
    y.uses = x.uses.map n.operand := by
  rw [Inst.uses, Inst.uses, hargs]
  split_ifs <;> simp_all [List.map_take]

theorem targets_of_cmd (h : y.cmd = x.cmd) (hargs : y.args = x.args.map n.operand) :
    y.targets = x.targets.map n.operand := by
  rw [Inst.targets, Inst.targets, hargs]
  split_ifs <;> simp_all [List.map_take]

theorem uses_rewrite : (n.rewrite x).uses = x.uses.map n.operand := uses_of_cmd rfl rfl

theorem targets_rewrite : (n.rewrite x).targets = x.targets.map n.operand :=
  targets_of_cmd rfl rfl

theorem Orderly.targets_rewritten (hf : f.Orderly) (hi : i ∈ f.order) :
    (f.rewritten i).targets = (f.inst i).targets := by
  rw [rewritten, targets_rewrite]
  exact (List.map_congr_left (hf.targets i hi)).trans (List.map_id _)

theorem operand_kind (hv : v.kind = .inst) (hw : n.operand v ≠ v) :
    (v.index, n.operand v) ∈ n.replacements := by
  rw [Numbering.operand, if_pos hv] at hw ⊢
  cases hl : n.replacements.lookup v.index with
  | none => simp [hl] at hw
  | some w => exact mem_of_lookup hl

/-- An operand and what stands in its place look alike. -/
theorem Orderly.operand_spec (hf : f.Orderly) (hv : v.kind = .inst)
    (hw : (f.numberingBefore u).operand v ≠ v) : ∃ i ∈ f.order, ∃ j ∈ f.order,
      v.index.toNat = i ∧ (f.numberingBefore u).operand v = ⟨.inst, UInt32.ofNat j⟩ ∧
      (UInt32.ofNat j).toNat = j ∧ (f.inst i).cmd.numbered ∧
      (f.inst i).LooksLike (f.inst j) := by
  have hsub : ∀ k ∈ f.order.takeWhile (· ≠ u), k ∈ f.order :=
    fun k hk => (List.takeWhile_sublist _).subset hk
  have hnat : ∀ k ∈ f.order, (UInt32.ofNat k).toNat = k := fun k hk => by
    rw [UInt32.toNat_ofNat', Nat.mod_eq_of_lt (hf.bound k hk)]
  obtain ⟨i, hi, j, hj, hidx, hval, hnum, hlooks⟩ :=
    mem_numberingOf.2 _ (operand_kind hv hw)
  have hfwd : ∀ k, (f.forwarded k).cmd.numbered → f.forwarded k = f.inst k := fun k hk =>
    forwarded_eq_or.resolve_right fun h => by simp [h.1, Cmd.numbered] at hk
  have hfi := hfwd i hnum
  have hfj := hfwd j (hlooks.1 ▸ hnum)
  rw [hfi] at hnum hlooks
  rw [hfj] at hlooks
  refine ⟨i, hsub i hi, j, hsub j hj, ?_, hval, hnat j (hsub j hj), hnum, hlooks⟩
  exact (congrArg UInt32.toNat hidx).trans (hnat i (hsub i hi))

end Function

/-! ### The value of a replaced operand -/

section

variable {m : Machine V M} {f : Function} {s : State V M} {mem : M} {u : ℕ} {rest : List ℕ}
  {v : Value}

theorem uses_of_numbered {x : Inst} (h : x.cmd.numbered) : x.uses = x.args := by
  obtain ⟨-, hjump, -⟩ := Cmd.numbered_ne h
  simp only [not_or] at hjump
  rw [Inst.uses, if_neg hjump.1, if_neg hjump.2]

theorem compute_congr {x y : Inst} {ops ops' : List (Option V)} {mem mem' : M}
    (h : x.LooksLike y) (hops : ops.take 2 = ops'.take 2)
    (hmem : x.cmd = .loadField → mem = mem') :
    m.compute x ops mem = m.compute y ops' mem' := by
  obtain ⟨hcmd, htype, hoff⟩ := h
  have hhead : ∀ l : List (Option V), l.headD none = (l.take 2).headD none := by
    rintro (_ | ⟨a, l⟩) <;> rfl
  have hnext : ∀ l : List (Option V), (l.drop 1).headD none = ((l.take 2).drop 1).headD none := by
    rintro (_ | ⟨a, _ | ⟨b, l⟩⟩) <;> rfl
  rw [Machine.compute, Machine.compute, hhead ops, hnext ops, hops, ← hhead, ← hnext, ← hcmd,
    ← htype, ← hoff]
  split_ifs with hload
  · rw [hmem hload]
  · rfl

theorem operandValue_congr {env env' : ℕ → Option V}
    (h : v.kind = .inst → env v.index.toNat = env' v.index.toNat) :
    m.operandValue env v = m.operandValue env' v := by
  rw [Machine.operandValue, Machine.operandValue]
  cases hk : v.kind with
  | inst => exact h hk
  | none => rfl
  | constant => rfl
  | blockArg => rfl

theorem operands_rewritten {i : ℕ} {env : ℕ → Option V} (hi : (f.inst i).cmd.numbered)
    (h : ∀ v ∈ (f.inst i).args,
      m.operandValue env ((f.numberingBefore i).operand v) = m.operandValue env v) :
    m.operands env (f.inst i) = (f.rewritten i).args.map (m.operandValue env) := by
  rw [Machine.operands, uses_of_numbered hi, Function.rewritten, Numbering.rewrite, List.map_map]
  exact List.map_congr_left fun v hv => (h v hv).symm

/-- **An operand and what stands in its place have the same value** when the operand is used. -/
theorem operandValue_operand (hf : f.Orderly) (h : Run m f f.OperandsOk mem s)
    (hok : f.OperandsOk s) (hr : s.rest = u :: rest) (hv : v ∈ (f.inst u).uses) :
    m.operandValue s.env ((f.numberingBefore u).operand v) = m.operandValue s.env v := by
  -- The instructions that are compared ran earlier, so the induction is on the history.
  induction hn : s.history.length using Nat.strongRecOn generalizing s u rest v with
  | ind n ih =>
  by_cases hw : (f.numberingBefore u).operand v = v
  · rw [hw]
  have hkind : v.kind = .inst := by
    by_contra hk
    exact hw (by rw [Numbering.operand, if_neg hk])
  obtain ⟨i, hi, j, hj, hidx, hval, hjnat, hnum, hlooks⟩ := hf.operand_spec hkind hw
  have hokv := hok u (by simp [hr]) v hv hkind
  rw [hval] at hokv
  obtain ⟨-, -, hfresh⟩ := hokv
  rw [hval] at hw
  obtain ⟨hargs, h₁, h₂, h₃, hhist, hj₂, hi₃, hops, hload⟩ := hfresh hw
  simp only [hidx, hjnat] at hargs hhist hj₂ hi₃ hops hload
  -- The states in which `i` and `j` ran.
  have hhist' : s.history = (h₁ ++ j :: h₂) ++ i :: h₃ := by rw [hhist]; simp
  obtain ⟨ti, ri, hrun_i, hok_i, hr_i, hh_i, hval_i, henv_i, -⟩ := h.env_eq hhist' hi₃ hnum
  have hjnum : (f.inst j).cmd.numbered := hlooks.1 ▸ hnum
  obtain ⟨tj, rj, hrun_j, hok_j, hr_j, hh_j, hval_j, henv_j, hmem_j⟩ :=
    hrun_i.env_eq hh_i (fun hj => hj₂ (List.mem_append_left _ hj)) hjnum
  have hlen : s.history.length = h₁.length + 1 + h₂.length + 1 + h₃.length := by
    rw [hhist]; simp; omega
  have hi_args : ∀ v ∈ (f.inst i).args,
      m.operandValue ti.env ((f.numberingBefore i).operand v) = m.operandValue ti.env v := by
    intro v hv
    rw [← uses_of_numbered hnum] at hv
    exact ih _ (by rw [hh_i, ← hn, hlen]; simp; omega) hrun_i hok_i hr_i hv rfl
  have hj_args : ∀ v ∈ (f.inst j).args,
      m.operandValue tj.env ((f.numberingBefore j).operand v) = m.operandValue tj.env v := by
    intro v hv
    rw [← uses_of_numbered hjnum] at hv
    exact ih _ (by rw [hh_j, ← hn, hlen]; omega) hrun_j hok_j hr_j hv rfl
  have hsame : m.compute (f.inst i) (m.operands ti.env (f.inst i)) ti.mem =
      m.compute (f.inst j) (m.operands tj.env (f.inst j)) tj.mem := by
    refine compute_congr hlooks ?_ fun hl => hmem_j (hload hl)
    rw [operands_rewritten hnum hi_args, operands_rewritten hjnum hj_args, ← List.map_take,
      ← List.map_take, hargs]
    exact List.map_congr_left fun v hv => operandValue_congr fun hk => henv_j _ (hops v hv hk)
  have hj_s : s.env j = ti.env j := henv_i j fun hj => hj₂ (List.mem_append_right _ hj)
  simp only [hval, Machine.operandValue, hkind, hidx, hjnat]
  rw [hj_s, hval_j, hval_i, hsame]

end

/-! ### The function after the passes -/

section

variable {f g : Function} {b p : ℕ}

theorem successorsOf_congr (hf : f.Orderly) (hblocks : g.blocks = f.blocks)
    (hinst : ∀ i, g.inst i = f.numbered i) : g.successorsOf b = f.successorsOf b := by
  rw [Function.successorsOf, Function.successorsOf, hblocks]
  dsimp only
  split_ifs with hdead
  · rfl
  cases hlast : (f.blocks[b]?.getD {}).instIndices.getLast? with
  | none => rfl
  | some last =>
    have hmem : last ∈ f.order := by
      refine List.mem_map.2 ⟨(b, last), Function.mem_layout.2 ?_, rfl⟩
      exact List.mem_of_getLast? hlast
    have htargets := hf.targets last hmem
    simp only [hinst]
    rcases Function.numbered_eq_or hmem with heq | ⟨hnop, hnum⟩
    · rw [heq, Function.rewritten, Numbering.rewrite]
      rw [Inst.targets] at htargets
      cases hcmd : (f.inst last).cmd <;> simp only
      case jump =>
        cases hargs : (f.inst last).args with
        | nil => rfl
        | cons t r =>
          have ht : (f.numberingBefore last).operand t = t :=
            htargets t (by simp [hcmd, hargs])
          simp [ht]
      case branchCond =>
        rcases hargs : (f.inst last).args with _ | ⟨v, _ | ⟨t, _ | ⟨e, r⟩⟩⟩
        · rfl
        · rfl
        · rfl
        · have ht : (f.numberingBefore last).operand t = t :=
            htargets t (by simp [hcmd, hargs])
          have he : (f.numberingBefore last).operand e = e :=
            htargets e (by simp [hcmd, hargs])
          simp [ht, he]
    · -- A computation is no jump, and neither is the `Nop` that it becomes.
      rw [hnop]
      cases hcmd : (f.inst last).cmd <;> simp_all [Cmd.numbered]

theorem computeControlFlow_congr (hblocks : g.blocks = f.blocks)
    (h : ∀ b, g.successorsOf b = f.successorsOf b) :
    (computeControlFlow g).blocks = (computeControlFlow f).blocks := by
  simp only [computeControlFlow, hblocks, h]

/-- A function after the passes: the instructions are numbered, and a block runs as before but for
what is hoisted. -/
structure Passed (f g : Function) : Prop where
  inst : ∀ i, g.inst i = f.numbered i
  entryBlock : g.entryBlock = f.entryBlock
  enter : ∀ b l, f.enter b = some l → ∃ l', g.enter b = some l' ∧
    Trim (fun i => (f.inst i).cmd.ends) f.Hoistable l l'

theorem hoistsOnly (hf : f.Orderly) (hblocks : g.blocks = f.blocks)
    (hinst : ∀ i, g.inst i = f.numbered i) :
    HoistsOnly (fun i => (f.inst i).cmd.ends) f.Hoistable (computeControlFlow g) := by
  have hflow := computeControlFlow_congr hblocks fun b =>
    successorsOf_congr (b := b) hf hblocks hinst
  have hinsts : ∀ b, g.instsOf b = f.instsOf b := fun b => by
    rw [Function.instsOf, Function.instsOf, hblocks]
  refine ⟨fun b i hpre hi htest => ?_, fun b p hpre => ?_, fun i hi hends => ?_⟩
  · rw [computeControlFlow_instsOf, hinsts] at hi htest
    have htest' : (f.numbered i).loopInvariant ((f.instsOf b).headD 0) := by
      rw [← hinst]
      exact htest
    have hpre' : ((computeControlFlow f).preheader b).isSome := by
      rw [Function.preheader, ← hflow]
      exact hpre
    refine ⟨b, ?_, hpre', hi, htest'⟩
    by_contra hlen
    rw [Function.instsOf, List.getElem?_eq_none (Nat.le_of_not_lt hlen)] at hi
    simp at hi
  · obtain ⟨hne, hsucc⟩ := mem_successorsOf_of_preheader hpre
    obtain ⟨t, ht, hends⟩ := exists_ends_of_mem_successorsOf hsucc
    refine ⟨hne, t, by rwa [computeControlFlow_instsOf], ?_⟩
    rwa [hinst, Function.numbered_ends] at hends
  · rw [(Cmd.numbered_ne hi.numbered).2.2.1] at hends
    exact Bool.false_ne_true hends

theorem enter_computeControlFlow : (computeControlFlow f).enter b = f.enter b := by
  simp only [Function.enter, computeControlFlow, List.getElem?_map, List.getElem?_zipIdx,
    Option.map_map]
  cases hblk : f.blocks[b]? with
  | none => rfl
  | some blk => cases hdead : blk.isDead <;> simp [Option.filter_some, hdead]

theorem Hoisted.enter {stop drop done : ℕ → Prop} {l : List ℕ} (h : Hoisted stop drop done f g)
    (hl : f.enter b = some l) : ∃ l', g.enter b = some l' ∧ Trim stop drop l l' := by
  have htrim := h.trim b
  have hmeta := congrArg (fun l : List Block => l[b]?.map Block.isDead) h.blocks
  rw [Function.enter, Option.map_eq_some_iff] at hl
  obtain ⟨blk, hblk, rfl⟩ := hl
  obtain ⟨hblk, hdead⟩ := Option.filter_eq_some_iff.1 hblk
  simp only [List.getElem?_map, hblk, Option.map_some, Option.map_map, Function.comp_def] at hmeta
  obtain ⟨blk', hblk', hdead'⟩ := Option.map_eq_some_iff.1 hmeta
  refine ⟨blk'.instIndices, ?_, ?_⟩
  · rw [Function.enter, hblk', Option.filter_some, if_pos (by rw [hdead']; exact hdead)]
    rfl
  · simpa [Function.instsOf, hblk, hblk'] using htrim

/-- **The three passes** on a function. -/
theorem passed_runValuePasses (hf : f.Orderly) : Passed f (runValuePasses f) := by
  obtain ⟨hblocks, hentry⟩ := runGvnCse_blocks hf.nodup
  have hinst : ∀ i, (runGvnCse (runLoadStoreElimination f)).inst i = f.numbered i :=
    fun i => inst_runGvnCse hf.nodup
  have h := hoisted_foldl (hoistsOnly hf hblocks hinst)
    (List.nodup_range (n := (computeControlFlow
      (runGvnCse (runLoadStoreElimination f))).blocks.length))
  refine ⟨fun i => ?_, h.entryBlock.trans hentry, fun b l hl => h.enter ?_⟩
  · rw [← hinst, Function.inst, Function.inst]
    exact congrArg (fun l : List Inst => l[i]?.getD {}) h.instructions
  · rw [enter_computeControlFlow, Function.enter, hblocks]
    exact hl

end

/-! ### The run after the passes -/

/-- An event that the passes keep: not only a computation. -/
def Function.effect (f : Function) (e : ℕ × List (Option V)) : Bool := !(f.inst e.1).cmd.numbered

/-- A state of a function and one of the function after the passes. -/
structure Sim (f : Function) (s s' : State V M) : Prop where
  mem : s'.mem = s.mem
  /-- What has to run is the same, but for what is hoisted. -/
  trim : Trim (fun i => (f.inst i).cmd.ends) f.Hoistable s.rest s'.rest
  env : ∀ c, f.Kept c → ¬f.Hoistable c → s'.env c = s.env c
  trace : s'.trace.Sublist s.trace
  effects : s'.trace.filter f.effect = s.trace.filter f.effect

section

variable {m : Machine V M} {f g : Function} {s s' t : State V M} {mem : M} {u : ℕ}
  {rest rest' : List ℕ} {ok : State V M → Prop}

/-- The operands of an instruction after the passes. -/
theorem Sim.operands (hsim : Sim f s t) (hf : f.Orderly) (h : Run m f f.OperandsOk mem s)
    (hok : f.OperandsOk s) (hr : s.rest = u :: rest) :
    m.operands t.env (f.rewritten u) = m.operands s.env (f.inst u) := by
  rw [Machine.operands, Function.rewritten, Function.uses_rewrite, List.map_map]
  refine List.map_congr_left fun v hv => ?_
  rw [← operandValue_operand hf h hok hr hv]
  refine operandValue_congr fun hk => ?_
  have hkind : v.kind = .inst := by
    by_contra hne
    rw [Numbering.operand, if_neg hne] at hk
    exact hne hk
  obtain ⟨hkept, hhoist, -⟩ := hok u (by simp [hr]) v hv hkind
  exact hsim.env _ hkept hhoist

/-- An instruction that the passes took away runs in the original only. -/
theorem Sim.skip (hsim : Sim f s t) (hr : s.rest = u :: rest) (hnum : (f.inst u).cmd.numbered)
    (hu : f.Kept u → f.Hoistable u) (hstep : step m f s = some s')
    (htrim : Trim (fun i => (f.inst i).cmd.ends) f.Hoistable rest rest') :
    Sim f s' { t with rest := rest' } := by
  rw [step_numbered hr hnum] at hstep
  cases hstep
  refine ⟨hsim.mem, htrim, fun c hc hh => ?_, hsim.trace.trans (List.sublist_append_left _ _), ?_⟩
  · have hne : c ≠ u := fun h => hh (h ▸ hu (h ▸ hc))
    exact (hsim.env c hc hh).trans (Function.update_of_ne hne _ _).symm
  · simp [hsim.effects, Function.effect, hnum]

theorem Sim.update (hsim : Sim f s t) (v : Option V) (c : ℕ) (hc : f.Kept c)
    (hh : ¬f.Hoistable c) : Function.update t.env u v c = Function.update s.env u v c := by
  by_cases hcu : c = u
  · subst hcu
    simp
  · rw [Function.update_of_ne hcu, Function.update_of_ne hcu, hsim.env c hc hh]

theorem Sim.trace_append (hsim : Sim f s t) (e : ℕ × List (Option V)) :
    (t.trace ++ [e]).Sublist (s.trace ++ [e]) ∧
      (t.trace ++ [e]).filter f.effect = (s.trace ++ [e]).filter f.effect :=
  ⟨hsim.trace.append (List.Sublist.refl _), by simp [hsim.effects]⟩

theorem destination_congr {x y : Inst} {ops : List (Option V)} (hcmd : x.cmd = y.cmd)
    (h : x.targets = y.targets) : m.destination x ops = m.destination y ops := by
  rw [Machine.destination, Machine.destination, h]
  simp only [hcmd]

/-- An instruction that is kept runs in both. -/
theorem Sim.both (hg : Passed f g) (hf : f.Orderly) (hsim : Sim f s t)
    (h : Run m f f.OperandsOk mem s) (hok : f.OperandsOk s) (hr : s.rest = u :: rest)
    (hrt : t.rest = u :: rest') (hkept : f.Kept u)
    (htrim : (f.inst u).cmd.ends = false →
      Trim (fun i => (f.inst i).cmd.ends) f.Hoistable rest rest')
    (hstep : step m f s = some s') : ∃ t', step m g t = some t' ∧ Sim f s' t' := by
  have hu : u ∈ f.order := h.rest_subset u (by simp [hr])
  have hinst : g.inst u = f.rewritten u := (hg.inst u).trans (hkept.numbered_eq hu)
  have hops := hsim.operands hf h hok hr
  have htargets := hf.targets_rewritten hu
  have hcmd : (f.rewritten u).cmd = (f.inst u).cmd := rfl
  have hdest : ∀ ops, m.destination (f.rewritten u) ops = m.destination (f.inst u) ops :=
    fun ops => destination_congr hcmd htargets
  have hbare : (f.rewritten u).bare = (f.inst u).bare := rfl
  rw [step, hr] at hstep
  rw [step, hrt]
  simp only [hinst, hops, hcmd, hdest, hbare, hsim.mem] at hstep ⊢
  obtain ⟨htrace, heffects⟩ := hsim.trace_append (u, m.operands s.env (f.inst u))
  split_ifs at hstep ⊢ with hnop hjump hends hnum
  · cases hstep
    have hnends : (f.inst u).cmd.ends = false := by rw [hnop]; rfl
    exact ⟨_, rfl, rfl, htrim hnends, hsim.env, hsim.trace, hsim.effects⟩
  · obtain ⟨l, hl, rfl⟩ := Option.map_eq_some_iff.1 hstep
    obtain ⟨b, hb, hl⟩ := Option.bind_eq_some_iff.1 hl
    obtain ⟨l', hl', htr⟩ := hg.enter b l hl
    rw [hb, Option.bind_some, hl']
    exact ⟨_, rfl, rfl, htr, hsim.env, htrace, heffects⟩
  · cases hstep
    exact ⟨_, rfl, rfl, .nil, hsim.env, htrace, heffects⟩
  · cases hstep
    have hnends := (Cmd.numbered_ne hnum).2.2.1
    exact ⟨_, rfl, rfl, htrim hnends, hsim.update _, htrace, heffects⟩
  · cases hres : m.other (f.inst u).bare (m.operands s.env (f.inst u)) s.mem with
    | none =>
      simp only [hres] at hstep
      cases hstep
      exact ⟨_, rfl, rfl, .nil, hsim.env, htrace, heffects⟩
    | some r =>
      simp only [hres] at hstep
      cases hstep
      have hnends : (f.inst u).cmd.ends = false := by simpa using hends
      exact ⟨_, rfl, rfl, htrim hnends, hsim.update _, htrace, heffects⟩

/-- **A step.** -/
theorem Sim.step (hg : Passed f g) (hf : f.Orderly) (hsim : Sim f s t)
    (h : Run m f f.OperandsOk mem s) (hok : f.OperandsOk s) (hstep : step m f s = some s')
    (ht : Run m g (fun _ => True) mem t) : ∃ t', Run m g (fun _ => True) mem t' ∧ Sim f s' t' := by
  obtain ⟨u, rest, hr, -⟩ := step_frame hstep
  -- An instruction that is still listed has become a `Nop`, or it is kept.
  have hlisted : ∀ rest', t.rest = u :: rest' → ((f.inst u).cmd.ends = false →
      Trim (fun i => (f.inst i).cmd.ends) f.Hoistable rest rest') →
      ∃ t', Run m g (fun _ => True) mem t' ∧ Sim f s' t' := by
    intro rest' hrt htrim
    by_cases hkept : f.Kept u
    · obtain ⟨t', ht', hsim'⟩ := hsim.both hg hf h hok hr hrt hkept htrim hstep
      exact ⟨t', ht.step trivial ht', hsim'⟩
    · obtain ⟨hnop, hnum⟩ := Function.not_kept hkept
      have hskip : Mir.step m g t = some { t with rest := rest' } := by
        rw [Mir.step, hrt]
        simp only [hg.inst, hnop, if_true]
      have hnends := (Cmd.numbered_ne hnum).2.2.1
      exact ⟨_, ht.step trivial hskip,
        hsim.skip hr hnum (fun hk => absurd hk hkept) hstep (htrim hnends)⟩
  have htrim := hsim.trim
  rw [hr] at htrim
  cases hrt : t.rest with
  | nil =>
    rw [hrt] at htrim
    cases htrim with
    | drop hh htr =>
      have hskip := hsim.skip hr hh.numbered (fun _ => hh) hstep htr
      rw [← hrt] at hskip
      exact ⟨t, ht, hskip⟩
  | cons j rest' =>
    rw [hrt] at htrim
    cases htrim with
    | stop hends => exact hlisted rest' hrt fun hne => by simp_all
    | keep htr => exact hlisted rest' hrt fun _ => htr
    | drop hh htr =>
      have hskip := hsim.skip hr hh.numbered (fun _ => hh) hstep htr
      rw [← hrt] at hskip
      exact ⟨t, ht, hskip⟩

/-- **The passes keep the values** along every run whose operands are all in order: after them the
same instructions run with the same operands, but for some of the computations, and the memory and
everything that is not a computation are the same. -/
theorem values_preserved (m : Machine V M) (f : Function) (hf : f.Orderly) {mem : M}
    {s : State V M} (h : Run m f f.OperandsOk mem s) :
    ∃ t, Run m (runValuePasses f) (fun _ => True) mem t ∧ t.mem = s.mem ∧
      t.trace.Sublist s.trace ∧ t.trace.filter f.effect = s.trace.filter f.effect := by
  have hg := passed_runValuePasses hf
  suffices hsim : ∃ t, Run m (runValuePasses f) (fun _ => True) mem t ∧ Sim f s t by
    obtain ⟨t, ht, hsim⟩ := hsim
    exact ⟨t, ht, hsim.mem, hsim.trace, hsim.effects⟩
  induction h with
  | start hrest =>
    obtain ⟨l', hl', htrim⟩ := hg.enter _ _ hrest
    rw [← hg.entryBlock] at hl'
    exact ⟨_, .start hl', rfl, htrim, fun _ _ _ => rfl, List.Sublist.refl _, rfl⟩
  | step hs hok hstep ih =>
    obtain ⟨t, ht, hsim⟩ := ih
    exact hsim.step hg hf hs hok hstep ht

end

/-! ### Two functions -/

/-- A machine whose memory is the number of objects and the fields that were stored. -/
def fieldMachine : Machine ℕ (ℕ × List ((ℕ × Int32) × ℕ)) where
  const c := some c.toNat
  arith cmd _ a b := if cmd = .addInt then some (a.getD 0 + b.getD 0) else none
  field _ offset a mem := a.bind fun object => mem.2.lookup (object, offset)
  truthy a := a.isSome
  other x ops mem :=
    if x.cmd = .allocTable then some (some mem.1, mem.1 + 1, mem.2)
    else if x.cmd = .storeField then
      some (none, mem.1, (((ops.headD none).getD 0, x.offset),
        ((ops.drop 1).headD none).getD 0) :: mem.2)
    else some (ops.headD none, mem)
  other_mem := by
    intro x ops mem v mem' hw h
    split_ifs at h with h1 h2
    · simp [h1, Cmd.writes] at hw
    · simp [h2, Cmd.writes] at hw
    · cases h
      rfl

/-- Operand `i`. -/
def Value.ofInst (i : UInt32) : Value := ⟨.inst, i⟩

/-- Two objects get a field, and the field of the first of them is returned. -/
def twoObjects : Function where
  blocks := [{ instIndices := [0, 1, 2, 3, 4, 5, 6, 7] }]
  instructions := [
    { cmd := .allocTable },
    { cmd := .allocTable },
    { cmd := .constInt32, args := [⟨.constant, 5⟩] },
    { cmd := .constInt32, args := [⟨.constant, 7⟩] },
    { cmd := .storeField, args := [.ofInst 0, .ofInst 2] },
    { cmd := .storeField, args := [.ofInst 1, .ofInst 3] },
    { cmd := .loadField, args := [.ofInst 0] },
    { cmd := .ret, args := [.ofInst 6] }]

/-- The return gets the field of the first object; after the passes it gets nothing, because of the
store to the second one. -/
theorem store_forwarded_to_other_object :
    (execute fieldMachine twoObjects (0, []) 8).bind (·.trace.getLast?) = some (7, [some 5]) ∧
      (execute fieldMachine (runValuePasses twoObjects) (0, []) 8).bind (·.trace.getLast?) =
        some (7, [none]) := by
  decide

/-- A sum that is computed twice. -/
def sumTwice : Function where
  blocks := [{ instIndices := [0, 1, 2, 3] }]
  instructions := [
    { cmd := .constInt32, args := [⟨.constant, 4⟩] },
    { cmd := .addInt, args := [.ofInst 0, .ofInst 0] },
    { cmd := .addInt, args := [.ofInst 0, .ofInst 0] },
    { cmd := .ret, args := [.ofInst 2] }]

theorem orderly_sumTwice : sumTwice.Orderly :=
  ⟨by decide, by decide, by decide⟩

/-- An instruction whose operands are not replaced. -/
theorem operandsOk_of_same {f : Function} {s : State V M} {u : ℕ} {rest : List ℕ}
    (hr : s.rest = u :: rest) (h : ∀ v ∈ (f.inst u).uses, v.kind = .inst →
      (f.numberingBefore u).operand v = v ∧ f.Kept v.index.toNat ∧
        ¬f.Hoistable v.index.toNat) : f.OperandsOk s := by
  intro u' hu v hv hk
  obtain rfl : u = u' := by simpa [hr] using hu
  obtain ⟨hv, hkept, hhoist⟩ := h v hv hk
  rw [hv]
  exact ⟨hkept, hhoist, fun hne => absurd rfl hne⟩

/-- In the state before the return the second sum was computed after the first one. -/
theorem operandsOk_sumTwice (s : State V M) (hr : s.rest = [3]) (hh : s.history = [0, 1, 2]) :
    sumTwice.OperandsOk s := by
  intro u hu v hv hk
  obtain rfl : u = 3 := by simpa [hr] using hu.symm
  obtain rfl : v = .ofInst 2 := by simpa [sumTwice, Function.inst, Inst.uses] using hv
  have hw : (sumTwice.numberingBefore 3).operand (.ofInst 2) = .ofInst 1 := by decide
  rw [hw, hh]
  exact ⟨by decide, by decide, fun _ => ⟨by decide, [0], [], [],
    by decide, by decide, by decide, by decide, by decide⟩⟩

theorem values_preserved_sumTwice :
    ∃ t, Run fieldMachine (runValuePasses sumTwice) (fun _ => True) (0, []) t ∧
      t.mem = (0, []) ∧
      t.trace.Sublist [(0, [some 4]), (1, [some 4, some 4]), (2, [some 4, some 4]),
        (3, [some 8])] ∧
      t.trace.filter sumTwice.effect = [(0, [some 4]), (3, [some 8])] := by
  have h₀ : Run fieldMachine sumTwice sumTwice.OperandsOk (0, [])
      { rest := [0, 1, 2, 3], mem := (0, []) } := .start rfl
  have h₁ := h₀.step (operandsOk_of_same rfl (by decide)) rfl
  have h₂ := h₁.step (operandsOk_of_same rfl (by decide)) rfl
  have h₃ := h₂.step (operandsOk_of_same rfl (by decide)) rfl
  have h₄ := h₃.step (operandsOk_sumTwice _ rfl rfl) rfl
  exact values_preserved fieldMachine sumTwice orderly_sumTwice h₄

end Mir

end Jaci
