import Jaci.Sccp.Descent
import Mathlib.Algebra.Order.BigOperators.Group.Finset

/-!
# The propagation settles

As long as no `CAPTURE` forces a phi below what its operands meet to, every lattice value only ever
goes down, and what was visited stays stable or is on a list of work.

* `StepSettles` : the steps after which this is so;
* `Settling` : what holds between two steps;
* `Settling.next` : one step keeps it, and there is less to do afterwards.
-/

namespace Jaci

namespace Sccp

variable {pow : Double → Double → Double} {f : BcFunction} {ks ks' : List BcVmConst}
  {lat lat' : OpConstness} {inst : BcInst} {x y : BcOp} {l : ConstnessLattice}
  {st st' : SccpState} {tasks tasks' : List Task}

/-! ### What holds between two steps -/

/-- The visit of an instruction or a phi. -/
def taskOf (x : BcOp) : Task := if x.kind = .inst then .inst x else .phi x

/-- The block was visited, or it is visited now. -/
def Begun (st : SccpState) (tasks : List Task) (b : BcOp) : Prop :=
  b ∈ st.flowWorklistSet ∨ .leave b ∈ tasks

/-- The instruction or phi is to be visited. -/
def Waits (st : SccpState) (tasks : List Task) (x : BcOp) : Prop :=
  x ∈ st.ssaWorklist ∨ taskOf x ∈ tasks

/-- The task is about what the graph names. -/
def Named (f : BcFunction) : Task → Prop
  | .phi x => x.kind = .phi ∧ x ∈ namedOps f
  | .inst x => x.kind = .inst ∧ x ∈ namedOps f
  | .leave b => b ∈ namedBlocks f

/-- What holds between two steps. -/
structure Settling (pow : Double → Double → Double) (f : BcFunction) (st : SccpState)
    (tasks : List Task) : Prop where
  /-- The lattice values are constants of the table. -/
  known : Known f st.constants st.opConstness
  phis : ∀ x, x.kind = .phi → (st.opConstness x).Below (phiLattice st.opConstness (f.phi x))
  /-- What was visited is stable, or will be visited again. -/
  stable : ∀ b, Begun st tasks b → ∀ x, Item f b x →
    StableAt pow f st.constants st.opConstness x ∨ Waits st tasks x
  named : ∀ task ∈ tasks, Named f task
  /-- `ssaWorklist`. -/
  ssa : ∀ x ∈ st.ssaWorklist, x ∈ namedOps f
  /-- `flowWorklist`. -/
  flow : ∀ b ∈ st.flowWorklist, b ∈ namedBlocks f
  /-- A block that was reached was visited, or will be. -/
  reached : ∀ i, st.blockUses i ≠ [] → i = f.exitBlock.index ∨
    ∃ b, b.index = i ∧ (Begun st tasks b ∨ b ∈ st.flowWorklist)

theorem taskOf_inst (h : x.kind = .inst) : taskOf x = .inst x := if_pos h

theorem taskOf_phi (h : x.kind = .phi) : taskOf x = .phi x := if_neg (by rw [h]; decide)

theorem taskOf_inj (h : taskOf x = taskOf y) : x = y := by
  rw [taskOf, taskOf] at h
  split_ifs at h <;> cases h <;> rfl

theorem setLattice_self (uses : List BcOp) : st.setLattice x (st.opConstness x) uses = st := by
  rw [SccpState.setLattice, Function.update_eq_self, if_neg (by simp)]

/-- A lattice value goes down.  Its visit is no task any more if it is stable. -/
theorem Settling.setLattice (hwf : WellFormed f) (h : Settling pow f st tasks)
    (hx : x.kind = .inst ∨ x.kind = .phi) (hl : LatticeOk f st.constants x l)
    (hbelow : (st.opConstness x).Below l)
    (hphi : x.kind = .phi → l.Below (phiLattice st.opConstness (f.phi x)))
    (htasks : ∀ task ∈ tasks', task ∈ tasks)
    (hrest : ∀ task ∈ tasks, task ∈ tasks' ∨ task = taskOf x)
    (hself : x ∉ f.opsOf x ∨ l = st.opConstness x → ∀ b, Begun st tasks b → Item f b x →
      StableAt pow f st.constants (Function.update st.opConstness x l) x ∨ Waits st tasks' x) :
    Settling pow f (st.setLattice x l (f.usesOf x)) tasks' := by
  have hleave : ∀ b, Task.leave b ∈ tasks' ↔ Task.leave b ∈ tasks := fun b =>
    ⟨htasks _, fun hb => (hrest _ hb).resolve_right (by rw [taskOf]; split_ifs <;> simp)⟩
  refine ⟨⟨h.known.table, fun y c hc => ?_, fun y i hi => ?_⟩, fun y hy => ?_, fun b hb y hy => ?_,
    fun task htask => h.named _ (htasks _ htask), fun y hy => ?_, h.flow, fun i hi => ?_⟩
  · by_cases hyx : y = x
    · subst hyx
      exact hl.vm c (by simpa [SccpState.setLattice] using hc)
    · exact h.known.vm y c (by simpa [SccpState.setLattice, Function.update_of_ne hyx] using hc)
  · by_cases hyx : y = x
    · subst hyx
      exact hl.imm i (by simpa [SccpState.setLattice] using hi)
    · exact h.known.imm y i (by simpa [SccpState.setLattice, Function.update_of_ne hyx] using hi)
  · -- the operands of a phi only go down
    have hmono := phiLattice_below (below_update hbelow) (f.phi y)
    show (Function.update st.opConstness x l y).Below _
    by_cases hyx : y = x
    · subst hyx
      rw [Function.update_self]
      exact (hphi hy).trans hmono
    · rw [Function.update_of_ne hyx]
      exact (h.phis y hy).trans hmono
  · have hb' : Begun st tasks b := hb.imp_right (hleave b).1
    have hwait : y ≠ x → Waits st tasks y → Waits st tasks' y := fun hne =>
      Or.imp_right fun hy => (hrest _ hy).resolve_right fun h => hne (taskOf_inj h)
    by_cases hsame : l = st.opConstness x
    · rw [hsame, setLattice_self]
      by_cases hyx : y = x
      · subst hyx
        have hstable := hself (.inr hsame) b hb' hy
        rwa [hsame, Function.update_eq_self] at hstable
      · exact (h.stable b hb' y hy).imp_right (hwait hyx)
    · have hssa : (st.setLattice x l (f.usesOf x)).ssaWorklist = st.ssaWorklist ++ f.usesOf x := by
        rw [SccpState.setLattice, if_pos hsame]
      have hwaits : Waits st tasks' y → Waits (st.setLattice x l (f.usesOf x)) tasks' y :=
        Or.imp_left fun hy => by rw [hssa]; exact List.mem_append_left _ hy
      by_cases hops : x ∈ f.opsOf y
      · -- what reads the value is put on the list
        refine .inr (.inl ?_)
        rw [hssa]
        exact List.mem_append_right _ (hwf.uses x y hx (hwf.kind hy) hops)
      · by_cases hyx : y = x
        · subst hyx
          exact (hself (.inl hops) b hb' hy).imp_right hwaits
        · exact (h.stable b hb' y hy).imp (fun hs => hs.update hx hops (.inl (Ne.symm hyx)))
            fun hw => hwaits (hwait hyx hw)
  · rw [SccpState.setLattice] at hy
    dsimp only at hy
    split_ifs at hy
    · rcases List.mem_append.1 hy with hy | hy
      · exact h.ssa y hy
      · exact mem_namedOps_uses hy
    · exact h.ssa y hy
  · obtain hexit | ⟨b, hb, hat⟩ := h.reached i hi
    · exact .inl hexit
    · exact .inr ⟨b, hb, hat.imp_left fun hb => hb.imp_right (hleave b).2⟩

theorem Settling.constants (hwf : WellFormed f) (h : Settling pow f st tasks)
    (hks : st.constants <+: ks) : Settling pow f { st with constants := ks } tasks :=
  ⟨⟨h.known.table.trans hks, fun y c hc =>
      ⟨(h.known.vm y c hc).1, (h.known.vm y c hc).2.trans_le hks.length_le⟩, h.known.imm⟩,
    h.phis, fun b hb y hy => (h.stable b hb y hy).imp_left fun hs => hs.constants hwf h.known hks,
    h.named, h.ssa, h.flow, h.reached⟩

/-- Blocks that the graph names were put on `flowWorklist`, with where they are reached from. -/
structure Pushed (f : BcFunction) (st st' : SccpState) : Prop extends Extends st st' where
  named : ∀ b ∈ st'.flowWorklist, b ∈ st.flowWorklist ∨ b ∈ namedBlocks f
  reached : ∀ i, st'.blockUses i ≠ [] → st.blockUses i ≠ [] ∨
    ∃ b, b.index = i ∧ (b ∈ st'.flowWorklistSet ∨ b ∈ st'.flowWorklist)

theorem Pushed.refl : Pushed f st st := ⟨.refl, fun _ h => .inl h, fun _ h => .inl h⟩

theorem Pushed.trans {st'' : SccpState} (h : Pushed f st st') (h' : Pushed f st' st'') :
    Pushed f st st'' := by
  refine ⟨h.toExtends.trans h'.toExtends, fun b hb => ?_, fun i hi => ?_⟩
  · exact (h'.named b hb).elim (h.named b) .inr
  · rcases h'.reached i hi with hi | hi
    · refine (h.reached i hi).imp_right fun ⟨b, hat, hb⟩ => ⟨b, hat, ?_⟩
      exact hb.imp (fun hb => by rwa [h'.visited]) (h'.flow b)
    · exact .inr hi

/-- A block that is reached from `pred` is put on the list if it was not visited. -/
theorem pushed_push (pred : BcOp) {b : BcOp} (hb : b ∈ namedBlocks f) :
    Pushed f st ((st.insertUse b.index pred).pushFlow b) := by
  refine ⟨extends_insertUse.trans extends_pushFlow, fun b' hb' => ?_, fun i hi => ?_⟩
  · have hflow : (st.insertUse b.index pred).flowWorklist = st.flowWorklist := by
      rw [SccpState.insertUse]
      split_ifs <;> rfl
    rw [SccpState.pushFlow] at hb'
    split_ifs at hb'
    · rw [hflow] at hb'
      exact .inl hb'
    · rcases List.mem_append.1 hb' with hb' | hb'
      · rw [hflow] at hb'
        exact .inl hb'
      · obtain rfl := List.mem_singleton.1 hb'
        exact .inr hb
  · by_cases hat : b.index = i
    · refine .inr ⟨b, hat, ?_⟩
      rcases @reach_pushFlow (st.insertUse b.index pred) [] b with h | h | h
      · exact .inl h
      · exact .inr h
      · cases h
    · left
      have huses : ((st.insertUse b.index pred).pushFlow b).blockUses i = st.blockUses i := by
        have hpush : ∀ st : SccpState, (st.pushFlow b).blockUses = st.blockUses := fun st => by
          rw [SccpState.pushFlow]
          split_ifs <;> rfl
        rw [hpush, SccpState.insertUse]
        split_ifs
        · rfl
        · exact Function.update_of_ne (Ne.symm hat) _ _
      rwa [huses] at hi

theorem pushed_targets {block : BcOp} {ts : List JumpTarget}
    (h : ∀ t ∈ ts, t.blockOp ∈ namedBlocks f) : Pushed f st (ts.foldl (visitTarget block) st) := by
  induction ts generalizing st with
  | nil => exact .refl
  | cons t ts ih =>
    refine Pushed.trans ?_ (ih fun t ht => h t (List.mem_cons_of_mem _ ht))
    rw [visitTarget]
    split_ifs
    · exact .refl
    · exact pushed_push block (h t List.mem_cons_self)

theorem pushed_edges {block : BcOp} {branch : Bool} {edges : List BcBlockEdge}
    (h : ∀ e ∈ edges, e.target ∈ namedBlocks f) :
    Pushed f st (edges.foldl (visitEdge block branch) st) := by
  induction edges generalizing st with
  | nil => exact .refl
  | cons e edges ih =>
    refine Pushed.trans ?_ (ih fun e he => h e (List.mem_cons_of_mem _ he))
    rw [visitEdge]
    split_ifs
    · exact .refl
    · exact pushed_push block (h e List.mem_cons_self)
    · exact .refl

theorem Settling.pushed (h : Settling pow f st tasks) (hp : Pushed f st st') :
    Settling pow f st' tasks := by
  have hbegun : ∀ b, Begun st' tasks b ↔ Begun st tasks b := fun b => by
    rw [Begun, Begun, hp.visited]
  refine ⟨?_, ?_, fun b hb y hy => ?_, h.named, ?_, fun b hb => ?_, fun i hi => ?_⟩
  · rw [hp.constants, hp.lattice]
    exact h.known
  · rw [hp.lattice]
    exact h.phis
  · have hstable := h.stable b ((hbegun b).1 hb) y hy
    rw [hp.constants, hp.lattice, Waits, hp.ssa]
    exact hstable
  · rw [hp.ssa]
    exact h.ssa
  · exact (hp.named b hb).elim (h.flow b) id
  · rcases hp.reached i hi with hi | ⟨b, hat, hb⟩
    · refine (h.reached i hi).imp_right fun ⟨b, hat, hb⟩ => ⟨b, hat, ?_⟩
      exact hb.imp (hbegun b).2 (hp.flow b)
    · exact .inr ⟨b, hat, hb.imp_left .inl⟩

/-! ### Steps that let it settle -/

/-- The step reads no empty optional, a `CAPTURE` by reference forces no phi below what its operands
meet to, and a number that is not equal to itself is made for a value that will be visited again. -/
structure StepSettles (pow : Double → Double → Double) (f : BcFunction) (p : Place SccpState) :
    Prop where
  /-- The last instruction of a block, too, is evaluated when the block is left. -/
  compares : ∀ task tasks op, p.tasks = task :: tasks → Raw.evaluated f task = some op →
    ¬ ((f.inst op).op = .jumpXEqKB ∧
      ∃ b, operandLattice p.state.opConstness ((f.inst op).arg 0) = .immConstant (.boolean b))
  captures : ∀ op tasks src, p.tasks = .inst op :: tasks → (f.inst op).captured f = some src →
    src.kind = .phi → phiLattice p.state.opConstness (f.phi src) = .notAConstant
  nans : ∀ op tasks, p.tasks = .inst op :: tasks →
    FoldsNan pow p.state.constants p.state.opConstness (f.inst op) →
    p.state.opConstness op = .undetermined → op ∈ p.state.ssaWorklist

/-! ### Less to do -/

/-- How often lattice values can still go down. -/
def heights (f : BcFunction) (lat : OpConstness) : ℕ := ∑ x ∈ (namedOps f).toFinset, (lat x).height

/-- A lattice value went down, or there is nothing more to visit. -/
def Descends (f : BcFunction) (st st' : SccpState) : Prop :=
  heights f st'.opConstness < heights f st.opConstness ∨
    st'.opConstness = st.opConstness ∧ st'.ssaWorklist = st.ssaWorklist

theorem Descends.trans {st'' : SccpState} (h : Descends f st st') (h' : Descends f st' st'') :
    Descends f st st'' := by
  rcases h with h | ⟨hlat, hssa⟩
  · rcases h' with h' | ⟨hlat', -⟩
    · exact .inl (h'.trans h)
    · exact .inl (by rwa [hlat'])
  · rcases h' with h' | ⟨hlat', hssa'⟩
    · exact .inl (by rwa [← hlat])
    · exact .inr ⟨hlat'.trans hlat, hssa'.trans hssa⟩

theorem descends_setLattice (hx : x ∈ namedOps f) (h : (st.opConstness x).Below l)
    (uses : List BcOp) : Descends f st (st.setLattice x l uses) := by
  by_cases hsame : l = st.opConstness x
  · rw [hsame, setLattice_self]
    exact .inr ⟨rfl, rfl⟩
  · refine .inl (Finset.sum_lt_sum (fun y _ => height_le (below_update h y))
      ⟨x, List.mem_toFinset.2 hx, ?_⟩)
    show (Function.update st.opConstness x l x).height < _
    rw [Function.update_self]
    exact height_lt h hsame

/-! ### Visits -/

theorem Settling.visitPhi (hwf : WellFormed f) (h : Settling pow f st (.phi x :: tasks)) :
    Settling pow f (visitPhi f st x) tasks ∧ Descends f st (visitPhi f st x) := by
  obtain ⟨hx, hnamed⟩ := h.named _ List.mem_cons_self
  have hni : x.kind ≠ .inst := by rw [hx]; decide
  have huses : (f.phi x).uses = f.usesOf x := by rw [BcFunction.usesOf, if_neg hni]
  have hops : f.opsOf x = (f.phi x).ops := by rw [BcFunction.opsOf, if_neg hni]
  rw [Sccp.visitPhi]
  refine ⟨?_, descends_setLattice hnamed (h.phis x hx) _⟩
  rw [huses]
  refine h.setLattice hwf (.inr hx) (phiLattice_known h.known hx) (h.phis x hx)
    (fun _ => .refl) (fun _ ht => List.mem_cons_of_mem _ ht) (fun task ht => ?_)
    fun hsame _ _ _ => .inl ?_
  · rw [taskOf_phi hx]
    exact (List.mem_cons.1 ht).symm
  · rw [StableAt, if_neg hni, Function.update_self]
    rcases hsame with hsame | hsame
    · rw [phiLattice_update (hops ▸ hsame)]
    · rw [hsame, Function.update_eq_self, hsame]

theorem Settling.visitCapture (hwf : WellFormed f) (h : Settling pow f st tasks)
    (hcapture : ∀ src, (f.inst x).captured f = some src → src.kind = .phi →
      phiLattice st.opConstness (f.phi src) = .notAConstant) :
    Settling pow f (visitCapture f st (f.inst x)) tasks ∧
      Descends f st (visitCapture f st (f.inst x)) ∧
      ∀ src, (f.inst x).captured f = some src → src.kind = .inst ∨ src.kind = .phi →
        (visitCapture f st (f.inst x)).opConstness src = .notAConstant := by
  rw [Sccp.visitCapture]
  cases hsrc : (f.inst x).captured f with
  | none => exact ⟨h, .inr ⟨rfl, rfl⟩, by simp⟩
  | some src =>
    by_cases hk : src.kind = .inst ∨ src.kind = .phi
    · simp only [if_pos hk]
      have hnamed : src ∈ namedOps f := mem_namedOps_inst (.inl (captured_mem_ops hsrc))
      refine ⟨?_, descends_setLattice hnamed (.inr (.inl rfl)) _, fun src' hsrc' _ => ?_⟩
      · refine h.setLattice hwf hk .notAConstant (.inr (.inl rfl))
          (fun hphi => .inr (.inl (hcapture src hsrc hphi))) (fun _ ht => ht)
          (fun _ ht => .inl ht) fun hsame b hb hitem => ?_
        rcases hk with hinst | hphi
        · refine (h.stable b hb src hitem).imp_left fun hs => ?_
          rcases hsame with hsame | hsame
          · exact hs.update (.inl hinst) hsame (.inr ⟨rfl, hinst⟩)
          · rwa [hsame, Function.update_eq_self]
        · -- the phi is forced to what its operands meet to
          left
          have hni : src.kind ≠ .inst := by rw [hphi]; decide
          have hops : f.opsOf src = (f.phi src).ops := by rw [BcFunction.opsOf, if_neg hni]
          rw [StableAt, if_neg hni, Function.update_self]
          rcases hsame with hsame | hsame
          · rw [phiLattice_update (hops ▸ hsame), hcapture src hsrc hphi]
          · rw [hsame, Function.update_eq_self, ← hsame, hcapture src hsrc hphi]
      · obtain rfl := Option.some.inj hsrc'
        exact Function.update_self _ _ _
    · simp only [if_neg hk]
      refine ⟨h, .inr ⟨rfl, rfl⟩, fun src' hsrc' hk' => ?_⟩
      obtain rfl := Option.some.inj hsrc'
      exact absurd hk' hk

/-- Arithmetic captures nothing. -/
theorem visitCapture_of_isArith (h : inst.op.isArith) : visitCapture f st inst = st := by
  have hnone : inst.captured f = none := by
    rw [BcInst.captured, if_neg]
    rintro ⟨hop, -⟩
    rw [hop] at h
    cases h
  rw [visitCapture, hnone]

/-- What an instruction produces after its visit. -/
theorem evaluate_after (hwf : WellFormed f) (hlat : Known f ks lat) {ks₁ ks₂ : List BcVmConst}
    {l : ConstnessLattice} (hev : evaluate pow f ks lat (f.inst x) = some (l, ks₁))
    (hks : ks₁ <+: ks₂) (hnan : FoldsNan pow ks lat (f.inst x) → lat x ≠ .undetermined) :
    ∃ l' ks', evaluate pow f ks₂ lat (f.inst x) = some (l', ks') ∧ l'.Below (l.merge (lat x)) := by
  have hks₂ := (evaluate_known (hwf.inst x) hlat hev).1.trans hks
  by_cases hnac : l.merge (lat x) = .notAConstant
  · obtain ⟨l', ks', hev'⟩ := @evaluate_isSome _ _ _ ks₂ _ _ _ _ hev
    exact ⟨l', ks', hev', .inr (.inl hnac)⟩
  have hbelow : l.Below (l.merge (lat x)) := ConstnessLattice.below_merge_left
  have hcases : l = .undetermined ∨ l = l.merge (lat x) :=
    hbelow.imp_right fun h => h.resolve_left hnac
  -- a constant that was there before is found again
  have hagain : (∀ c, l = .vmConstant c → c.index < ks.length) ∨
      ks₁ <+: ks₂ ∧ ¬ FoldsNan pow ks lat (f.inst x) := by
    by_cases hund : lat x = .undetermined
    · exact .inr ⟨hks, fun h => hnan h hund⟩
    · refine .inl fun c hc => ?_
      have hmerge : lat x = l.merge (lat x) := by
        rcases (ConstnessLattice.below_merge_right : (lat x).Below (l.merge (lat x))) with h | h | h
        · exact absurd h hund
        · exact absurd h hnac
        · exact h
      rcases hcases with h | h
      · rw [h] at hc
        cases hc
      · exact (hlat.vm x c (by rw [hmerge, ← h, hc])).2
  obtain ⟨ks', hev'⟩ := evaluate_again (hwf.inst x) hlat hks₂ hev hagain
  exact ⟨l, ks', hev', hbelow⟩

theorem Settling.visitInst (hwf : WellFormed f) (h : Settling pow f st (.inst x :: tasks))
    (hcapture : ∀ src, (f.inst x).captured f = some src → src.kind = .phi →
      phiLattice st.opConstness (f.phi src) = .notAConstant)
    (hnan : FoldsNan pow st.constants st.opConstness (f.inst x) →
      st.opConstness x = .undetermined → x ∈ st.ssaWorklist)
    (hrun : visitInst pow f st x = some st') :
    Settling pow f st' tasks ∧ Descends f st st' ∧ st'.flowWorklistSet = st.flowWorklistSet := by
  obtain ⟨hx, hnamed⟩ := h.named _ List.mem_cons_self
  obtain ⟨hcap, hdesc, hsrc⟩ := h.visitCapture (x := x) hwf hcapture
  have hseen : (Sccp.visitCapture f st (f.inst x)).flowWorklistSet = st.flowWorklistSet := by
    rw [Sccp.visitCapture]
    split
    · split_ifs <;> rfl
    · rfl
  have hnan₁ : FoldsNan pow (Sccp.visitCapture f st (f.inst x)).constants
      (Sccp.visitCapture f st (f.inst x)).opConstness (f.inst x) →
      (Sccp.visitCapture f st (f.inst x)).opConstness x = .undetermined →
      x ∈ (Sccp.visitCapture f st (f.inst x)).ssaWorklist := fun hfolds => by
    rw [visitCapture_of_isArith hfolds.1] at hfolds ⊢
    exact hnan hfolds
  simp only [Sccp.visitInst] at hrun
  generalize Sccp.visitCapture f st (f.inst x) = st₁ at hcap hdesc hsrc hseen hnan₁ hrun
  obtain ⟨⟨l, ks₁⟩, hev, hrest⟩ := Option.bind_eq_some_iff.1 hrun
  obtain ⟨⟨ts, ks₂⟩, hjt, rfl⟩ := Option.map_eq_some_iff.1 hrest
  obtain ⟨hks₁, hl⟩ := evaluate_known (hwf.inst x) hcap.known hev
  have hks₂ : ks₁ <+: ks₂ := jumpTargets_table hjt
  have hpushed : Pushed f { st₁ with constants := ks₂ }
      (ts.foldl (Sccp.visitTarget (f.inst x).block) { st₁ with constants := ks₂ }) :=
    pushed_targets (jumpTargets_mem hjt)
  have h₂ := (hcap.constants hwf (hks₁.trans hks₂)).pushed hpushed
  generalize ts.foldl (Sccp.visitTarget (f.inst x).block) { st₁ with constants := ks₂ } = st₂
    at hpushed h₂
  have hlat : st₂.opConstness = st₁.opConstness := hpushed.lattice
  have hbelow : (st₂.opConstness x).Below (l.merge (st₁.opConstness x)) := by
    rw [hlat]
    exact ConstnessLattice.below_merge_right
  have huses : (f.inst x).uses = f.usesOf x := by rw [BcFunction.usesOf, if_pos hx]
  refine ⟨?_, ?_, ?_⟩
  · dsimp only
    rw [huses]
    refine h₂.setLattice hwf (.inl hx) ?_ hbelow (fun hphi => ?_)
      (fun _ ht => List.mem_cons_of_mem _ ht) (fun task ht => ?_) fun hsame _ _ _ => ?_
    · rw [hpushed.constants]
      exact (hl.mono hks₂).merge (hcap.known.lattice.mono (hks₁.trans hks₂))
    · rw [hx] at hphi
      cases hphi
    · rw [taskOf_inst hx]
      exact (List.mem_cons.1 ht).symm
    · by_cases hwait : FoldsNan pow st₁.constants st₁.opConstness (f.inst x) ∧
          st₁.opConstness x = .undetermined
      · refine .inr (.inl ?_)
        rw [hpushed.ssa]
        exact hnan₁ hwait.1 hwait.2
      · left
        have hargs : SameArgs st₁.opConstness (Function.update st₂.opConstness x
            (l.merge (st₁.opConstness x))) (f.inst x) := by
          rcases hsame with hsame | hsame
          · rw [hlat]
            exact sameArgs_update (.inl hx) (by rwa [BcFunction.opsOf, if_pos hx] at hsame)
          · rw [hsame, Function.update_eq_self, hlat]
            exact fun _ => rfl
        obtain ⟨l', ks', hev', hbelow'⟩ := evaluate_after hwf hcap.known hev hks₂
          fun hfolds hund => hwait ⟨hfolds, hund⟩
        rw [StableAt, if_pos hx, hpushed.constants, evaluate_sameArgs hargs, Function.update_self]
        refine ⟨⟨l', ks', hev', hbelow'⟩, fun src hs hk => ?_⟩
        by_cases hsx : src = x
        · subst hsx
          rw [Function.update_self, hsrc src hs hk, ConstnessLattice.merge_notAConstant]
        · rw [Function.update_of_ne hsx, hlat, hsrc src hs hk]
  · refine hdesc.trans (Descends.trans (.inr ⟨hlat, hpushed.ssa⟩) ?_)
    exact descends_setLattice hnamed hbelow _
  · show st₂.flowWorklistSet = st.flowWorklistSet
    rw [hpushed.visited]
    exact hseen

theorem Settling.leaveBlock (hwf : WellFormed f) {b : BcOp}
    (h : Settling pow f st (.leave b :: tasks)) (hrun : leaveBlock f st b = some st') :
    Settling pow f st' tasks ∧ Descends f st st' ∧
      st'.flowWorklistSet = b :: st.flowWorklistSet := by
  rw [Sccp.leaveBlock] at hrun
  obtain ⟨⟨branch, st₁⟩, hends, rfl⟩ := Option.map_eq_some_iff.1 hrun
  obtain ⟨ks, hks, rfl⟩ : ∃ ks, st.constants <+: ks ∧ st₁ = { st with constants := ks } := by
    rw [endsWithBranch] at hends
    split at hends
    · split_ifs at hends
      · obtain ⟨⟨ts, ks⟩, hjt, heq⟩ := Option.map_eq_some_iff.1 hends
        exact ⟨ks, jumpTargets_table hjt, (Prod.mk.inj heq).2.symm⟩
      · exact ⟨_, List.prefix_refl _, (Prod.mk.inj (Option.some.inj hends)).2.symm⟩
    · exact ⟨_, List.prefix_refl _, (Prod.mk.inj (Option.some.inj hends)).2.symm⟩
  have hpushed : Pushed f { st with constants := ks }
      ((f.block b).successors.foldl (visitEdge b branch) { st with constants := ks }) :=
    pushed_edges fun e he => successor_mem_namedBlocks he
  have h₂ := (h.constants hwf hks).pushed hpushed
  dsimp only
  generalize (f.block b).successors.foldl (visitEdge b branch) { st with constants := ks } = st₂
    at hpushed h₂
  have hbegun : ∀ b', Begun { st₂ with flowWorklistSet := b :: st₂.flowWorklistSet } tasks b' ↔
      Begun st₂ (.leave b :: tasks) b' := fun b' => by
    simp only [Begun, List.mem_cons, Task.leave.injEq]
    tauto
  refine ⟨⟨h₂.known, h₂.phis, fun b' hb' y hy => ?_, fun task ht => h.named task
    (List.mem_cons_of_mem _ ht), h₂.ssa, h₂.flow, fun i hi => ?_⟩, .inr ⟨hpushed.lattice,
    hpushed.ssa⟩, ?_⟩
  · refine (h₂.stable b' ((hbegun b').1 hb') y hy).imp_right fun hw => hw.imp_right fun ht => ?_
    refine (List.mem_cons.1 ht).resolve_left ?_
    rw [taskOf]
    split_ifs <;> simp
  · refine (h₂.reached i hi).imp_right fun hreached => ?_
    obtain ⟨b', hat, hb'⟩ := hreached
    exact ⟨b', hat, hb'.imp_left (hbegun b').2⟩
  · exact congrArg (b :: ·) hpushed.visited

/-! ### One step -/

instance (st : SccpState) (tasks : List Task) : DecidablePred (Begun st tasks) :=
  fun _ => inferInstanceAs (Decidable (_ ∨ _))

/-- How many blocks are still to be visited. -/
def blocksLeft (f : BcFunction) (st : SccpState) (tasks : List Task) : ℕ :=
  ((namedBlocks f).toFinset.filter fun b => ¬ Begun st tasks b).card

/-- The length of `flowWorklist`, and whether the other loop comes before it is looked at. -/
def flowLeft (p : Place SccpState) : ℕ :=
  2 * p.state.flowWorklist.length + if p.inSsa ↔ p.state.flowWorklist ≠ [] then 1 else 0

/-- What there is left to do. -/
def workLeft (f : BcFunction) (p : Place SccpState) : ℕ × ℕ × ℕ × ℕ :=
  (blocksLeft f p.state p.tasks, heights f p.state.opConstness,
    2 * p.state.ssaWorklist.length + p.tasks.length, flowLeft p)

/-- The order on what there is left to do. -/
def Less : ℕ × ℕ × ℕ × ℕ → ℕ × ℕ × ℕ × ℕ → Prop :=
  Prod.Lex (· < ·) (Prod.Lex (· < ·) (Prod.Lex (· < ·) (· < ·)))

theorem less_wf : WellFounded Less :=
  WellFounded.prod_lex Nat.lt_wfRel.wf
    (WellFounded.prod_lex Nat.lt_wfRel.wf (WellFounded.prod_lex Nat.lt_wfRel.wf Nat.lt_wfRel.wf))

variable {p p' : Place SccpState} {task : Task}

/-- A task was done. -/
theorem less_of_task (htasks : p.tasks = task :: p'.tasks)
    (hbegun : ∀ b, Begun p'.state p'.tasks b ↔ Begun p.state p.tasks b)
    (hdesc : Descends f p.state p'.state) : Less (workLeft f p') (workLeft f p) := by
  have hblocks : blocksLeft f p'.state p'.tasks = blocksLeft f p.state p.tasks := by
    simp only [blocksLeft, hbegun]
  rw [workLeft, workLeft, hblocks]
  refine .right _ ?_
  rcases hdesc with hlt | ⟨hlat, hssa⟩
  · exact .left _ _ hlt
  · rw [hlat, hssa]
    refine .right _ (.left _ _ ?_)
    rw [htasks]
    exact Nat.add_lt_add_left (Nat.lt_succ_self _) _

theorem begun_cons (h : ∀ b, task ≠ .leave b) (hseen : st'.flowWorklistSet = st.flowWorklistSet)
    (b : BcOp) : Begun st' tasks b ↔ Begun st (task :: tasks) b := by
  rw [Begun, Begun, hseen, List.mem_cons, or_iff_right (h b).symm]

/-- The tasks of a block that is visited now. -/
theorem named_blockTasks (hwf : WellFormed f) {b : BcOp} (hb : b ∈ namedBlocks f) :
    ∀ task ∈ blockTasks f b, Named f task := by
  intro task htask
  simp only [blockTasks, List.mem_append, List.mem_map, List.mem_singleton] at htask
  rcases htask with (⟨x, hx, rfl⟩ | ⟨x, hx, rfl⟩) | rfl
  · exact ⟨hwf.phis b x hx, mem_namedOps_block (.inl hx)⟩
  · exact ⟨(hwf.ops b x hx).1, mem_namedOps_block (.inr hx)⟩
  · exact hb

theorem leave_mem_blockTasks {b b' : BcOp} : Task.leave b ∈ blockTasks f b' ↔ b = b' := by
  simp [blockTasks]

theorem taskOf_mem_blockTasks (hwf : WellFormed f) {b : BcOp} (hx : Item f b x) :
    taskOf x ∈ blockTasks f b := by
  rcases hx with hx | hx
  · rw [taskOf_phi (hwf.phis b x hx)]
    exact List.mem_append_left _ (List.mem_append_left _ (List.mem_map_of_mem hx))
  · rw [taskOf_inst (hwf.ops b x hx).1]
    exact List.mem_append_left _ (List.mem_append_right _ (List.mem_map_of_mem hx))

theorem not_leave_mem_useTasks {b : BcOp} : Task.leave b ∉ useTasks x := by
  rw [useTasks]
  split_ifs <;> simp

theorem Settling.perform (hwf : WellFormed f) (h : Settling pow f p.state p.tasks)
    (hok : StepSettles pow f p) (htasks : p.tasks = task :: tasks)
    (hrun : Sccp.perform pow f task p.state = some st) : Settling pow f st tasks ∧
      Less (workLeft f { p with state := st, tasks := tasks }) (workLeft f p) := by
  rw [htasks] at h
  cases task with
  | phi x =>
    obtain rfl := Option.some.inj hrun
    obtain ⟨hset, hdesc⟩ := h.visitPhi hwf
    refine ⟨hset, less_of_task htasks ?_ hdesc⟩
    rw [htasks]
    exact begun_cons (by simp) rfl
  | inst x =>
    obtain ⟨hset, hdesc, hseen⟩ := h.visitInst hwf (fun src => hok.captures x tasks src htasks)
      (hok.nans x tasks htasks) hrun
    refine ⟨hset, less_of_task htasks ?_ hdesc⟩
    rw [htasks]
    exact begun_cons (by simp) hseen
  | leave b =>
    obtain ⟨hset, hdesc, hseen⟩ := h.leaveBlock hwf hrun
    refine ⟨hset, less_of_task htasks (fun b' => ?_) hdesc⟩
    rw [htasks]
    simp only [Begun, hseen, List.mem_cons, Task.leave.injEq]
    tauto

theorem taskOf_mem_useTasks (h : x.kind = .inst ∨ x.kind = .phi) : taskOf x ∈ useTasks x := by
  rcases h with h | h
  · rw [taskOf_inst h, useTasks, if_pos h]
    exact List.mem_singleton_self _
  · rw [taskOf_phi h, useTasks, if_neg (by rw [h]; decide), if_pos h]
    exact List.mem_singleton_self _

theorem useTasks_length_le : (useTasks x).length ≤ 1 := by
  rw [useTasks]
  split_ifs <;> simp

/-- An instruction or a phi whose operands changed is taken from the list. -/
theorem Settling.popSsa (hwf : WellFormed f) (h : Settling pow f st []) {rest : List BcOp}
    (hx : st.ssaWorklist = x :: rest) :
    Settling pow f { st with ssaWorklist := st.ssaWorklist.tail } (useTasks x) := by
  have hbegun : ∀ b, Begun { st with ssaWorklist := st.ssaWorklist.tail } (useTasks x) b →
      Begun st [] b := fun b => Or.imp_right fun hb => absurd hb not_leave_mem_useTasks
  rw [hx, List.tail_cons] at hbegun ⊢
  refine ⟨h.known, h.phis, fun b hb y hy => ?_, fun task ht => ?_, fun y hy => ?_, h.flow,
    fun i hi => ?_⟩
  · refine (h.stable b (hbegun b hb) y hy).imp_right fun hw => ?_
    have hmem := hw.resolve_right List.not_mem_nil
    rw [hx] at hmem
    rcases List.mem_cons.1 hmem with rfl | hmem
    · exact .inr (taskOf_mem_useTasks (hwf.kind hy))
    · exact .inl hmem
  · have hnamed : x ∈ namedOps f := h.ssa x (by rw [hx]; exact List.mem_cons_self)
    rw [useTasks] at ht
    split_ifs at ht with hinst hphi
    · obtain rfl := List.mem_singleton.1 ht
      exact ⟨hinst, hnamed⟩
    · obtain rfl := List.mem_singleton.1 ht
      exact ⟨hphi, hnamed⟩
    · cases ht
  · exact h.ssa y (by rw [hx]; exact List.mem_cons_of_mem _ hy)
  · refine (h.reached i hi).imp_right fun ⟨b, hat, hb⟩ => ⟨b, hat, ?_⟩
    exact hb.imp_left fun hb => .inl (hb.resolve_right List.not_mem_nil)

/-- A block is taken from the list. -/
theorem Settling.popFlow (hwf : WellFormed f) (h : Settling pow f st []) {b : BcOp}
    {rest : List BcOp} (hb : st.flowWorklist = b :: rest) :
    Settling pow f { st with flowWorklist := st.flowWorklist.tail }
      (if b ∈ st.flowWorklistSet then [] else blockTasks f b) := by
  have hnamed : b ∈ namedBlocks f := h.flow b (by rw [hb]; exact List.mem_cons_self)
  rw [hb, List.tail_cons]
  refine ⟨h.known, h.phis, fun b' hb' y hy => ?_, fun task ht => ?_, h.ssa, fun b' hb' => ?_,
    fun i hi => ?_⟩
  · have hold : b' ∈ st.flowWorklistSet → StableAt pow f st.constants st.opConstness y ∨
        y ∈ st.ssaWorklist := fun hb' =>
      (h.stable b' (.inl hb') y hy).imp_right fun hw => hw.resolve_right List.not_mem_nil
    rcases hb' with hb' | hb'
    · exact (hold hb').imp_right .inl
    · split_ifs at hb' ⊢ with hseen
      · cases hb'
      · obtain rfl := leave_mem_blockTasks.1 hb'
        exact .inr (.inr (taskOf_mem_blockTasks hwf hy))
  · split_ifs at ht
    · cases ht
    · exact named_blockTasks hwf hnamed task ht
  · exact h.flow b' (by rw [hb]; exact List.mem_cons_of_mem _ hb')
  · refine (h.reached i hi).imp_right fun ⟨b', hat, hb'⟩ => ⟨b', hat, ?_⟩
    rcases hb' with hb' | hb'
    · exact .inl (.inl (hb'.resolve_right List.not_mem_nil))
    · rw [hb] at hb'
      rcases List.mem_cons.1 hb' with rfl | hb'
      · left
        by_cases hseen : b' ∈ st.flowWorklistSet
        · exact .inl hseen
        · right
          rw [if_neg hseen]
          exact leave_mem_blockTasks.2 rfl
      · exact .inr hb'

/-- **One step.** -/
theorem Settling.next (hwf : WellFormed f) (h : Settling pow f p.state p.tasks)
    (hok : StepSettles pow f p) (hnext : (sccpLoops pow f).next f p = .goes p') :
    Settling pow f p'.state p'.tasks ∧ Less (workLeft f p') (workLeft f p) := by
  obtain ⟨task, tasks, st, htasks, hrun, rfl⟩ | ⟨htasks, hssa, x, rest, hx, rfl⟩ |
    ⟨htasks, hssa, hempty, hflow, rfl⟩ | ⟨htasks, hssa, b, rest, hb, rfl⟩ |
    ⟨htasks, hssa, hflow, rfl⟩ := Loops.next_goes_iff.1 hnext
  · exact h.perform hwf hok htasks hrun
  all_goals
    obtain ⟨st, tasks, inSsa⟩ := p
    subst htasks hssa
  · refine ⟨h.popSsa hwf hx, ?_⟩
    have hblocks : blocksLeft f { st with ssaWorklist := st.ssaWorklist.tail } (useTasks x) =
        blocksLeft f st [] := by
      simp only [blocksLeft, Begun, not_leave_mem_useTasks, List.not_mem_nil]
    have hlength : st.ssaWorklist.length = rest.length + 1 := congrArg List.length hx
    have htail : st.ssaWorklist.tail.length = rest.length := congrArg (List.length ∘ List.tail) hx
    have hone := useTasks_length_le (x := x)
    simp only [workLeft, sccpLoops, hblocks]
    refine .right _ (.right _ (.left _ _ ?_))
    rw [htail, hlength, List.length_nil]
    omega
  · exact ⟨h, .right _ (.right _ (.right _ (by simp_all [flowLeft, sccpLoops])))⟩
  · refine ⟨h.popFlow hwf hb, ?_⟩
    have hb' : st.flowWorklist = b :: rest := hb
    show Less (workLeft f ⟨{ st with flowWorklist := st.flowWorklist.tail },
      if b ∈ st.flowWorklistSet then [] else blockTasks f b, false⟩) _
    by_cases hseen : b ∈ st.flowWorklistSet
    · -- the block was visited before
      rw [if_pos hseen]
      refine .right _ (.right _ (.right _ ?_))
      simp only [flowLeft, hb', List.tail_cons, List.length_cons]
      split_ifs <;> omega
    · rw [if_neg hseen]
      refine .left _ _ (Finset.card_lt_card (Finset.ssubset_iff_of_subset ?_ |>.2 ⟨b, ?_, ?_⟩))
      · intro b' hmem
        obtain ⟨hmem, hnot⟩ := Finset.mem_filter.1 hmem
        refine Finset.mem_filter.2 ⟨hmem, fun hbegun => hnot ?_⟩
        exact .inl (hbegun.resolve_right List.not_mem_nil)
      · refine Finset.mem_filter.2 ⟨List.mem_toFinset.2 (h.flow b (by simp [hb'])), ?_⟩
        rintro (hbegun | hbegun)
        · exact hseen hbegun
        · cases hbegun
      · exact fun hmem => (Finset.mem_filter.1 hmem).2 (.inr (leave_mem_blockTasks.2 rfl))
  · exact ⟨h, .right _ (.right _ (.right _ (by simp_all [flowLeft, sccpLoops])))⟩

end Sccp

end Jaci
