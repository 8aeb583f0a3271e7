import Jaci.Bytecode.Insn
import Mathlib.Tactic.IntervalCases

/-!
# Jump folding

`foldJumps` makes each recorded jump go where a chain of forward jumps after it ends.  It changes the
code in place, so that a chain may lead through jumps that it has changed before.

* `Leads` : where unconditional jumps lead;
* `Folded` : what the code is to the original one in the middle of the work;
* `foldJumps_runs` : **the runs stay the same** but for unconditional jumps;
* `backward_jump` : but not all of these go forward.
-/

namespace Jaci

namespace Bytecode

structure Jump where
  source : ℕ
  target : ℕ
deriving DecidableEq

def word (insns : List UInt32) (pc : ℕ) : UInt32 := insns.getD pc 0

/-- The loop of `foldJumps` that follows forward jumps. -/
def follow (insns : List UInt32) : ℕ → ℕ → Option ℕ
  | 0, _ => none
  | fuel + 1, targetLabel =>
    if opcode (word insns targetLabel) = some .JUMP ∧ insnD (word insns targetLabel) ≥ 0 then
      follow insns fuel (jumpTarget insns targetLabel).toNat
    else some targetLabel

/-- A round of `foldJumps`. -/
def foldJump (insns : List UInt32) (jump : Jump) : Option (List UInt32 × Jump) :=
  let jumpInsn := word insns jump.source
  (follow insns (insns.length + 1) (jumpTarget insns jump.source).toNat).map fun targetLabel =>
    let targetInsn := word insns targetLabel
    let offset : ℤ := targetLabel - jump.source - 1
    let insns :=
      if opcode jumpInsn = some .JUMP ∧ opcode targetInsn = some .RETURN then
        insns.set jump.source targetInsn
      else if FitsD offset then insns.set jump.source (withD jumpInsn offset)
      else insns
    (insns, { jump with target := targetLabel })

/-- The loop of `foldJumps`. -/
def foldAll : List UInt32 → List Jump → Option (List UInt32 × List Jump)
  | insns, [] => some (insns, [])
  | insns, jump :: jumps =>
    (foldJump insns jump).bind fun (insns, jump) =>
      (foldAll insns jumps).map fun (insns, jumps) => (insns, jump :: jumps)

def foldJumps (insns : List UInt32) (jumps : List Jump) (hasLongJumps : Bool) :
    Option (List UInt32 × List Jump) :=
  if hasLongJumps then some (insns, jumps) else foldAll insns jumps

/-! ### Runs -/

/-- What an instruction does, apart from unconditional jumps and returns. -/
inductive Exit (σ : Type) where
  | halt
  | goto (pc : ℕ) (s : σ)
  | jump (s : σ)

/-- An instruction without the offset of a jump. -/
def shape (insn : UInt32) : UInt32 :=
  if (opcode insn).any LuauOpcode.isJumpD then withD insn 0 else insn

section Runs

variable {σ : Type} (exec : ℕ → UInt32 → σ → Exit σ) (hides : UInt32 → Bool)

/-- An instruction runs: it shows itself and its state, and the run goes on if it does.  `exec` says
what other instructions than unconditional jumps and returns do; it does not see the offset of a
jump. -/
inductive Step (insns : List UInt32) (pc : ℕ) (s : σ) : UInt32 × σ → Option (ℕ × σ) → Prop
  | ret (hop : opcode (word insns pc) = some .RETURN) : Step insns pc s (word insns pc, s) none
  | jump {t : ℕ} (hop : opcode (word insns pc) = some .JUMP) (ht : jumpTarget insns pc = t) :
      Step insns pc s (shape (word insns pc), s) (some (t, s))
  | halt (hjump : opcode (word insns pc) ≠ some .JUMP)
      (hret : opcode (word insns pc) ≠ some .RETURN)
      (hexec : exec pc (shape (word insns pc)) s = .halt) :
      Step insns pc s (shape (word insns pc), s) none
  | goto {t : ℕ} {s' : σ} (hjump : opcode (word insns pc) ≠ some .JUMP)
      (hret : opcode (word insns pc) ≠ some .RETURN)
      (hexec : exec pc (shape (word insns pc)) s = .goto t s') :
      Step insns pc s (shape (word insns pc), s) (some (t, s'))
  | branch {t : ℕ} {s' : σ} (hjump : opcode (word insns pc) ≠ some .JUMP)
      (hbranch : (opcode (word insns pc)).any LuauOpcode.isJumpD)
      (hexec : exec pc (shape (word insns pc)) s = .jump s') (ht : jumpTarget insns pc = t) :
      Step insns pc s (shape (word insns pc), s) (some (t, s'))

/-- What a run may begin with, but for the unconditional jumps that are hidden. -/
inductive Runs (insns : List UInt32) : ℕ → σ → List (UInt32 × σ) → Prop
  | stop {pc : ℕ} {s : σ} : Runs insns pc s []
  | last {pc : ℕ} {s : σ} {shown : UInt32 × σ} (h : Step exec insns pc s shown none) :
      Runs insns pc s [shown]
  | step {pc t : ℕ} {s s' : σ} {shown : UInt32 × σ} {trace : List (UInt32 × σ)}
      (h : Step exec insns pc s shown (some (t, s')))
      (hshown : ¬ (opcode (word insns pc) = some .JUMP ∧ hides (word insns pc)))
      (hruns : Runs insns t s' trace) : Runs insns pc s (shown :: trace)
  | skip {pc t : ℕ} {s : σ} {trace : List (UInt32 × σ)}
      (hop : opcode (word insns pc) = some .JUMP) (hides : hides (word insns pc))
      (ht : jumpTarget insns pc = t) (hruns : Runs insns t s trace) : Runs insns pc s trace

end Runs

/-! ### Chains -/

variable {insns c c' : List UInt32} {pc t u q n : ℕ}

/-- Unconditional jumps lead from one place to another, in `n` steps. -/
inductive Leads (insns : List UInt32) : ℕ → ℕ → ℕ → Prop
  | refl {pc : ℕ} : Leads insns 0 pc pc
  | step {n pc t u : ℕ} (hop : opcode (word insns pc) = some .JUMP) (ht : jumpTarget insns pc = t)
      (h : Leads insns n t u) : Leads insns (n + 1) pc u

theorem Leads.trans {m : ℕ} (h : Leads insns m t u) (h' : Leads insns n u q) :
    Leads insns (m + n) t q := by
  induction h with
  | refl => rwa [Nat.zero_add]
  | step hop ht _ ih =>
    rw [Nat.add_right_comm]
    exact .step hop ht (ih h')

/-- What lies on the way to the end of a chain leads to it, too. -/
theorem Leads.rest {m : ℕ} (h : Leads insns n t q) (hq : opcode (word insns q) ≠ some .JUMP)
    (hu : Leads insns m t u) : ∃ k, Leads insns k u q ∧ k + m = n := by
  induction hu generalizing n with
  | refl => exact ⟨n, h, rfl⟩
  | step hop ht _ ih =>
    cases h with
    | refl => exact absurd hop hq
    | step hop' ht' h =>
      obtain rfl : _ = _ := Int.ofNat.inj (ht.symm.trans ht')
      obtain ⟨k, hk, rfl⟩ := ih h
      exact ⟨k, hk, rfl⟩

/-- Unconditional jumps lead to another instruction. -/
def Visible (insns : List UInt32) (t q : ℕ) : Prop :=
  (∃ n, Leads insns n t q) ∧ opcode (word insns q) ≠ some .JUMP

theorem Visible.unique {q' : ℕ} (h : Visible insns t q) (h' : Visible insns t q') : q = q' := by
  obtain ⟨⟨n, hn⟩, hq⟩ := h
  obtain ⟨⟨m, hm⟩, hq'⟩ := h'
  obtain ⟨k, hk, -⟩ := hn.rest hq hm
  cases hk with
  | refl => rfl
  | step hop _ _ => exact absurd hop hq'

/-! ### Folded code -/

/-- What the word at `pc` has become. -/
inductive Changed (c c' : List UInt32) (pc : ℕ) : Prop
  | same (h : word c' pc = word c pc)
  | further {t u n : ℕ} (offset : ℤ) (hop : (opcode (word c pc)).any LuauOpcode.isJumpD)
      (h : word c' pc = withD (word c pc) offset) (ht : jumpTarget c pc = t)
      (hu : jumpTarget c' pc = u) (hleads : Leads c n t u)
  | returns {q n : ℕ} (hop : opcode (word c pc) = some .JUMP) (hleads : Leads c n pc q)
      (hret : opcode (word c q) = some .RETURN) (h : word c' pc = word c q)

/-- The code in the middle of the work, and the original one. -/
def Folded (c c' : List UInt32) : Prop := ∀ pc, Changed c c' pc

theorem jumpTarget_eq (h : word c' pc = word c pc) : jumpTarget c' pc = jumpTarget c pc := by
  rw [jumpTarget, jumpTarget, ← word, ← word, h]

/-- A jump of the changed code goes some way of the original one. -/
theorem Folded.step (h : Folded c c') (hop : opcode (word c' pc) = some .JUMP)
    (hu : jumpTarget c' pc = u) : ∃ n, Leads c (n + 1) pc u ∧ opcode (word c pc) = some .JUMP := by
  cases h pc with
  | same heq =>
    rw [heq] at hop
    exact ⟨0, .step hop (jumpTarget_eq heq ▸ hu) .refl, hop⟩
  | further offset hany heq ht hu' hleads =>
    rw [heq, opcode_withD] at hop
    obtain rfl : _ = _ := Int.ofNat.inj (hu.symm.trans hu')
    exact ⟨_, .step hop ht hleads, hop⟩
  | returns hjump _ hret heq =>
    rw [heq, hret] at hop
    cases hop

theorem Folded.leads (h : Folded c c') (hleads : Leads c' n t u) : ∃ m, Leads c m t u := by
  induction hleads with
  | refl => exact ⟨0, .refl⟩
  | step hop ht _ ih =>
    obtain ⟨m, hm⟩ := ih
    obtain ⟨k, hk, -⟩ := h.step hop ht
    exact ⟨_, hk.trans hm⟩

/-- An instruction of the original code, and the one in its place. -/
inductive Twin (c c' : List UInt32) : ℕ → ℕ → Prop
  | here {q : ℕ} (hjump : opcode (word c q) ≠ some .JUMP)
      (hshape : shape (word c' q) = shape (word c q))
      (hop : opcode (word c' q) = opcode (word c q))
      (hret : opcode (word c q) = some .RETURN → word c' q = word c q)
      (htarget : ∀ t : ℕ, jumpTarget c q = t → ∃ u n, jumpTarget c' q = (u : ℕ) ∧ Leads c n t u)
      (hback : ∀ u : ℕ, jumpTarget c' q = u → ∃ t n, jumpTarget c q = (t : ℕ) ∧ Leads c n t u) :
      Twin c c' q q
  | ret {q q' : ℕ} (hop : opcode (word c q) = some .RETURN) (h : word c' q' = word c q) :
      Twin c c' q q'

theorem Folded.twin (h : Folded c c') (hjump : opcode (word c q) ≠ some .JUMP) : Twin c c' q q := by
  cases h q with
  | same heq =>
    have htarget := jumpTarget_eq heq
    refine .here hjump (by rw [heq]) (by rw [heq]) (fun _ => heq) ?_ ?_
    · exact fun t ht => ⟨t, 0, htarget.trans ht, .refl⟩
    · exact fun u hu => ⟨u, 0, htarget.symm.trans hu, .refl⟩
  | further offset hany heq ht hu hleads =>
    have hop : opcode (word c' q) = opcode (word c q) := by rw [heq, opcode_withD]
    refine .here hjump ?_ hop ?_ ?_ ?_
    · rw [shape, shape, hop, if_pos hany, if_pos hany, heq, withD_withD]
    · intro hret
      rw [hret] at hany
      exact absurd hany (by decide)
    · intro t' ht'
      obtain rfl : _ = _ := Int.ofNat.inj (ht.symm.trans ht')
      exact ⟨_, _, hu, hleads⟩
    · intro u' hu'
      obtain rfl : _ = _ := Int.ofNat.inj (hu.symm.trans hu')
      exact ⟨_, _, ht, hleads⟩
  | returns hop => exact absurd hop hjump

theorem Twin.visible {q' : ℕ} (h : Twin c c' q q') : opcode (word c' q') ≠ some .JUMP := by
  cases h with
  | here hjump _ hop => rwa [hop]
  | ret hop h =>
    rw [h, hop]
    decide

theorem Twin.original {q' : ℕ} (h : Twin c c' q q') : opcode (word c q) ≠ some .JUMP := by
  cases h with
  | here hjump => exact hjump
  | ret hop =>
    rw [hop]
    decide

/-- The changed code leads to the twin of where the original code leads. -/
theorem Folded.forth (h : Folded c c') (hleads : Leads c n t q)
    (hq : opcode (word c q) ≠ some .JUMP) : ∃ q' m, Leads c' m t q' ∧ Twin c c' q q' := by
  induction n using Nat.strong_induction_on generalizing t with
  | h n ih =>
    cases hleads with
    | refl => exact ⟨_, 0, .refl, h.twin hq⟩
    | @step n _ v _ hop ht hleads =>
      cases h t with
      | same heq =>
        obtain ⟨q', m, hm, htwin⟩ := ih n (Nat.lt_succ_self n) hleads
        exact ⟨q', m + 1, .step (heq ▸ hop) ((jumpTarget_eq heq).trans ht) hm, htwin⟩
      | further offset hany heq ht' hu hchain =>
        -- the new target lies further on the same way
        obtain rfl : _ = _ := Int.ofNat.inj (ht.symm.trans ht')
        obtain ⟨k, hk, hlt⟩ := hleads.rest hq hchain
        obtain ⟨q', m, hm, htwin⟩ := ih k (by omega) hk
        refine ⟨q', m + 1, .step ?_ hu hm, htwin⟩
        rwa [heq, opcode_withD]
      | returns hop' hchain hret heq =>
        have hend : q = _ := Visible.unique ⟨⟨_, .step hop ht hleads⟩, hq⟩
          ⟨⟨_, hchain⟩, by rw [hret]; decide⟩
        subst hend
        exact ⟨t, 0, .refl, .ret hret heq⟩

/-- And it leads nowhere else. -/
theorem Folded.back {q' : ℕ} (h : Folded c c') (hleads : Leads c' n t q')
    (hq : opcode (word c' q') ≠ some .JUMP) : ∃ q m, Leads c m t q ∧ Twin c c' q q' := by
  induction hleads with
  | @refl pc =>
    by_cases hjump : opcode (word c pc) = some .JUMP
    · cases h pc with
      | same heq => exact absurd (heq ▸ hjump) hq
      | further offset _ heq => exact absurd (by rw [heq, opcode_withD, hjump]) hq
      | returns _ hchain hret heq => exact ⟨_, _, hchain, .ret hret heq⟩
    · exact ⟨pc, 0, .refl, h.twin hjump⟩
  | step hop ht _ ih =>
    obtain ⟨q, m, hm, htwin⟩ := ih hq
    obtain ⟨k, hk, -⟩ := h.step hop ht
    exact ⟨q, _, hk.trans hm, htwin⟩

/-! ### Runs of the folded code -/

section Preservation

variable {σ : Type} {exec : ℕ → UInt32 → σ → Exit σ} {s : σ} {shown : UInt32 × σ}
  {trace : List (UInt32 × σ)} {next : Option (ℕ × σ)}

/-- A run goes on, perhaps further along a chain of the original code. -/
inductive Onward (c : List UInt32) : Option (ℕ × σ) → Option (ℕ × σ) → Prop
  | done : Onward c none none
  | on {t u n : ℕ} {s : σ} (h : Leads c n t u) : Onward c (some (t, s)) (some (u, s))

theorem Twin.forth {q' : ℕ} (h : Twin c c' q q') (hstep : Step exec c q s shown next) :
    ∃ next', Step exec c' q' s shown next' ∧ Onward c next next' := by
  cases h with
  | here hjump hshape hop hret htarget hback =>
    cases hstep with
    | ret h =>
      refine ⟨none, ?_, .done⟩
      rw [← hret h]
      exact .ret (hop.trans h)
    | jump h => exact absurd h hjump
    | halt _ hr he =>
      refine ⟨none, ?_, .done⟩
      rw [← hshape] at he ⊢
      exact .halt (hop ▸ hjump) (hop ▸ hr) he
    | goto _ hr he =>
      refine ⟨_, ?_, .on .refl⟩
      rw [← hshape] at he ⊢
      exact .goto (hop ▸ hjump) (hop ▸ hr) he
    | branch _ hb he ht =>
      obtain ⟨u, n, hu, hleads⟩ := htarget _ ht
      refine ⟨_, ?_, .on hleads⟩
      rw [← hshape] at he ⊢
      exact .branch (hop ▸ hjump) (hop ▸ hb) he hu
  | ret hop h =>
    cases hstep with
    | ret _ =>
      refine ⟨none, ?_, .done⟩
      rw [← h]
      exact .ret (h ▸ hop)
    | jump hjump => simp [hop] at hjump
    | halt _ hr _ => exact absurd hop hr
    | goto _ hr _ => exact absurd hop hr
    | branch _ hb _ _ => simp [hop, LuauOpcode.isJumpD] at hb

theorem Twin.back {q' : ℕ} (h : Twin c c' q q') (hstep : Step exec c' q' s shown next) :
    ∃ next', Step exec c q s shown next' ∧ Onward c next' next := by
  cases h with
  | here hjump hshape hop hret htarget hback =>
    rw [← hop] at hjump
    cases hstep with
    | ret h =>
      refine ⟨none, ?_, .done⟩
      rw [hret (hop ▸ h)]
      exact .ret (hop ▸ h)
    | jump h => exact absurd h hjump
    | halt _ hr he =>
      refine ⟨none, ?_, .done⟩
      rw [hshape] at he ⊢
      exact .halt (hop ▸ hjump) (hop ▸ hr) he
    | goto _ hr he =>
      refine ⟨_, ?_, .on .refl⟩
      rw [hshape] at he ⊢
      exact .goto (hop ▸ hjump) (hop ▸ hr) he
    | branch _ hb he hu =>
      obtain ⟨t, n, ht, hleads⟩ := hback _ hu
      refine ⟨_, ?_, .on hleads⟩
      rw [hshape] at he ⊢
      exact .branch (hop ▸ hjump) (hop ▸ hb) he ht
  | ret hop h =>
    rw [← h] at hop
    cases hstep with
    | ret _ =>
      refine ⟨none, ?_, .done⟩
      rw [h]
      exact .ret (h ▸ hop)
    | jump hjump => simp [hop] at hjump
    | halt _ hr _ => exact absurd hop hr
    | goto _ hr _ => exact absurd hop hr
    | branch _ hb _ _ => simp [hop, LuauOpcode.isJumpD] at hb

/-- Every unconditional jump is hidden. -/
def silent (_ : UInt32) : Bool := true

def Rest (exec : ℕ → UInt32 → σ → Exit σ) (c : List UInt32) (trace : List (UInt32 × σ)) :
    Option (ℕ × σ) → Prop
  | none => trace = []
  | some (t, s) => Runs exec silent c t s trace

theorem runs_leads (h : Leads c n t u) (hruns : Runs exec silent c u s trace) :
    Runs exec silent c t s trace := by
  induction h with
  | refl => exact hruns
  | step hop ht _ ih => exact .skip hop rfl ht (ih hruns)

/-- A run shows the instruction that unconditional jumps lead to. -/
theorem runs_cons : Runs exec silent c t s (shown :: trace) ↔
    ∃ q n next, Leads c n t q ∧ opcode (word c q) ≠ some .JUMP ∧ Step exec c q s shown next ∧
      Rest exec c trace next := by
  constructor
  · intro h
    generalize htrace : shown :: trace = whole at h
    induction h with
    | stop => cases htrace
    | @last pc s _ h =>
      cases htrace
      refine ⟨pc, 0, none, .refl, ?_, h, rfl⟩
      cases h with
      | ret hop => simp [hop]
      | halt hjump => exact hjump
    | @step pc _ _ _ _ _ h hshown hruns =>
      cases htrace
      exact ⟨pc, 0, _, .refl, fun hjump => hshown ⟨hjump, rfl⟩, h, hruns⟩
    | skip hop _ ht _ ih =>
      obtain ⟨q, n, next, hleads, hq⟩ := ih htrace
      exact ⟨q, n + 1, next, .step hop ht hleads, hq⟩
  · rintro ⟨q, n, next, hleads, hjump, hstep, hrest⟩
    refine runs_leads hleads ?_
    cases next with
    | none =>
      obtain rfl : trace = [] := hrest
      exact .last hstep
    | some => exact .step hstep (fun hhidden => hjump hhidden.1) hrest

/-- A run does not see how far along a chain it begins. -/
theorem runs_leads_iff (h : Leads c n t u) :
    Runs exec silent c t s trace ↔ Runs exec silent c u s trace := by
  refine ⟨fun hruns => ?_, runs_leads h⟩
  cases trace with
  | nil => exact .stop
  | cons shown trace =>
    obtain ⟨q, m, next, hleads, hq, hrest⟩ := runs_cons.1 hruns
    obtain ⟨k, hk, -⟩ := hleads.rest hq h
    exact runs_cons.2 ⟨q, k, next, hk, hq, hrest⟩

/-- The changed code runs as the original one does. -/
theorem Folded.runs_iff (h : Folded c c') :
    Runs exec silent c t s trace ↔ Runs exec silent c' t s trace := by
  induction trace generalizing t s with
  | nil => exact ⟨fun _ => .stop, fun _ => .stop⟩
  | cons shown trace ih =>
    have hrest : ∀ {next next' : Option (ℕ × σ)}, Onward c next next' →
        (Rest exec c trace next ↔ Rest exec c' trace next') := by
      intro next next' honward
      cases honward with
      | done => exact Iff.rfl
      | on hleads => exact (runs_leads_iff hleads).trans ih
    rw [runs_cons, runs_cons]
    constructor
    · rintro ⟨q, n, next, hleads, hq, hstep, hr⟩
      obtain ⟨q', m, hleads', htwin⟩ := h.forth hleads hq
      obtain ⟨next', hstep', honward⟩ := htwin.forth hstep
      exact ⟨q', m, next', hleads', htwin.visible, hstep', (hrest honward).1 hr⟩
    · rintro ⟨q', n, next', hleads', hq, hstep', hr⟩
      obtain ⟨q, m, hleads, htwin⟩ := h.back hleads' hq
      obtain ⟨next, hstep, honward⟩ := htwin.back hstep'
      exact ⟨q, m, next, hleads, htwin.original, hstep, (hrest honward).2 hr⟩

end Preservation

/-! ### The loop -/

theorem word_set {i : ℕ} {insn : UInt32} (hi : i < insns.length) :
    word (insns.set i insn) pc = if pc = i then insn else word insns pc := by
  rw [word, word, List.getD_eq_getElem?_getD, List.getD_eq_getElem?_getD, List.getElem?_set]
  by_cases h : i = pc
  · subst h
    simp [hi]
  · rw [if_neg h, if_neg (Ne.symm h)]

/-- The jumps that `patchJumpD` has recorded: each is made by an instruction of its own, and every jump
goes to an instruction. -/
structure Recorded (insns : List UInt32) (jumps : List Jump) : Prop where
  sources : ∀ jump ∈ jumps, Starts insns jump.source ∧
    (opcode (word insns jump.source)).any LuauOpcode.isJumpD
  distinct : (jumps.map Jump.source).Nodup
  targets : ∀ pc, Starts insns pc → (opcode (word insns pc)).any LuauOpcode.isJumpD →
    ∃ t : ℕ, jumpTarget insns pc = t ∧ Starts insns t

/-- What holds of the code before the rounds for the jumps that are left. -/
structure Middle (c c' : List UInt32) (jumps : List Jump) : Prop where
  length_eq : c'.length = c.length
  folded : Folded c c'
  targets : ∀ pc, Starts c pc → (opcode (word c' pc)).any LuauOpcode.isJumpD →
    ∃ t : ℕ, jumpTarget c' pc = t ∧ Starts c t
  untouched : ∀ jump ∈ jumps, word c' jump.source = word c jump.source

theorem Recorded.middle {jumps : List Jump} (h : Recorded c jumps) : Middle c c jumps :=
  ⟨rfl, fun _ => .same rfl, h.targets, fun _ _ => rfl⟩

/-- Forward jumps come to an end. -/
theorem Middle.follow {jumps : List Jump} (h : Middle c c' jumps) {fuel : ℕ}
    (hfuel : c.length < fuel + t) (ht : Starts c t) :
    ∃ u n, follow c' fuel t = some u ∧ Leads c' n t u ∧ Starts c u := by
  induction fuel generalizing t with
  | zero => exact absurd ht.lt (by omega)
  | succ fuel ih =>
    rw [Bytecode.follow]
    by_cases hjump : opcode (word c' t) = some .JUMP ∧ insnD (word c' t) ≥ 0
    · obtain ⟨v, hv, hstarts⟩ := h.targets t ht (by rw [hjump.1]; rfl)
      -- the target lies after the jump
      have hlt : t < v := by
        have := hjump.2
        rw [jumpTarget, ← word] at hv
        omega
      rw [if_pos hjump, hv, Int.toNat_natCast]
      obtain ⟨u, n, hu, hleads, hend⟩ := ih (by omega) hstarts
      exact ⟨u, n + 1, hu, .step hjump.1 hv hleads, hend⟩
    · rw [if_neg hjump]
      exact ⟨t, 0, rfl, .refl, ht⟩

theorem Changed.congr {c'' : List UInt32} (h : Changed c c' pc) (heq : word c'' pc = word c' pc) :
    Changed c c'' pc := by
  cases h with
  | same h => exact .same (heq.trans h)
  | further offset hop h ht hu hleads =>
    exact .further offset hop (heq.trans h) ht ((jumpTarget_eq heq).trans hu) hleads
  | returns hop hleads hret h => exact .returns hop hleads hret (heq.trans h)

/-- A word is changed as it may be. -/
theorem Middle.set {jump : Jump} {jumps : List Jump} {insn : UInt32} (h : Middle c c' (jump :: jumps))
    (hsource : Starts c jump.source) (hnot : ∀ other ∈ jumps, other.source ≠ jump.source)
    (hchanged : ∀ c'', word c'' jump.source = insn → Changed c c'' jump.source)
    (htarget : ∀ c'', word c'' jump.source = insn → (opcode insn).any LuauOpcode.isJumpD →
      ∃ t : ℕ, jumpTarget c'' jump.source = t ∧ Starts c t) :
    Middle c (c'.set jump.source insn) jumps := by
  have hword : ∀ pc, word (c'.set jump.source insn) pc =
      if pc = jump.source then insn else word c' pc :=
    fun pc => word_set (h.length_eq ▸ hsource.lt)
  have hself : word (c'.set jump.source insn) jump.source = insn := by rw [hword, if_pos rfl]
  constructor
  · rw [List.length_set, h.length_eq]
  · intro pc
    by_cases hpc : pc = jump.source
    · subst hpc
      exact hchanged _ hself
    · exact (h.folded pc).congr (by rw [hword, if_neg hpc])
  · intro pc hstart hany
    by_cases hpc : pc = jump.source
    · subst hpc
      exact htarget _ hself (hself ▸ hany)
    · have heq : word (c'.set jump.source insn) pc = word c' pc := by rw [hword, if_neg hpc]
      rw [jumpTarget_eq heq]
      exact h.targets pc hstart (heq ▸ hany)
  · intro other hother
    rw [hword, if_neg (hnot other hother)]
    exact h.untouched other (List.mem_cons_of_mem _ hother)

theorem Middle.tail {jump : Jump} {jumps : List Jump} (h : Middle c c' (jump :: jumps)) :
    Middle c c' jumps :=
  { h with untouched := fun other hother => h.untouched other (List.mem_cons_of_mem _ hother) }

/-- A return of the changed code is one that the original code leads to. -/
theorem Folded.return (h : Folded c c') (hret : opcode (word c' u) = some .RETURN) :
    ∃ q n, Leads c n u q ∧ opcode (word c q) = some .RETURN ∧ word c' u = word c q := by
  cases h u with
  | same heq => exact ⟨u, 0, .refl, heq ▸ hret, heq⟩
  | further _ hany heq =>
    rw [heq, opcode_withD] at hret
    rw [hret] at hany
    exact absurd hany (by decide)
  | returns _ hleads hret' heq => exact ⟨_, _, hleads, hret', heq⟩

theorem Middle.foldJump {jump : Jump} {jumps : List Jump} (h : Middle c c' (jump :: jumps))
    (hsource : Starts c jump.source) (hany : (opcode (word c jump.source)).any LuauOpcode.isJumpD)
    (hnot : ∀ other ∈ jumps, other.source ≠ jump.source) :
    ∃ c'' jump', foldJump c' jump = some (c'', jump') ∧ Middle c c'' jumps := by
  have hsame := h.untouched jump List.mem_cons_self
  obtain ⟨t, ht, hstart⟩ := h.targets _ hsource (by rwa [hsame])
  have htarget : jumpTarget c jump.source = t := jumpTarget_eq hsame ▸ ht
  obtain ⟨u, n, hu, hchain, hend⟩ :=
    @Middle.follow c c' t (jump :: jumps) h (c.length + 1) (by omega) hstart
  obtain ⟨m, hleads⟩ := h.folded.leads hchain
  refine ⟨_, _, by rw [Bytecode.foldJump, h.length_eq, ht, Int.toNat_natCast, hu]; rfl, ?_⟩
  rw [hsame]
  split_ifs with hreturn hfits
  · obtain ⟨hjump, hret⟩ := hreturn
    obtain ⟨q, k, hq, hqret, heq⟩ := h.folded.return hret
    refine h.set hsource hnot (fun c'' hc => ?_) (fun c'' hc hbranch => ?_)
    · exact .returns hjump (.step hjump htarget (hleads.trans hq)) hqret (hc.trans heq)
    · rw [hret] at hbranch
      exact absurd hbranch (by decide)
  · have hnew : ∀ c'', word c'' jump.source =
        withD (word c jump.source) (u - jump.source - 1) → jumpTarget c'' jump.source = u := by
      intro c'' hc
      rw [jumpTarget, ← word, hc, insnD_withD _ hfits]
      omega
    refine h.set hsource hnot (fun c'' hc => ?_) (fun c'' hc _ => ⟨u, hnew c'' hc, hend⟩)
    exact .further _ hany hc htarget (hnew c'' hc) hleads
  · exact h.tail

theorem Middle.foldAll {jumps : List Jump} (h : Middle c c' jumps)
    (hsources : ∀ jump ∈ jumps, Starts c jump.source ∧
      (opcode (word c jump.source)).any LuauOpcode.isJumpD)
    (hdistinct : (jumps.map Jump.source).Nodup) :
    ∃ c'' jumps', foldAll c' jumps = some (c'', jumps') ∧ Folded c c'' := by
  induction jumps generalizing c' with
  | nil => exact ⟨c', [], rfl, h.folded⟩
  | cons jump jumps ih =>
    rw [List.map_cons, List.nodup_cons] at hdistinct
    obtain ⟨hsource, hany⟩ := hsources jump List.mem_cons_self
    obtain ⟨c₁, jump', hround, hmiddle⟩ := h.foldJump hsource hany
      (fun other hother heq => hdistinct.1 (heq ▸ List.mem_map_of_mem hother))
    obtain ⟨c'', jumps', hrest, hfolded⟩ := ih hmiddle
      (fun other hother => hsources other (List.mem_cons_of_mem _ hother)) hdistinct.2
    refine ⟨c'', jump' :: jumps', ?_, hfolded⟩
    simp only [Bytecode.foldAll, hround, Option.bind_some, hrest, Option.map_some]

/-- The same instructions run before and after, but for the unconditional jumps that are hidden. -/
def Preserved (hides : UInt32 → Bool) (insns insns' : List UInt32) : Prop :=
  ∀ (σ : Type) (exec : ℕ → UInt32 → σ → Exit σ) (pc : ℕ) (s : σ) (trace : List (UInt32 × σ)),
    Runs exec hides insns pc s trace ↔ Runs exec hides insns' pc s trace

/-- **Jumps are folded without a change to what runs**: the work ends, and every run has the same
instructions in the same states, but for unconditional jumps.  A jump that has become a return returns
what the return at its end does. -/
theorem foldJumps_runs {jumps : List Jump} (h : Recorded insns jumps) :
    ∃ insns' jumps', foldJumps insns jumps false = some (insns', jumps') ∧
      Preserved silent insns insns' := by
  obtain ⟨insns', jumps', hfold, hfolded⟩ := h.middle.foldAll h.sources h.distinct
  exact ⟨insns', jumps', hfold, fun _ _ _ _ _ => hfolded.runs_iff⟩

/-! ### A backward jump -/

/-- Forward jumps are hidden. -/
def forward (insn : UInt32) : Bool := decide (insnD insn ≥ 0)

section Shown

variable {σ : Type} {exec : ℕ → UInt32 → σ → Exit σ} {hides : UInt32 → Bool} {s : σ}
  {shown : UInt32 × σ} {trace : List (UInt32 × σ)}

/-- A hidden jump shows nothing. -/
theorem Runs.hidden (h : Runs exec hides c pc s (shown :: trace))
    (hop : opcode (word c pc) = some .JUMP) (hhides : hides (word c pc))
    (ht : jumpTarget c pc = t) : Runs exec hides c t s (shown :: trace) := by
  cases h with
  | last h =>
    cases h with
    | ret hret => simp [hop] at hret
    | halt hjump => exact absurd hop hjump
  | step _ hshown => exact absurd ⟨hop, hhides⟩ hshown
  | skip _ _ ht' hruns =>
    obtain rfl : _ = _ := Int.ofNat.inj (ht.symm.trans ht')
    exact hruns

/-- Another instruction shows itself. -/
theorem Runs.shows (h : Runs exec hides c pc s (shown :: trace))
    (hop : opcode (word c pc) ≠ some .JUMP) :
    shown.1 = word c pc ∨ shown.1 = shape (word c pc) := by
  have hstep : ∀ {next}, Step exec c pc s shown next →
      shown.1 = word c pc ∨ shown.1 = shape (word c pc) := by
    intro next h
    cases h <;> simp
  cases h with
  | last h => exact hstep h
  | step h => exact hstep h
  | skip hjump => exact absurd hjump hop

end Shown

/-- Two forward jumps, a jump back between them, and the end. -/
def backward : List UInt32 := [0x00010017, 0x00010017, 0xfffe0017, 0x00000002, 0x00010016]

theorem backward_starts {pc : ℕ} (h : pc < 5) : Starts backward pc := by
  have h0 : Starts backward 0 := .first (by decide)
  have h1 : Starts backward 1 :=
    @Starts.next backward 0 0x00010017 .JUMP h0 rfl (by decide) (by decide)
  have h2 : Starts backward 2 :=
    @Starts.next backward 1 0x00010017 .JUMP h1 rfl (by decide) (by decide)
  have h3 : Starts backward 3 :=
    @Starts.next backward 2 0xfffe0017 .JUMP h2 rfl (by decide) (by decide)
  have h4 : Starts backward 4 :=
    @Starts.next backward 3 0x00000002 .LOADNIL h3 rfl (by decide) (by decide)
  interval_cases pc <;> assumption

theorem backward_recorded : Recorded backward [⟨0, 2⟩, ⟨1, 3⟩, ⟨2, 1⟩] := by
  constructor
  · intro jump hjump
    simp only [List.mem_cons, List.not_mem_nil, or_false] at hjump
    obtain rfl | rfl | rfl := hjump <;> exact ⟨backward_starts (by decide), by decide⟩
  · decide
  · intro pc hstart hany
    have hlt := hstart.lt
    simp only [backward, List.length_cons, List.length_nil] at hlt
    interval_cases pc
    · exact ⟨2, by decide, backward_starts (by decide)⟩
    · exact ⟨3, by decide, backward_starts (by decide)⟩
    · exact ⟨1, by decide, backward_starts (by decide)⟩
    · exact absurd hany (by decide)
    · exact absurd hany (by decide)

theorem foldJumps_runs_backward : ∃ insns' jumps',
    foldJumps backward [⟨0, 2⟩, ⟨1, 3⟩, ⟨2, 1⟩] false = some (insns', jumps') ∧
      Preserved silent backward insns' :=
  foldJumps_runs backward_recorded

/-- A jump back becomes a forward one, since the jump that it goes to goes forward. -/
theorem backward_jump : Recorded backward [⟨0, 2⟩, ⟨1, 3⟩, ⟨2, 1⟩] ∧
    ∃ insns' jumps', foldJumps backward [⟨0, 2⟩, ⟨1, 3⟩, ⟨2, 1⟩] false = some (insns', jumps') ∧
      ¬ Preserved forward backward insns' := by
  refine ⟨backward_recorded, [0x00010017, 0x00010017, 0x00000017, 0x00000002, 0x00010016],
    [⟨0, 2⟩, ⟨1, 3⟩, ⟨2, 3⟩], by decide, fun h => ?_⟩
  have hbefore : Runs (fun _ _ _ => .halt) forward backward 0 () [(0x00000017, ())] :=
    .skip (t := 2) (by decide) (by decide) (by decide)
      (.step (.jump (t := 1) (by decide) (by decide)) (by decide) .stop)
  -- afterwards both jumps are hidden, and what shows is the instruction after them
  have hafter := ((h Unit _ 0 () _).1 hbefore).hidden (t := 2) (by decide) (by decide) (by decide)
  have hend := hafter.hidden (t := 3) (by decide) (by decide) (by decide)
  exact absurd (hend.shows (by decide)) (by decide)

end Bytecode

end Jaci
