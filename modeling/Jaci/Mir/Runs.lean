import Jaci.Mir.Passes
import Mathlib.Logic.Function.Basic
import Mathlib.Logic.Relation

/-!
# Runs of a function

The instructions of a block run one after another until one of them leaves the block.  What the
commands compute is a parameter; the machine only says what they may read and write, which is how
the code generators lower them: an addition reads its operands, a load of a field also the memory,
and only a store, an allocation, a barrier or a call writes to it.  A `Nop` has no code and
no value.

* `step` : one instruction, and `execute` some of them;
* `Run` : the states in which a function can be, along steps that all meet a condition;
* `Run.split` : the state in which an instruction of the history ran;
* `frame` : what later steps leave alone.
-/

namespace Jaci

namespace Mir

variable {V M : Type*}

/-- The commands that write to the memory. -/
def Cmd.writes : Cmd → Bool
  | .store | .storeField | .storeArrayElement | .allocTable | .allocClosure | .allocBuffer
  | .gcWriteBarrier | .callDirect | .callIndirect | .callBuiltin => true
  | _ => false

/-- What the commands compute. -/
structure Machine (V M : Type*) where
  const : UInt32 → Option V
  /-- The numbered commands but `LoadField`. -/
  arith : Cmd → TypeKind → Option V → Option V → Option V
  /-- `LoadField`. -/
  field : TypeKind → Int32 → Option V → M → Option V
  truthy : Option V → Bool
  /-- The other commands.  There is no result when a guard leaves the code. -/
  other : Inst → List (Option V) → M → Option (Option V × M)
  other_mem : ∀ x ops mem v mem', x.cmd.writes = false → other x ops mem = some (v, mem') →
    mem' = mem

/-- The operands that are values.  The targets of a jump are not. -/
def Inst.uses (x : Inst) : List Value :=
  if x.cmd = .jump then [] else if x.cmd = .branchCond then x.args.take 1 else x.args

/-- The operands that are targets. -/
def Inst.targets (x : Inst) : List Value :=
  if x.cmd = .jump then x.args.take 1
  else if x.cmd = .branchCond then (x.args.drop 1).take 2
  else []

/-- An instruction without its operands. -/
def Inst.bare (x : Inst) : Inst := { x with args := [] }

/-- A state of a run. -/
structure State (V M : Type*) where
  /-- The instructions of the block that still have to run. -/
  rest : List ℕ
  env : ℕ → Option V := fun _ => none
  mem : M
  /-- The instructions that ran, with the values of their operands. -/
  trace : List (ℕ × List (Option V)) := []

/-- The instructions that ran. -/
def State.history (s : State V M) : List ℕ := s.trace.map Prod.fst

namespace Machine

/-- The value of an operand. -/
def operandValue (m : Machine V M) (env : ℕ → Option V) (v : Value) : Option V :=
  match v.kind with
  | .inst => env v.index.toNat
  | .constant => m.const v.index
  | .none | .blockArg => none

/-- The values of the operands of an instruction. -/
def operands (m : Machine V M) (env : ℕ → Option V) (x : Inst) : List (Option V) :=
  x.uses.map (m.operandValue env)

/-- The value of a numbered command. -/
def compute (m : Machine V M) (x : Inst) (ops : List (Option V)) (mem : M) : Option V :=
  if x.cmd = .loadField then m.field x.type x.offset (ops.headD none) mem
  else m.arith x.cmd x.type (ops.headD none) ((ops.drop 1).headD none)

/-- The block to which a jump goes. -/
def destination (m : Machine V M) (x : Inst) (ops : List (Option V)) : Option ℕ :=
  if x.cmd = .jump then x.targets[0]?.map (·.index.toNat)
  else (x.targets[1]?).bind fun e =>
    if m.truthy (ops.headD none) then x.targets[0]?.map (·.index.toNat) else some e.index.toNat

end Machine

/-- The instructions of a block that is a part of the function. -/
def Function.enter (f : Function) (b : ℕ) : Option (List ℕ) :=
  (f.blocks[b]?.filter (!·.isDead)).map Block.instIndices

def step (m : Machine V M) (f : Function) (s : State V M) : Option (State V M) :=
  match s.rest with
  | [] => none
  | i :: rest =>
    let x := f.inst i
    let ops := m.operands s.env x
    let trace := s.trace ++ [(i, ops)]
    if x.cmd = .nop then some { s with rest }
    else if x.cmd = .jump ∨ x.cmd = .branchCond then
      ((m.destination x ops).bind f.enter).map fun rest => { s with rest, trace }
    else if x.cmd.ends then some { s with rest := [], trace }
    else if x.cmd.numbered then
      some { s with rest, trace, env := Function.update s.env i (m.compute x ops s.mem) }
    else match m.other x.bare ops s.mem with
      | some (v, mem) => some { rest, trace, mem, env := Function.update s.env i v }
      | none => some { s with rest := [], trace }

/-- The states that a function reaches along steps that meet `ok`. -/
inductive Run (m : Machine V M) (f : Function) (ok : State V M → Prop) (mem : M) :
    State V M → Prop where
  | start {rest} : f.enter f.entryBlock = some rest → Run m f ok mem { rest, mem }
  | step {s s'} : Run m f ok mem s → ok s → step m f s = some s' → Run m f ok mem s'

/-- The state after some steps. -/
def execute (m : Machine V M) (f : Function) (mem : M) : ℕ → Option (State V M)
  | 0 => (f.enter f.entryBlock).map fun rest => { rest, mem }
  | n + 1 => (execute m f mem n).bind (step m f)

section

variable {m : Machine V M} {f : Function} {s s' : State V M} {ok : State V M → Prop} {mem : M}
  {i k : ℕ} {rest : List ℕ}

/-! ### One step -/

/-- What a step does to the history, the values and the memory. -/
theorem step_frame (h : step m f s = some s') : ∃ i rest, s.rest = i :: rest ∧
    (s'.history = s.history ∧ s'.env = s.env ∧ s'.mem = s.mem ∧ (f.inst i).cmd = .nop ∨
      s'.history = s.history ++ [i] ∧ (∀ k ≠ i, s'.env k = s.env k) ∧
        ((f.inst i).cmd.writes = false → s'.mem = s.mem)) := by
  rw [step] at h
  cases hr : s.rest with
  | nil => simp [hr] at h
  | cons i rest =>
    refine ⟨i, rest, rfl, ?_⟩
    simp only [hr] at h
    split_ifs at h with hnop hjump hends hnum
    · cases h
      exact Or.inl ⟨rfl, rfl, rfl, hnop⟩
    · obtain ⟨r, -, rfl⟩ := Option.map_eq_some_iff.1 h
      exact Or.inr ⟨by simp [State.history], fun _ _ => rfl, fun _ => rfl⟩
    · cases h
      exact Or.inr ⟨by simp [State.history], fun _ _ => rfl, fun _ => rfl⟩
    · cases h
      exact Or.inr ⟨by simp [State.history], fun k hk => Function.update_of_ne hk _ _,
        fun _ => rfl⟩
    · split at h
      · rename_i v mem' hother
        cases h
        exact Or.inr ⟨by simp [State.history], fun k hk => Function.update_of_ne hk _ _,
          fun hw => m.other_mem (f.inst i).bare _ _ _ _ hw hother⟩
      · cases h
        exact Or.inr ⟨by simp [State.history], fun _ _ => rfl, fun _ => rfl⟩

theorem Cmd.numbered_ne {c : Cmd} (h : c.numbered) :
    c ≠ .nop ∧ ¬(c = .jump ∨ c = .branchCond) ∧ c.ends = false ∧ c.writes = false := by
  cases c <;> simp_all [Cmd.numbered, Cmd.ends, Cmd.writes]

theorem step_numbered (hr : s.rest = i :: rest) (hi : (f.inst i).cmd.numbered) :
    step m f s = some { s with
      rest := rest
      trace := s.trace ++ [(i, m.operands s.env (f.inst i))]
      env := Function.update s.env i
        (m.compute (f.inst i) (m.operands s.env (f.inst i)) s.mem) } := by
  obtain ⟨hnop, hjump, hends, -⟩ := Cmd.numbered_ne hi
  rw [step, hr]
  simp [hnop, hjump, hends, hi]

/-! ### Runs -/

theorem run_iff_execute :
    Run m f (fun _ => True) mem s ↔ ∃ n, execute m f mem n = some s := by
  constructor
  · intro h
    induction h with
    | start hrest => exact ⟨0, by rw [execute, hrest]; rfl⟩
    | step _ _ hstep ih =>
      obtain ⟨n, hn⟩ := ih
      exact ⟨n + 1, by rw [execute, hn]; exact hstep⟩
  · rintro ⟨n, hn⟩
    induction n generalizing s with
    | zero =>
      obtain ⟨rest, hrest, rfl⟩ := Option.map_eq_some_iff.1 hn
      exact .start hrest
    | succ n ih =>
      obtain ⟨t, ht, hstep⟩ := Option.bind_eq_some_iff.1 hn
      exact (ih ht).step trivial hstep

theorem Run.rest_subset (h : Run m f ok mem s) : ∀ i ∈ s.rest, i ∈ f.order := by
  have henter : ∀ {b l}, f.enter b = some l → ∀ i ∈ l, i ∈ f.order := by
    intro b l hb i hi
    rw [Function.enter, Option.map_eq_some_iff] at hb
    obtain ⟨blk, hblk, rfl⟩ := hb
    rw [Option.filter_eq_some_iff] at hblk
    rw [Function.order_eq]
    exact List.mem_flatMap.2 ⟨blk, List.mem_of_getElem? hblk.1, hi⟩
  induction h with
  | start hb => exact henter hb
  | @step s s' hs _ hstep ih =>
    rw [Mir.step] at hstep
    cases hr : s.rest with
    | nil => simp [hr] at hstep
    | cons i rest =>
      have hrest : ∀ j ∈ rest, j ∈ f.order := fun j hj => ih j (by simp [hr, hj])
      simp only [hr] at hstep
      split_ifs at hstep with hnop hjump hends hnum
      · cases hstep
        exact hrest
      · obtain ⟨r, hr', rfl⟩ := Option.map_eq_some_iff.1 hstep
        obtain ⟨b, -, hb⟩ := Option.bind_eq_some_iff.1 hr'
        exact henter hb
      · cases hstep
        simp
      · cases hstep
        exact hrest
      · split at hstep <;> cases hstep
        · exact hrest
        · simp

/-- **What later steps leave alone.** -/
theorem frame (h : Relation.ReflTransGen (fun a b => step m f a = some b) s s') :
    ∃ l, s'.history = s.history ++ l ∧ (∀ k ∉ l, s'.env k = s.env k) ∧
      ((∀ k ∈ l, (f.inst k).cmd.writes = false) → s'.mem = s.mem) := by
  induction h with
  | refl => exact ⟨[], by simp, fun _ _ => rfl, fun _ => rfl⟩
  | tail _ hstep ih =>
    obtain ⟨l, hhist, henv, hmem⟩ := ih
    obtain ⟨i, rest, -, ⟨h1, h2, h3, -⟩ | ⟨h1, h2, h3⟩⟩ := step_frame hstep
    · exact ⟨l, h1.trans hhist, fun k hk => by rw [h2, henv k hk], fun hl => h3.trans (hmem hl)⟩
    · refine ⟨l ++ [i], by rw [h1, hhist, List.append_assoc], fun k hk => ?_, fun hl => ?_⟩
      · simp only [List.mem_append, List.mem_singleton, not_or] at hk
        rw [h2 k hk.2, henv k hk.1]
      · rw [h3 (hl i (by simp)), hmem fun k hk => hl k (by simp [hk])]

/-- **The state in which an instruction of the history ran.** -/
theorem Run.split {h₁ h₂ : List ℕ} (h : Run m f ok mem s) (hs : s.history = h₁ ++ k :: h₂) :
    ∃ t t' rest, Run m f ok mem t ∧ ok t ∧ Mir.step m f t = some t' ∧ t.rest = k :: rest ∧
      t.history = h₁ ∧ t'.history = h₁ ++ [k] ∧
      Relation.ReflTransGen (fun a b => Mir.step m f a = some b) t' s := by
  induction h generalizing h₂ with
  | start => simp [State.history] at hs
  | @step s s' hrun hok hstep ih =>
    obtain ⟨i, rest, hr, ⟨h1, -⟩ | ⟨h1, -⟩⟩ := step_frame hstep
    · obtain ⟨t, t', r, ht, hokt, hst, hrt, hht, hht', hgen⟩ := ih (h1 ▸ hs)
      exact ⟨t, t', r, ht, hokt, hst, hrt, hht, hht', hgen.tail hstep⟩
    · rw [h1] at hs
      -- The instruction is the last of the history, or it is in the history of the state before.
      rcases List.eq_nil_or_concat h₂ with rfl | ⟨h₂', j, rfl⟩
      · obtain ⟨hh, hi⟩ := List.append_inj' hs rfl
        cases hi
        exact ⟨s, s', rest, hrun, hok, hstep, hr, hh, by rw [h1, hh], .refl⟩
      · rw [List.concat_eq_append, ← List.cons_append, ← List.append_assoc] at hs
        obtain ⟨hh, -⟩ := List.append_inj' hs rfl
        obtain ⟨t, t', r, ht, hokt, hst, hrt, hht, hht', hgen⟩ := ih hh
        exact ⟨t, t', r, ht, hokt, hst, hrt, hht, hht', hgen.tail hstep⟩

/-- The value of a numbered instruction that ran, and did not run again. -/
theorem Run.env_eq {h₁ h₂ : List ℕ} (h : Run m f ok mem s) (hs : s.history = h₁ ++ k :: h₂)
    (hk : k ∉ h₂) (hnum : (f.inst k).cmd.numbered) :
    ∃ t rest, Run m f ok mem t ∧ ok t ∧ t.rest = k :: rest ∧ t.history = h₁ ∧
      s.env k = m.compute (f.inst k) (m.operands t.env (f.inst k)) t.mem ∧
      (∀ c ∉ k :: h₂, s.env c = t.env c) ∧
      ((∀ c ∈ h₂, (f.inst c).cmd.writes = false) → s.mem = t.mem) := by
  obtain ⟨t, t', rest, ht, hok, hstep, hr, hh, hh', hgen⟩ := h.split hs
  obtain ⟨l, hl, henv, hmem⟩ := frame hgen
  have hl₂ : l = h₂ := by
    rw [hs, hh', List.append_assoc, List.append_cancel_left_eq] at hl
    exact (List.cons.inj hl).2.symm
  subst hl₂
  rw [step_numbered hr hnum] at hstep
  cases hstep
  refine ⟨t, rest, ht, hok, hr, hh, ?_, fun c hc => ?_, hmem⟩
  · exact (henv k hk).trans (Function.update_self _ _ _)
  · simp only [List.mem_cons, not_or] at hc
    exact (henv c hc.2).trans (Function.update_of_ne hc.1 _ _)

end

end Mir

end Jaci
