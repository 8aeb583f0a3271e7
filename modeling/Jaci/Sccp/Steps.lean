import Jaci.Sccp.Propagate
import Mathlib.Logic.Relation

/-!
# The steps of the propagation

The loops of `propagate` one step at a time: a visit of an instruction or a phi, the edges of a block
that was visited, or a step of the loops themselves.  The steps are the same whatever the lattice
values are made of.

* `Loops` : the lists of work of a state, and the visits;
* `Loops.next`, `Loops.Reachable` : the steps and the runs;
* `sccpLoops` : the loops of `propagate`.
-/

namespace Jaci

namespace Sccp

/-- What is left to do of a block, or for an element of `ssaWorklist`. -/
inductive Task where
  | phi (op : BcOp)
  | inst (op : BcOp)
  /-- The edges of a block, when its instructions were visited. -/
  | leave (block : BcOp)
deriving DecidableEq

def blockTasks (f : BcFunction) (block : BcOp) : List Task :=
  (f.block block).phis.map .phi ++ (f.block block).ops.map .inst ++ [.leave block]

/-- The visit of an element of `ssaWorklist`. -/
def useTasks (op : BcOp) : List Task :=
  if op.kind = .inst then [.inst op] else if op.kind = .phi then [.phi op] else []

/-- A state with lists of work, and the visits. -/
structure Loops (σ : Type) where
  /-- `flowWorklist`. -/
  flow : σ → List BcOp
  /-- `flowWorklist.pop_front()`. -/
  popFlow : σ → σ
  /-- `flowWorklistSet`. -/
  seen : σ → List BcOp
  /-- `ssaWorklist`. -/
  ssa : σ → List BcOp
  /-- `ssaWorklist.pop_front()`. -/
  popSsa : σ → σ
  perform : Task → σ → Option σ
  initial : σ

/-- Where the loops are. -/
structure Place (σ : Type) where
  state : σ
  tasks : List Task := []
  /-- It is in the loop over `ssaWorklist`. -/
  inSsa : Bool := false

/-- The result of a step. -/
inductive Outcome (σ : Type) where
  | thrown
  | ended
  | goes (p : Place σ)

namespace Loops

variable {σ : Type} (P : Loops σ) (f : BcFunction)

def next (p : Place σ) : Outcome σ :=
  match p.tasks with
  | task :: tasks =>
    match P.perform task p.state with
    | some state => .goes { p with state := state, tasks := tasks }
    | none => .thrown
  | [] =>
    if p.inSsa then
      match P.ssa p.state with
      | op :: _ => .goes { p with state := P.popSsa p.state, tasks := useTasks op }
      | [] => if P.flow p.state = [] then .ended else .goes { p with inSsa := false }
    else
      match P.flow p.state with
      | block :: _ =>
        .goes { p with
          state := P.popFlow p.state
          tasks := if block ∈ P.seen p.state then [] else blockTasks f block }
      | [] => .goes { p with inSsa := true }

/-- A step to `p'`. -/
def Goes (p p' : Place σ) : Prop := P.next f p = .goes p'

/-- What is reached from the start. -/
def Reachable (p : Place σ) : Prop := Relation.ReflTransGen (P.Goes f) { state := P.initial } p

/-- The place after `n` steps. -/
def after : ℕ → Option (Place σ)
  | 0 => some { state := P.initial }
  | n + 1 => (after n).bind fun p =>
    match P.next f p with
    | .goes p' => some p'
    | _ => none

variable {P f} {p : Place σ}

theorem Reachable.start : P.Reachable f { state := P.initial } := Relation.ReflTransGen.refl

theorem Reachable.goes {p' : Place σ} (h : P.Reachable f p) (hstep : P.next f p = .goes p') :
    P.Reachable f p' := Relation.ReflTransGen.tail h hstep

theorem reachable_after {n : ℕ} (h : P.after f n = some p) : P.Reachable f p := by
  induction n generalizing p with
  | zero =>
    cases h
    exact .start
  | succ n ih =>
    obtain ⟨q, hq, hstep⟩ := Option.bind_eq_some_iff.1 h
    cases hnext : P.next f q with
    | goes p' =>
      rw [hnext] at hstep
      cases hstep
      exact (ih hq).goes hnext
    | _ => rw [hnext] at hstep; cases hstep

theorem after_of_le {m n : ℕ} (hmn : m ≤ n) (h : P.after f n = some p) :
    ∃ q, P.after f m = some q := by
  induction hmn generalizing p with
  | refl => exact ⟨p, h⟩
  | step _ ih =>
    obtain ⟨q, hq, -⟩ := Option.bind_eq_some_iff.1 h
    exact ih hq

/-- What holds at the start and is kept by every step holds always. -/
theorem Reachable.induction {Q : Place σ → Prop} (hstart : Q { state := P.initial })
    (hstep : ∀ p p', P.Reachable f p → Q p → P.next f p = .goes p' → Q p')
    (h : P.Reachable f p) : Q p := by
  induction h with
  | refl => exact hstart
  | tail hreach hnext ih => exact hstep _ _ hreach ih hnext

/-- How a step goes. -/
theorem next_goes_iff {p' : Place σ} : P.next f p = .goes p' ↔
    (∃ task tasks state, p.tasks = task :: tasks ∧ P.perform task p.state = some state ∧
      { p with state := state, tasks := tasks } = p') ∨
    (p.tasks = [] ∧ p.inSsa = true ∧ ∃ op rest, P.ssa p.state = op :: rest ∧
      { p with state := P.popSsa p.state, tasks := useTasks op } = p') ∨
    (p.tasks = [] ∧ p.inSsa = true ∧ P.ssa p.state = [] ∧ P.flow p.state ≠ [] ∧
      { p with inSsa := false } = p') ∨
    (p.tasks = [] ∧ p.inSsa = false ∧ ∃ block rest, P.flow p.state = block :: rest ∧
      { p with
        state := P.popFlow p.state
        tasks := if block ∈ P.seen p.state then [] else blockTasks f block } = p') ∨
    (p.tasks = [] ∧ p.inSsa = false ∧ P.flow p.state = [] ∧ { p with inSsa := true } = p') := by
  obtain ⟨state, tasks, inSsa⟩ := p
  cases tasks with
  | cons task tasks =>
    cases hp : P.perform task state <;> simp [next, hp]
  | nil =>
    cases inSsa with
    | true =>
      cases hs : P.ssa state with
      | cons op rest => simp [next, hs]
      | nil =>
        by_cases hf : P.flow state = []
        · simp [next, hs, hf]
        · simp [next, hs, hf]
    | false => cases hf : P.flow state <;> simp [next, hf]

theorem next_thrown_iff : P.next f p = .thrown ↔
    ∃ task tasks, p.tasks = task :: tasks ∧ P.perform task p.state = none := by
  obtain ⟨state, tasks, inSsa⟩ := p
  cases tasks with
  | cons task tasks => cases hp : P.perform task state <;> simp [next, hp]
  | nil =>
    cases inSsa with
    | true =>
      cases hs : P.ssa state with
      | cons op rest => simp [next, hs]
      | nil => by_cases hf : P.flow state = [] <;> simp [next, hs, hf]
    | false => cases hf : P.flow state <;> simp [next, hf]

theorem next_ended_iff : P.next f p = .ended ↔
    p.tasks = [] ∧ p.inSsa = true ∧ P.ssa p.state = [] ∧ P.flow p.state = [] := by
  obtain ⟨state, tasks, inSsa⟩ := p
  cases tasks with
  | cons task tasks => cases hp : P.perform task state <;> simp [next, hp]
  | nil =>
    cases inSsa with
    | true =>
      cases hs : P.ssa state with
      | cons op rest => simp [next, hs]
      | nil => by_cases hf : P.flow state = [] <;> simp [next, hs, hf]
    | false => cases hf : P.flow state <;> simp [next, hf]

end Loops

/-! ### The loops of `propagate` -/

section

variable (pow : Double → Double → Double) (f : BcFunction)

/-- The end of the visit of a block. -/
def leaveBlock (st : SccpState) (blockOp : BcOp) : Option SccpState :=
  (endsWithBranch f st (f.block blockOp)).map fun (branch, st) =>
    let st := (f.block blockOp).successors.foldl (visitEdge blockOp branch) st
    { st with flowWorklistSet := blockOp :: st.flowWorklistSet }

def perform (task : Task) (st : SccpState) : Option SccpState :=
  match task with
  | .phi op => some (visitPhi f st op)
  | .inst op => visitInst pow f st op
  | .leave block => leaveBlock f st block

/-- The loops of `propagate`. -/
def sccpLoops : Loops SccpState where
  flow st := st.flowWorklist
  popFlow st := { st with flowWorklist := st.flowWorklist.tail }
  seen st := st.flowWorklistSet
  ssa st := st.ssaWorklist
  popSsa st := { st with ssaWorklist := st.ssaWorklist.tail }
  perform := perform pow f
  initial := SccpState.initial f

end

end Sccp

end Jaci
