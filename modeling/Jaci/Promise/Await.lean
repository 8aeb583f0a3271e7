import Jaci.Lib.Machine
import Jaci.Promise.Basic

/-!
# Await

A coroutine that awaits a settled promise gets its outcome from `promise_await`.  If the promise is
pending, the coroutine is suspended and `settle_promise` resumes it later.

* `await_timing_iff` : the two agree for results, and only for results;
* `await_timing_reason` : a promise that is rejected.
-/

namespace Jaci

namespace Promise

variable {V : Type}

/-- What the caller of `await` observes. -/
inductive Outcome (V : Type) where
  | returns (values : List V)
  | raises (reason : V)
deriving DecidableEq

section Outcome

variable (lua : Lua V)

/-- `lua_rawgeti`. -/
def Stored.rawgeti (t : Stored V) (i : ℕ) : V :=
  match t with
  | .table values => (values[i - 1]?).getD lua.nil
  | .value v => (lua.index1 v).getD lua.nil

/-- The results 1, 2, … of a promise. -/
def results (p : PromiseData V) : List V :=
  match p.results_ref with
  | some t =>
    if 0 < p.nresults then (List.range p.nresults).map fun i => t.rawgeti lua (i + 1) else []
  | none => []

/-- The reason of a promise; for a table it is the first element. -/
def reason (p : PromiseData V) : V :=
  match p.results_ref with
  | some (.table values) => Stored.rawgeti lua (.table values) 1
  | some (.value v) => (lua.index1 v).getD v
  | none => lua.text "promise rejected"

/-- `promise_await`; there is no outcome yet if the promise is pending. -/
def promise_await (p : PromiseData V) : Option (Outcome V) :=
  match p.state with
  | .fulfilled => some (.returns (results lua p))
  | .rejected => some (.raises (reason lua p))
  | .pending => none

/-- What `settle_promise` resumes a coroutine with.  Results and reasons are pushed on the stack of
the coroutine and become the results of `await`. -/
def resumed_with (p : PromiseData V) : Outcome V :=
  match p.state with
  | .fulfilled => .returns (results lua p)
  | _ => .returns [reason lua p]

end Outcome

/-! ### Coroutines that await a promise -/

/-- A promise, the coroutines, and what they have observed. -/
structure Awaiting (V : Type) where
  promise : PromiseData V
  /-- The coroutines that `settle_promise` has not reached yet. -/
  waking : List ℕ
  suspended : ℕ → Bool
  /-- The outcomes of `await`. -/
  observed : List (ℕ × Outcome V)

/-- What happens in a run. -/
inductive AwaitOp (V : Type) where
  /-- A coroutine awaits the promise; it is suspended if it can yield. -/
  | await (co : ℕ) (yieldable : Bool)
  | settle (S : Settlement V)
  /-- `settle_promise` comes to the next coroutine. -/
  | wake
  /-- A coroutine is resumed, ends or yields for another reason. -/
  | other (co : ℕ) (suspended : Bool)

/-- The caller is not suspended. -/
def AwaitOp.enabled (s : Awaiting V) : AwaitOp V → Prop
  | .await co _ => s.suspended co = false
  | _ => True

def Awaiting.exec (lua : Lua V) (s : Awaiting V) : AwaitOp V → Awaiting V
  | .await co yieldable =>
    match promise_await lua s.promise with
    | some outcome => { s with observed := s.observed ++ [(co, outcome)] }
    | none =>
      { s with
        promise := { s.promise with awaiting := s.promise.awaiting ++ [co] }
        suspended := Function.update s.suspended co yieldable }
  | .settle S =>
    if s.promise.state = .pending then
      { s with
        promise := { s.promise.settle S with awaiting := [] }
        waking := s.promise.awaiting }
    else s
  | .wake =>
    match s.waking with
    | [] => s
    | co :: rest =>
      let s := { s with waking := rest }
      if s.suspended co then
        { s with
          suspended := Function.update s.suspended co false
          observed := s.observed ++ [(co, resumed_with lua s.promise)] }
      else s
  | .other co suspended => { s with suspended := Function.update s.suspended co suspended }

/-- The runs of coroutines with one promise. -/
def awaiting (lua : Lua V) : Machine (Awaiting V) (AwaitOp V) where
  init s := ∃ suspended, s = ⟨new_promise, [], suspended, []⟩
  enabled := AwaitOp.enabled
  exec := Awaiting.exec lua

/-! ### Timing -/

variable {lua : Lua V} {s : Awaiting V}

/-- The invariant of the promise: nothing is observed before it is settled, and then it is the
outcome of the settlement. -/
structure Timed (lua : Lua V) (s : Awaiting V) : Prop where
  pending : s.promise.state = .pending → s.waking = [] ∧ s.observed = []
  fulfilled : s.promise.state = .fulfilled → ∀ o ∈ s.observed, o.2 = .returns (results lua s.promise)

theorem Timed.exec (h : Timed lua s) (op : AwaitOp V) : Timed lua (s.exec lua op) := by
  cases op with
  | await co yieldable =>
    rw [Awaiting.exec]
    cases hstate : s.promise.state with
    | pending =>
      simp only [promise_await, hstate]
      exact ⟨fun _ => h.pending hstate, fun hf => absurd hf (by simp)⟩
    | fulfilled =>
      simp only [promise_await, hstate]
      refine ⟨fun hp => absurd (hstate.symm.trans hp) (by simp), fun _ o ho => ?_⟩
      rcases List.mem_append.mp ho with ho | ho
      · exact h.fulfilled hstate o ho
      · rw [List.mem_singleton.mp ho]
    | rejected =>
      simp only [promise_await, hstate]
      exact ⟨fun hp => absurd (hstate.symm.trans hp) (by simp),
        fun hf => absurd (hstate.symm.trans hf) (by simp)⟩
  | settle S =>
    rw [Awaiting.exec]
    split_ifs with hstate
    · refine ⟨fun hp => absurd hp S.state_ne_pending, fun _ o ho => ?_⟩
      rw [(h.pending hstate).2] at ho
      exact absurd ho List.not_mem_nil
    · exact h
  | wake =>
    rw [Awaiting.exec]
    cases hwaking : s.waking with
    | nil => exact h
    | cons co rest =>
      have hstate : s.promise.state ≠ .pending := by
        intro hp
        have := (h.pending hp).1
        rw [hwaking] at this
        exact absurd this (by simp)
      simp only
      split_ifs
      · refine ⟨fun hp => absurd hp hstate, fun hf o ho => ?_⟩
        rcases List.mem_append.mp ho with ho | ho
        · exact h.fulfilled hf o ho
        · rw [List.mem_singleton.mp ho]
          simp only [resumed_with]
          rw [hf]
      · exact ⟨fun hp => absurd hp hstate, h.fulfilled⟩
  | other co suspended => exact ⟨h.pending, h.fulfilled⟩

theorem reach_timed (h : (awaiting lua).Reach (fun _ _ => True) s) : Timed lua s := by
  refine h.invariant (I := Timed lua) ?_ fun s op hs _ _ => hs.exec op
  rintro s ⟨suspended, rfl⟩
  exact ⟨fun _ => ⟨rfl, rfl⟩, fun _ o ho => absurd ho List.not_mem_nil⟩

/-- The results are the values of the settlement. -/
theorem results_of_settledBy {p : PromiseData V} {values : List V}
    (h : p.SettledBy (.fulfilled values)) : results lua p = values := by
  obtain ⟨-, hn, hr⟩ := h
  rw [results, hr, hn]
  cases values with
  | nil => rfl
  | cons v rest =>
    refine List.ext_getElem (by simp [Settlement.results_ref, Settlement.nresults]) ?_
    intro i _ hi
    simp only [Settlement.results_ref, Settlement.nresults, List.length_cons, Nat.zero_lt_succ,
      if_true, List.getElem_map, List.getElem_range, Stored.rawgeti, Nat.add_sub_cancel]
    rw [List.getElem?_eq_getElem hi]
    rfl

/-- **When the timing of `await` does not matter.**  For a settlement, all coroutines of all runs
observe what a call of `await` after the settlement observes (and these are the values of the
settlement if it has some), if and only if the promise is fulfilled. -/
theorem await_timing_iff (lua : Lua V) (S : Settlement V) :
    (∀ s, (awaiting lua).Reach (fun _ _ => True) s → s.promise.SettledBy S →
      ∀ o ∈ s.observed, promise_await lua s.promise = some o.2 ∧
        ∀ values, S = .fulfilled values → o.2 = .returns values) ↔ S.state = .fulfilled := by
  constructor
  · intro h
    cases S with
    | fulfilled values => rfl
    | rejected r =>
      -- one coroutine awaits the promise before it is rejected
      have hinit : (awaiting lua).Reach (fun _ _ => True) ⟨new_promise, [], fun _ => false, []⟩ :=
        .init ⟨fun _ => false, rfl⟩
      have hrun := hinit.run (l := [.await 0 true, .settle (.rejected r), .wake])
        ⟨rfl, trivial, trivial, trivial, trivial, trivial, trivial⟩
      have hobs : some (Outcome.raises (reason lua (new_promise.settle (.rejected r)))) =
          some (.returns [reason lua (new_promise.settle (.rejected r))]) :=
        (h _ hrun ⟨rfl, rfl, rfl⟩ _ (List.mem_singleton_self _)).1
      exact absurd (Option.some.inj hobs) (by simp)
  · intro hS s hs hsettled o ho
    have hstate : s.promise.state = .fulfilled := hsettled.1.trans hS
    have hobs := (reach_timed hs).fulfilled hstate o ho
    refine ⟨by rw [promise_await, hstate, hobs], fun values hvalues => ?_⟩
    subst hvalues
    rw [hobs, results_of_settledBy hsettled]

/-- **A coroutine that waits is not told about the error.**  A promise is rejected with a reason
after one coroutine has called `await` and before another one does. -/
theorem await_timing_reason :
    let lua : Lua ℕ := ⟨0, fun _ => 1, fun _ => none, fun _ => 2⟩
    let s := [AwaitOp.await 0 true, .settle (.rejected (some 7)), .wake, .await 1 true].foldl
      (Awaiting.exec lua) ⟨new_promise, [], fun _ => false, []⟩
    (awaiting lua).Reach (fun _ _ => True) s ∧ s.promise.SettledBy (.rejected (some 7)) ∧
      s.observed = [(0, .returns [7]), (1, .raises 7)] := by
  intro lua s
  have hinit : (awaiting lua).Reach (fun _ _ => True) ⟨new_promise, [], fun _ => false, []⟩ :=
    .init ⟨fun _ => false, rfl⟩
  refine ⟨hinit.run ?_, ⟨rfl, rfl, rfl⟩, rfl⟩
  exact ⟨rfl, trivial, trivial, trivial, trivial, trivial, rfl, trivial, trivial⟩

end Promise

end Jaci
