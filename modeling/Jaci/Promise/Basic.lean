import Mathlib.Data.List.Basic

/-!
# Promises

A promise is pending until it is settled, with results or with a reason.  A reference in the
registry stands for its value.

* `PromiseData` : a promise;
* `Settlement` : how a promise is settled;
* `PromiseData.settle` : the first part of `settle_promise`.
-/

namespace Jaci

namespace Promise

/-- Lua values, as far as promises look into them. -/
structure Lua (V : Type) where
  nil : V
  text : String → V
  /-- The element 1 of a table; nothing for other values. -/
  index1 : V → Option V
  table : List V → V

inductive PromiseState where
  | pending
  | fulfilled
  | rejected
deriving DecidableEq

/-- What `results_ref` refers to. -/
inductive Stored (V : Type) where
  | table (values : List V)
  | value (v : V)
deriving DecidableEq

/-- `PromiseData`; callbacks go by a number here. -/
structure PromiseData (V : Type) where
  state : PromiseState
  /-- The results or the reason; nothing is `LUA_NOREF`. -/
  results_ref : Option (Stored V)
  nresults : ℕ
  /-- What `andThen` has attached. -/
  callbacks : List ℕ
  /-- The coroutines that wait in `await`. -/
  awaiting : List ℕ
deriving DecidableEq

/-- A promise is fulfilled with values, or rejected with or without a reason. -/
inductive Settlement (V : Type) where
  /-- `promise_resolve_helper`, with its arguments. -/
  | fulfilled (values : List V)
  /-- `promise_reject_helper`, with its argument. -/
  | rejected (reason : Option V)
deriving DecidableEq

variable {V : Type}

def new_promise : PromiseData V where
  state := .pending
  results_ref := none
  nresults := 0
  callbacks := []
  awaiting := []

namespace Settlement

def state : Settlement V → PromiseState
  | fulfilled _ => .fulfilled
  | rejected _ => .rejected

def nresults : Settlement V → ℕ
  | fulfilled values => values.length
  | rejected _ => 1

/-- Results are put in a table, a reason is not. -/
def results_ref : Settlement V → Option (Stored V)
  | fulfilled [] => none
  | fulfilled values => some (.table values)
  | rejected reason => reason.map .value

end Settlement

/-- The promise is settled. -/
def PromiseData.settle (p : PromiseData V) (S : Settlement V) : PromiseData V :=
  { p with state := S.state, nresults := S.nresults, results_ref := S.results_ref }

/-- The promise was settled in this way. -/
def PromiseData.SettledBy (p : PromiseData V) (S : Settlement V) : Prop :=
  p.state = S.state ∧ p.nresults = S.nresults ∧ p.results_ref = S.results_ref

instance [DecidableEq V] (p : PromiseData V) (S : Settlement V) : Decidable (p.SettledBy S) :=
  inferInstanceAs (Decidable (_ ∧ _ ∧ _))

theorem Settlement.state_ne_pending (S : Settlement V) : S.state ≠ .pending := by
  cases S <;> simp [state]

theorem PromiseData.SettledBy.ne_pending {p : PromiseData V} {S : Settlement V}
    (h : p.SettledBy S) : p.state ≠ .pending := by
  rw [h.1]
  exact S.state_ne_pending

end Promise

end Jaci
