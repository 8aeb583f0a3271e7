import Jaci.Lib.Machine
import Jaci.Promise.Basic

/-!
# Chained promises

`andThen` makes a promise that should follow its source, and a function wrapped by `task.async`
returns a promise that should follow its coroutine.  `settle_promise` runs through the callbacks of
a promise; it may be called again for each of them, and between its steps the coroutines that it
resumes may do anything.  Handlers are deferred as microtasks; their arguments are left out here.

* `settle_promise`, `callbacks` : a promise is settled;
* `promise_and_then`, `async_wrapper_invoker` : promises that follow something else;
* `chain` : the runs.
-/

namespace Jaci

namespace Promise

variable {V : Type}

/-! ### State -/

/-- What a promise was made by. -/
inductive Origin where
  /-- `task.promise` and the other functions that keep the means to settle it. -/
  | executor
  /-- `andThen`. -/
  | chain (link : ℕ)
  /-- A function wrapped by `task.async`. -/
  | async (call : ℕ)
deriving DecidableEq

/-- `PromiseCallback`, with the promise it is attached to.  Functions go by a number. -/
structure Link where
  /-- The promise `andThen` was called on. -/
  source : ℕ
  /-- The promise it has returned: `next_promise_ref`. -/
  next : ℕ
  on_fulfilled : Option ℕ
  on_rejected : Option ℕ
deriving DecidableEq

/-- The handler for a state. -/
def Link.handler (link : Link) : PromiseState → Option ℕ
  | .fulfilled => link.on_fulfilled
  | _ => link.on_rejected

/-- A call of a function wrapped by `task.async`. -/
structure AsyncCall (V : Type) where
  promise : ℕ
  yielded : Bool
  finished : Option (Settlement V)

/-- A call of `settle_promise` with the callbacks that it has not reached yet. -/
structure Frame where
  promise : ℕ
  rest : List ℕ

/-- All promises. -/
structure Chain (V : Type) where
  size : ℕ
  promise : ℕ → PromiseData V
  origin : ℕ → Origin
  /-- The calls of `andThen`. -/
  links : List Link
  /-- The calls of functions wrapped by `task.async`. -/
  asyncs : List (AsyncCall V)
  /-- The calls of `settle_promise`, the innermost first. -/
  frames : List Frame
  microtasks : List ℕ
  /-- The results and errors of the handlers that have run. -/
  handled : List (ℕ × Settlement V)

/-! ### Operations -/

/-- `settle_promise`, before it goes through the callbacks. -/
def settle_promise (s : Chain V) (p : ℕ) (state : PromiseState) (nresults : ℕ)
    (results_ref : Option (Stored V)) : Chain V :=
  if (s.promise p).state ≠ .pending then s
  else
    { s with
      promise := Function.update s.promise p { s.promise p with
        state := state, nresults := nresults, results_ref := results_ref }
      frames := ⟨p, (s.promise p).callbacks⟩ :: s.frames }

/-- The outcome of a promise is passed on to another one. -/
def propagate (s : Chain V) (p next : ℕ) : Chain V :=
  settle_promise s next (s.promise p).state (s.promise p).nresults (s.promise p).results_ref

/-- The part that `settle_promise` and `attach_promise_continuation` share: a handler is deferred,
or else the outcome is passed on. -/
def callback (s : Chain V) (n : ℕ) (link : Link) : Chain V :=
  match link.handler (s.promise link.source).state with
  | some _ => { s with microtasks := s.microtasks ++ [n] }
  | none => propagate s link.source link.next

/-- `settle_promise` goes on. -/
def callbacks (s : Chain V) : Chain V :=
  match s.frames with
  | [] => s
  | ⟨p, []⟩ :: outer =>
    { s with
      promise := Function.update s.promise p { s.promise p with callbacks := [] }
      frames := outer }
  | ⟨p, n :: rest⟩ :: outer =>
    let s := { s with frames := ⟨p, rest⟩ :: outer }
    match s.links[n]? with
    | some link => callback s n link
    | none => s

def create (s : Chain V) (origin : Origin) : Chain V :=
  { s with
    size := s.size + 1
    promise := Function.update s.promise s.size new_promise
    origin := Function.update s.origin s.size origin }

/-- `promise_and_then` and `attach_promise_continuation`. -/
def promise_and_then (s : Chain V) (p : ℕ) (on_fulfilled on_rejected : Option ℕ) : Chain V :=
  let n := s.links.length
  let link : Link := ⟨p, s.size, on_fulfilled, on_rejected⟩
  let s := create s (.chain n)
  let s := { s with links := s.links ++ [link] }
  if (s.promise p).state = .pending then
    { s with promise := Function.update s.promise p { s.promise p with
        callbacks := (s.promise p).callbacks ++ [n] } }
  else callback s n link

/-- `async_wrapper_invoker`, before the coroutine runs. -/
def async_wrapper_invoker (s : Chain V) : Chain V :=
  let p := s.size
  let s := create s (.async s.asyncs.length)
  { s with asyncs := s.asyncs ++ [⟨p, false, none⟩] }

def yield (s : Chain V) (n : ℕ) : Chain V :=
  match s.asyncs[n]? with
  | some ⟨p, _, none⟩ => { s with asyncs := s.asyncs.set n ⟨p, true, none⟩ }
  | _ => s

/-- The coroutine ends.  If it has not yielded, this is in `async_wrapper_invoker`, which settles
the promise. -/
def finish (s : Chain V) (n : ℕ) (S : Settlement V) : Chain V :=
  match s.asyncs[n]? with
  | some ⟨p, yielded, none⟩ =>
    let s := { s with asyncs := s.asyncs.set n ⟨p, yielded, some S⟩ }
    if yielded then s else settle_promise s p S.state S.nresults S.results_ref
  | _ => s

/-- The next handler runs in its microtask; what it returns is dropped. -/
def handler (s : Chain V) (S : Settlement V) : Chain V :=
  match s.microtasks with
  | [] => s
  | n :: rest => { s with microtasks := rest, handled := s.handled ++ [(n, S)] }

/-- What happens in a run. -/
inductive ChainOp (V : Type) where
  | create
  | settle (p : ℕ) (S : Settlement V)
  | andThen (p : ℕ) (on_fulfilled on_rejected : Option ℕ)
  /-- `settle_promise` goes on. -/
  | callbacks
  /-- A function wrapped by `task.async` is called. -/
  | async
  | yield (n : ℕ)
  | finish (n : ℕ) (S : Settlement V)
  | handler (S : Settlement V)

/-- Promises that `andThen` and `task.async` have made have no other means to be settled. -/
def ChainOp.enabled (s : Chain V) : ChainOp V → Prop
  | .settle p _ => p < s.size ∧ s.origin p = .executor
  | .andThen p _ _ => p < s.size
  | _ => True

def Chain.exec (s : Chain V) : ChainOp V → Chain V
  | .create => Promise.create s .executor
  | .settle p S => settle_promise s p S.state S.nresults S.results_ref
  | .andThen p on_fulfilled on_rejected => promise_and_then s p on_fulfilled on_rejected
  | .callbacks => Promise.callbacks s
  | .async => async_wrapper_invoker s
  | .yield n => Promise.yield s n
  | .finish n S => Promise.finish s n S
  | .handler S => Promise.handler s S

def Chain.new : Chain V where
  size := 0
  promise _ := new_promise
  origin _ := .executor
  links := []
  asyncs := []
  frames := []
  microtasks := []
  handled := []

def chain (V : Type) : Machine (Chain V) (ChainOp V) where
  init s := s = .new
  enabled := ChainOp.enabled
  exec := Chain.exec

end Promise

end Jaci
