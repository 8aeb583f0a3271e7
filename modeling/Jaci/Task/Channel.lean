import Jaci.Lib.Machine
import Mathlib.Data.List.Basic
import Mathlib.Data.List.Nodup

/-!
# Channels

A channel has a buffer and two queues of coroutines that wait to send or to receive.  A coroutine
that waits is resumed by a microtask, with values that were put on its stack before.  A reference
in the registry stands for its value here.

Values are offered by calls of `send` and `try_send`; the number of the call is kept with the value
(`Offer`).  The state also records which values were handed out, received and acknowledged.

* `channel_order` : values are handed out once and in order, and the queues are as they should be.
-/

namespace Jaci

namespace Task

/-! ### State -/

/-- What `lua_costatus` tells about a coroutine. -/
inductive Status where
  /-- Running, or waiting for a coroutine that it has resumed. -/
  | active
  /-- `LUA_COSUS`. -/
  | suspended
  | dead
deriving DecidableEq

variable {V : Type}

/-- A value with the number of the call that offered it. -/
structure Offer (V : Type) where
  call : ℕ
  value : V
deriving DecidableEq

/-- `ChannelWaiter` of a sender. -/
structure Sender (V : Type) where
  thread : ℕ
  offer : Offer V
deriving DecidableEq

structure ChannelData (V : Type) where
  capacity : ℕ
  closed : Bool
  buffer_refs : List (Offer V)
  send_waiters : List (Sender V)
  recv_waiters : List ℕ

/-- The values on the stack of a coroutine that will be resumed. -/
inductive Wake (V : Type) where
  /-- `recv` returns a value and true. -/
  | value (x : Offer V)
  /-- `recv` returns nil and false. -/
  | closed
  /-- `send` returns true. -/
  | sent (x : Offer V)
  /-- `send` returns false. -/
  | refused
deriving DecidableEq

/-- `MicrotaskNode` of a coroutine. -/
structure Microtask (V : Type) where
  thread : ℕ
  wake : Wake V
  cancelled : Bool
deriving DecidableEq

/-- A channel, the coroutines, and what has happened. -/
structure State (V : Type) where
  chan : ChannelData V
  status : ℕ → Status
  microtasks : List (Microtask V)
  /-- The values of all calls of `send` and `try_send`. -/
  offered : List V
  /-- The values that were handed to a `recv` or `try_recv`. -/
  handed : List (Offer V)
  received : List (Offer V)
  /-- The values for which `send` or `try_send` has returned true. -/
  acked : List (Offer V)

/-! ### Operations -/

/-- A waiting coroutine is resumed later, if it is suspended. -/
def wake (s : State V) (thread : ℕ) (w : Wake V) : State V :=
  if s.status thread = .suspended then
    { s with microtasks := s.microtasks ++ [⟨thread, w, false⟩] }
  else s

/-- The caller is suspended; where it cannot yield, the call raises an error. -/
def suspend (s : State V) (thread : ℕ) (yieldable : Bool) : State V :=
  if yieldable then { s with status := Function.update s.status thread .suspended } else s

/-- The value of a call is offered. -/
def offer (s : State V) (v : V) : Offer V × State V :=
  (⟨s.offered.length, v⟩, { s with offered := s.offered ++ [v] })

/-- The part of `channel_send` and `channel_try_send` that does not wait: the value goes to a
waiting receiver or into the buffer, and the call returns true. -/
def putValue (s : State V) (x : Offer V) : Option (State V) :=
  match s.chan.recv_waiters with
  | receiver :: rest =>
    let s := { s with chan := { s.chan with recv_waiters := rest } }
    let s :=
      if s.status receiver = .suspended then { wake s receiver (.value x) with
        handed := s.handed ++ [x] }
      else s
    some { s with acked := s.acked ++ [x] }
  | [] =>
    if s.chan.buffer_refs.length < s.chan.capacity then
      some { s with
        chan := { s.chan with buffer_refs := s.chan.buffer_refs ++ [x] }
        acked := s.acked ++ [x] }
    else none

def channel_send (s : State V) (thread : ℕ) (v : V) (yieldable : Bool) : State V :=
  if s.chan.closed then s
  else
    let (x, s) := offer s v
    match putValue s x with
    | some s => s
    | none =>
      suspend { s with chan := { s.chan with
        send_waiters := s.chan.send_waiters ++ [⟨thread, x⟩] } } thread yieldable

def channel_try_send (s : State V) (v : V) : State V :=
  if s.chan.closed then s
  else
    let (x, s) := offer s v
    (putValue s x).getD s

/-- The part of `channel_recv` and `channel_try_recv` that does not wait: the first value of the
buffer, whose place goes to the first waiting sender, or else the value of the first waiting
sender. -/
def takeValue (s : State V) : Option (State V) :=
  match s.chan.buffer_refs with
  | x :: rest =>
    let s := { s with
      chan := { s.chan with buffer_refs := rest }
      handed := s.handed ++ [x]
      received := s.received ++ [x] }
    match s.chan.send_waiters with
    | [] => some s
    | sender :: senders =>
      some (wake { s with chan := { s.chan with
        send_waiters := senders
        buffer_refs := s.chan.buffer_refs ++ [sender.offer] } } sender.thread (.sent sender.offer))
  | [] =>
    match s.chan.send_waiters with
    | [] => none
    | sender :: senders =>
      some (wake { s with
        chan := { s.chan with send_waiters := senders }
        handed := s.handed ++ [sender.offer]
        received := s.received ++ [sender.offer] } sender.thread (.sent sender.offer))

def channel_recv (s : State V) (thread : ℕ) (yieldable : Bool) : State V :=
  match takeValue s with
  | some s => s
  | none =>
    if s.chan.closed then s
    else
      suspend { s with chan := { s.chan with
        recv_waiters := s.chan.recv_waiters ++ [thread] } } thread yieldable

def channel_try_recv (s : State V) : State V := (takeValue s).getD s

def channel_close (s : State V) : State V :=
  if s.chan.closed then s
  else
    let receivers := s.chan.recv_waiters
    let senders := s.chan.send_waiters
    let s := { s with chan := { s.chan with closed := true, recv_waiters := [], send_waiters := [] } }
    let s := receivers.foldl (fun s r => wake s r .closed) s
    senders.foldl (fun s w => wake s w.thread .refused) s

/-- `Reactor::cancel_thread`: its microtasks are cancelled and the coroutine is reset.  A microtask
that `process_microtasks` has taken over keeps its flag, but the coroutine is dead then.  What waits
in the channel stays there. -/
def cancel_thread (s : State V) (thread : ℕ) : State V :=
  { s with
    microtasks := s.microtasks.map fun m =>
      if m.thread = thread then { m with cancelled := true } else m
    status := Function.update s.status thread .dead }

/-- One turn of `process_microtasks`.  Steps of the reactor may be nested, so any microtask may be
the next one. -/
def process_microtask (s : State V) (i : ℕ) : State V :=
  match s.microtasks[i]? with
  | none => s
  | some m =>
    let s := { s with microtasks := s.microtasks.eraseIdx i }
    if m.cancelled = false ∧ s.status m.thread = .suspended then
      let s := { s with status := Function.update s.status m.thread .active }
      match m.wake with
      | .value x => { s with received := s.received ++ [x] }
      | .sent x => { s with acked := s.acked ++ [x] }
      | .closed => s
      | .refused => s
    else s

/-- What happens in a run. -/
inductive Op (V : Type) where
  /-- A coroutine calls `send`. -/
  | send (thread : ℕ) (v : V) (yieldable : Bool)
  /-- A coroutine calls `recv`. -/
  | recv (thread : ℕ) (yieldable : Bool)
  /-- A coroutine calls `try_send`. -/
  | try_send (thread : ℕ) (v : V)
  /-- A coroutine calls `try_recv`. -/
  | try_recv (thread : ℕ)
  /-- A coroutine calls `close`. -/
  | close
  | cancel (thread : ℕ)
  | microtask (i : ℕ)
  /-- A coroutine ends, yields or is resumed for another reason. -/
  | other (thread : ℕ) (status : Status)
deriving DecidableEq

/-- Callers are not suspended. -/
def Op.enabled (s : State V) : Op V → Prop
  | .send thread _ _ => s.status thread = .active
  | .recv thread _ => s.status thread = .active
  | .try_send thread _ => s.status thread = .active
  | .try_recv thread => s.status thread = .active
  | _ => True

def exec (s : State V) : Op V → State V
  | .send thread v yieldable => channel_send s thread v yieldable
  | .recv thread yieldable => channel_recv s thread yieldable
  | .try_send _ v => channel_try_send s v
  | .try_recv _ => channel_try_recv s
  | .close => channel_close s
  | .cancel thread => cancel_thread s thread
  | .microtask i => process_microtask s i
  | .other thread status => { s with status := Function.update s.status thread status }

def new_channel (capacity : ℕ) (status : ℕ → Status) : State V where
  chan := ⟨capacity, false, [], [], []⟩
  status := status
  microtasks := []
  offered := []
  handed := []
  received := []
  acked := []

/-- The runs of coroutines with one channel. -/
def channel (V : Type) : Machine (State V) (Op V) where
  init s := ∃ capacity status, s = new_channel capacity status
  enabled := Op.enabled
  exec := exec

/-! ### Order -/

/-- The values on their way, the ones handed out first. -/
def pipeline (s : State V) : List (Offer V) :=
  s.handed ++ s.chan.buffer_refs ++ s.chan.send_waiters.map Sender.offer

/-- The invariant of the values and the queues. -/
structure Ordered (s : State V) : Prop where
  sorted : (pipeline s).Pairwise fun x y => x.call < y.call
  offered : ∀ x ∈ pipeline s, s.offered[x.call]? = some x.value
  len : s.chan.buffer_refs.length ≤ s.chan.capacity
  full : s.chan.send_waiters ≠ [] → s.chan.buffer_refs.length = s.chan.capacity
  empty : s.chan.recv_waiters ≠ [] → s.chan.buffer_refs = [] ∧ s.chan.send_waiters = []

section Wake

variable (s : State V) (t : ℕ) (w : Wake V)

@[simp] theorem wake_chan : (wake s t w).chan = s.chan := by
  rw [wake]
  split_ifs <;> rfl

@[simp] theorem wake_handed : (wake s t w).handed = s.handed := by
  rw [wake]
  split_ifs <;> rfl

@[simp] theorem wake_offered : (wake s t w).offered = s.offered := by
  rw [wake]
  split_ifs <;> rfl

@[simp] theorem wake_status : (wake s t w).status = s.status := by
  rw [wake]
  split_ifs <;> rfl

@[simp] theorem wake_received : (wake s t w).received = s.received := by
  rw [wake]
  split_ifs <;> rfl

@[simp] theorem wake_acked : (wake s t w).acked = s.acked := by
  rw [wake]
  split_ifs <;> rfl

end Wake

variable {s s' : State V} {x : Offer V}

/-- The invariant depends on the channel and on what was offered and handed out. -/
theorem Ordered.congr (h : Ordered s) (hchan : s'.chan = s.chan) (hhanded : s'.handed = s.handed)
    (hoffered : s'.offered = s.offered) : Ordered s' := by
  have hpipe : pipeline s' = pipeline s := by rw [pipeline, pipeline, hchan, hhanded]
  exact ⟨by rw [hpipe]; exact h.sorted, by rw [hpipe, hoffered]; exact h.offered,
    by rw [hchan]; exact h.len, by rw [hchan]; exact h.full, by rw [hchan]; exact h.empty⟩

/-- Values that are not on their way are of no concern. -/
theorem Ordered.sublist (h : Ordered s) (hsub : (pipeline s').Sublist (pipeline s))
    (hoffered : s'.offered = s.offered) (hcap : s'.chan.capacity = s.chan.capacity)
    (hlen : s'.chan.buffer_refs.length ≤ s.chan.capacity)
    (hfull : s'.chan.send_waiters ≠ [] → s'.chan.buffer_refs.length = s.chan.capacity)
    (hempty : s'.chan.recv_waiters ≠ [] → s'.chan.buffer_refs = [] ∧ s'.chan.send_waiters = []) :
    Ordered s' :=
  ⟨h.sorted.sublist hsub, fun x hx => by rw [hoffered]; exact h.offered x (hsub.subset hx),
    by rw [hcap]; exact hlen, by rw [hcap]; exact hfull, hempty⟩

theorem Ordered.call_lt (h : Ordered s) (hx : x ∈ pipeline s) : x.call < s.offered.length :=
  (List.getElem?_eq_some_iff.mp (h.offered x hx)).1

/-- A new value comes last. -/
theorem Ordered.push (h : Ordered s) (v : V)
    (hpipe : pipeline s' = pipeline s ++ [⟨s.offered.length, v⟩])
    (hoffered : s'.offered = s.offered ++ [v]) (hcap : s'.chan.capacity = s.chan.capacity)
    (hlen : s'.chan.buffer_refs.length ≤ s.chan.capacity)
    (hfull : s'.chan.send_waiters ≠ [] → s'.chan.buffer_refs.length = s.chan.capacity)
    (hempty : s'.chan.recv_waiters ≠ [] → s'.chan.buffer_refs = [] ∧ s'.chan.send_waiters = []) :
    Ordered s' := by
  refine ⟨?_, fun x hx => ?_, by rw [hcap]; exact hlen, by rw [hcap]; exact hfull, hempty⟩
  · rw [hpipe, List.pairwise_append]
    refine ⟨h.sorted, List.pairwise_singleton _ _, fun x hx y hy => ?_⟩
    rw [List.mem_singleton.mp hy]
    exact h.call_lt hx
  · rw [hoffered]
    rw [hpipe] at hx
    rcases List.mem_append.mp hx with hx | hx
    · rw [List.getElem?_append_left (h.call_lt hx)]
      exact h.offered x hx
    · rw [List.mem_singleton.mp hx]
      simp

/-- The state after an offer, before anything is done with the value. -/
theorem Ordered.offer (h : Ordered s) (v : V) : Ordered (Task.offer s v).2 := by
  refine ⟨h.sorted, fun x hx => ?_, h.len, h.full, h.empty⟩
  have hlt := h.call_lt hx
  simp only [Task.offer]
  rw [List.getElem?_append_left hlt]
  exact h.offered x hx

theorem Ordered.putValue (h : Ordered s) (v : V)
    (hput : Task.putValue (Task.offer s v).2 (Task.offer s v).1 = some s') : Ordered s' := by
  simp only [Task.putValue, Task.offer] at hput
  cases hrecv : s.chan.recv_waiters with
  | cons receiver rest =>
    obtain ⟨hbuf, hsend⟩ := h.empty (by rw [hrecv]; simp)
    by_cases hsus : s.status receiver = .suspended
    · simp only [hrecv, hsus, if_true] at hput
      obtain rfl := Option.some.inj hput
      refine h.push v ?_ ?_ ?_ ?_ ?_ ?_
      · simp [pipeline, hbuf, hsend]
      · simp
      · simp
      · simpa using h.len
      · simp [hsend]
      · simp [hbuf, hsend]
    · simp only [hrecv, hsus, if_false] at hput
      obtain rfl := Option.some.inj hput
      exact (h.offer v).sublist (List.Sublist.refl _) rfl rfl h.len h.full fun _ => ⟨hbuf, hsend⟩
  | nil =>
    simp only [hrecv, Option.ite_none_right_eq_some] at hput
    obtain ⟨hroom, hput⟩ := hput
    obtain rfl := Option.some.inj hput
    have hsend : s.chan.send_waiters = [] := by
      by_contra hne
      have := h.full hne
      omega
    refine h.push v ?_ rfl rfl ?_ ?_ ?_
    · simp [pipeline, hsend]
    · simp only [List.length_append, List.length_singleton]
      omega
    · simp [hsend]
    · simp

theorem Ordered.takeValue (h : Ordered s) (htake : Task.takeValue s = some s') : Ordered s' := by
  rw [Task.takeValue] at htake
  cases hbuf : s.chan.buffer_refs with
  | cons x rest =>
    have hrecv : s.chan.recv_waiters = [] := by
      by_contra hne
      have := (h.empty hne).1
      rw [hbuf] at this
      exact absurd this (by simp)
    have hlen := h.len
    rw [hbuf, List.length_cons] at hlen
    cases hsend : s.chan.send_waiters with
    | nil =>
      simp only [hbuf, hsend] at htake
      obtain rfl := Option.some.inj htake
      refine h.sublist ?_ rfl rfl ?_ ?_ ?_
      · simp [pipeline, hbuf]
      · simp only
        omega
      · simp
      · simp [hrecv]
    | cons sender senders =>
      have hfull := h.full (by rw [hsend]; simp)
      rw [hbuf, List.length_cons] at hfull
      simp only [hbuf, hsend] at htake
      obtain rfl := Option.some.inj htake
      refine h.sublist ?_ ?_ ?_ ?_ ?_ ?_
      · simp [pipeline, hbuf, hsend]
      · simp
      · simp
      · simp only [wake_chan, List.length_append, List.length_singleton]
        omega
      · simp only [wake_chan, List.length_append, List.length_singleton]
        intro _
        omega
      · simp [hrecv]
  | nil =>
    cases hsend : s.chan.send_waiters with
    | nil =>
      simp only [hbuf, hsend] at htake
      exact absurd htake (by simp)
    | cons sender senders =>
      have hfull := h.full (by rw [hsend]; simp)
      have hrecv : s.chan.recv_waiters = [] := by
        by_contra hne
        have := (h.empty hne).2
        rw [hsend] at this
        exact absurd this (by simp)
      simp only [hbuf, hsend] at htake
      obtain rfl := Option.some.inj htake
      refine h.sublist ?_ ?_ ?_ ?_ ?_ ?_
      · simp [pipeline, hbuf, hsend]
      · simp
      · simp
      · simp
      · simpa [hbuf] using fun _ => hfull
      · simp [hrecv]

theorem putValue_eq_none (h : putValue s x = none) :
    s.chan.recv_waiters = [] ∧ s.chan.capacity ≤ s.chan.buffer_refs.length := by
  rw [putValue] at h
  cases hrecv : s.chan.recv_waiters with
  | cons receiver rest =>
    rw [hrecv] at h
    exact absurd h (by simp)
  | nil =>
    rw [hrecv] at h
    simp only at h
    split_ifs at h with hroom
    exact ⟨rfl, Nat.le_of_not_lt hroom⟩

theorem takeValue_eq_none (h : takeValue s = none) :
    s.chan.buffer_refs = [] ∧ s.chan.send_waiters = [] := by
  rw [takeValue] at h
  cases hbuf : s.chan.buffer_refs with
  | cons x rest =>
    rw [hbuf] at h
    simp only at h
    split at h <;> exact absurd h (by simp)
  | nil =>
    rw [hbuf] at h
    simp only at h
    split at h
    · exact ⟨rfl, by assumption⟩
    · exact absurd h (by simp)

theorem suspend_congr (s : State V) (t : ℕ) (y : Bool) : (suspend s t y).chan = s.chan ∧
    (suspend s t y).handed = s.handed ∧ (suspend s t y).offered = s.offered := by
  rw [suspend]
  split_ifs <;> exact ⟨rfl, rfl, rfl⟩

theorem Ordered.send (h : Ordered s) (t : ℕ) (v : V) (y : Bool) :
    Ordered (channel_send s t v y) := by
  rw [channel_send]
  split_ifs with hclosed
  · exact h
  · cases hput : Task.putValue (Task.offer s v).2 (Task.offer s v).1 with
    | some s' =>
      simp only [hput]
      exact h.putValue v hput
    | none =>
      simp only [hput]
      obtain ⟨hrecv, hcap⟩ := putValue_eq_none hput
      obtain ⟨h1, h2, h3⟩ := suspend_congr { (Task.offer s v).2 with
        chan := { (Task.offer s v).2.chan with
          send_waiters := (Task.offer s v).2.chan.send_waiters ++ [⟨t, (Task.offer s v).1⟩] } } t y
      refine Ordered.congr ?_ h1 h2 h3
      refine h.push v ?_ rfl rfl h.len (fun _ => Nat.le_antisymm h.len hcap) ?_
      · simp [pipeline, Task.offer]
      · intro hne
        exact absurd hrecv hne

theorem Ordered.try_send (h : Ordered s) (v : V) : Ordered (channel_try_send s v) := by
  rw [channel_try_send]
  split_ifs with hclosed
  · exact h
  · cases hput : Task.putValue (Task.offer s v).2 (Task.offer s v).1 with
    | some s' =>
      simp only [hput, Option.getD_some]
      exact h.putValue v hput
    | none =>
      simp only [hput, Option.getD_none]
      exact h.offer v

theorem Ordered.recv (h : Ordered s) (t : ℕ) (y : Bool) : Ordered (channel_recv s t y) := by
  rw [channel_recv]
  cases htake : Task.takeValue s with
  | some s' => exact h.takeValue htake
  | none =>
    obtain ⟨hbuf, hsend⟩ := takeValue_eq_none htake
    simp only
    split_ifs
    · exact h
    · obtain ⟨h1, h2, h3⟩ := suspend_congr { s with
        chan := { s.chan with recv_waiters := s.chan.recv_waiters ++ [t] } } t y
      refine Ordered.congr ?_ h1 h2 h3
      exact h.sublist (List.Sublist.refl _) rfl rfl h.len h.full fun _ => ⟨hbuf, hsend⟩

theorem foldl_wake_congr {β : Type} (f : β → ℕ) (w : Wake V) (l : List β) (s : State V) :
    (l.foldl (fun s b => wake s (f b) w) s).chan = s.chan ∧
      (l.foldl (fun s b => wake s (f b) w) s).handed = s.handed ∧
      (l.foldl (fun s b => wake s (f b) w) s).offered = s.offered := by
  induction l generalizing s with
  | nil => exact ⟨rfl, rfl, rfl⟩
  | cons b l ih =>
    obtain ⟨h1, h2, h3⟩ := ih (wake s (f b) w)
    simp only [List.foldl_cons, h1, h2, h3, wake_chan, wake_handed, wake_offered, and_self]

theorem Ordered.close (h : Ordered s) : Ordered (channel_close s) := by
  rw [channel_close]
  split_ifs
  · exact h
  · have hclosed : Ordered { s with
        chan := { s.chan with closed := true, recv_waiters := [], send_waiters := [] } } := by
      refine h.sublist ?_ rfl rfl h.len (by simp) (by simp)
      simp [pipeline]
    obtain ⟨h1, h2, h3⟩ := foldl_wake_congr id .closed s.chan.recv_waiters { s with
      chan := { s.chan with closed := true, recv_waiters := [], send_waiters := [] } }
    obtain ⟨h4, h5, h6⟩ := foldl_wake_congr Sender.thread .refused s.chan.send_waiters
      (s.chan.recv_waiters.foldl (fun s r => wake s r .closed) { s with
        chan := { s.chan with closed := true, recv_waiters := [], send_waiters := [] } })
    exact (hclosed.congr h1 h2 h3).congr h4 h5 h6

theorem Ordered.microtask (h : Ordered s) (i : ℕ) : Ordered (process_microtask s i) := by
  rw [process_microtask]
  cases s.microtasks[i]? with
  | none => exact h
  | some m =>
    simp only
    split_ifs
    · cases m.wake <;> exact h.congr rfl rfl rfl
    · exact h.congr rfl rfl rfl

/-- One operation keeps the order. -/
theorem Ordered.exec (h : Ordered s) (op : Op V) : Ordered (exec s op) := by
  cases op with
  | send t v y => exact h.send t v y
  | recv t y => exact h.recv t y
  | try_send t v => exact h.try_send v
  | try_recv t =>
    rw [Task.exec, channel_try_recv]
    cases htake : Task.takeValue s with
    | some s' => exact h.takeValue htake
    | none => exact h
  | close => exact h.close
  | cancel t => exact h.congr rfl rfl rfl
  | microtask i => exact h.microtask i
  | other t st => exact h.congr rfl rfl rfl

/-- **Channels keep values in order.**  In every run, each value that is handed out is the value of
its own call, the values are handed out in the order of the calls and so at most once, the buffer
is within its capacity, senders wait only while it is full, and receivers wait only while the buffer
and the queue of senders are empty. -/
theorem channel_order (h : (channel V).Reach (fun _ _ => True) s) :
    (s.handed.Pairwise fun x y => x.call < y.call) ∧
      (∀ x ∈ s.handed, s.offered[x.call]? = some x.value) ∧
      s.chan.buffer_refs.length ≤ s.chan.capacity ∧
      (s.chan.send_waiters ≠ [] → s.chan.buffer_refs.length = s.chan.capacity) ∧
      (s.chan.recv_waiters ≠ [] → s.chan.buffer_refs = [] ∧ s.chan.send_waiters = []) := by
  have hordered : Ordered s := by
    refine h.invariant (I := Ordered) ?_ fun s op hs _ _ => hs.exec op
    rintro s ⟨capacity, status, rfl⟩
    exact ⟨by simp [pipeline, new_channel], by simp [pipeline, new_channel], by simp [new_channel],
      by simp [new_channel], by simp [new_channel]⟩
  have hsub : s.handed.Sublist (pipeline s) := by
    rw [pipeline, List.append_assoc]
    exact List.sublist_append_left _ _
  exact ⟨hordered.sorted.sublist hsub, fun x hx => hordered.offered x (hsub.subset hx),
    hordered.len, hordered.full, hordered.empty⟩

/-- Two senders, the second of which waits for room, and a receiver. -/
theorem channel_order_two_senders :
    let s := [Op.send 1 10 true, .send 2 20 true, .recv 3 true, .recv 3 true].foldl exec
      (new_channel 1 fun _ => .active)
    s.handed = [⟨0, 10⟩, ⟨1, 20⟩] ∧ s.handed.Pairwise fun x y => x.call < y.call := by
  intro s
  have hinit : (channel ℕ).Reach (fun _ _ => True) (new_channel 1 fun _ => .active) :=
    .init ⟨1, fun _ => .active, rfl⟩
  refine ⟨rfl, (channel_order (hinit.run ?_)).1⟩
  exact ⟨rfl, trivial, rfl, trivial, rfl, trivial, rfl, trivial, trivial⟩

end Task

end Jaci
