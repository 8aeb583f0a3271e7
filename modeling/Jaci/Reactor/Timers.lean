import Jaci.Lib.Machine
import Mathlib.Data.List.Basic
import Mathlib.Data.List.Nodup
import Mathlib.Data.List.Perm.Basic

/-!
# Timers

The reactor keeps its timers in a heap.  A node of the heap has references to a coroutine or a
callback in the registry, and releases them when it expires for the last time.  A timer handle of a
program knows the reference of its callback too.  Slots of the registry are used again, so a
reference goes by the number of the call of `lua_ref` that has made it.

* `timer_references_owned` : the runs in which the nodes of the heap own their references;
* `timer_start_released` : a timer that is stopped and started again.
-/

namespace Jaci

namespace Reactor

namespace Timers

/-! ### State -/

/-- What a timer calls. -/
inductive Target where
  | callback
  | thread (co : ℕ)
deriving DecidableEq

structure TimerNode where
  expiry_ns : ℕ
  interval_ns : ℕ
  timer_id : ℕ
  thread_ref : Option ℕ
  args_ref : Option ℕ
  /-- What `thread_ref` refers to. -/
  target : Target
  cancelled : Bool
deriving DecidableEq

/-- The references of a node. -/
def TimerNode.refs (t : TimerNode) : List ℕ := t.thread_ref.toList ++ t.args_ref.toList

structure TimerHandleData where
  timer_id : ℕ
  interval_ns : ℕ
  callback_ref : ℕ
  repeating : Bool
  active : Bool
deriving DecidableEq

/-- A call of `process_expired_timers`. -/
structure Frame where
  current_ns : ℕ
  running : Option TimerNode
deriving DecidableEq

/-- The timers of the reactor. -/
structure State where
  now_ns : ℕ
  /-- The number of calls of `lua_ref`. -/
  refs : ℕ
  /-- The number of the next timer: `next_timer_id_`. -/
  next_timer_id : ℕ
  /-- The nodes, in some order: `timer_heap_`. -/
  heap : List TimerNode
  handles : List TimerHandleData
  /-- The calls of `process_expired_timers`, the innermost first. -/
  frames : List Frame
  released : List ℕ

/-! ### Operations -/

def schedule_timer (s : State) (delay_ns : ℕ) (thread_ref args_ref : Option ℕ) (interval_ns : ℕ)
    (target : Target) : State :=
  { s with
    next_timer_id := s.next_timer_id + 1
    heap := s.heap ++ [⟨s.now_ns + delay_ns, interval_ns, s.next_timer_id, thread_ref, args_ref,
      target, false⟩] }

/-- The loop of `cancel_timer`. -/
def cancel_first (timer_id : ℕ) : List TimerNode → List TimerNode
  | [] => []
  | t :: rest =>
    if t.timer_id = timer_id then { t with cancelled := true } :: rest
    else t :: cancel_first timer_id rest

/-- `cancel_timer`: the node with this number, if it is still there. -/
def cancel_timer (s : State) (timer_id : ℕ) : State :=
  { s with heap := cancel_first timer_id s.heap }

/-- The part of `cancel_thread` for timers. -/
def cancel_thread (s : State) (co : ℕ) : State :=
  { s with heap := s.heap.map fun t =>
      if t.target = .thread co then { t with cancelled := true } else t }

def task_timer_create (s : State) (interval_ns : ℕ) (repeating : Bool) : State :=
  let callback_ref := s.refs
  let handle : TimerHandleData := ⟨s.next_timer_id, interval_ns, callback_ref, repeating, true⟩
  schedule_timer { s with refs := s.refs + 1, handles := s.handles ++ [handle] } interval_ns
    (some callback_ref) none (if repeating then interval_ns else 0) .callback

/-- `timer_stop`, which `task_cancel` does for a timer too. -/
def timer_stop (s : State) (n : ℕ) : State :=
  match s.handles[n]? with
  | some t =>
    if t.active then
      cancel_timer { s with handles := s.handles.set n { t with active := false } } t.timer_id
    else s
  | none => s

def timer_start (s : State) (n : ℕ) (interval : Option ℕ) : State :=
  match s.handles[n]? with
  | some t =>
    if t.active then s
    else
      let interval_ns := interval.getD t.interval_ns
      let t := { t with interval_ns := interval_ns, active := true, timer_id := s.next_timer_id }
      schedule_timer { s with handles := s.handles.set n t } interval_ns (some t.callback_ref) none
        (if t.repeating then interval_ns else 0) .callback
  | none => s

def timer_reset (s : State) (n : ℕ) (interval : Option ℕ) : State :=
  timer_start (timer_stop s n) n interval

/-- `task_delay`, `task_wait` and `task_yield`: a coroutine is resumed later. -/
def task_delay (s : State) (delay_ns : ℕ) (co : ℕ) : State :=
  schedule_timer { s with refs := s.refs + 1 } delay_ns (some s.refs) none 0 (.thread co)

/-- The references of a node are released. -/
def release (s : State) (t : TimerNode) : State := { s with released := s.released ++ t.refs }

/-- `process_expired_timers` is called. -/
def process_expired_timers (s : State) : State :=
  { s with frames := ⟨s.now_ns, none⟩ :: s.frames }

/-- The loop of `process_expired_timers` takes a node from the heap.  A repeating timer is put back
first, then the coroutine or callback runs. -/
def expire (s : State) (i : ℕ) : State :=
  match s.frames, s.heap[i]? with
  | ⟨current_ns, _⟩ :: outer, some t =>
    let s := { s with heap := s.heap.eraseIdx i }
    if t.cancelled then release s t
    else
      let s :=
        if 0 < t.interval_ns then
          { s with heap := s.heap ++ [{ t with expiry_ns := current_ns + t.interval_ns }] }
        else s
      { s with frames := ⟨current_ns, some t⟩ :: outer }
  | _, _ => s

/-- The coroutine or callback yields, ends or fails. -/
def finish (s : State) : State :=
  match s.frames with
  | ⟨current_ns, some t⟩ :: outer =>
    let s := { s with frames := ⟨current_ns, none⟩ :: outer }
    if t.interval_ns = 0 then release s t else s
  | _ => s

/-- `process_expired_timers` returns. -/
def leave (s : State) : State := { s with frames := s.frames.tail }

/-- What happens in a run. -/
inductive Op where
  | tick (ns : ℕ)
  /-- `task.timer`. -/
  | create (interval_ns : ℕ) (repeating : Bool)
  /-- `stop` of a timer, or `task.cancel` with a timer. -/
  | stop (n : ℕ)
  /-- `start` of a timer. -/
  | start (n : ℕ) (interval : Option ℕ)
  /-- `reset` of a timer. -/
  | reset (n : ℕ) (interval : Option ℕ)
  /-- `task.cancel` with a coroutine. -/
  | cancel (co : ℕ)
  /-- `task.delay` or `task.wait`. -/
  | delay (delay_ns : ℕ) (co : ℕ)
  /-- `process_expired_timers` is called. -/
  | step
  | expire (i : ℕ)
  | finish
  /-- `process_expired_timers` returns. -/
  | leave
deriving DecidableEq

/-- The program runs, in a timer or outside of `process_expired_timers`. -/
def State.running (s : State) : Prop := ∀ f ∈ s.frames.head?, f.running ≠ none

instance (s : State) : Decidable s.running :=
  inferInstanceAs (Decidable (∀ f ∈ s.frames.head?, f.running ≠ none))

/-- A node that is due and that the heap may have in front. -/
def Front (s : State) (i : ℕ) : Prop :=
  ∃ f ∈ s.frames.head?, ∃ t ∈ s.heap[i]?, t.expiry_ns ≤ f.current_ns ∧
    ∀ t' ∈ s.heap, t.expiry_ns ≤ t'.expiry_ns

instance (s : State) (i : ℕ) : Decidable (Front s i) :=
  inferInstanceAs (Decidable (∃ f ∈ s.frames.head?, ∃ t ∈ s.heap[i]?,
    t.expiry_ns ≤ f.current_ns ∧ ∀ t' ∈ s.heap, t.expiry_ns ≤ t'.expiry_ns))

/-- When an operation is possible. -/
def Op.enabled (s : State) : Op → Prop
  | .tick _ => True
  | .expire i => ¬ s.running ∧ Front s i
  | .leave => ¬ s.running ∧ ∀ f ∈ s.frames.head?, ∀ t ∈ s.heap, f.current_ns < t.expiry_ns
  | .finish => s.running ∧ s.frames ≠ []
  | .create _ _ | .stop _ | .start _ _ | .reset _ _ | .cancel _ | .delay _ _ | .step => s.running

instance (s : State) : ∀ op, Decidable (Op.enabled s op)
  | .tick _ => inferInstanceAs (Decidable True)
  | .expire i => inferInstanceAs (Decidable (¬ s.running ∧ Front s i))
  | .leave => inferInstanceAs (Decidable (¬ s.running ∧
      ∀ f ∈ s.frames.head?, ∀ t ∈ s.heap, f.current_ns < t.expiry_ns))
  | .finish => inferInstanceAs (Decidable (s.running ∧ s.frames ≠ []))
  | .create _ _ | .stop _ | .start _ _ | .reset _ _ | .cancel _ | .delay _ _ | .step =>
    inferInstanceAs (Decidable s.running)

def exec (s : State) : Op → State
  | .tick ns => { s with now_ns := s.now_ns + ns }
  | .create interval_ns repeating => task_timer_create s interval_ns repeating
  | .stop n => timer_stop s n
  | .start n interval => timer_start s n interval
  | .reset n interval => timer_reset s n interval
  | .cancel co => cancel_thread s co
  | .delay delay_ns co => task_delay s delay_ns co
  | .step => process_expired_timers s
  | .expire i => Timers.expire s i
  | .finish => Timers.finish s
  | .leave => Timers.leave s

def State.new : State where
  now_ns := 0
  refs := 0
  next_timer_id := 1
  heap := []
  handles := []
  frames := []
  released := []

/-- The runs of the timers. -/
def timers : Machine State Op where
  init s := s = .new
  enabled := Op.enabled
  exec := exec

instance (s : State) (op : Op) : Decidable (timers.enabled s op) :=
  inferInstanceAs (Decidable (op.enabled s))

/-! ### Ownership -/

/-- No timer is started again: `start` is called for active timers only, and `reset` is not. -/
def Op.careful (s : State) : Op → Prop
  | .start n _ => ∀ t ∈ s.handles[n]?, t.active = true
  | .reset _ _ => False
  | .tick _ | .create _ _ | .stop _ | .cancel _ | .delay _ _ | .step | .expire _ | .finish
  | .leave => True

instance (s : State) : ∀ op, Decidable (Op.careful s op)
  | .start n _ => inferInstanceAs (Decidable (∀ t ∈ s.handles[n]?, t.active = true))
  | .reset _ _ => inferInstanceAs (Decidable False)
  | .tick _ | .create _ _ | .stop _ | .cancel _ | .delay _ _ | .step | .expire _ | .finish
  | .leave => inferInstanceAs (Decidable True)

/-- The references of a timer that runs for the last time. -/
def Frame.refs (f : Frame) : List ℕ :=
  match f.running with
  | some t => if t.interval_ns = 0 then t.refs else []
  | none => []

theorem Frame.refs_last {t : TimerNode} (c : ℕ) (h : t.interval_ns = 0) :
    Frame.refs ⟨c, some t⟩ = t.refs := if_pos h

theorem Frame.refs_repeating {t : TimerNode} (c : ℕ) (h : t.interval_ns ≠ 0) :
    Frame.refs ⟨c, some t⟩ = [] := if_neg h

/-- The references that will be released once. -/
def owned (s : State) : List ℕ :=
  s.heap.flatMap TimerNode.refs ++ s.frames.flatMap Frame.refs

/-- The invariant of careful runs: every reference that was made is owned once or was released
once. -/
structure Owned (s : State) : Prop where
  /-- No reference is owned twice, or was released, or was released twice. -/
  nodup : (owned s ++ s.released).Nodup
  made : ∀ r ∈ owned s ++ s.released, r < s.refs

variable {s s' : State}

/-- References change their owner only. -/
theorem Owned.perm (h : Owned s) (hperm : (owned s' ++ s'.released).Perm (owned s ++ s.released))
    (hrefs : s'.refs = s.refs) : Owned s' where
  nodup := hperm.nodup_iff.mpr h.nodup
  made r hr := by
    rw [hrefs]
    exact h.made r (hperm.subset hr)

/-- A new reference is owned by a new node. -/
theorem Owned.schedule (h : Owned s) (hheap : s'.heap.flatMap TimerNode.refs =
      s.heap.flatMap TimerNode.refs ++ [s.refs]) (hframes : s'.frames = s.frames)
    (hreleased : s'.released = s.released) (hrefs : s'.refs = s.refs + 1) : Owned s' := by
  have hperm : (owned s' ++ s'.released).Perm (s.refs :: (owned s ++ s.released)) := by
    rw [owned, owned, hheap, hframes, hreleased, List.append_assoc, List.append_assoc,
      List.append_assoc]
    exact List.perm_middle
  refine ⟨hperm.nodup_iff.mpr (List.nodup_cons.mpr ⟨?_, h.nodup⟩), fun r hr => ?_⟩
  · intro hmem
    exact Nat.lt_irrefl _ (h.made _ hmem)
  · rw [hrefs]
    rcases List.mem_cons.mp (hperm.subset hr) with rfl | hr
    · exact Nat.lt_succ_self _
    · exact Nat.lt_succ_of_lt (h.made r hr)

/-- Cancelled nodes keep their references. -/
theorem flatMap_refs_cancel_first (timer_id : ℕ) (l : List TimerNode) :
    (cancel_first timer_id l).flatMap TimerNode.refs = l.flatMap TimerNode.refs := by
  induction l with
  | nil => rfl
  | cons t rest ih =>
    rw [cancel_first]
    split_ifs
    · rfl
    · rw [List.flatMap_cons, List.flatMap_cons, ih]

theorem flatMap_refs_cancel_thread (s : State) (co : ℕ) :
    (cancel_thread s co).heap.flatMap TimerNode.refs = s.heap.flatMap TimerNode.refs := by
  rw [cancel_thread, List.flatMap_map]
  refine List.flatMap_congr fun t _ => ?_
  split_ifs <;> rfl

/-- Nothing changes for the references. -/
theorem Owned.congr (h : Owned s)
    (hheap : s'.heap.flatMap TimerNode.refs = s.heap.flatMap TimerNode.refs)
    (hframes : s'.frames.flatMap Frame.refs = s.frames.flatMap Frame.refs)
    (hreleased : s'.released = s.released) (hrefs : s'.refs = s.refs) : Owned s' := by
  refine h.perm ?_ hrefs
  rw [owned, owned, hheap, hframes, hreleased]

theorem Owned.stop (h : Owned s) (n : ℕ) : Owned (timer_stop s n) := by
  rw [timer_stop]
  split
  · split_ifs
    · exact h.congr (flatMap_refs_cancel_first _ _) rfl rfl rfl
    · exact h
  · exact h

theorem running_eq_none {f : Frame} {outer : List Frame} (hrun : ¬ s.running)
    (hframes : s.frames = f :: outer) : f.running = none := by
  by_contra hne
  refine hrun fun f' hf' => ?_
  rw [hframes, List.head?_cons, Option.mem_some_iff] at hf'
  rw [← hf']
  exact hne

/-- A node leaves the heap, and its references go where they belong. -/
theorem Owned.expire (h : Owned s) (i : ℕ) (hrun : ¬ s.running) : Owned (expire s i) := by
  rw [Timers.expire]
  split
  · rename_i current running outer t hframes ht
    obtain rfl : running = none := running_eq_none hrun hframes
    have hheap : (s.heap.flatMap TimerNode.refs).Perm
        (t.refs ++ (s.heap.eraseIdx i).flatMap TimerNode.refs) := by
      obtain ⟨hi, rfl⟩ := List.getElem?_eq_some_iff.mp ht
      have := (List.getElem_cons_eraseIdx_perm hi).symm.flatMap_right TimerNode.refs
      rwa [List.flatMap_cons] at this
    have hframe : s.frames.flatMap Frame.refs = outer.flatMap Frame.refs := by
      rw [hframes]
      rfl
    -- the references are counted
    split_ifs with hcancelled hinterval
    · refine h.perm (List.perm_iff_count.mpr fun r => ?_) rfl
      have hcount := hheap.count_eq r
      simp only [owned, release, hframes, List.count_append] at hcount ⊢
      omega
    · refine h.perm (List.perm_iff_count.mpr fun r => ?_) rfl
      have hcount := hheap.count_eq r
      have hrefs := Frame.refs_repeating current (Nat.ne_of_gt hinterval)
      have hcopy : TimerNode.refs { t with expiry_ns := current + t.interval_ns } = t.refs := rfl
      simp only [owned, hframe, List.flatMap_append, List.flatMap_cons, List.flatMap_nil, hrefs,
        hcopy, List.nil_append, List.append_nil, List.count_append] at hcount ⊢
      omega
    · refine h.perm (List.perm_iff_count.mpr fun r => ?_) rfl
      have hcount := hheap.count_eq r
      have hrefs := Frame.refs_last current (Nat.eq_zero_of_not_pos hinterval)
      simp only [owned, hframe, List.flatMap_cons, hrefs, List.count_append] at hcount ⊢
      omega
  · exact h

/-- A timer that has run for the last time releases its references. -/
theorem Owned.finish (h : Owned s) : Owned (finish s) := by
  rw [Timers.finish]
  split
  · rename_i current t outer hframes
    refine h.perm (List.perm_iff_count.mpr fun r => ?_) (by split_ifs <;> rfl)
    have hframe : s.frames.flatMap Frame.refs =
        Frame.refs ⟨current, some t⟩ ++ outer.flatMap Frame.refs := by
      rw [hframes, List.flatMap_cons]
    have hnone : Frame.refs ⟨current, none⟩ = [] := rfl
    split_ifs with hinterval
    · have hrefs := Frame.refs_last current hinterval
      simp only [owned, release, hframe, List.flatMap_cons, hrefs, hnone, List.nil_append,
        List.count_append]
      omega
    · have hrefs := Frame.refs_repeating current hinterval
      simp only [owned, hframe, List.flatMap_cons, hrefs, hnone, List.nil_append]
  · exact h

theorem Owned.leave (h : Owned s) (hrun : ¬ s.running) : Owned (leave s) := by
  refine h.congr rfl ?_ rfl rfl
  rw [Timers.leave]
  cases hframes : s.frames with
  | nil => rfl
  | cons f outer =>
    simp [Frame.refs, running_eq_none hrun hframes]

/-- One careful operation keeps the references owned. -/
theorem Owned.exec (h : Owned s) (op : Op) (hen : op.enabled s) (hop : op.careful s) :
    Owned (exec s op) := by
  cases op with
  | tick ns => exact h.congr rfl rfl rfl rfl
  | create interval repeating => exact h.schedule (by simp [Timers.exec, task_timer_create,
      schedule_timer, TimerNode.refs]) rfl rfl rfl
  | stop n => exact h.stop n
  | start n interval =>
    rw [Timers.exec, timer_start]
    split
    · rename_i t ht
      rw [if_pos (hop t ht)]
      exact h
    · exact h
  | reset n interval => exact hop.elim
  | cancel co => exact h.congr (flatMap_refs_cancel_thread s co) rfl rfl rfl
  | delay ns co => exact h.schedule (by simp [Timers.exec, task_delay, schedule_timer,
      TimerNode.refs]) rfl rfl rfl
  | step => exact h.congr rfl rfl rfl rfl
  | expire i => exact h.expire i hen.1
  | finish => exact h.finish
  | leave => exact h.leave hen.1

end Timers

end Reactor

end Jaci
