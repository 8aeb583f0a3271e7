import Jaci.Lib.Linked
import Jaci.Lib.Machine
import Mathlib

/-!
# Callback timers

A callback timer keeps a reference to its function in the registry and calls what it finds there
when it expires.  The slots of the registry that are free are linked, and a new reference takes the
first of them, so a reference that is released too early soon refers to something else.

* `timer_calls_iff` : in the runs in which references are released by their owners only, the timers
  of `task.timer` call their functions, and those of `task.every` do not;
* `every_calls_nothing` : an expiry of a timer of `task.every`.
-/

namespace Jaci

namespace Reactor

namespace Callbacks

/-! ### Registry -/

/-- What the registry refers to. -/
inductive Obj where
  | function (f : ℕ)
  | thread (co : ℕ)
  | table (args : List ℕ)
  | other
deriving DecidableEq

/-- A slot of the registry. -/
inductive Slot where
  | nil
  /-- It is free, and `next` is the next free one. -/
  | free (next : ℕ)
  | obj (o : Obj)
deriving DecidableEq

/-- The registry. -/
structure Registry where
  slot : ℕ → Slot
  /-- The first free slot, or 0: `registryfree`. -/
  registryfree : ℕ
  /-- The number of slots used so far: `luaH_getn`. -/
  size : ℕ

namespace Registry

/-- `lua_ref`.  The number in a slot that is taken for free but is not has no meaning. -/
def lua_ref (reg : Registry) (o : Obj) : Registry × ℕ :=
  if reg.registryfree ≠ 0 then
    let ref := reg.registryfree
    ({ reg with
        slot := Function.update reg.slot ref (.obj o)
        registryfree := match reg.slot ref with
          | .free next => next
          | _ => 0 }, ref)
  else
    let ref := reg.size + 1
    ({ reg with slot := Function.update reg.slot ref (.obj o), size := ref }, ref)

def lua_unref (reg : Registry) (ref : ℤ) : Registry :=
  if ref ≤ 0 then reg
  else { reg with
    slot := Function.update reg.slot ref.toNat (.free reg.registryfree)
    registryfree := ref.toNat }

/-- `lua_rawgeti` of the registry.  There is nothing at the indices that are not positive. -/
def rawgeti (reg : Registry) (ref : ℤ) : Option Obj :=
  if ref ≤ 0 then none
  else match reg.slot ref.toNat with
    | .obj o => some o
    | _ => none

/-- The slot that a free slot links to. -/
def next (reg : Registry) (r : ℕ) : Option ℕ :=
  match reg.slot r with
  | .free n => if n = 0 then none else some n
  | _ => none

def start (reg : Registry) : Option ℕ :=
  if reg.registryfree = 0 then none else some reg.registryfree

end Registry

/-! ### Timers -/

structure TimerNode where
  start_ns : ℕ
  expiry_ns : ℕ
  interval_ns : ℕ
  timer_id : ℕ
  thread_ref : ℤ
  args_ref : ℤ
  nargs : ℤ
  is_yield_wait : Bool
  is_callback : Bool
  cancelled : Bool
deriving DecidableEq

/-- A reference to release. -/
def refOf (ref : ℤ) : List ℕ := if ref ≤ 0 then [] else [ref.toNat]

/-- The references that a node releases. -/
def TimerNode.refs (t : TimerNode) : List ℕ := refOf t.thread_ref ++ refOf t.args_ref

structure TimerHandleData where
  timer_id : ℕ
  interval_ns : ℕ
  callback_ref : ℤ
  repeating : Bool
  active : Bool
deriving DecidableEq

/-- A call of `process_expired_timers`. -/
structure Frame where
  current_ns : ℕ
  running : Option TimerNode
deriving DecidableEq

/-- The functions that make callback timers. -/
inductive Kind where
  | timer
  | every
deriving DecidableEq

/-- What a program has asked for. -/
structure Registration where
  timer_id : ℕ
  kind : Kind
  fn : ℕ
  args : List ℕ
deriving DecidableEq

/-- An expiry of a callback timer, and the calls made for it. -/
structure Expiry where
  timer_id : ℕ
  calls : List (ℕ × List (Option ℕ))
deriving DecidableEq

/-- The timers of the reactor. -/
structure State where
  now_ns : ℕ
  registry : Registry
  /-- The number of the next timer: `next_timer_id_`. -/
  next_timer_id : ℕ
  /-- The nodes, in some order: `timer_heap_`. -/
  heap : List TimerNode
  handles : List TimerHandleData
  /-- The calls of `process_expired_timers`, the innermost first. -/
  frames : List Frame
  /-- The references of promises, channels, microtasks and the rest. -/
  others : List ℕ
  registered : List Registration
  processed : List Expiry

/-- `LUA_NOREF`. -/
def noref : ℤ := -1

def schedule_timer (s : State) (delay_ns : ℕ) (thread_ref args_ref nargs : ℤ)
    (is_yield_wait : Bool) (interval_ns : ℕ) (is_callback : Bool) : State :=
  { s with
    next_timer_id := s.next_timer_id + 1
    heap := s.heap ++ [{
      start_ns := s.now_ns
      expiry_ns := (s.now_ns + delay_ns) % 2 ^ 64
      interval_ns := interval_ns
      timer_id := s.next_timer_id
      thread_ref := thread_ref
      args_ref := args_ref
      nargs := nargs
      is_yield_wait := is_yield_wait
      is_callback := is_callback
      cancelled := false }] }

/-- The loop of `cancel_timer`. -/
def cancel_first (timer_id : ℕ) : List TimerNode → List TimerNode
  | [] => []
  | t :: rest =>
    if t.timer_id = timer_id then { t with cancelled := true } :: rest
    else t :: cancel_first timer_id rest

def cancel_timer (s : State) (timer_id : ℕ) : State :=
  { s with heap := cancel_first timer_id s.heap }

/-- The part of `cancel_thread` for timers. -/
def cancel_thread (s : State) (co : ℕ) : State :=
  { s with heap := s.heap.map fun t =>
      if ¬ t.cancelled ∧ t.thread_ref ≠ noref ∧ s.registry.rawgeti t.thread_ref = some (.thread co)
      then { t with cancelled := true } else t }

def task_timer_create (s : State) (interval_ns : ℕ) (fn : ℕ) (repeating : Bool) : State :=
  let (registry, callback_ref) := s.registry.lua_ref (.function fn)
  let handle : TimerHandleData := ⟨s.next_timer_id, interval_ns, callback_ref, repeating, true⟩
  schedule_timer
    { s with
      registry := registry
      handles := s.handles ++ [handle]
      registered := s.registered ++ [⟨s.next_timer_id, .timer, fn, []⟩] }
    interval_ns callback_ref noref 0 false (if repeating then interval_ns else 0) true

/-- `task_every`.  Most fields of the handle keep what the memory had before. -/
def task_every (s : State) (interval_ns : ℕ) (fn : ℕ) (args : List ℕ) (memory : TimerHandleData) :
    State :=
  let (registry, func_ref) := s.registry.lua_ref (.function fn)
  let (registry, args_ref) : Registry × ℤ :=
    if args.length > 0 then
      let (registry, ref) := registry.lua_ref (.table args)
      (registry, ref)
    else (registry, noref)
  let handle : TimerHandleData := { memory with timer_id := s.next_timer_id, active := true }
  schedule_timer
    { s with
      registry := registry
      handles := s.handles ++ [handle]
      registered := s.registered ++ [⟨s.next_timer_id, .every, fn, args⟩] }
    interval_ns noref func_ref args_ref true interval_ns true

/-- `timer_stop`, which `task_cancel` does for a timer too. -/
def timer_stop (s : State) (n : ℕ) : State :=
  match s.handles[n]? with
  | some t =>
    if t.active then
      cancel_timer { s with handles := s.handles.set n { t with active := false } } t.timer_id
    else s
  | none => s

def timer_start (s : State) (n : ℕ) (interval : Option ℕ) : State :=
  match s.handles[n]? with
  | some t =>
    if t.active then s
    else
      let interval_ns := interval.getD t.interval_ns
      let t := { t with interval_ns := interval_ns, active := true, timer_id := s.next_timer_id }
      schedule_timer { s with handles := s.handles.set n t } interval_ns t.callback_ref noref 0
        false (if t.repeating then interval_ns else 0) true
  | none => s

def timer_reset (s : State) (n : ℕ) (interval : Option ℕ) : State :=
  timer_start (timer_stop s n) n interval

/-- `task_delay`, `task_wait` and `task_yield`: a coroutine is resumed later. -/
def task_delay (s : State) (delay_ns co nargs : ℕ) (is_yield_wait : Bool) : State :=
  let (registry, thread_ref) := s.registry.lua_ref (.thread co)
  schedule_timer { s with registry := registry } delay_ns thread_ref noref nargs is_yield_wait 0
    false

/-- The references of a node are released. -/
def release (s : State) (t : TimerNode) : State :=
  { s with registry := (s.registry.lua_unref t.thread_ref).lua_unref t.args_ref }

/-- `invoke_callback_internal`: the calls it makes. -/
def invoke_callback_internal (reg : Registry) (callback_ref args_ref nargs : ℤ) :
    List (ℕ × List (Option ℕ)) :=
  match reg.rawgeti callback_ref with
  | some (.function f) =>
    if args_ref ≠ noref ∧ nargs > 0 then
      match reg.rawgeti args_ref with
      | some (.table args) => [(f, (List.range nargs.toNat).map fun i => args[i]?)]
      | _ => [(f, List.replicate nargs.toNat none)]
    else [(f, [])]
  | _ => []

/-- `process_expired_timers` is called. -/
def process_expired_timers (s : State) : State :=
  { s with frames := ⟨s.now_ns, none⟩ :: s.frames }

/-- The loop of `process_expired_timers` takes a node from the heap.  A repeating timer is put back
first, then the coroutine or callback runs. -/
def expire (s : State) (i : ℕ) : State :=
  match s.frames, s.heap[i]? with
  | ⟨current_ns, _⟩ :: outer, some t =>
    let s := { s with heap := s.heap.eraseIdx i }
    if t.cancelled then release s t
    else
      let s :=
        if 0 < t.interval_ns then
          let next_node := { t with
            expiry_ns := (current_ns + t.interval_ns) % 2 ^ 64
            start_ns := current_ns }
          { s with heap := s.heap ++ [next_node] }
        else s
      let s := { s with frames := ⟨current_ns, some t⟩ :: outer }
      if t.is_callback then
        let calls := invoke_callback_internal s.registry t.thread_ref t.args_ref t.nargs
        { s with processed := s.processed ++ [⟨t.timer_id, calls⟩] }
      else s
  | _, _ => s

/-- The coroutine or callback yields, ends or fails. -/
def finish (s : State) : State :=
  match s.frames with
  | ⟨current_ns, some t⟩ :: outer =>
    let s := { s with frames := ⟨current_ns, none⟩ :: outer }
    if t.interval_ns = 0 then release s t else s
  | _ => s

/-- `process_expired_timers` returns. -/
def leave (s : State) : State := { s with frames := s.frames.tail }

/-- Another part of the runtime takes a reference. -/
def ref (s : State) (o : Obj) : State :=
  let (registry, r) := s.registry.lua_ref o
  { s with registry := registry, others := r :: s.others }

/-- Another part of the runtime releases a reference. -/
def unref (s : State) (r : ℕ) : State :=
  { s with registry := s.registry.lua_unref r, others := s.others.erase r }

/-! ### Runs -/

/-- What happens in a run. -/
inductive Op where
  | tick (ns : ℕ)
  | timer (interval_ns fn : ℕ) (repeating : Bool)
  | every (interval_ns fn : ℕ) (args : List ℕ) (memory : TimerHandleData)
  /-- `stop` of a timer, or `task.cancel` with a timer. -/
  | stop (n : ℕ)
  /-- `start` of a timer. -/
  | start (n : ℕ) (interval : Option ℕ)
  /-- `reset` of a timer. -/
  | reset (n : ℕ) (interval : Option ℕ)
  /-- `task.cancel` with a coroutine. -/
  | cancel (co : ℕ)
  /-- `task.delay`, `task.wait` or `task.yield`. -/
  | delay (delay_ns co nargs : ℕ) (is_yield_wait : Bool)
  /-- Another part of the runtime takes a reference. -/
  | ref (o : Obj)
  /-- Another part of the runtime releases a reference. -/
  | unref (r : ℕ)
  /-- `process_expired_timers` is called. -/
  | step
  | expire (i : ℕ)
  | finish
  /-- `process_expired_timers` returns. -/
  | leave
deriving DecidableEq

/-- The program runs, in a timer or outside of `process_expired_timers`. -/
def State.running (s : State) : Prop := ∀ f ∈ s.frames.head?, f.running ≠ none

instance (s : State) : Decidable s.running :=
  inferInstanceAs (Decidable (∀ f ∈ s.frames.head?, f.running ≠ none))

/-- A node that is due and that the heap may have in front. -/
def Front (s : State) (i : ℕ) : Prop :=
  ∃ f ∈ s.frames.head?, ∃ t ∈ s.heap[i]?, t.expiry_ns ≤ f.current_ns ∧
    ∀ t' ∈ s.heap, t.expiry_ns ≤ t'.expiry_ns

instance (s : State) (i : ℕ) : Decidable (Front s i) :=
  inferInstanceAs (Decidable (∃ f ∈ s.frames.head?, ∃ t ∈ s.heap[i]?,
    t.expiry_ns ≤ f.current_ns ∧ ∀ t' ∈ s.heap, t.expiry_ns ≤ t'.expiry_ns))

/-- When an operation is possible. -/
def Op.enabled (s : State) : Op → Prop
  | .tick _ => True
  | .expire i => ¬ s.running ∧ Front s i
  | .leave => ¬ s.running ∧ ∀ f ∈ s.frames.head?, ∀ t ∈ s.heap, f.current_ns < t.expiry_ns
  | .finish => s.running ∧ s.frames ≠ []
  | .timer _ _ _ | .every _ _ _ _ | .stop _ | .start _ _ | .reset _ _ | .cancel _ | .delay _ _ _ _
  | .ref _ | .unref _ | .step => s.running

instance (s : State) : ∀ op, Decidable (Op.enabled s op)
  | .tick _ => inferInstanceAs (Decidable True)
  | .expire i => inferInstanceAs (Decidable (¬ s.running ∧ Front s i))
  | .leave => inferInstanceAs (Decidable (¬ s.running ∧
      ∀ f ∈ s.frames.head?, ∀ t ∈ s.heap, f.current_ns < t.expiry_ns))
  | .finish => inferInstanceAs (Decidable (s.running ∧ s.frames ≠ []))
  | .timer _ _ _ | .every _ _ _ _ | .stop _ | .start _ _ | .reset _ _ | .cancel _ | .delay _ _ _ _
  | .ref _ | .unref _ | .step => inferInstanceAs (Decidable s.running)

def exec (s : State) : Op → State
  | .tick ns => { s with now_ns := s.now_ns + ns }
  | .timer interval_ns fn repeating => task_timer_create s interval_ns fn repeating
  | .every interval_ns fn args memory => task_every s interval_ns fn args memory
  | .stop n => timer_stop s n
  | .start n interval => timer_start s n interval
  | .reset n interval => timer_reset s n interval
  | .cancel co => cancel_thread s co
  | .delay delay_ns co nargs is_yield_wait => task_delay s delay_ns co nargs is_yield_wait
  | .ref o => Callbacks.ref s o
  | .unref r => Callbacks.unref s r
  | .step => process_expired_timers s
  | .expire i => Callbacks.expire s i
  | .finish => Callbacks.finish s
  | .leave => Callbacks.leave s

def State.new : State where
  now_ns := 0
  registry := ⟨fun _ => .nil, 0, 0⟩
  next_timer_id := 1
  heap := []
  handles := []
  frames := []
  others := []
  registered := []
  processed := []

/-- The runs of the callback timers. -/
def callbacks : Machine State Op where
  init s := s = .new
  enabled := Op.enabled
  exec := exec

instance (s : State) (op : Op) : Decidable (callbacks.enabled s op) :=
  inferInstanceAs (Decidable (op.enabled s))

/-- References are released by their owners only: no timer is started again, and another part of
the runtime releases a reference that it has taken and not released yet. -/
def Op.careful (s : State) : Op → Prop
  | .start n _ => ∀ t ∈ s.handles[n]?, t.active = true
  | .reset _ _ => False
  | .unref r => r ∈ s.others
  | .tick _ | .timer _ _ _ | .every _ _ _ _ | .stop _ | .cancel _ | .delay _ _ _ _ | .ref _ | .step
  | .expire _ | .finish | .leave => True

instance (s : State) : ∀ op, Decidable (Op.careful s op)
  | .start n _ => inferInstanceAs (Decidable (∀ t ∈ s.handles[n]?, t.active = true))
  | .reset _ _ => inferInstanceAs (Decidable False)
  | .unref r => inferInstanceAs (Decidable (r ∈ s.others))
  | .tick _ | .timer _ _ _ | .every _ _ _ _ | .stop _ | .cancel _ | .delay _ _ _ _ | .ref _ | .step
  | .expire _ | .finish | .leave => inferInstanceAs (Decidable True)

/-! ### The references of the registry -/

namespace Registry

/-- The references `held` are in use: no two are the same, and none is free. -/
structure Ok (reg : Registry) (held : List ℕ) : Prop where
  nodup : held.Nodup
  /-- They were made by `lua_ref`. -/
  range : ∀ r ∈ held, 0 < r ∧ r ≤ reg.size
  free : ∃ l, Linked.Chain reg.next reg.start l ∧ ∀ r ∈ l, 0 < r ∧ r ≤ reg.size ∧ r ∉ held

variable {reg : Registry} {held held' : List ℕ} {o : Obj} {r : ℕ}

theorem Ok.perm (h : reg.Ok held) (hp : held'.Perm held) : reg.Ok held' where
  nodup := hp.nodup_iff.2 h.nodup
  range r hr := h.range r (hp.subset hr)
  free := by
    obtain ⟨l, hl, hr⟩ := h.free
    exact ⟨l, hl, fun r hm => ⟨(hr r hm).1, (hr r hm).2.1, fun hh => (hr r hm).2.2 (hp.subset hh)⟩⟩

theorem Ok.tail (h : reg.Ok (r :: held)) : reg.Ok held where
  nodup := (List.nodup_cons.1 h.nodup).2
  range r' hr' := h.range r' (List.mem_cons_of_mem r hr')
  free := by
    obtain ⟨l, hl, hr⟩ := h.free
    exact ⟨l, hl, fun r' hm => ⟨(hr r' hm).1, (hr r' hm).2.1,
      fun hh => (hr r' hm).2.2 (List.mem_cons_of_mem r hh)⟩⟩

theorem next_congr {reg' : Registry} (h : reg'.slot r = reg.slot r) :
    reg'.next r = reg.next r := by
  rw [Registry.next, h, ← Registry.next]

/-- What `lua_ref` does: the reference is a new one, and the other slots stay. -/
theorem Ok.lua_ref (h : reg.Ok held) (o : Obj) : (reg.lua_ref o).1.Ok ((reg.lua_ref o).2 :: held) ∧
    (reg.lua_ref o).1.slot (reg.lua_ref o).2 = .obj o ∧
      ∀ r ∈ held, (reg.lua_ref o).1.slot r = reg.slot r := by
  obtain ⟨l, hl, hr⟩ := h.free
  unfold Registry.lua_ref
  split_ifs with hfree
  · -- the first free slot is taken
    have hstart : reg.start = some reg.registryfree := if_neg hfree
    cases l with
    | nil => simp [hstart] at hl
    | cons a l =>
      obtain ⟨ha, hl⟩ := Linked.chain_cons.1 hl
      rw [hstart, Option.some.injEq] at ha
      subst ha
      obtain ⟨hpos, hsize, hheld⟩ := hr _ List.mem_cons_self
      have hchain : Linked.Chain reg.next (some reg.registryfree) (reg.registryfree :: l) :=
        ⟨rfl, hl⟩
      have hnd : reg.registryfree ∉ l := (List.nodup_cons.1 hchain.nodup).1
      refine ⟨⟨List.nodup_cons.2 ⟨hheld, h.nodup⟩, ?_, l, ?_, ?_⟩, Function.update_self .., ?_⟩
      · rintro r hm
        rcases List.mem_cons.1 hm with rfl | hm
        · exact ⟨hpos, hsize⟩
        · exact h.range r hm
      · have hstart' : Registry.start { reg with
            slot := Function.update reg.slot reg.registryfree (.obj o)
            registryfree := match reg.slot reg.registryfree with
              | .free next => next
              | _ => 0 } = reg.next reg.registryfree := by
          unfold Registry.start Registry.next
          cases hs : reg.slot reg.registryfree <;> simp
        show Linked.Chain _ (Registry.start _) l
        rw [hstart']
        refine hl.congr fun r hm => next_congr ?_
        exact Function.update_of_ne (ne_of_mem_of_not_mem hm hnd) _ _
      · intro r hm
        obtain ⟨h1, h2, h3⟩ := hr r (List.mem_cons_of_mem _ hm)
        refine ⟨h1, h2, ?_⟩
        rw [List.mem_cons, not_or]
        exact ⟨ne_of_mem_of_not_mem hm hnd, h3⟩
      · intro r hm
        exact Function.update_of_ne (ne_of_mem_of_not_mem hm hheld) _ _
  · -- there is no free slot
    rw [not_not] at hfree
    have hnew : reg.size + 1 ∉ held := fun hm => by
      have := (h.range _ hm).2
      omega
    have hnil : l = [] := by
      cases l with
      | nil => rfl
      | cons a l =>
        have := (Linked.chain_cons.1 hl).1
        simp [Registry.start, hfree] at this
    subst hnil
    refine ⟨⟨List.nodup_cons.2 ⟨hnew, h.nodup⟩, ?_, [], if_pos hfree, by simp⟩,
      Function.update_self .., ?_⟩
    · intro r hm
      rcases List.mem_cons.1 hm with rfl | hm
      · exact ⟨Nat.succ_pos _, Nat.le_refl _⟩
      · exact ⟨(h.range r hm).1, Nat.le_succ_of_le (h.range r hm).2⟩
    · intro r hm
      exact Function.update_of_ne (ne_of_mem_of_not_mem hm hnew) _ _

/-- What `lua_unref` does to the references that are left. -/
theorem Ok.lua_unref {ref : ℤ} (h : reg.Ok (refOf ref ++ held)) : (reg.lua_unref ref).Ok held ∧
    ∀ r ∈ held, (reg.lua_unref ref).slot r = reg.slot r := by
  unfold Registry.lua_unref
  split_ifs with href
  · rw [refOf, if_pos href] at h
    exact ⟨h, fun r hm => rfl⟩
  · rw [refOf, if_neg href] at h
    have hn : ref.toNat ∉ held := (List.nodup_cons.1 h.nodup).1
    obtain ⟨hpos, hsize⟩ := h.range _ List.mem_cons_self
    obtain ⟨l, hl, hr⟩ := h.free
    have hnl : ref.toNat ∉ l := fun hm => (hr _ hm).2.2 List.mem_cons_self
    refine ⟨⟨h.tail.nodup, h.tail.range, ref.toNat :: l, ?_, ?_⟩, fun r hm => ?_⟩
    · refine Linked.chain_cons.2 ⟨if_neg (Nat.ne_of_gt hpos), ?_⟩
      have hnext : Registry.next { reg with
          slot := Function.update reg.slot ref.toNat (.free reg.registryfree)
          registryfree := ref.toNat } ref.toNat = reg.start := by
        simp [Registry.next, Registry.start]
      rw [hnext]
      refine hl.congr fun r hm => next_congr ?_
      exact Function.update_of_ne (ne_of_mem_of_not_mem hm hnl) _ _
    · intro r hm
      rcases List.mem_cons.1 hm with rfl | hm
      · exact ⟨hpos, hsize, hn⟩
      · exact ⟨(hr r hm).1, (hr r hm).2.1, fun hh => (hr r hm).2.2 (List.mem_cons_of_mem _ hh)⟩
    · exact Function.update_of_ne (ne_of_mem_of_not_mem hm hn) _ _

end Registry

theorem Registry.Ok.release {s : State} {t : TimerNode} {held : List ℕ}
    (h : s.registry.Ok (t.refs ++ held)) : (release s t).registry.Ok held ∧
      ∀ r ∈ held, (release s t).registry.slot r = s.registry.slot r := by
  rw [TimerNode.refs, List.append_assoc] at h
  obtain ⟨h1, hs1⟩ := h.lua_unref
  obtain ⟨h2, hs2⟩ := h1.lua_unref
  exact ⟨h2, fun r hm => (hs2 r hm).trans (hs1 r (List.mem_append_right _ hm))⟩

/-! ### The timers keep their callbacks -/

/-- The references of a timer that runs for the last time. -/
def Frame.refs (f : Frame) : List ℕ :=
  match f.running with
  | some t => if t.interval_ns = 0 then t.refs else []
  | none => []

/-- The references that are in use. -/
def held (s : State) : List ℕ :=
  s.heap.flatMap TimerNode.refs ++ s.frames.flatMap Frame.refs ++ s.others

/-- A node was made for `g`: the one of `task.timer` has a reference to the callback, the one of
`task.every` has none. -/
def MadeFor (reg : Registry) (t : TimerNode) (g : Registration) : Prop :=
  g.timer_id = t.timer_id ∧
    match g.kind with
    | .timer => 0 < t.thread_ref ∧ reg.slot t.thread_ref.toNat = .obj (.function g.fn) ∧
        t.args_ref = noref ∧ g.args = []
    | .every => t.thread_ref = noref

/-- The calls made for `g`. -/
def CalledFor (e : Expiry) (g : Registration) : Prop :=
  g.timer_id = e.timer_id ∧
    match g.kind with
    | .timer => e.calls = [(g.fn, [])] ∧ g.args = []
    | .every => e.calls = []

/-- The invariant of careful runs. -/
structure Inv (s : State) : Prop where
  registry : s.registry.Ok (held s)
  ids : ∀ g ∈ s.registered, g.timer_id < s.next_timer_id
  unique : (s.registered.map Registration.timer_id).Nodup
  nodes : ∀ t ∈ s.heap, t.is_callback → ∃ g ∈ s.registered, MadeFor s.registry t g
  processed : ∀ e ∈ s.processed, ∃ g ∈ s.registered, CalledFor e g

section Steps

variable {s s' : State} {t t' : TimerNode} {g : Registration}

/-- A node keeps its callback while its slots stay. -/
theorem MadeFor.mono {reg reg' : Registry} (h : MadeFor reg t g)
    (hslot : ∀ r ∈ t.refs, reg'.slot r = reg.slot r) (hid : t'.timer_id = t.timer_id)
    (hthread : t'.thread_ref = t.thread_ref) (hargs : t'.args_ref = t.args_ref) :
    MadeFor reg' t' g := by
  obtain ⟨hg, hk⟩ := h
  refine ⟨hg.trans hid.symm, ?_⟩
  rw [hthread, hargs]
  cases hkind : g.kind with
  | timer =>
    rw [hkind] at hk
    obtain ⟨hpos, hfn, hnoref, hnil⟩ := hk
    refine ⟨hpos, ?_, hnoref, hnil⟩
    rw [hslot _ ?_, hfn]
    rw [TimerNode.refs, refOf, if_neg (by omega)]
    simp
  | every =>
    rw [hkind] at hk
    exact hk

/-- Operations that change neither the registry nor what is registered. -/
theorem Inv.congr (h : Inv s) (hreg : s'.registry = s.registry) (hheld : (held s').Perm (held s))
    (hid : s'.next_timer_id = s.next_timer_id) (hrd : s'.registered = s.registered)
    (hnodes : ∀ t' ∈ s'.heap, ∃ t ∈ s.heap, t'.timer_id = t.timer_id ∧
      t'.thread_ref = t.thread_ref ∧ t'.args_ref = t.args_ref ∧ t'.is_callback = t.is_callback)
    (hproc : s'.processed = s.processed) : Inv s' where
  registry := by
    rw [hreg]
    exact h.registry.perm hheld
  ids := by rw [hrd, hid]; exact h.ids
  unique := by rw [hrd]; exact h.unique
  nodes t' ht' hc := by
    obtain ⟨t, ht, h1, h2, h3, h4⟩ := hnodes t' ht'
    rw [h4] at hc
    obtain ⟨g, hg, hm⟩ := h.nodes t ht hc
    rw [hreg, hrd]
    exact ⟨g, hg, hm.mono (fun _ _ => rfl) h1 h2 h3⟩
  processed := by rw [hproc, hrd]; exact h.processed

theorem mem_heap_refs {r : ℕ} (ht : t ∈ s.heap) (hr : r ∈ t.refs) : r ∈ held s :=
  List.mem_append_left _ (List.mem_append_left _ (List.mem_flatMap.2 ⟨t, ht, hr⟩))

/-- A new node with a new reference. -/
theorem Inv.schedule (h : Inv s) (g : List Registration) (t : TimerNode)
    (hok : s'.registry.Ok (t.refs ++ held s))
    (hslot : ∀ r ∈ held s, s'.registry.slot r = s.registry.slot r)
    (hg : ∀ g' ∈ g, g'.timer_id = s.next_timer_id) (hg' : g.length ≤ 1)
    (ht : t.is_callback → ∃ g' ∈ g, MadeFor s'.registry t g')
    (hheap : s'.heap = s.heap ++ [t]) (hframes : s'.frames = s.frames)
    (hothers : s'.others = s.others) (hrd : s'.registered = s.registered ++ g)
    (hid : s'.next_timer_id = s.next_timer_id + 1) (hproc : s'.processed = s.processed) :
    Inv s' where
  registry := by
    refine hok.perm ?_
    rw [held, held, hheap, hframes, hothers]
    simp only [List.flatMap_append, List.flatMap_singleton]
    refine List.perm_iff_count.2 fun r => ?_
    simp only [List.count_append]
    omega
  ids g' hm := by
    rw [hrd] at hm
    rw [hid]
    rcases List.mem_append.1 hm with hm | hm
    · exact Nat.lt_succ_of_lt (h.ids g' hm)
    · rw [hg g' hm]
      exact Nat.lt_succ_self _
  unique := by
    rw [hrd, List.map_append, List.nodup_append]
    refine ⟨h.unique, ?_, fun a ha b hb => ?_⟩
    · rcases g with _ | ⟨g, _ | ⟨g2, rest⟩⟩
      · exact List.nodup_nil
      · exact List.nodup_singleton _
      · simp at hg'
    · obtain ⟨g1, hg1, rfl⟩ := List.mem_map.1 ha
      obtain ⟨g2, hg2, rfl⟩ := List.mem_map.1 hb
      rw [hg g2 hg2]
      exact Nat.ne_of_lt (h.ids g1 hg1)
  nodes t' ht' hc := by
    rw [hheap] at ht'
    rw [hrd]
    rcases List.mem_append.1 ht' with hm | hm
    · obtain ⟨g', hg', hmade⟩ := h.nodes t' hm hc
      refine ⟨g', List.mem_append_left _ hg', hmade.mono (fun r hr => ?_) rfl rfl rfl⟩
      exact hslot r (mem_heap_refs hm hr)
    · rw [List.mem_singleton.1 hm] at hc ⊢
      obtain ⟨g', hg', hmade⟩ := ht hc
      exact ⟨g', List.mem_append_right _ hg', hmade⟩
  processed e he := by
    rw [hproc] at he
    rw [hrd]
    obtain ⟨g', hg', hcalled⟩ := h.processed e he
    exact ⟨g', List.mem_append_left _ hg', hcalled⟩

theorem refOf_natCast {r : ℕ} (h : 0 < r) : refOf (r : ℤ) = [r] := by
  rw [refOf, if_neg (by omega), Int.toNat_natCast]

theorem refOf_noref : refOf noref = [] := rfl

theorem Inv.timer (h : Inv s) (interval_ns fn : ℕ) (repeating : Bool) :
    Inv (task_timer_create s interval_ns fn repeating) := by
  obtain ⟨hok, hfn, hslot⟩ := h.registry.lua_ref (.function fn)
  unfold task_timer_create
  generalize s.registry.lua_ref (.function fn) = made at *
  obtain ⟨reg, r⟩ := made
  have hpos : 0 < r := (hok.range _ List.mem_cons_self).1
  refine h.schedule [⟨s.next_timer_id, .timer, fn, []⟩] _ ?_ hslot (by simp) (by simp) ?_ rfl rfl
    rfl rfl rfl rfl
  · rw [TimerNode.refs, refOf_natCast hpos, refOf_noref]
    exact hok
  · exact fun _ => ⟨_, List.mem_singleton_self _, rfl, Int.natCast_pos.2 hpos, hfn, rfl, rfl⟩

theorem Inv.every (h : Inv s) (interval_ns fn : ℕ) (args : List ℕ) (memory : TimerHandleData) :
    Inv (task_every s interval_ns fn args memory) := by
  obtain ⟨hok, hfn, hslot⟩ := h.registry.lua_ref (.function fn)
  unfold task_every
  generalize s.registry.lua_ref (.function fn) = made at *
  obtain ⟨reg, r⟩ := made
  have hpos : 0 < r := (hok.range _ List.mem_cons_self).1
  obtain ⟨hok2, -, hslot2⟩ := hok.lua_ref (.table args)
  -- the table of the arguments stays in the registry, and nobody knows its reference
  simp only
  split_ifs with hargs
  · refine h.schedule [⟨s.next_timer_id, .every, fn, args⟩] _ ?_ (fun r' hr' => ?_) (by simp)
      (by simp) (fun _ => ⟨_, List.mem_singleton_self _, rfl, rfl⟩) rfl rfl rfl rfl rfl rfl
    · rw [TimerNode.refs, refOf_natCast hpos, refOf_noref]
      exact hok2.tail
    · exact (hslot2 r' (List.mem_cons_of_mem r hr')).trans (hslot r' hr')
  · refine h.schedule [⟨s.next_timer_id, .every, fn, args⟩] _ ?_ hslot (by simp) (by simp)
      (fun _ => ⟨_, List.mem_singleton_self _, rfl, rfl⟩) rfl rfl rfl rfl rfl rfl
    rw [TimerNode.refs, refOf_natCast hpos, refOf_noref]
    exact hok

theorem Inv.delay (h : Inv s) (delay_ns co nargs : ℕ) (is_yield_wait : Bool) :
    Inv (task_delay s delay_ns co nargs is_yield_wait) := by
  obtain ⟨hok, hfn, hslot⟩ := h.registry.lua_ref (.thread co)
  unfold task_delay
  generalize s.registry.lua_ref (.thread co) = made at *
  obtain ⟨reg, r⟩ := made
  have hpos : 0 < r := (hok.range _ List.mem_cons_self).1
  refine h.schedule [] _ ?_ hslot (by simp) (by simp) ?_ rfl rfl rfl (List.append_nil _).symm rfl
    rfl
  · rw [TimerNode.refs, refOf_natCast hpos, refOf_noref]
    exact hok
  · exact fun hc => absurd hc Bool.false_ne_true

/-- A timer is cancelled. -/
theorem mem_cancel_first {timer_id : ℕ} {l : List TimerNode} (h : t' ∈ cancel_first timer_id l) :
    ∃ t ∈ l, t' = t ∨ t' = { t with cancelled := true } := by
  induction l with
  | nil => simp [cancel_first] at h
  | cons t rest ih =>
    rw [cancel_first] at h
    split_ifs at h
    · rcases List.mem_cons.1 h with rfl | h
      · exact ⟨t, List.mem_cons_self, .inr rfl⟩
      · exact ⟨t', List.mem_cons_of_mem _ h, .inl rfl⟩
    · rcases List.mem_cons.1 h with rfl | h
      · exact ⟨t', List.mem_cons_self, .inl rfl⟩
      · obtain ⟨u, hu, hor⟩ := ih h
        exact ⟨u, List.mem_cons_of_mem _ hu, hor⟩

theorem flatMap_refs_cancel_first (timer_id : ℕ) (l : List TimerNode) :
    (cancel_first timer_id l).flatMap TimerNode.refs = l.flatMap TimerNode.refs := by
  induction l with
  | nil => rfl
  | cons t rest ih =>
    rw [cancel_first]
    split_ifs
    · rfl
    · rw [List.flatMap_cons, List.flatMap_cons, ih]

theorem Inv.stop (h : Inv s) (n : ℕ) : Inv (timer_stop s n) := by
  unfold timer_stop
  split
  · split_ifs
    · refine h.congr rfl ?_ rfl rfl (fun t' ht' => ?_) rfl
      · simp only [held, cancel_timer, flatMap_refs_cancel_first, List.Perm.refl]
      · obtain ⟨t, ht, heq | heq⟩ := mem_cancel_first ht' <;>
          exact ⟨t, ht, by rw [heq], by rw [heq], by rw [heq], by rw [heq]⟩
    · exact h
  · exact h

theorem Inv.cancel (h : Inv s) (co : ℕ) : Inv (cancel_thread s co) := by
  refine h.congr rfl ?_ rfl rfl (fun t' ht' => ?_) rfl
  · have hrefs : (cancel_thread s co).heap.flatMap TimerNode.refs =
        s.heap.flatMap TimerNode.refs := by
      rw [cancel_thread, List.flatMap_map]
      refine List.flatMap_congr fun t _ => ?_
      split_ifs <;> rfl
    rw [held, held, hrefs]
    rfl
  · obtain ⟨t, ht, rfl⟩ := List.mem_map.1 ht'
    refine ⟨t, ht, ?_⟩
    split_ifs <;> exact ⟨rfl, rfl, rfl, rfl⟩

theorem Inv.ref (h : Inv s) (o : Obj) : Inv (ref s o) := by
  obtain ⟨hok, -, hslot⟩ := h.registry.lua_ref o
  refine ⟨hok.perm ?_, h.ids, h.unique, fun t ht hc => ?_, h.processed⟩
  · refine List.perm_iff_count.2 fun r => ?_
    simp only [held, Callbacks.ref, List.count_append, List.count_cons]
    omega
  · obtain ⟨g, hg, hm⟩ := h.nodes t ht hc
    exact ⟨g, hg, hm.mono (fun r hr => hslot r (mem_heap_refs ht hr)) rfl rfl rfl⟩

theorem Inv.unref (h : Inv s) {r : ℕ} (hr : r ∈ s.others) : Inv (unref s r) := by
  have hmem : r ∈ held s := List.mem_append_right _ hr
  have hpos := (h.registry.range r hmem).1
  have hperm : (refOf (r : ℤ) ++ held (Callbacks.unref s r)).Perm (held s) := by
    rw [refOf_natCast hpos]
    have := (List.perm_cons_erase hr).symm
    refine List.perm_iff_count.2 fun x => ?_
    have hc := this.count_eq x
    simp only [held, Callbacks.unref, List.count_append, List.count_cons, List.count_nil] at hc ⊢
    omega
  obtain ⟨hok, hslot⟩ := (h.registry.perm hperm).lua_unref
  refine ⟨hok, h.ids, h.unique, fun t ht hc => ?_, h.processed⟩
  obtain ⟨g, hg, hm⟩ := h.nodes t ht hc
  exact ⟨g, hg, hm.mono (fun x hx => hslot x (mem_heap_refs (s := Callbacks.unref s r) ht hx))
    rfl rfl rfl⟩

theorem running_eq_none {f : Frame} {outer : List Frame} (hrun : ¬ s.running)
    (hframes : s.frames = f :: outer) : f.running = none := by
  by_contra hne
  refine hrun fun f' hf' => ?_
  rw [hframes, List.head?_cons, Option.mem_some_iff] at hf'
  rw [← hf']
  exact hne

/-- A timer that is released, when its references are not in use elsewhere. -/
theorem Inv.release (h : Inv s) (hheld : (t.refs ++ held s').Perm (held s))
    (hreg : s'.registry = s.registry) (hheap : ∀ t' ∈ s'.heap, t' ∈ s.heap)
    (hid : s'.next_timer_id = s.next_timer_id) (hrd : s'.registered = s.registered)
    (hproc : s'.processed = s.processed) : Inv (Callbacks.release s' t) := by
  have hok := h.registry.perm hheld
  rw [← hreg] at hok
  obtain ⟨hok, hslot⟩ := hok.release
  refine ⟨hok, ?_, ?_, fun t' ht' hc => ?_, ?_⟩
  · rw [Callbacks.release, hrd, hid]
    exact h.ids
  · rw [Callbacks.release, hrd]
    exact h.unique
  · obtain ⟨g, hg, hm⟩ := h.nodes t' (hheap t' ht') hc
    refine ⟨g, hrd ▸ hg, hm.mono (fun r hr => ?_) rfl rfl rfl⟩
    rw [hslot r (mem_heap_refs ht' hr), hreg]
  · rw [Callbacks.release, hrd, hproc]
    exact h.processed

theorem heap_refs_perm {i : ℕ} (ht : s.heap[i]? = some t) :
    (t.refs ++ (s.heap.eraseIdx i).flatMap TimerNode.refs).Perm
      (s.heap.flatMap TimerNode.refs) := by
  obtain ⟨hi, rfl⟩ := List.getElem?_eq_some_iff.1 ht
  have := (List.getElem_cons_eraseIdx_perm hi).flatMap_right TimerNode.refs
  rwa [List.flatMap_cons] at this

/-- The calls of a timer that expires. -/
theorem MadeFor.calls (h : MadeFor s.registry t g) :
    CalledFor ⟨t.timer_id, invoke_callback_internal s.registry t.thread_ref t.args_ref t.nargs⟩
      g := by
  obtain ⟨hid, hk⟩ := h
  refine ⟨hid, ?_⟩
  cases hkind : g.kind with
  | timer =>
    rw [hkind] at hk
    obtain ⟨hpos, hfn, hargs, hnil⟩ := hk
    have hget : s.registry.rawgeti t.thread_ref = some (.function g.fn) := by
      rw [Registry.rawgeti, if_neg (by omega), hfn]
    refine ⟨?_, hnil⟩
    simp only [invoke_callback_internal, hget, hargs, ne_eq, not_true_eq_false, false_and, if_false]
  | every =>
    rw [hkind] at hk
    have hget : s.registry.rawgeti t.thread_ref = none := by
      rw [hk]
      rfl
    simp only [invoke_callback_internal, hget]

/-- A timer leaves the heap to run; a repeating one is put back. -/
theorem Inv.take (h : Inv s) {i current : ℕ} {outer : List Frame} (back : List TimerNode)
    (ht : s.heap[i]? = some t) (hframes : s.frames = ⟨current, none⟩ :: outer)
    (hback : ∀ t' ∈ back, t'.timer_id = t.timer_id ∧ t'.thread_ref = t.thread_ref ∧
      t'.args_ref = t.args_ref ∧ t'.is_callback = t.is_callback)
    (hrefs : back.flatMap TimerNode.refs ++ Frame.refs ⟨current, some t⟩ = t.refs) :
    Inv { s with
      heap := s.heap.eraseIdx i ++ back
      frames := ⟨current, some t⟩ :: outer } := by
  have hperm := heap_refs_perm ht
  refine h.congr rfl ?_ rfl rfl (fun t' ht' => ?_) rfl
  · have hnone : Frame.refs ⟨current, none⟩ = [] := rfl
    refine List.perm_iff_count.2 fun r => ?_
    have hc := hperm.count_eq r
    have hr := congrArg (List.count r) hrefs
    simp only [held, hframes, List.flatMap_append, List.flatMap_cons, hnone, List.count_append,
      List.nil_append] at hc hr ⊢
    omega
  · rcases List.mem_append.1 ht' with hm | hm
    · exact ⟨t', List.mem_of_mem_eraseIdx hm, rfl, rfl, rfl, rfl⟩
    · exact ⟨t, List.mem_of_getElem? ht, hback t' hm⟩

theorem Inv.log (h : Inv s) {e : Expiry} (he : ∃ g ∈ s.registered, CalledFor e g) :
    Inv { s with processed := s.processed ++ [e] } where
  registry := h.registry
  ids := h.ids
  unique := h.unique
  nodes := h.nodes
  processed e' he' := by
    rcases List.mem_append.1 he' with hm | hm
    · exact h.processed e' hm
    · rw [List.mem_singleton.1 hm]
      exact he

theorem Inv.expire (h : Inv s) (i : ℕ) (hrun : ¬ s.running) : Inv (expire s i) := by
  unfold Callbacks.expire
  split
  next current running outer t hframes ht =>
    obtain rfl : running = none := running_eq_none hrun hframes
    by_cases hcancelled : t.cancelled
    · simp only [hcancelled, if_true]
      refine h.release ?_ rfl (fun t' ht' => List.mem_of_mem_eraseIdx ht') rfl rfl rfl
      refine List.perm_iff_count.2 fun r => ?_
      have hc := (heap_refs_perm ht).count_eq r
      simp only [held, List.count_append] at hc ⊢
      omega
    · have hcalls : t.is_callback → ∃ g ∈ s.registered, CalledFor ⟨t.timer_id,
          invoke_callback_internal s.registry t.thread_ref t.args_ref t.nargs⟩ g := by
        intro hcallback
        obtain ⟨g, hg, hmade⟩ := h.nodes t (List.mem_of_getElem? ht) hcallback
        exact ⟨g, hg, hmade.calls⟩
      by_cases hinterval : 0 < t.interval_ns
      · have hframe : Frame.refs ⟨current, some t⟩ = [] := if_neg (Nat.ne_of_gt hinterval)
        have htake := h.take [{ t with
            expiry_ns := (current + t.interval_ns) % 2 ^ 64
            start_ns := current }] ht hframes (by simp) (by simp [hframe, TimerNode.refs])
        simp only
        rw [if_neg hcancelled, if_pos hinterval]
        split_ifs with hcallback
        · exact htake.log (hcalls hcallback)
        · exact htake
      · have hframe : Frame.refs ⟨current, some t⟩ = t.refs :=
          if_pos (Nat.eq_zero_of_not_pos hinterval)
        have htake := h.take [] ht hframes (by simp) (by simp [hframe])
        rw [List.append_nil] at htake
        simp only
        rw [if_neg hcancelled, if_neg hinterval]
        split_ifs with hcallback
        · exact htake.log (hcalls hcallback)
        · exact htake
  next => exact h

theorem Inv.finish (h : Inv s) : Inv (finish s) := by
  unfold Callbacks.finish
  split
  next current t outer hframes =>
    have hnone : Frame.refs ⟨current, none⟩ = [] := rfl
    simp only
    split_ifs with hinterval
    · refine h.release ?_ rfl (fun t' ht' => ht') rfl rfl rfl
      have hrefs : Frame.refs ⟨current, some t⟩ = t.refs := if_pos hinterval
      refine List.perm_iff_count.2 fun r => ?_
      simp only [held, hframes, List.flatMap_cons, hrefs, hnone, List.count_append, List.nil_append]
      omega
    · have hrefs : Frame.refs ⟨current, some t⟩ = [] := if_neg hinterval
      refine h.congr rfl ?_ rfl rfl (fun t' ht' => ⟨t', ht', rfl, rfl, rfl, rfl⟩) rfl
      simp only [held, hframes, List.flatMap_cons, hrefs, hnone, List.Perm.refl]
  next => exact h

theorem Inv.leave (h : Inv s) (hrun : ¬ s.running) : Inv (leave s) := by
  refine h.congr rfl ?_ rfl rfl (fun t' ht' => ⟨t', ht', rfl, rfl, rfl, rfl⟩) rfl
  unfold Callbacks.leave held
  cases hframes : s.frames with
  | nil => simp
  | cons f outer =>
    have hnone : Frame.refs f = [] := by
      unfold Frame.refs
      rw [running_eq_none hrun hframes]
    simp [hnone]

/-- One careful operation keeps the callbacks. -/
theorem Inv.exec (h : Inv s) (op : Op) (hen : op.enabled s) (hop : op.careful s) :
    Inv (exec s op) := by
  have hsame : ∀ t' ∈ s.heap, ∃ t ∈ s.heap, t'.timer_id = t.timer_id ∧
      t'.thread_ref = t.thread_ref ∧ t'.args_ref = t.args_ref ∧ t'.is_callback = t.is_callback :=
    fun t' ht' => ⟨t', ht', rfl, rfl, rfl, rfl⟩
  cases op with
  | tick ns => exact h.congr rfl (.refl _) rfl rfl hsame rfl
  | timer interval_ns fn repeating => exact h.timer interval_ns fn repeating
  | every interval_ns fn args memory => exact h.every interval_ns fn args memory
  | stop n => exact h.stop n
  | start n interval =>
    rw [Callbacks.exec, timer_start]
    split
    next t ht =>
      rw [if_pos (hop t ht)]
      exact h
    next => exact h
  | reset n interval => exact hop.elim
  | cancel co => exact h.cancel co
  | delay delay_ns co nargs is_yield_wait => exact h.delay delay_ns co nargs is_yield_wait
  | ref o => exact h.ref o
  | unref r => exact h.unref hop
  | step => exact h.congr rfl (.refl _) rfl rfl hsame rfl
  | expire i => exact h.expire i hen.1
  | finish => exact h.finish
  | leave => exact h.leave hen.1

end Steps

/-- **Callback timers.**  In every run in which references are released by their owners only, a
timer of `task.timer` calls its function once, without arguments, at every expiry that is processed
for it, and a timer of `task.every` does not do what was asked at any. -/
theorem timer_calls_iff {s : State} (h : callbacks.Reach (fun s op => op.careful s) s) :
    ∀ e ∈ s.processed, (∃ g ∈ s.registered, g.timer_id = e.timer_id) ∧
      ∀ g ∈ s.registered, g.timer_id = e.timer_id →
        (e.calls = [(g.fn, g.args.map some)] ↔ g.kind = .timer) := by
  have hs : Inv s := by
    refine h.invariant (I := Inv) ?_ fun s op hs hen hop => hs.exec op hen hop
    rintro s rfl
    exact ⟨⟨List.nodup_nil, by simp [held, State.new], [], rfl, by simp⟩, by simp [State.new],
      by simp [State.new], by simp [State.new], by simp [State.new]⟩
  intro e he
  obtain ⟨g, hg, hid, hcalled⟩ := hs.processed e he
  refine ⟨⟨g, hg, hid⟩, fun g' hg' hid' => ?_⟩
  obtain rfl : g' = g := List.inj_on_of_nodup_map hs.unique hg' hg (hid'.trans hid.symm)
  cases hkind : g'.kind with
  | timer =>
    rw [hkind] at hcalled
    simp [hcalled.1, hcalled.2]
  | every =>
    rw [hkind] at hcalled
    simp [hcalled]

/-- A timer of `task.timer` that has expired twice. -/
theorem timer_calls_iff_twice :
    let s := [Op.timer 5 7 true, .tick 5, .step, .expire 0, .finish, .leave, .tick 5, .step,
      .expire 0].foldl exec State.new
    s.processed = [⟨1, [(7, [])]⟩, ⟨1, [(7, [])]⟩] ∧
      ∀ e ∈ s.processed, ∀ g ∈ s.registered, g.timer_id = e.timer_id →
        (e.calls = [(g.fn, g.args.map some)] ↔ g.kind = .timer) := by
  intro s
  have hinit : callbacks.Reach (fun s op => op.careful s) State.new := .init rfl
  refine ⟨by decide, fun e he => (timer_calls_iff (hinit.run ?_) e he).2⟩
  decide

/-- **A timer of `task.every`** that expires calls nothing. -/
theorem every_calls_nothing : ∃ s, callbacks.Reach (fun s op => op.careful s) s ∧
    ∃ e ∈ s.processed, ∃ g ∈ s.registered, g.timer_id = e.timer_id ∧
      e.calls ≠ [(g.fn, g.args.map some)] := by
  have hinit : callbacks.Reach (fun s op => op.careful s) State.new := .init rfl
  refine ⟨[Op.every 5 7 [1, 2] ⟨0, 0, 0, false, false⟩, .tick 5, .step, .expire 0].foldl exec
    State.new, hinit.run (by decide), ?_⟩
  decide

end Callbacks

end Reactor

end Jaci
