import Jaci.Lib.Machine
import Mathlib

/-!
# Timers and the clock

The reactor reads its clock in nanoseconds of 64 bits, and waits for the next timer in milliseconds
of 32 bits.  A timer expires at the sum of the clock and its delay, both of which may be anything.
Callbacks may call `step` again.

* `clock` : the machine of all timers;
* `timely_of_reach` : **no timer runs early, timers run in order and no wait is too long** in the
  runs in which no sum and no wait overflows;
* `timeout_ms_nonneg_iff` : which waits do not.
-/

namespace Jaci

namespace Reactor

namespace Clock

/-! ### State -/

/-- `TimerNode`, as far as time is concerned. -/
structure TimerNode where
  start_ns : ℕ
  expiry_ns : ℕ
  interval_ns : ℕ
  timer_id : ℕ
  cancelled : Bool
  /-- The delay that was asked for, which the source does not keep. -/
  delay_ns : ℕ
deriving DecidableEq

/-- A call of `process_expired_timers`. -/
structure Frame where
  current_ns : ℕ
  running : Bool
deriving DecidableEq

/-- A timer that has run. -/
structure Fired where
  node : TimerNode
  current_ns : ℕ
deriving DecidableEq

/-- A wait. -/
structure Wait where
  /-- The time that `step` has read. -/
  current_ns : ℕ
  timeout_ms : ℤ
  timers : List TimerNode
deriving DecidableEq

/-- The timers, and what they have done. -/
structure State where
  now_ns : ℕ
  next_timer_id : ℕ
  /-- The nodes, in some order: `timer_heap_`. -/
  heap : List TimerNode
  /-- The calls of `process_expired_timers`, the innermost first. -/
  frames : List Frame
  fired : List Fired
  waits : List Wait
deriving DecidableEq

/-! ### Operations -/

/-- `schedule_timer`: the sum is one of 64 bits. -/
def schedule_timer (s : State) (delay_ns interval_ns : ℕ) : State :=
  { s with
    next_timer_id := s.next_timer_id + 1
    heap := s.heap ++ [⟨s.now_ns, (s.now_ns + delay_ns) % 2 ^ 64, interval_ns, s.next_timer_id,
      false, delay_ns⟩] }

/-- The loop of `cancel_timer`. -/
def cancel_first (timer_id : ℕ) : List TimerNode → List TimerNode
  | [] => []
  | t :: rest =>
    if t.timer_id = timer_id then { t with cancelled := true } :: rest
    else t :: cancel_first timer_id rest

/-- `cancel_timer`: the node with this number, if it is still there. -/
def cancel_timer (s : State) (timer_id : ℕ) : State :=
  { s with heap := cancel_first timer_id s.heap }

/-- `process_expired_timers` is called by `step`. -/
def process_expired_timers (s : State) : State :=
  { s with frames := ⟨s.now_ns, false⟩ :: s.frames }

/-- A repeating timer that has expired, put back. -/
def TimerNode.next (t : TimerNode) (current_ns : ℕ) : TimerNode :=
  { t with
    expiry_ns := (current_ns + t.interval_ns) % 2 ^ 64
    start_ns := current_ns
    delay_ns := t.interval_ns }

/-- The loop of `process_expired_timers` takes a node from the heap.  A repeating timer is put back
first, then the coroutine or callback runs. -/
def expire (s : State) (i : ℕ) : State :=
  match s.frames, s.heap[i]? with
  | ⟨current_ns, _⟩ :: outer, some t =>
    let heap := s.heap.eraseIdx i
    if t.cancelled then { s with heap := heap }
    else
      { s with
        heap := if 0 < t.interval_ns then heap ++ [t.next current_ns] else heap
        frames := ⟨current_ns, true⟩ :: outer
        fired := ⟨t, current_ns⟩ :: s.fired }
  | _, _ => s

/-- The coroutine or callback yields, ends or fails. -/
def finish (s : State) : State :=
  match s.frames with
  | ⟨current_ns, _⟩ :: outer => { s with frames := ⟨current_ns, false⟩ :: outer }
  | [] => s

/-- The front of the heap expires first. -/
def next_expiry (heap : List TimerNode) : Option ℕ := (heap.map TimerNode.expiry_ns).min?

/-- The conversion to `int`. -/
def narrow (n : ℤ) : ℤ := n.bmod (2 ^ 32)

/-- The wait that `step` computes: there are microtasks, and no watchers of files. -/
def timeout_ms (microtasks no_watchers : Bool) (heap : List TimerNode) (current_ns : ℕ)
    (max_wait_ms : ℤ) : ℤ :=
  if microtasks then 0
  else
    match next_expiry heap with
    | some next_expiry =>
      let diff := if current_ns < next_expiry then next_expiry - current_ns else 0
      let timeout_ms := narrow (diff / 1000000 : ℕ)
      if 0 ≤ max_wait_ms ∧ max_wait_ms < timeout_ms then narrow max_wait_ms else timeout_ms
    | none => if 0 ≤ max_wait_ms then narrow max_wait_ms else if no_watchers then 0 else 50

/-- `process_expired_timers` returns, and `step` computes its wait. -/
def leave (s : State) (microtasks no_watchers : Bool) (max_wait_ms : ℤ) : State :=
  match s.frames with
  | ⟨current_ns, _⟩ :: outer =>
    { s with
      frames := outer
      waits := ⟨current_ns, timeout_ms microtasks no_watchers s.heap current_ns max_wait_ms, s.heap⟩
        :: s.waits }
  | [] => s

/-- What happens in a run. -/
inductive Op where
  | tick (ns : ℕ)
  | schedule (delay_ns interval_ns : ℕ)
  | cancel (timer_id : ℕ)
  /-- `step` calls `process_expired_timers`. -/
  | step
  | expire (i : ℕ)
  | finish
  /-- `process_expired_timers` returns to `step`. -/
  | leave (microtasks no_watchers : Bool) (max_wait_ms : ℤ)
deriving DecidableEq

/-- The program runs, in a timer or outside of `process_expired_timers`. -/
def State.running (s : State) : Prop := ∀ f ∈ s.frames.head?, f.running = true

instance (s : State) : Decidable s.running :=
  inferInstanceAs (Decidable (∀ f ∈ s.frames.head?, f.running = true))

/-- A node that is due and that the heap may have in front. -/
def Front (s : State) (i : ℕ) : Prop :=
  ∃ f ∈ s.frames.head?, ∃ t ∈ s.heap[i]?, t.expiry_ns ≤ f.current_ns ∧
    ∀ t' ∈ s.heap, t.expiry_ns ≤ t'.expiry_ns

instance (s : State) (i : ℕ) : Decidable (Front s i) :=
  inferInstanceAs (Decidable (∃ f ∈ s.frames.head?, ∃ t ∈ s.heap[i]?,
    t.expiry_ns ≤ f.current_ns ∧ ∀ t' ∈ s.heap, t.expiry_ns ≤ t'.expiry_ns))

/-- When an operation is possible: the clock and the delays have 64 bits. -/
def Op.enabled (s : State) : Op → Prop
  | .tick ns => s.now_ns + ns < 2 ^ 64
  | .schedule delay_ns interval_ns => s.running ∧ delay_ns < 2 ^ 64 ∧ interval_ns < 2 ^ 64
  | .cancel _ | .step => s.running
  | .expire i => ¬ s.running ∧ Front s i
  | .finish => s.running ∧ s.frames ≠ []
  | .leave _ _ max_wait_ms => ¬ s.running ∧ -2 ^ 63 ≤ max_wait_ms ∧ max_wait_ms < 2 ^ 63 ∧
      ∀ f ∈ s.frames.head?, ∀ t ∈ s.heap, f.current_ns < t.expiry_ns

instance (s : State) : ∀ op, Decidable (Op.enabled s op)
  | .tick ns => inferInstanceAs (Decidable (s.now_ns + ns < 2 ^ 64))
  | .schedule delay_ns interval_ns =>
    inferInstanceAs (Decidable (s.running ∧ delay_ns < 2 ^ 64 ∧ interval_ns < 2 ^ 64))
  | .cancel _ | .step => inferInstanceAs (Decidable s.running)
  | .expire i => inferInstanceAs (Decidable (¬ s.running ∧ Front s i))
  | .finish => inferInstanceAs (Decidable (s.running ∧ s.frames ≠ []))
  | .leave _ _ max_wait_ms => inferInstanceAs (Decidable (¬ s.running ∧ -2 ^ 63 ≤ max_wait_ms ∧
      max_wait_ms < 2 ^ 63 ∧ ∀ f ∈ s.frames.head?, ∀ t ∈ s.heap, f.current_ns < t.expiry_ns))

def exec (s : State) : Op → State
  | .tick ns => { s with now_ns := s.now_ns + ns }
  | .schedule delay_ns interval_ns => schedule_timer s delay_ns interval_ns
  | .cancel timer_id => cancel_timer s timer_id
  | .step => process_expired_timers s
  | .expire i => Clock.expire s i
  | .finish => Clock.finish s
  | .leave microtasks no_watchers max_wait_ms => Clock.leave s microtasks no_watchers max_wait_ms

/-- No timers yet, at some time. -/
def State.new (now_ns : ℕ) : State := ⟨now_ns, 1, [], [], [], []⟩

/-- The runs of the timers. -/
def clock : Machine State Op where
  init s := ∃ now_ns < 2 ^ 64, s = .new now_ns
  enabled := Op.enabled
  exec := exec

instance (s : State) (op : Op) : Decidable (clock.enabled s op) :=
  inferInstanceAs (Decidable (op.enabled s))

/-! ### Time -/

/-- When a timer is to expire. -/
def TimerNode.due (t : TimerNode) : ℕ := t.start_ns + t.delay_ns

/-- What is asked of timers and waits. -/
structure Timely (s : State) : Prop where
  late : ∀ f ∈ s.fired, f.node.due ≤ f.current_ns
  /-- Timers have run in the order in which they expire. -/
  ordered : s.fired.Pairwise fun f g => g.node.expiry_ns ≤ f.node.expiry_ns
  nonneg : ∀ w ∈ s.waits, 0 ≤ w.timeout_ms
  /-- No wait is longer than the time to any timer. -/
  short : ∀ w ∈ s.waits, ∀ t ∈ w.timers,
    w.timeout_ms * 1000000 ≤ ((t.due - w.current_ns : ℕ) : ℤ)

/-- A wait fits into an `int`: for the next timer, or the longest wait if there is none. -/
def WaitFits (microtasks : Bool) (heap : List TimerNode) (current_ns : ℕ) (max_wait_ms : ℤ) : Prop :=
  microtasks = false →
    match next_expiry heap with
    | some next_expiry => (next_expiry - current_ns) / 1000000 % 2 ^ 32 < 2 ^ 31
    | none => 0 ≤ max_wait_ms → max_wait_ms % 2 ^ 32 < 2 ^ 31

/-- No sum and no wait overflows in the operation. -/
def Op.fits (s : State) : Op → Prop
  | .schedule delay_ns _ => s.now_ns + delay_ns < 2 ^ 64
  | .expire i => ∀ f ∈ s.frames.head?, ∀ t ∈ s.heap[i]?, t.cancelled = false →
      0 < t.interval_ns → f.current_ns + t.interval_ns < 2 ^ 64
  | .leave microtasks _ max_wait_ms =>
    ∀ f ∈ s.frames.head?, WaitFits microtasks s.heap f.current_ns max_wait_ms
  | .tick _ | .cancel _ | .step | .finish => True

/-! ### Waits -/

section Waits

variable {heap : List TimerNode} {current_ns : ℕ} {microtasks no_watchers : Bool} {max_wait_ms : ℤ}

theorem narrow_cases (n : ℤ) :
    (n % 2 ^ 32 < 2 ^ 31 ∧ narrow n = n % 2 ^ 32) ∨
      (2 ^ 31 ≤ n % 2 ^ 32 ∧ narrow n = n % 2 ^ 32 - 2 ^ 32) := by
  have hcast : ((2 ^ 32 : ℕ) : ℤ) = 2 ^ 32 := rfl
  have hhalf : ((2 : ℤ) ^ 32 + 1) / 2 = 2 ^ 31 := rfl
  rw [narrow, Int.bmod_def, hcast, hhalf]
  by_cases hlt : n % 2 ^ 32 < 2 ^ 31
  · exact .inl ⟨hlt, if_pos hlt⟩
  · exact .inr ⟨Int.not_lt.mp hlt, if_neg hlt⟩

theorem narrow_nonneg_iff {n : ℤ} : 0 ≤ narrow n ↔ n % 2 ^ 32 < 2 ^ 31 := by
  rcases narrow_cases n with ⟨h, heq⟩ | ⟨h, heq⟩ <;> omega

theorem narrow_le {n : ℤ} (h : 0 ≤ n) : narrow n ≤ n := by
  rcases narrow_cases n with ⟨_, heq⟩ | ⟨_, heq⟩ <;> omega

theorem narrow_of_lt {n : ℤ} (h : 0 ≤ n) (hlt : n < 2 ^ 31) : narrow n = n := by
  rcases narrow_cases n with ⟨_, heq⟩ | ⟨_, heq⟩ <;> omega

theorem narrow_lt (n : ℤ) : narrow n < 2 ^ 31 := by
  rcases narrow_cases n with ⟨_, heq⟩ | ⟨_, heq⟩ <;> omega

theorem diff_eq (next_expiry : ℕ) :
    (if current_ns < next_expiry then next_expiry - current_ns else 0) = next_expiry - current_ns := by
  split_ifs <;> omega

theorem next_expiry_le {e : ℕ} (h : next_expiry heap = some e) : ∀ t ∈ heap, e ≤ t.expiry_ns := by
  intro t ht
  exact (List.min?_eq_some_iff.mp h).2 _ (List.mem_map_of_mem ht)

theorem next_expiry_eq_none (h : next_expiry heap = none) : heap = [] := by
  rw [next_expiry, List.min?_eq_none_iff, List.map_eq_nil_iff] at h
  exact h

/-- **A wait is not negative** if and only if it fits into an `int`. -/
theorem timeout_ms_nonneg_iff :
    0 ≤ timeout_ms microtasks no_watchers heap current_ns max_wait_ms ↔
      WaitFits microtasks heap current_ns max_wait_ms := by
  unfold timeout_ms WaitFits
  cases microtasks with
  | true => simp
  | false =>
    simp only [Bool.false_eq_true, if_false, forall_const]
    cases next_expiry heap with
    | none =>
      by_cases hmax : 0 ≤ max_wait_ms
      · simp only [hmax, if_true, forall_const]
        exact narrow_nonneg_iff
      · simp only [hmax, if_false, false_imp_iff, iff_true]
        cases no_watchers <;> decide
    | some e =>
      simp only [diff_eq]
      -- Clipped, the wait is the maximum; otherwise it is the number that was narrowed.
      rw [show (e - current_ns) / 1000000 % 2 ^ 32 < 2 ^ 31 ↔
        (((e - current_ns) / 1000000 : ℕ) : ℤ) % 2 ^ 32 < 2 ^ 31 by omega, ← narrow_nonneg_iff]
      by_cases hclip : 0 ≤ max_wait_ms ∧ max_wait_ms < narrow (((e - current_ns) / 1000000 : ℕ) : ℤ)
      · rw [if_pos hclip, narrow_of_lt hclip.1 (hclip.2.trans (narrow_lt _))]
        exact iff_of_true hclip.1 (hclip.1.trans hclip.2.le)
      · rw [if_neg hclip]

/-- No wait is longer than the time to the next timer. -/
theorem timeout_ms_le {t : TimerNode} (ht : t ∈ heap) :
    timeout_ms microtasks no_watchers heap current_ns max_wait_ms * 1000000 ≤
      ((t.expiry_ns - current_ns : ℕ) : ℤ) := by
  unfold timeout_ms
  cases microtasks with
  | true => simp
  | false =>
    simp only [Bool.false_eq_true, if_false]
    cases he : next_expiry heap with
    | none =>
      rw [next_expiry_eq_none he] at ht
      cases ht
    | some e =>
      have hle := next_expiry_le he t ht
      -- Neither the narrowing nor the maximum makes the wait longer.
      have hnarrow := narrow_le (n := (((e - current_ns) / 1000000 : ℕ) : ℤ)) (by omega)
      simp only [diff_eq]
      by_cases hclip : 0 ≤ max_wait_ms ∧ max_wait_ms < narrow (((e - current_ns) / 1000000 : ℕ) : ℤ)
      · rw [if_pos hclip, narrow_of_lt hclip.1 (hclip.2.trans (narrow_lt _))]
        omega
      · rw [if_neg hclip]
        omega

end Waits

/-! ### Runs -/

/-- The invariant. -/
structure ClockInv (s : State) : Prop extends Timely s where
  exact : ∀ t ∈ s.heap, t.expiry_ns = t.due
  past : ∀ f ∈ s.fired, f.node.expiry_ns ≤ s.now_ns
  first : ∀ f ∈ s.fired, ∀ t ∈ s.heap, f.node.expiry_ns ≤ t.expiry_ns
  read : ∀ f ∈ s.frames, f.current_ns ≤ s.now_ns

section Runs

variable {s : State}

theorem ClockInv.new (now_ns : ℕ) : ClockInv (.new now_ns) := by
  constructor
  · constructor <;> simp [State.new]
  all_goals simp [State.new]

theorem ClockInv.tick (h : ClockInv s) (ns : ℕ) : ClockInv { s with now_ns := s.now_ns + ns } where
  __ := h
  past f hf := (h.past f hf).trans (Nat.le_add_right _ _)
  read f hf := (h.read f hf).trans (Nat.le_add_right _ _)

/-- A new timer expires after all that have run. -/
theorem ClockInv.schedule (h : ClockInv s) {delay_ns interval_ns : ℕ}
    (hfits : s.now_ns + delay_ns < 2 ^ 64) : ClockInv (schedule_timer s delay_ns interval_ns) where
  __ := h
  exact t ht := by
    rcases List.mem_append.mp ht with ht | ht
    · exact h.exact t ht
    · rw [List.mem_singleton.mp ht]
      exact Nat.mod_eq_of_lt hfits
  first f hf t ht := by
    rcases List.mem_append.mp ht with ht | ht
    · exact h.first f hf t ht
    · rw [List.mem_singleton.mp ht]
      calc f.node.expiry_ns ≤ s.now_ns := h.past f hf
        _ ≤ s.now_ns + delay_ns := Nat.le_add_right _ _
        _ = (s.now_ns + delay_ns) % 2 ^ 64 := (Nat.mod_eq_of_lt hfits).symm

theorem mem_cancel_first {timer_id : ℕ} {heap : List TimerNode} {t : TimerNode}
    (h : t ∈ cancel_first timer_id heap) :
    ∃ t' ∈ heap, t.expiry_ns = t'.expiry_ns ∧ t.due = t'.due := by
  induction heap with
  | nil => cases h
  | cons u heap ih =>
    rw [cancel_first] at h
    split_ifs at h with hid
    · rcases List.mem_cons.mp h with rfl | h
      · exact ⟨u, List.mem_cons_self, rfl, rfl⟩
      · exact ⟨t, List.mem_cons_of_mem _ h, rfl, rfl⟩
    · rcases List.mem_cons.mp h with rfl | h
      · exact ⟨t, List.mem_cons_self, rfl, rfl⟩
      · obtain ⟨t', ht', heq⟩ := ih h
        exact ⟨t', List.mem_cons_of_mem _ ht', heq⟩

theorem ClockInv.cancel (h : ClockInv s) (timer_id : ℕ) : ClockInv (cancel_timer s timer_id) where
  __ := h
  exact t ht := by
    obtain ⟨t', ht', hexpiry, hdue⟩ := mem_cancel_first ht
    rw [hexpiry, hdue, h.exact t' ht']
  first f hf t ht := by
    obtain ⟨t', ht', hexpiry, -⟩ := mem_cancel_first ht
    exact hexpiry ▸ h.first f hf t' ht'

theorem ClockInv.step (h : ClockInv s) : ClockInv (process_expired_timers s) where
  __ := h
  read f hf := by
    rcases List.mem_cons.mp hf with rfl | hf
    · exact Nat.le_refl _
    · exact h.read f hf

/-- **The loop** takes the timer that expires first, and only when it is due. -/
theorem ClockInv.expire (h : ClockInv s) {i : ℕ} (hfront : Front s i)
    (hfits : (Op.expire i).fits s) : ClockInv (Clock.expire s i) := by
  obtain ⟨f, hf, t, ht, hdue, hmin⟩ := hfront
  have hfits' := hfits f hf t ht
  have hget : s.heap[i]? = some t := ht
  have hmem : t ∈ s.heap := List.mem_of_getElem? hget
  have hrest : ∀ u ∈ s.heap.eraseIdx i, u ∈ s.heap := fun u hu => List.mem_of_mem_eraseIdx hu
  obtain ⟨outer, hframes⟩ : ∃ outer, s.frames = f :: outer := List.head?_eq_some_iff.mp hf
  have hread := h.read
  rw [hframes] at hread
  unfold Clock.expire
  simp only [hframes, hget]
  by_cases hcancelled : t.cancelled = true
  · rw [if_pos hcancelled]
    exact { h with
      exact := fun u hu => h.exact u (hrest u hu)
      first := fun g hg u hu => h.first g hg u (hrest u hu)
      read := hread }
  rw [if_neg hcancelled]
  have hlast : f.current_ns ≤ s.now_ns := hread f List.mem_cons_self
  -- What is in the heap afterwards: what was there, and the timer itself if it repeats.
  have hheap : ∀ u ∈ (if 0 < t.interval_ns then s.heap.eraseIdx i ++ [t.next f.current_ns]
      else s.heap.eraseIdx i), u.expiry_ns = u.due ∧ t.expiry_ns ≤ u.expiry_ns := by
    intro u hu
    have hold : u ∈ s.heap.eraseIdx i → u.expiry_ns = u.due ∧ t.expiry_ns ≤ u.expiry_ns :=
      fun hu => ⟨h.exact u (hrest u hu), hmin u (hrest u hu)⟩
    by_cases hrepeats : 0 < t.interval_ns
    · rw [if_pos hrepeats] at hu
      rcases List.mem_append.mp hu with hu | hu
      · exact hold hu
      · rw [List.mem_singleton.mp hu]
        have hsum := Nat.mod_eq_of_lt (hfits' (by simpa using hcancelled) hrepeats)
        refine ⟨hsum, ?_⟩
        calc t.expiry_ns ≤ f.current_ns := hdue
          _ ≤ f.current_ns + t.interval_ns := Nat.le_add_right _ _
          _ = (t.next f.current_ns).expiry_ns := hsum.symm
    · rw [if_neg hrepeats] at hu
      exact hold hu
  constructor
  · constructor
    · intro g hg
      rcases List.mem_cons.mp hg with rfl | hg
      · exact (h.exact t hmem).symm.trans_le hdue
      · exact h.late g hg
    · exact List.pairwise_cons.mpr ⟨fun g hg => h.first g hg t hmem, h.ordered⟩
    · exact h.nonneg
    · exact h.short
  · exact fun u hu => (hheap u hu).1
  · intro g hg
    rcases List.mem_cons.mp hg with rfl | hg
    · exact hdue.trans hlast
    · exact h.past g hg
  · intro g hg u hu
    rcases List.mem_cons.mp hg with rfl | hg
    · exact (hheap u hu).2
    · exact (h.first g hg t hmem).trans (hheap u hu).2
  · intro g hg
    rcases List.mem_cons.mp hg with rfl | hg
    · exact hlast
    · exact hread g (List.mem_cons_of_mem _ hg)

theorem ClockInv.finish (h : ClockInv s) : ClockInv (Clock.finish s) := by
  unfold Clock.finish
  split
  · next current_ns b outer hframes =>
    have hread := h.read
    rw [hframes] at hread
    refine { h with read := ?_ }
    intro f hf
    rcases List.mem_cons.mp hf with rfl | hf
    · exact hread ⟨current_ns, b⟩ List.mem_cons_self
    · exact hread f (List.mem_cons_of_mem _ hf)
  · exact h

theorem ClockInv.leave (h : ClockInv s) {microtasks no_watchers : Bool} {max_wait_ms : ℤ}
    (hfits : (Op.leave microtasks no_watchers max_wait_ms).fits s) :
    ClockInv (Clock.leave s microtasks no_watchers max_wait_ms) := by
  unfold Clock.leave
  split
  · next current_ns b outer hframes =>
    have hread := h.read
    rw [hframes] at hread
    have hwait : WaitFits microtasks s.heap current_ns max_wait_ms :=
      hfits ⟨current_ns, b⟩ (by rw [hframes]; rfl)
    refine { h with nonneg := ?_, short := ?_, read := ?_ }
    · intro w hw
      -- The new wait, and the ones before it.
      rcases List.mem_cons.mp hw with rfl | hw
      · exact timeout_ms_nonneg_iff.mpr hwait
      · exact h.nonneg w hw
    · intro w hw t ht
      rcases List.mem_cons.mp hw with rfl | hw
      · rw [← h.exact t ht]
        exact timeout_ms_le ht
      · exact h.short w hw t ht
    · exact fun f hf => hread f (List.mem_cons_of_mem _ hf)
  · exact h

theorem ClockInv.exec (h : ClockInv s) {op : Op} (henabled : clock.enabled s op) (hfits : op.fits s) :
    ClockInv (Clock.exec s op) := by
  cases op with
  | tick ns => exact h.tick ns
  | schedule delay_ns interval_ns => exact h.schedule hfits
  | cancel timer_id => exact h.cancel timer_id
  | step => exact h.step
  | expire i => exact h.expire henabled.2 hfits
  | finish => exact h.finish
  | leave microtasks no_watchers max_wait_ms => exact h.leave hfits

/-- **No timer runs early, timers run in the order in which they expire, and no wait is negative or
too long**, if no sum and no wait overflows. -/
theorem timely_of_reach (h : clock.Reach (fun s op => op.fits s) s) : Timely s := by
  refine (h.invariant (I := ClockInv) ?_ ?_).toTimely
  · rintro s ⟨now_ns, -, rfl⟩
    exact .new now_ns
  · exact fun s op hinv henabled hfits => hinv.exec henabled hfits

/-- A timer of five nanoseconds, and the wait after it has run. -/
def five : List Op := [.schedule 5 0, .tick 7, .step, .expire 0, .finish, .leave false true 20]

theorem timely_of_five : Timely (five.foldl clock.exec (.new 10)) :=
  timely_of_reach (Machine.Reach.run (M := clock) (.init ⟨10, by decide, rfl⟩)
    ⟨by decide, (by decide : 10 + 5 < 2 ^ 64), by decide, trivial, by decide, trivial, by decide,
      fun f _ t ht _ hrepeats => by
        obtain rfl : ⟨10, 15, 0, 1, false, 5⟩ = t := Option.some.inj ht
        exact absurd hrepeats (by decide),
      by decide, trivial, by decide, fun f _ _ _ => (by decide : (20 : ℤ) % 2 ^ 32 < 2 ^ 31),
      trivial⟩)

/-- A timer of more than five hundred years runs at once. -/
theorem not_timely : ¬ ∀ s : State, clock.Reach (fun _ _ => True) s → Timely s := by
  intro h
  have htimely := h ([.schedule (2 ^ 64 - 5) 0, .step, .expire 0].foldl clock.exec (.new 10))
    (Machine.Reach.run (M := clock) (.init ⟨10, by decide, rfl⟩)
      ⟨by decide, trivial, by decide, trivial, by decide, trivial, trivial⟩)
  have hlate := htimely.late ⟨⟨10, 5, 0, 1, false, 2 ^ 64 - 5⟩, 10⟩ (by decide)
  revert hlate
  decide

end Runs

end Clock

end Reactor

end Jaci
