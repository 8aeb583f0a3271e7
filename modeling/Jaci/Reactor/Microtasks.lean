import Jaci.Lib.Machine
import Mathlib.Data.List.Range
import Mathlib.Data.List.Basic

/-!
# Microtasks

The reactor has two vectors of microtasks.  `process_microtasks` swaps them and resumes one
microtask after the other; while a microtask runs, it may defer further ones, cancel coroutines, and
enter `process_microtasks` again through `task.poll`, `task.step` or `task.run`.

* `process_microtasks_once` : the runs in which every microtask has one turn, in order;
* `process_microtasks_reentered` : a run in which this fails.
-/

namespace Jaci

namespace Reactor

/-! ### State -/

/-- What a microtask resumes. -/
inductive Task where
  | function
  | thread (co : ℕ)
deriving DecidableEq

/-- `MicrotaskNode`.  Its registry references, `thread_ref` and `args_ref`, are made and released
together; they go by the number of the deferral here. -/
structure MicrotaskNode where
  id : ℕ
  task : Task
  cancelled : Bool
deriving DecidableEq

/-- A call of `process_microtasks` in the middle of its inner loop. -/
structure Frame where
  index : ℕ
  /-- The microtask that runs, if it was resumed and is not back yet.  The source has a reference
  into the vector, of which it then needs `thread_ref` and `args_ref`. -/
  running : Option MicrotaskNode
deriving DecidableEq

/-- The turn of a microtask. -/
structure Turn where
  node : MicrotaskNode
  suspended : Bool
deriving DecidableEq

/-- The microtask is resumed in its turn. -/
def Turn.resumes (t : Turn) : Bool :=
  !t.node.cancelled && (decide (t.node.task = .function) || t.suspended)

/-- The reactor, and what has happened. -/
structure State where
  /-- The microtasks that were deferred: `microtasks_`. -/
  microtasks : List MicrotaskNode
  /-- The microtasks in work: `active_microtasks_`. -/
  active : List MicrotaskNode
  /-- The calls of `process_microtasks`, the innermost first. -/
  frames : List Frame
  deferred : ℕ
  turns : List Turn
  resumed : List ℕ
  /-- The microtasks whose references were released. -/
  released : List ℕ

/-! ### Operations -/

/-- `defer_thread` and `defer_function`. -/
def defer (s : State) (task : Task) : State :=
  { s with
    microtasks := s.microtasks ++ [⟨s.deferred, task, false⟩]
    deferred := s.deferred + 1 }

/-- The part of `cancel_thread` for microtasks. -/
def cancel_thread (s : State) (co : ℕ) : State :=
  { s with microtasks := s.microtasks.map fun m =>
      if m.task = .thread co then { m with cancelled := true } else m }

/-- The two vectors are swapped for a new round. -/
def swap (s : State) (rest : List Frame) : State :=
  { s with active := s.microtasks, microtasks := s.active, frames := ⟨0, none⟩ :: rest }

/-- `process_microtasks` is called. -/
def process_microtasks (s : State) : State :=
  if s.microtasks = [] then s else swap s s.frames

/-- The references of a microtask are released and the loop goes on. -/
def release (s : State) (m : MicrotaskNode) (i : ℕ) (rest : List Frame) : State :=
  { s with released := s.released ++ [m.id], frames := ⟨i + 1, none⟩ :: rest }

/-- The loop of `process_microtasks` goes on; `suspended` is what `lua_costatus` says about the
coroutine of the next microtask. -/
def next (s : State) (suspended : Bool) : State :=
  match s.frames with
  | ⟨i, none⟩ :: rest =>
    match s.active[i]? with
    | some m =>
      let s := { s with turns := s.turns ++ [⟨m, suspended⟩] }
      if m.cancelled then release s m i rest
      else if m.task = .function ∨ suspended = true then
        { s with resumed := s.resumed ++ [m.id], frames := ⟨i, some m⟩ :: rest }
      else release s m i rest
    | none =>
      let s := { s with active := [] }
      if s.microtasks = [] then { s with frames := rest } else swap s rest
  | _ => s

/-- The microtask that runs yields, ends or fails. -/
def finish (s : State) : State :=
  match s.frames with
  | ⟨i, some m⟩ :: rest => release s m i rest
  | _ => s

/-- What happens in a run. -/
inductive Op where
  | defer (task : Task)
  | cancel (co : ℕ)
  /-- `process_microtasks` is called. -/
  | enter
  | next (suspended : Bool)
  | finish
deriving DecidableEq

/-- The program runs, in a microtask or outside of `process_microtasks`. -/
def State.running (s : State) : Prop := ∀ f ∈ s.frames.head?, f.running ≠ none

/-- When an operation is possible. -/
def Op.enabled (s : State) : Op → Prop
  | .defer _ => s.running
  | .cancel _ => s.running
  | .enter => s.running
  | .next _ => ¬ s.running
  | .finish => s.running ∧ s.frames ≠ []

instance (s : State) : Decidable s.running :=
  inferInstanceAs (Decidable (∀ f ∈ s.frames.head?, f.running ≠ none))

instance (s : State) : ∀ op, Decidable (Op.enabled s op)
  | .defer _ => inferInstanceAs (Decidable s.running)
  | .cancel _ => inferInstanceAs (Decidable s.running)
  | .enter => inferInstanceAs (Decidable s.running)
  | .next _ => inferInstanceAs (Decidable (¬ s.running))
  | .finish => inferInstanceAs (Decidable (s.running ∧ s.frames ≠ []))

def exec (s : State) : Op → State
  | .defer task => defer s task
  | .cancel co => cancel_thread s co
  | .enter => process_microtasks s
  | .next suspended => next s suspended
  | .finish => finish s

def State.new : State where
  microtasks := []
  active := []
  frames := []
  deferred := 0
  turns := []
  resumed := []
  released := []

/-- The runs of the reactor. -/
def reactor : Machine State Op where
  init s := s = .new
  enabled := Op.enabled
  exec := exec

instance (s : State) (op : Op) : Decidable (reactor.enabled s op) :=
  inferInstanceAs (Decidable (op.enabled s))

/-! ### Turns -/

/-- A microtask does not enter `process_microtasks` while others are deferred. -/
def Op.careful (s : State) : Op → Prop
  | .enter => s.frames = [] ∨ s.microtasks = []
  | _ => True

instance (s : State) : ∀ op, Decidable (Op.careful s op)
  | .enter => inferInstanceAs (Decidable (s.frames = [] ∨ s.microtasks = []))
  | .defer _ | .cancel _ | .next _ | .finish => inferInstanceAs (Decidable True)

/-- The microtasks in work whose turn has not come. -/
def ahead (s : State) : List MicrotaskNode :=
  match s.frames with
  | [] => []
  | ⟨i, none⟩ :: _ => s.active.drop i
  | ⟨i, some _⟩ :: _ => s.active.drop (i + 1)

/-- The microtasks that run. -/
def current (s : State) : List MicrotaskNode := s.frames.filterMap Frame.running

/-- The invariant of careful runs. -/
structure Once (s : State) : Prop where
  /-- `process_microtasks` is not nested. -/
  depth : s.frames.length ≤ 1
  idle : s.frames = [] → s.active = []
  order : (s.turns.map Turn.node ++ ahead s ++ s.microtasks).map MicrotaskNode.id =
    List.range s.deferred
  resumed : s.resumed = (s.turns.filter Turn.resumes).map fun t => t.node.id
  released : s.released ++ (current s).map MicrotaskNode.id = s.turns.map fun t => t.node.id

variable {s : State}

theorem Once.defer (h : Once s) (task : Task) : Once (defer s task) := by
  refine ⟨h.depth, h.idle, ?_, h.resumed, h.released⟩
  have hahead : ahead (Reactor.defer s task) = ahead s := rfl
  have horder := h.order
  simp only [Reactor.defer, List.range_succ] at hahead ⊢
  rw [hahead, ← horder, ← List.append_assoc, List.map_append]
  rfl

theorem Once.cancel (h : Once s) (co : ℕ) : Once (cancel_thread s co) := by
  refine ⟨h.depth, h.idle, ?_, h.resumed, h.released⟩
  have hahead : ahead (cancel_thread s co) = ahead s := rfl
  have hid : (cancel_thread s co).microtasks.map MicrotaskNode.id =
      s.microtasks.map MicrotaskNode.id := by
    rw [cancel_thread, List.map_map]
    refine List.map_congr_left fun m _ => ?_
    simp only [Function.comp]
    split_ifs <;> rfl
  rw [hahead, List.map_append, hid, ← List.map_append]
  exact h.order

/-- A round begins when nothing is in work. -/
theorem Once.swap (h : Once s) (hframes : s.frames = []) : Once (swap s []) := by
  have horder := h.order
  have hreleased := h.released
  have hactive := h.idle hframes
  simp only [ahead, hframes, List.append_nil] at horder
  simp only [current, hframes] at hreleased
  refine ⟨le_refl 1, by simp [Reactor.swap], ?_, h.resumed, ?_⟩
  · simpa [Reactor.swap, ahead, hactive] using horder
  · simpa [Reactor.swap, current] using hreleased

theorem Once.enter (h : Once s) (hop : s.frames = [] ∨ s.microtasks = []) :
    Once (process_microtasks s) := by
  rw [process_microtasks]
  split_ifs with hempty
  · exact h
  · rcases hop with hframes | hmicro
    · rw [hframes]
      exact h.swap hframes
    · exact absurd hmicro hempty

/-- A turn that ends without the microtask being resumed. -/
theorem Once.skip (h : Once s) {i : ℕ} {m : MicrotaskNode} {c : Bool}
    (hframes : s.frames = [⟨i, none⟩]) (hm : s.active[i]? = some m)
    (hskip : Turn.resumes ⟨m, c⟩ = false) :
    Once (release { s with turns := s.turns ++ [⟨m, c⟩] } m i []) := by
  have horder := h.order
  have hreleased := h.released
  obtain ⟨hi, rfl⟩ := List.getElem?_eq_some_iff.mp hm
  simp only [ahead, hframes, List.drop_eq_getElem_cons hi] at horder
  simp only [current, hframes, List.filterMap_cons, List.filterMap_nil, List.map_nil,
    List.append_nil] at hreleased
  refine ⟨le_refl 1, by simp [release], ?_, ?_, ?_⟩
  · simpa [release, ahead] using horder
  · simp only [release, List.filter_append, List.filter_cons, hskip, List.filter_nil]
    simpa using h.resumed
  · simp [release, current, hreleased]

/-- A turn in which the microtask is resumed. -/
theorem Once.start (h : Once s) {i : ℕ} {m : MicrotaskNode} {c : Bool}
    (hframes : s.frames = [⟨i, none⟩]) (hm : s.active[i]? = some m)
    (hresumes : Turn.resumes ⟨m, c⟩ = true) :
    Once { s with
      turns := s.turns ++ [⟨m, c⟩]
      resumed := s.resumed ++ [m.id]
      frames := [⟨i, some m⟩] } := by
  have horder := h.order
  have hreleased := h.released
  obtain ⟨hi, rfl⟩ := List.getElem?_eq_some_iff.mp hm
  simp only [ahead, hframes, List.drop_eq_getElem_cons hi] at horder
  simp only [current, hframes, List.filterMap_cons, List.filterMap_nil, List.map_nil,
    List.append_nil] at hreleased
  refine ⟨le_refl 1, by simp, ?_, ?_, ?_⟩
  · simpa [ahead] using horder
  · simp only [List.filter_append, List.filter_cons, hresumes, List.filter_nil]
    simp [h.resumed]
  · simp [current, hreleased]

/-- The end of a round. -/
theorem Once.round (h : Once s) {i : ℕ} (hframes : s.frames = [⟨i, none⟩])
    (hm : s.active[i]? = none) : Once { s with active := [], frames := [] } := by
  have horder := h.order
  have hreleased := h.released
  have hdrop : s.active.drop i = [] := List.drop_eq_nil_of_le (List.getElem?_eq_none_iff.mp hm)
  simp only [ahead, hframes, hdrop] at horder
  simp only [current, hframes, List.filterMap_cons, List.filterMap_nil] at hreleased
  exact ⟨Nat.zero_le 1, fun _ => rfl, horder, h.resumed, hreleased⟩

theorem Once.next (h : Once s) (c : Bool) : Once (next s c) := by
  rw [Reactor.next]
  split
  · rename_i i rest hframes
    -- there is no outer call
    have hrest : rest = [] := by
      have := h.depth
      rw [hframes, List.length_cons] at this
      exact List.eq_nil_of_length_eq_zero (by omega)
    subst hrest
    cases hm : s.active[i]? with
    | some m =>
      simp only
      split_ifs with hcancelled hrun
      · exact h.skip hframes hm (by simp [Turn.resumes, hcancelled])
      · exact h.start hframes hm (by simpa [Turn.resumes, hcancelled] using hrun)
      · exact h.skip hframes hm (by simpa [Turn.resumes, hcancelled] using hrun)
    | none =>
      simp only
      have hround := h.round hframes hm
      split_ifs
      · exact hround
      · exact hround.swap rfl
  · exact h

theorem Once.finish (h : Once s) : Once (finish s) := by
  rw [Reactor.finish]
  split
  · rename_i i m rest hframes
    have hrest : rest = [] := by
      have := h.depth
      rw [hframes, List.length_cons] at this
      exact List.eq_nil_of_length_eq_zero (by omega)
    subst hrest
    have horder := h.order
    have hreleased := h.released
    simp only [ahead, hframes] at horder
    simp only [current, hframes, List.filterMap_cons, List.filterMap_nil, List.map_cons,
      List.map_nil] at hreleased
    exact ⟨le_refl 1, by simp [release], horder, h.resumed, by simpa [release, current]⟩
  · exact h

/-- One careful operation keeps the order. -/
theorem Once.exec (h : Once s) (op : Op) (hop : op.careful s) : Once (exec s op) := by
  cases op with
  | defer task => exact h.defer task
  | cancel co => exact h.cancel co
  | enter => exact h.enter hop
  | next c => exact h.next c
  | finish => exact h.finish

theorem reach_once (h : reactor.Reach (fun s op => op.careful s) s) : Once s := by
  refine h.invariant (I := Once) ?_ fun s op hs _ hop => hs.exec op hop
  rintro s rfl
  exact ⟨Nat.zero_le 1, fun _ => rfl, rfl, rfl, rfl⟩

/-- **Microtasks have one turn, in order.**  In every run in which no microtask enters
`process_microtasks` while others are deferred, the turns are those of the first microtasks in the
order of their deferral, each microtask that is not cancelled is resumed in its turn and at no other
time (a coroutine only if it is suspended then), and the references of every microtask whose turn is
over are released once.  When `process_microtasks` is not running and nothing is deferred, every
microtask has had its turn. -/
theorem process_microtasks_once (h : reactor.Reach (fun s op => op.careful s) s) :
    (s.turns.map fun t => t.node.id) <+: List.range s.deferred ∧
    s.resumed = (s.turns.filter Turn.resumes).map (fun t => t.node.id) ∧
    s.released ++ (current s).map MicrotaskNode.id = s.turns.map (fun t => t.node.id) ∧
    (s.frames = [] → s.microtasks = [] →
      (s.turns.map fun t => t.node.id) = List.range s.deferred ∧
      s.released = List.range s.deferred) := by
  have hs := reach_once h
  have hturns : s.turns.map (fun t => t.node.id) =
      (s.turns.map Turn.node).map MicrotaskNode.id := by
    rw [List.map_map]
    rfl
  have horder := hs.order
  rw [List.append_assoc, List.map_append, ← hturns] at horder
  refine ⟨⟨_, horder⟩, hs.resumed, hs.released, fun hframes hmicro => ?_⟩
  have hreleased := hs.released
  simp only [ahead, hframes, hmicro, List.append_nil, List.map_nil] at horder
  simp only [current, hframes, List.filterMap_nil, List.map_nil, List.append_nil] at hreleased
  exact ⟨horder, hreleased.trans horder⟩

/-- The first microtask defers another one; the second one is cancelled. -/
theorem process_microtasks_once_three :
    let s := [Op.defer .function, .defer (.thread 1), .cancel 1, .enter, .next false,
      .defer (.thread 2), .finish, .next true, .next true, .next true, .finish, .next true].foldl
        exec .new
    s.resumed = [0, 2] ∧ s.released = List.range 3 := by
  intro s
  have hinit : reactor.Reach (fun s op => op.careful s) State.new := .init rfl
  refine ⟨rfl, ((process_microtasks_once (hinit.run ?_)).2.2.2 rfl rfl).2⟩
  decide

/-- **A microtask that calls `task.poll`.**  Two coroutines are deferred; the first one defers a
third one and polls.  The vectors are swapped while the first one is in work: the third coroutine
is resumed before the second one, and the references of the first one are released twice. -/
theorem process_microtasks_reentered :
    ∃ s, reactor.Reach (fun _ _ => True) s ∧ s.frames = [] ∧ s.microtasks = [] ∧
      s.resumed = [0, 2, 1] ∧ s.released = [2, 0, 1, 0] := by
  have hinit : reactor.Reach (fun _ _ => True) State.new := .init rfl
  refine ⟨[Op.defer (.thread 0), .defer (.thread 1), .enter, .next true, .defer (.thread 2), .enter,
    .next true, .finish, .next true, .next false, .next true, .finish, .next true, .finish,
    .next true].foldl exec .new, hinit.run ?_, rfl, rfl, rfl, rfl⟩
  decide

end Reactor

end Jaci
