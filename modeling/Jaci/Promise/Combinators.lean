import Jaci.Promise.Await

/-!
# Promise combinators

`task.all`, `task.race` and `task.any` look at a list of promises once, when they are called.  The
promise that they return is new; nothing has the means to settle it later, while the members of the
list may still settle.

* `combinators_iff` : the lists for which these functions do what they are for;
* `combinators_pending` : a list with a pending member.
-/

namespace Jaci

namespace Promise

variable {V : Type}

/-! ### The functions -/

section Functions

variable (lua : Lua V)

/-- The first result of a promise in the table of results; nil if there is none. -/
def first_result (p : PromiseData V) : V :=
  match p.state, p.results_ref with
  | .fulfilled, some t => t.rawgeti lua 1
  | _, _ => lua.nil

/-- `settle_promise` for a new promise. -/
def settled (state : PromiseState) (nresults : ℕ) (results_ref : Option (Stored V)) :
    PromiseData V :=
  { (new_promise : PromiseData V) with
    state := state, nresults := nresults, results_ref := results_ref }

/-- The loop of `task_all`: the results, or else the reason of the first promise that is rejected.
Pending promises are skipped. -/
def task_all_loop (results : List V) : List (PromiseData V) → Except (Option (Stored V)) (List V)
  | [] => .ok results
  | p :: rest =>
    match p.state with
    | .rejected => .error p.results_ref
    | _ => task_all_loop (results ++ [first_result lua p]) rest

def task_all (ps : List (PromiseData V)) : PromiseData V :=
  if ps = [] then settled .fulfilled 0 none
  else
    match task_all_loop lua [] ps with
    | .error reason => settled .rejected 1 reason
    | .ok results => settled .fulfilled 1 (some (.table [lua.table results]))

/-- `task_race`: the first promise of the list that is settled. -/
def task_race : List (PromiseData V) → PromiseData V
  | [] => new_promise
  | p :: rest =>
    if p.state ≠ .pending then settled p.state p.nresults p.results_ref else task_race rest

def task_any (ps : List (PromiseData V)) : PromiseData V := task_race ps

end Functions

/-! ### What they are for -/

/-- A promise is settled if it is pending. -/
def settle_one (store : ℕ → PromiseData V) (e : ℕ × Settlement V) : ℕ → PromiseData V :=
  if (store e.1).state = .pending then Function.update store e.1 ((store e.1).settle e.2) else store

/-- Promises are settled one after the other. -/
def settle_later (store : ℕ → PromiseData V) (later : List (ℕ × Settlement V)) :
    ℕ → PromiseData V :=
  later.foldl settle_one store

/-- A list of results, as a promise is fulfilled with it. -/
def collected (lua : Lua V) (members : List (PromiseData V)) : Settlement V :=
  if members = [] then .fulfilled [] else .fulfilled [lua.table (members.map (first_result lua))]

/-- What `task.all` is for: all results, or a reason. -/
def IsAll (lua : Lua V) (result : PromiseData V) (members : List (PromiseData V)) : Prop :=
  (result.state = .fulfilled ↔ ∀ p ∈ members, p.state = .fulfilled) ∧
    (result.state = .fulfilled → result.SettledBy (collected lua members)) ∧
    (result.state = .rejected ↔ ∃ p ∈ members, p.state = .rejected)

/-- What `task.race` is for: the first outcome. -/
def IsRace (result : PromiseData V) (members : List (PromiseData V)) : Prop :=
  result.state ≠ .pending ↔ ∃ p ∈ members, p.state ≠ .pending

/-- What `task.any` is for: some results. -/
def IsAny (result : PromiseData V) (members : List (PromiseData V)) : Prop :=
  (result.state = .fulfilled ↔ ∃ p ∈ members, p.state = .fulfilled) ∧
    (result.state = .rejected → ∀ p ∈ members, p.state = .rejected)

/-! ### What they do -/

variable {lua : Lua V} {ps : List (PromiseData V)}

/-- Without a promise that is rejected, the results are collected. -/
theorem task_all_loop_ok (h : ∀ p ∈ ps, p.state ≠ .rejected) (results : List V) :
    task_all_loop lua results ps = .ok (results ++ ps.map (first_result lua)) := by
  induction ps generalizing results with
  | nil => simp [task_all_loop]
  | cons p rest ih =>
    have hrest : ∀ q ∈ rest, q.state ≠ .rejected := fun q hq => h q (List.mem_cons_of_mem _ hq)
    have hp := h p List.mem_cons_self
    rw [task_all_loop]
    cases hstate : p.state with
    | rejected => exact absurd hstate hp
    | fulfilled => simp [ih hrest]
    | pending => simp [ih hrest]

theorem task_all_loop_error (lua : Lua V) (h : ∃ p ∈ ps, p.state = .rejected)
    (results : List V) : ∃ reason, task_all_loop lua results ps = .error reason := by
  induction ps generalizing results with
  | nil =>
    obtain ⟨p, hp, -⟩ := h
    exact absurd hp List.not_mem_nil
  | cons p rest ih =>
    rw [task_all_loop]
    by_cases hstate : p.state = .rejected
    · exact ⟨p.results_ref, by rw [hstate]⟩
    · obtain ⟨q, hq, hrej⟩ := h
      have hrest : ∃ q ∈ rest, q.state = .rejected := by
        rcases List.mem_cons.mp hq with rfl | hq
        · exact absurd hrej hstate
        · exact ⟨q, hq, hrej⟩
      obtain ⟨reason, hreason⟩ := ih hrest (results ++ [first_result lua p])
      refine ⟨reason, ?_⟩
      cases hs : p.state with
      | rejected => exact absurd hs hstate
      | fulfilled => exact hreason
      | pending => exact hreason

/-- `task_all` with a promise that is rejected. -/
theorem task_all_rejected (h : ∃ p ∈ ps, p.state = .rejected) :
    (task_all lua ps).state = .rejected := by
  obtain ⟨reason, hreason⟩ := task_all_loop_error lua h []
  have hne : ps ≠ [] := by
    rintro rfl
    obtain ⟨p, hp, -⟩ := h
    exact absurd hp List.not_mem_nil
  rw [task_all, if_neg hne, hreason]
  rfl

theorem collected_state (lua : Lua V) (ps : List (PromiseData V)) :
    (collected lua ps).state = .fulfilled := by
  rw [collected]
  split_ifs <;> rfl

/-- `task_all` without one. -/
theorem task_all_fulfilled (lua : Lua V) (h : ∀ p ∈ ps, p.state ≠ .rejected) :
    (task_all lua ps).SettledBy (collected lua ps) := by
  rw [task_all, collected]
  split_ifs with hnil
  · exact ⟨rfl, rfl, rfl⟩
  · rw [task_all_loop_ok h]
    exact ⟨rfl, rfl, rfl⟩

theorem task_race_pending (h : ∀ p ∈ ps, p.state = .pending) :
    (task_race ps).state = .pending := by
  induction ps with
  | nil => rfl
  | cons p rest ih =>
    have hp := h p List.mem_cons_self
    rw [task_race, if_neg (not_not.mpr hp)]
    exact ih fun q hq => h q (List.mem_cons_of_mem _ hq)

/-- `task_race` follows the first promise that is settled. -/
theorem task_race_settled {store : ℕ → PromiseData V} {l r : List ℕ} {n : ℕ}
    (hl : ∀ m ∈ l, (store m).state = .pending) (hn : (store n).state ≠ .pending) :
    (task_race ((l ++ n :: r).map store)).state = (store n).state := by
  induction l with
  | nil =>
    rw [List.nil_append, List.map_cons, task_race, if_pos hn]
    rfl
  | cons m rest ih =>
    rw [List.cons_append, List.map_cons, task_race,
      if_neg (not_not.mpr (hl m List.mem_cons_self))]
    exact ih fun m' hm' => hl m' (List.mem_cons_of_mem _ hm')

/-- A list has a first settled promise, or all are pending. -/
theorem exists_first_settled (store : ℕ → PromiseData V) (ns : List ℕ) :
    (∀ n ∈ ns, (store n).state = .pending) ∨ ∃ l n r, ns = l ++ n :: r ∧
      (∀ m ∈ l, (store m).state = .pending) ∧ (store n).state ≠ .pending := by
  induction ns with
  | nil => exact .inl fun n hn => absurd hn List.not_mem_nil
  | cons n rest ih =>
    by_cases hn : (store n).state = .pending
    · rcases ih with h | ⟨l, m, r, rfl, hl, hm⟩
      · exact .inl (List.forall_mem_cons.mpr ⟨hn, h⟩)
      · exact .inr ⟨n :: l, m, r, rfl, List.forall_mem_cons.mpr ⟨hn, hl⟩, hm⟩
    · exact .inr ⟨[], n, rest, rfl, fun m hm => absurd hm List.not_mem_nil, hn⟩

/-! ### Later -/

variable {store : ℕ → PromiseData V} {n : ℕ} {ns : List ℕ}

/-- A settled promise stays as it is. -/
theorem settle_later_settled (h : (store n).state ≠ .pending) (later : List (ℕ × Settlement V)) :
    settle_later store later n = store n := by
  induction later generalizing store with
  | nil => rfl
  | cons e later ih =>
    have hstep : settle_one store e n = store n := by
      rw [settle_one]
      split_ifs with hpend
      · refine Function.update_of_ne ?_ _ _
        rintro rfl
        exact h hpend
      · rfl
    exact (ih (by rw [hstep]; exact h)).trans hstep

/-- A pending promise may be settled in any way. -/
theorem settle_later_pending (h : (store n).state = .pending) (S : Settlement V) :
    (settle_later store [(n, S)] n).state = S.state := by
  rw [settle_later, List.foldl_cons, List.foldl_nil, settle_one, if_pos h, Function.update_self]
  rfl

theorem map_settle_later (h : ∀ n ∈ ns, (store n).state ≠ .pending)
    (later : List (ℕ × Settlement V)) : ns.map (settle_later store later) = ns.map store :=
  List.map_congr_left fun n hn => settle_later_settled (h n hn) later

/-! ### Conditions -/

theorem isAll_iff (lua : Lua V) (store : ℕ → PromiseData V) (ns : List ℕ) :
    (∀ later, IsAll lua (task_all lua (ns.map store)) (ns.map (settle_later store later))) ↔
      (∃ n ∈ ns, (store n).state = .rejected) ∨ ∀ n ∈ ns, (store n).state ≠ .pending := by
  constructor
  · intro h
    by_cases hrej : ∃ n ∈ ns, (store n).state = .rejected
    · exact .inl hrej
    · -- the result is fulfilled at once, so all members are
      right
      have hok : ∀ p ∈ ns.map store, p.state ≠ .rejected := by
        rintro p hp hstate
        obtain ⟨n, hn, rfl⟩ := List.mem_map.mp hp
        exact hrej ⟨n, hn, hstate⟩
      have hstate : (task_all lua (ns.map store)).state = .fulfilled :=
        (task_all_fulfilled lua hok).1.trans (collected_state lua _)
      intro n hn
      rw [((h []).1.mp hstate) (store n) (List.mem_map.mpr ⟨n, hn, rfl⟩)]
      simp
  · intro h later
    by_cases hrej : ∃ n ∈ ns, (store n).state = .rejected
    · obtain ⟨n, hn, hstate⟩ := hrej
      have hmem : store n ∈ ns.map (settle_later store later) := by
        refine List.mem_map.mpr ⟨n, hn, settle_later_settled ?_ later⟩
        rw [hstate]
        simp
      have hres : (task_all lua (ns.map store)).state = .rejected :=
        task_all_rejected ⟨store n, List.mem_map.mpr ⟨n, hn, rfl⟩, hstate⟩
      rw [IsAll, hres]
      refine ⟨⟨fun hf => absurd hf (by simp), fun hall => ?_⟩, fun hf => absurd hf (by simp),
        ⟨fun _ => ⟨store n, hmem, hstate⟩, fun _ => rfl⟩⟩
      have := hall (store n) hmem
      rw [hstate] at this
      exact this
    · have hset : ∀ n ∈ ns, (store n).state ≠ .pending := h.resolve_left hrej
      rw [map_settle_later hset]
      have hok : ∀ p ∈ ns.map store, p.state ≠ .rejected := by
        rintro p hp hstate
        obtain ⟨n, hn, rfl⟩ := List.mem_map.mp hp
        exact hrej ⟨n, hn, hstate⟩
      have hall : ∀ p ∈ ns.map store, p.state = .fulfilled := by
        intro p hp
        have h1 := hok p hp
        obtain ⟨n, hn, rfl⟩ := List.mem_map.mp hp
        have h2 := hset n hn
        cases hstate : (store n).state with
        | fulfilled => rfl
        | rejected => exact absurd hstate h1
        | pending => exact absurd hstate h2
      have hres := task_all_fulfilled lua hok
      have hstate : (task_all lua (ns.map store)).state = .fulfilled :=
        hres.1.trans (collected_state lua _)
      refine ⟨⟨fun _ => hall, fun _ => hstate⟩, fun _ => hres, ⟨fun hr => ?_, ?_⟩⟩
      · rw [hstate] at hr
        exact absurd hr (by simp)
      · rintro ⟨p, hp, hr⟩
        exact absurd hr (hok p hp)

theorem isRace_iff (store : ℕ → PromiseData V) (ns : List ℕ) :
    (∀ later, IsRace (task_race (ns.map store)) (ns.map (settle_later store later))) ↔
      ns = [] ∨ ∃ n ∈ ns, (store n).state ≠ .pending := by
  constructor
  · intro h
    by_contra hne
    rw [not_or] at hne
    obtain ⟨hnil, hnone⟩ := hne
    have hpend : ∀ n ∈ ns, (store n).state = .pending := by
      intro n hn
      by_contra hset
      exact hnone ⟨n, hn, hset⟩
    have hres : (task_race (ns.map store)).state = .pending := by
      refine task_race_pending fun p hp => ?_
      obtain ⟨n, hn, rfl⟩ := List.mem_map.mp hp
      exact hpend n hn
    -- a member settles after the call
    obtain ⟨n, hn⟩ := List.exists_mem_of_ne_nil ns hnil
    refine (h [(n, .fulfilled [])]).mpr ⟨_, List.mem_map.mpr ⟨n, hn, rfl⟩, ?_⟩ hres
    rw [settle_later_pending (hpend n hn)]
    exact Settlement.state_ne_pending _
  · rintro (rfl | ⟨n, hn, hset⟩) later
    · simp [IsRace, task_race, new_promise]
    · have hmem : store n ∈ ns.map (settle_later store later) :=
        List.mem_map.mpr ⟨n, hn, settle_later_settled hset later⟩
      refine ⟨fun _ => ⟨store n, hmem, hset⟩, fun _ => ?_⟩
      rcases exists_first_settled store ns with hpend | ⟨l, m, r, rfl, hl, hm⟩
      · exact absurd (hpend n hn) hset
      · rw [task_race_settled hl hm]
        exact hm

theorem isAny_iff (store : ℕ → PromiseData V) (ns : List ℕ) :
    (∀ later, IsAny (task_any (ns.map store)) (ns.map (settle_later store later))) ↔
      ns = [] ∨ (∃ l n r, ns = l ++ n :: r ∧ (∀ m ∈ l, (store m).state = .pending) ∧
        (store n).state = .fulfilled) ∨ ∀ n ∈ ns, (store n).state = .rejected := by
  rcases exists_first_settled store ns with hpend | ⟨l, n, r, rfl, hl, hn⟩
  · -- nothing is settled at the call
    have hres : (task_any (ns.map store)).state = .pending := by
      refine task_race_pending fun p hp => ?_
      obtain ⟨n, hn, rfl⟩ := List.mem_map.mp hp
      exact hpend n hn
    constructor
    · intro h
      by_contra hne
      rw [not_or] at hne
      obtain ⟨n, hn⟩ := List.exists_mem_of_ne_nil ns hne.1
      have := (h [(n, .fulfilled [])]).1.mpr ⟨_, List.mem_map.mpr ⟨n, hn, rfl⟩,
        settle_later_pending (hpend n hn) _⟩
      rw [hres] at this
      exact absurd this (by simp)
    · rintro (rfl | ⟨l, n, r, rfl, -, hn⟩ | hrej) later
      · simp [IsAny, task_any, task_race, new_promise]
      · rw [hpend n (by simp)] at hn
        exact absurd hn (by simp)
      · have hnil : ns = [] := by
          refine List.eq_nil_iff_forall_not_mem.mpr fun n hn => ?_
          have := hrej n hn
          rw [hpend n hn] at this
          exact absurd this (by simp)
        simp [hnil, IsAny, task_any, task_race, new_promise]
  · have hres : (task_any ((l ++ n :: r).map store)).state = (store n).state :=
      task_race_settled hl hn
    have hmem : ∀ later, store n ∈ (l ++ n :: r).map (settle_later store later) := fun later =>
      List.mem_map.mpr ⟨n, by simp, settle_later_settled hn later⟩
    cases hstate : (store n).state with
    | pending => exact absurd hstate hn
    | fulfilled =>
      refine ⟨fun _ => .inr (.inl ⟨l, n, r, rfl, hl, hstate⟩), fun _ later => ?_⟩
      rw [IsAny, hres, hstate]
      exact ⟨⟨fun _ => ⟨store n, hmem later, hstate⟩, fun _ => rfl⟩, by simp⟩
    | rejected =>
      constructor
      · intro h
        refine .inr (.inr fun m hm => ?_)
        exact (h []).2 (hres.trans hstate) (store m) (List.mem_map.mpr ⟨m, hm, rfl⟩)
      · intro h later
        have hall : ∀ m ∈ l ++ n :: r, (store m).state = .rejected := by
          rcases h with h | ⟨l', n', r', heq, hl', hn'⟩ | h
          · exact absurd h (by simp)
          · -- the first settled member is not fulfilled
            have hres' : (task_any ((l ++ n :: r).map store)).state = (store n').state := by
              rw [heq]
              exact task_race_settled hl' (by rw [hn']; simp)
            rw [hres, hstate, hn'] at hres'
            exact absurd hres' (by simp)
          · exact h
        rw [map_settle_later fun m hm => by rw [hall m hm]; simp]
        have hmembers : ∀ p ∈ (l ++ n :: r).map store, p.state = .rejected := by
          intro p hp
          obtain ⟨m, hm, rfl⟩ := List.mem_map.mp hp
          exact hall m hm
        refine ⟨⟨fun hf => ?_, ?_⟩, fun _ => hmembers⟩
        · rw [hres, hstate] at hf
          exact absurd hf (by simp)
        · rintro ⟨p, hp, hf⟩
          rw [hmembers p hp] at hf
          exact absurd hf (by simp)

/-- **When the combinators do what they are for.**  For every order in which pending members settle
later: `task.all` if and only if a member is rejected or none is pending at the call, `task.race` if
and only if a member is settled at the call or there are no members, and `task.any` if and only if
the first settled member is fulfilled, or all members are rejected, or there are none. -/
theorem combinators_iff (lua : Lua V) (store : ℕ → PromiseData V) (ns : List ℕ) :
    ((∀ later, IsAll lua (task_all lua (ns.map store)) (ns.map (settle_later store later))) ↔
      (∃ n ∈ ns, (store n).state = .rejected) ∨ ∀ n ∈ ns, (store n).state ≠ .pending) ∧
    ((∀ later, IsRace (task_race (ns.map store)) (ns.map (settle_later store later))) ↔
      ns = [] ∨ ∃ n ∈ ns, (store n).state ≠ .pending) ∧
    ((∀ later, IsAny (task_any (ns.map store)) (ns.map (settle_later store later))) ↔
      ns = [] ∨ (∃ l n r, ns = l ++ n :: r ∧ (∀ m ∈ l, (store m).state = .pending) ∧
        (store n).state = .fulfilled) ∨ ∀ n ∈ ns, (store n).state = .rejected) :=
  ⟨isAll_iff lua store ns, isRace_iff store ns, isAny_iff store ns⟩

/-- **A pending member.**  `task.all` of a pending promise is fulfilled at once; if the promise is
fulfilled later, `task.race` and `task.any` of it stay pending. -/
theorem combinators_pending :
    let lua : Lua ℕ := ⟨0, fun _ => 1, fun _ => none, fun _ => 2⟩
    let store : ℕ → PromiseData ℕ := fun _ => new_promise
    let later := settle_later store [(0, .fulfilled [7])]
    ¬ IsAll lua (task_all lua [store 0]) [store 0] ∧
      ¬ IsRace (task_race [store 0]) [later 0] ∧ ¬ IsAny (task_any [store 0]) [later 0] := by
  intro lua store later
  have hlater : (later 0).state = .fulfilled := rfl
  refine ⟨fun h => ?_, fun h => ?_, fun h => ?_⟩
  · exact absurd (h.1.mp rfl (store 0) (List.mem_singleton_self _)) (by decide)
  · refine h.mpr ⟨later 0, List.mem_singleton_self _, ?_⟩ rfl
    rw [hlater]
    simp
  · exact absurd (h.1.mpr ⟨later 0, List.mem_singleton_self _, hlater⟩) (by decide)

end Promise

end Jaci
