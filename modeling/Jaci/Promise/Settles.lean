import Jaci.Promise.Links

/-!
# Chained promises settle

* `andThen_settles_iff` : which promises of `andThen` and `task.async` are settled;
* `andThen_handler_pending` : promises that stay pending.
-/

namespace Jaci

namespace Promise

variable {V : Type} {s : Chain V}

/-! ### Asynchronous functions -/

/-- The invariant of the functions wrapped by `task.async`. -/
structure Asyncs (s : Chain V) : Prop where
  call : ∀ (n : ℕ) x, s.asyncs[n]? = some x → x.promise < s.size ∧ s.origin x.promise = .async n
  /-- A promise stays pending if the coroutine has yielded. -/
  pending : ∀ (n : ℕ) x, s.asyncs[n]? = some x → x.finished = none ∨ x.yielded = true →
    (s.promise x.promise).state = .pending
  settled : ∀ (n : ℕ) x, s.asyncs[n]? = some x → x.yielded = false → ∀ S, x.finished = some S →
    (s.promise x.promise).SettledBy S

/-- The promises of other origin do not matter. -/
theorem Asyncs.congr (h : Asyncs s) {s' : Chain V} (hasyncs : s'.asyncs = s.asyncs)
    (hsize : s.size ≤ s'.size) (horigin : ∀ p < s.size, s'.origin p = s.origin p)
    (hpromise : ∀ p < s.size, ∀ n, s.origin p = .async n →
      SameOutcome (s'.promise p) (s.promise p)) : Asyncs s' := by
  refine ⟨?_, ?_, ?_⟩
  · intro n x hx
    rw [hasyncs] at hx
    obtain ⟨h1, h2⟩ := h.call n x hx
    exact ⟨Nat.lt_of_lt_of_le h1 hsize, (horigin _ h1).trans h2⟩
  · intro n x hx hor
    rw [hasyncs] at hx
    obtain ⟨h1, h2⟩ := h.call n x hx
    rw [(hpromise _ h1 n h2).1]
    exact h.pending n x hx hor
  · intro n x hx hy S hS
    rw [hasyncs] at hx
    obtain ⟨h1, h2⟩ := h.call n x hx
    obtain ⟨e1, e2, e3⟩ := hpromise _ h1 n h2
    rw [PromiseData.SettledBy, e1, e2, e3]
    exact h.settled n x hx hy S hS

theorem sameOutcome_update {promise : ℕ → PromiseData V} {p q : ℕ} {data : PromiseData V}
    (h : p = q → SameOutcome data (promise p)) :
    SameOutcome (Function.update promise q data p) (promise p) := by
  by_cases hp : p = q
  · subst hp
    rw [Function.update_self]
    exact h rfl
  · rw [Function.update_of_ne hp]
    exact ⟨rfl, rfl, rfl⟩

theorem Asyncs.create (h : Asyncs s) (o : Origin) : Asyncs (Promise.create s o) := by
  refine h.congr rfl (Nat.le_succ _) ?_ ?_
  · intro p hp
    exact Function.update_of_ne (Nat.ne_of_lt hp) _ _
  · intro p hp n _
    refine sameOutcome_update fun heq => ?_
    omega

theorem Asyncs.settle_promise (h : Asyncs s) {q : ℕ} (horigin : ∀ n, s.origin q ≠ .async n)
    (st : PromiseState) (k : ℕ) (r : Option (Stored V)) : Asyncs (settle_promise s q st k r) := by
  rw [Promise.settle_promise]
  split_ifs
  · exact h
  · refine h.congr rfl (Nat.le_refl _) (fun _ _ => rfl) fun p _ n hn => ?_
    refine sameOutcome_update ?_
    rintro rfl
    exact absurd hn (horigin n)

theorem Asyncs.callback (h : Asyncs s) {n : ℕ} {link : Link}
    (horigin : s.origin link.next = .chain n) : Asyncs (callback s n link) := by
  rw [Promise.callback]
  split
  · exact h.congr rfl (Nat.le_refl _) (fun _ _ => rfl) fun _ _ _ _ => ⟨rfl, rfl, rfl⟩
  · refine h.settle_promise (fun m => ?_) _ _ _
    rw [horigin]
    simp

theorem Asyncs.callbacks (h : Asyncs s) (hlinked : Linked s) : Asyncs (Promise.callbacks s) := by
  rw [Promise.callbacks]
  split
  · exact h
  · refine h.congr rfl (Nat.le_refl _) (fun _ _ => rfl) fun p _ n _ => ?_
    refine sameOutcome_update ?_
    rintro rfl
    exact ⟨rfl, rfl, rfl⟩
  · rename_i p n rest outer hframes
    have hframe : Asyncs { s with frames := ⟨p, rest⟩ :: outer } :=
      h.congr rfl (Nat.le_refl _) (fun _ _ => rfl) fun _ _ _ _ => ⟨rfl, rfl, rfl⟩
    cases hlink : s.links[n]? with
    | none =>
      simp only [hlink]
      exact hframe
    | some link =>
      simp only [hlink]
      exact hframe.callback (hlinked.link n link hlink).2.2

theorem Asyncs.andThen (h : Asyncs s) (p : ℕ) (f g : Option ℕ) :
    Asyncs (promise_and_then s p f g) := by
  have hcreate := h.create (.chain s.links.length)
  have hlinks : Asyncs { Promise.create s (.chain s.links.length) with
      links := s.links ++ [⟨p, s.size, f, g⟩] } :=
    hcreate.congr rfl (Nat.le_refl _) (fun _ _ => rfl) fun _ _ _ _ => ⟨rfl, rfl, rfl⟩
  rw [promise_and_then]
  simp only
  split_ifs
  · refine hlinks.congr rfl (Nat.le_refl _) (fun _ _ => rfl) fun q _ n _ => ?_
    refine sameOutcome_update ?_
    rintro rfl
    exact ⟨rfl, rfl, rfl⟩
  · exact hlinks.callback (by simp [Promise.create])

theorem Asyncs.invoke (h : Asyncs s) : Asyncs (async_wrapper_invoker s) := by
  have hcreate := h.create (.async s.asyncs.length)
  have hself : (Promise.create s (.async s.asyncs.length)).promise s.size = new_promise :=
    Function.update_self ..
  refine ⟨?_, ?_, ?_⟩
  · intro n x hx
    rcases getElem?_concat_eq_some hx with hx | ⟨rfl, rfl⟩
    · exact hcreate.call n x hx
    · exact ⟨Nat.lt_succ_self _, Function.update_self ..⟩
  · intro n x hx hor
    rcases getElem?_concat_eq_some hx with hx | ⟨rfl, rfl⟩
    · exact hcreate.pending n x hx hor
    · simp only [async_wrapper_invoker, hself]
      rfl
  · intro n x hx hy S hS
    rcases getElem?_concat_eq_some hx with hx | ⟨rfl, rfl⟩
    · exact hcreate.settled n x hx hy S hS
    · exact absurd hS (by simp)

theorem getElem?_set_eq_some {α : Type} {l : List α} {i j : ℕ} {a b : α}
    (h : (l.set i a)[j]? = some b) : j = i ∧ b = a ∨ j ≠ i ∧ l[j]? = some b := by
  by_cases hij : j = i
  · subst hij
    obtain ⟨hj, heq⟩ := List.getElem?_eq_some_iff.mp h
    rw [List.getElem_set_self] at heq
    exact .inl ⟨rfl, heq.symm⟩
  · rw [List.getElem?_set_ne (Ne.symm hij)] at h
    exact .inr ⟨hij, h⟩

theorem Asyncs.yield (h : Asyncs s) (n : ℕ) : Asyncs (Promise.yield s n) := by
  rw [Promise.yield]
  split
  · rename_i p y hn
    obtain ⟨h1, h2⟩ := h.call n _ hn
    have hpend : (s.promise p).state = .pending := h.pending n _ hn (.inl rfl)
    refine ⟨?_, ?_, ?_⟩
    · intro m x hx
      rcases getElem?_set_eq_some hx with ⟨rfl, rfl⟩ | ⟨-, hx⟩
      · exact ⟨h1, h2⟩
      · exact h.call m x hx
    · intro m x hx hor
      rcases getElem?_set_eq_some hx with ⟨rfl, rfl⟩ | ⟨-, hx⟩
      · exact hpend
      · exact h.pending m x hx hor
    · intro m x hx hy S hS
      rcases getElem?_set_eq_some hx with ⟨rfl, rfl⟩ | ⟨-, hx⟩
      · exact absurd hS (by simp)
      · exact h.settled m x hx hy S hS
  · exact h

theorem Asyncs.finish (h : Asyncs s) (n : ℕ) (S : Settlement V) :
    Asyncs (Promise.finish s n S) := by
  rw [Promise.finish]
  split
  · rename_i p y hn
    obtain ⟨h1, h2⟩ := h.call n _ hn
    have hpend : (s.promise p).state = .pending := h.pending n _ hn (.inl rfl)
    -- the promises of other calls are different ones
    have hne : ∀ (m : ℕ) x, m ≠ n → s.asyncs[m]? = some x → x.promise ≠ p := by
      rintro m x hmn hx rfl
      have horigin := (h.call m x hx).2
      rw [h2] at horigin
      exact hmn (Origin.async.inj horigin).symm
    have hcall : ∀ (m : ℕ) x, (s.asyncs.set n ⟨p, y, some S⟩)[m]? = some x →
        x.promise < s.size ∧ s.origin x.promise = .async m := by
      intro m x hx
      rcases getElem?_set_eq_some hx with ⟨rfl, rfl⟩ | ⟨-, hx⟩
      · exact ⟨h1, h2⟩
      · exact h.call m x hx
    cases y with
    | true =>
      refine ⟨hcall, ?_, ?_⟩
      · intro m x hx hor
        rcases getElem?_set_eq_some hx with ⟨rfl, rfl⟩ | ⟨-, hx⟩
        · exact hpend
        · exact h.pending m x hx hor
      · intro m x hx hy S' hS
        rcases getElem?_set_eq_some hx with ⟨rfl, rfl⟩ | ⟨-, hx⟩
        · exact absurd hy (by simp)
        · exact h.settled m x hx hy S' hS
    | false =>
      simp only [Bool.false_eq_true, if_false, Promise.settle_promise, hpend, ne_eq,
        not_true_eq_false]
      refine ⟨hcall, ?_, ?_⟩
      · intro m x hx hor
        rcases getElem?_set_eq_some hx with ⟨rfl, rfl⟩ | ⟨hmn, hx⟩
        · exact absurd hor (by simp)
        · simp only
          rw [Function.update_of_ne (hne m x hmn hx)]
          exact h.pending m x hx hor
      · intro m x hx hy S' hS
        rcases getElem?_set_eq_some hx with ⟨rfl, rfl⟩ | ⟨hmn, hx⟩
        · simp only
          rw [Function.update_self, ← Option.some.inj hS]
          exact ⟨rfl, rfl, rfl⟩
        · simp only
          rw [Function.update_of_ne (hne m x hmn hx)]
          exact h.settled m x hx hy S' hS
  · exact h

/-! ### Runs -/

theorem Linked.exec (h : Linked s) (ha : Asyncs s) (op : ChainOp V) (hop : op.enabled s) :
    Linked (s.exec op) := by
  cases op with
  | create => exact h.create .executor
  | settle p S =>
    refine h.settle_promise hop.1 (fun n => ?_) S
    rw [hop.2]
    simp
  | andThen p f g => exact h.andThen hop
  | callbacks => exact h.callbacks_step
  | async => exact (h.create _).aside _ _ _
  | yield n =>
    rw [Chain.exec, Promise.yield]
    split
    · exact h.aside _ _ _
    · exact h
  | finish n S =>
    rw [Chain.exec, Promise.finish]
    split
    · rename_i p y hn
      obtain ⟨h1, h2⟩ := ha.call n _ hn
      simp only
      split_ifs
      · exact h.aside _ _ _
      · have haside := h.aside (s.asyncs.set n ⟨p, y, some S⟩) s.microtasks s.handled
        refine haside.settle_promise h1 (fun m => ?_) S
        simp only
        rw [h2]
        simp
    · exact h
  | handler S =>
    rw [Chain.exec, Promise.handler]
    split
    · exact h
    · exact h.aside _ _ _

theorem Asyncs.exec (h : Asyncs s) (hlinked : Linked s) (op : ChainOp V) (hop : op.enabled s) :
    Asyncs (s.exec op) := by
  cases op with
  | create => exact h.create .executor
  | settle p S =>
    refine h.settle_promise (fun n => ?_) _ _ _
    rw [hop.2]
    simp
  | andThen p f g => exact h.andThen p f g
  | callbacks => exact h.callbacks hlinked
  | async => exact h.invoke
  | yield n => exact h.yield n
  | finish n S => exact h.finish n S
  | handler S =>
    rw [Chain.exec, Promise.handler]
    split
    · exact h
    · exact h.congr rfl (Nat.le_refl _) (fun _ _ => rfl) fun _ _ _ _ => ⟨rfl, rfl, rfl⟩

theorem reach_linked (h : (chain V).Reach (fun _ _ => True) s) : Linked s ∧ Asyncs s := by
  refine h.invariant (I := fun s => Linked s ∧ Asyncs s) ?_ ?_
  · rintro s rfl
    exact ⟨⟨by simp [Chain.new], by simp [Chain.new], by simp [Chain.new], by simp [Chain.new],
      by simp [Chain.new, new_promise], by simp [Chain.new]⟩,
      ⟨by simp [Chain.new], by simp [Chain.new], by simp [Chain.new]⟩⟩
  · rintro s op ⟨h1, h2⟩ hop -
    exact ⟨h1.exec h2 op hop, h2.exec h1 op hop⟩

/-- The promise of a link is settled as it should be: with the results or the error of the handler,
or with the outcome of the source if there is no handler for it. -/
def Chained (s : Chain V) (n : ℕ) (link : Link) : Prop :=
  match link.handler (s.promise link.source).state with
  | some _ => ∃ S, (n, S) ∈ s.handled ∧ (s.promise link.next).SettledBy S
  | none => SameOutcome (s.promise link.next) (s.promise link.source)

/-- **Which promises are settled.**  Whenever no call of `settle_promise` is in progress, with or
without pending microtasks, a promise that `andThen` has made and whose source is settled is settled
as it should be if and only if there is no handler for the outcome of the source; a promise of an
asynchronous function whose coroutine has ended is settled with its results or error if and only if
the coroutine has not yielded. -/
theorem andThen_settles_iff (h : (chain V).Reach (fun _ _ => True) s) (hframes : s.frames = []) :
    (∀ (n : ℕ) link, s.links[n]? = some link → (s.promise link.source).state ≠ .pending →
      (Chained s n link ↔ link.handler (s.promise link.source).state = none)) ∧
    ∀ (n : ℕ) x, s.asyncs[n]? = some x → ∀ S, x.finished = some S →
      ((s.promise x.promise).SettledBy S ↔ x.yielded = false) := by
  obtain ⟨hlinked, hasyncs⟩ := reach_linked h
  constructor
  · intro n link hn hsource
    rw [Chained]
    cases hhandler : link.handler (s.promise link.source).state with
    | some f =>
      simp only [reduceCtorEq, iff_false]
      rintro ⟨S, -, hS⟩
      rcases hlinked.next n link hn with hpend | ⟨hpass, -⟩
      · exact hS.ne_pending hpend
      · exact absurd (hhandler.symm.trans hpass.2) (by simp)
    | none =>
      simp only [iff_true]
      rcases hlinked.next n link hn with hpend | ⟨-, hsame⟩
      · obtain ⟨f, hf, -⟩ := hlinked.due n link hn ⟨hsource, hhandler⟩ hpend
        rw [hframes] at hf
        exact absurd hf List.not_mem_nil
      · exact hsame
  · intro n x hx S hS
    cases hy : x.yielded with
    | true =>
      simp only [Bool.true_eq_false, iff_false]
      intro hsettled
      exact hsettled.ne_pending (hasyncs.pending n x hx (.inr hy))
    | false =>
      simp only [iff_true]
      exact hasyncs.settled n x hx hy S hS

/-- A promise, one that follows it without handlers, and an asynchronous function. -/
theorem andThen_settles_iff_simple :
    let s := [ChainOp.create, .andThen 0 none none, .async, .finish 0 (.fulfilled [5]), .callbacks,
      .settle 0 (.rejected (some 7)), .callbacks, .callbacks, .callbacks].foldl Chain.exec
        (Chain.new : Chain ℕ)
    SameOutcome (s.promise 1) (s.promise 0) ∧ (s.promise 2).SettledBy (.fulfilled [5]) := by
  intro s
  have hinit : (chain ℕ).Reach (fun _ _ => True) Chain.new := .init rfl
  have hreach : (chain ℕ).Reach (fun _ _ => True) s := by
    refine hinit.run ?_
    exact ⟨trivial, trivial, Nat.zero_lt_one, trivial, trivial, trivial, trivial, trivial, trivial,
      trivial, ⟨by decide, rfl⟩, trivial, trivial, trivial, trivial, trivial, trivial, trivial,
      trivial⟩
  obtain ⟨h1, h2⟩ := andThen_settles_iff hreach rfl
  exact ⟨(h1 0 ⟨0, 1, none, none⟩ rfl (by decide)).mpr rfl,
    (h2 0 ⟨2, false, some (.fulfilled [5])⟩ rfl (.fulfilled [5]) rfl).mpr rfl⟩

/-- **A handler is enough to keep a promise pending.**  The source is fulfilled, the handler has
returned 9, nothing is left to do, and the promise that `andThen` has returned is pending.  So is
the promise of an asynchronous function that has yielded once and then returned. -/
theorem andThen_handler_pending :
    ∃ s : Chain ℕ, (chain ℕ).Reach (fun _ _ => True) s ∧ s.frames = [] ∧ s.microtasks = [] ∧
      s.links = [⟨0, 1, some 3, none⟩] ∧ (s.promise 0).SettledBy (.fulfilled [7]) ∧
      s.handled = [(0, .fulfilled [9])] ∧ (s.promise 1).state = .pending ∧
      s.asyncs = [⟨2, true, some (.fulfilled [5])⟩] ∧ (s.promise 2).state = .pending := by
  have hinit : (chain ℕ).Reach (fun _ _ => True) Chain.new := .init rfl
  refine ⟨[ChainOp.create, .andThen 0 (some 3) none, .settle 0 (.fulfilled [7]), .callbacks,
    .callbacks, .handler (.fulfilled [9]), .async, .yield 0, .finish 0 (.fulfilled [5])].foldl
      Chain.exec Chain.new, hinit.run ?_, rfl, rfl, rfl, ⟨rfl, rfl, rfl⟩, rfl, rfl, rfl, rfl⟩
  exact ⟨trivial, trivial, Nat.zero_lt_one, trivial, ⟨by decide, rfl⟩, trivial, trivial, trivial,
    trivial, trivial, trivial, trivial, trivial, trivial, trivial, trivial, trivial, trivial, trivial⟩

end Promise

end Jaci
