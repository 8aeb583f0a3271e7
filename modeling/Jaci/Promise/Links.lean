import Jaci.Promise.Chain

/-!
# Links between promises

Every promise that `andThen` has made has a link to its source.  The link waits in the callbacks of
the source, is in a frame of `settle_promise` once the source is settled, and passes the outcome on
if there is no handler for it.

* `Linked` : the invariant;
* `Linked.settle`, `Linked.callback` : a promise is settled, and its callbacks are called;
* `Linked.andThen` : a new link.
-/

namespace Jaci

namespace Promise

variable {V : Type}

/-- Two promises have the same outcome. -/
def SameOutcome (p q : PromiseData V) : Prop :=
  p.state = q.state ∧ p.nresults = q.nresults ∧ p.results_ref = q.results_ref

/-- A link that the outcome is passed on by. -/
def Passes (s : Chain V) (link : Link) : Prop :=
  (s.promise link.source).state ≠ .pending ∧
    link.handler (s.promise link.source).state = none

/-- A link is in the callbacks of a frame. -/
def Due (frames : List Frame) (p n : ℕ) : Prop := ∃ f ∈ frames, f.promise = p ∧ n ∈ f.rest

/-- The invariant of links. -/
structure Linked (s : Chain V) : Prop where
  link : ∀ (n : ℕ) link, s.links[n]? = some link →
    link.source < s.size ∧ link.next < s.size ∧ s.origin link.next = .chain n
  /-- A promise that `andThen` has made is settled through its link only. -/
  next : ∀ (n : ℕ) link, s.links[n]? = some link → (s.promise link.next).state = .pending ∨
    Passes s link ∧ SameOutcome (s.promise link.next) (s.promise link.source)
  waiting : ∀ (n : ℕ) link, s.links[n]? = some link → (s.promise link.source).state = .pending →
    n ∈ (s.promise link.source).callbacks
  due : ∀ (n : ℕ) link, s.links[n]? = some link → Passes s link →
    (s.promise link.next).state = .pending → Due s.frames link.source n
  callbacks : ∀ p, ∀ n ∈ (s.promise p).callbacks, ∃ link, s.links[n]? = some link ∧ link.source = p
  frames : ∀ f ∈ s.frames, f.promise < s.size ∧ (s.promise f.promise).state ≠ .pending ∧
    ∀ n ∈ f.rest, ∃ link, s.links[n]? = some link ∧ link.source = f.promise

variable {s : Chain V}

/-- A promise is settled; `frames` are the frames then. -/
theorem Linked.settle (h : Linked s) {q : ℕ} {data : PromiseData V} {frames : List Frame}
    (hsize : q < s.size) (hq : (s.promise q).state = .pending) (hdata : data.state ≠ .pending)
    (hcallbacks : data.callbacks = (s.promise q).callbacks)
    (hnext : ∀ (n : ℕ) link, s.links[n]? = some link → link.next = q →
      Passes s link ∧ SameOutcome data (s.promise link.source))
    (hnew : ⟨q, (s.promise q).callbacks⟩ ∈ frames)
    (hframes : ∀ f ∈ frames, f = ⟨q, (s.promise q).callbacks⟩ ∨
      ∃ f' ∈ s.frames, f'.promise = f.promise ∧ f.rest ⊆ f'.rest)
    (hdue : ∀ p n, Due s.frames p n → Due frames p n ∨
      ∀ link, s.links[n]? = some link → link.next = q) :
    Linked { s with promise := Function.update s.promise q data, frames := frames } := by
  have hself : Function.update s.promise q data q = data := Function.update_self ..
  have hne : ∀ p, p ≠ q → Function.update s.promise q data p = s.promise p :=
    fun p hp => Function.update_of_ne hp _ _
  have hsettled : ∀ p, (s.promise p).state ≠ .pending → p ≠ q := by
    rintro p hp rfl
    exact hp hq
  have hpasses : ∀ link, Passes s link →
      Passes { s with promise := Function.update s.promise q data, frames := frames } link := by
    intro link hp
    simp only [Passes] at hp ⊢
    rw [hne _ (hsettled _ hp.1)]
    exact hp
  refine ⟨h.link, ?_, ?_, ?_, ?_, ?_⟩
  · intro n link hn
    by_cases heq : link.next = q
    · obtain ⟨h1, h2⟩ := hnext n link hn heq
      refine .inr ⟨hpasses link h1, ?_⟩
      simp only
      rw [heq, hself, hne _ (hsettled _ h1.1)]
      exact h2
    · rcases h.next n link hn with hp | ⟨h1, h2⟩
      · left
        simp only
        rw [hne _ heq]
        exact hp
      · refine .inr ⟨hpasses link h1, ?_⟩
        simp only
        rw [hne _ heq, hne _ (hsettled _ h1.1)]
        exact h2
  · intro n link hn hp
    simp only at hp ⊢
    by_cases heq : link.source = q
    · rw [heq, hself] at hp
      exact absurd hp hdata
    · rw [hne _ heq] at hp ⊢
      exact h.waiting n link hn hp
  · intro n link hn hp hpend
    simp only at hpend
    by_cases heq : link.source = q
    · exact ⟨_, hnew, heq.symm, by rw [← heq] at hq ⊢; exact h.waiting n link hn hq⟩
    · have hp' : Passes s link := by
        simp only [Passes] at hp ⊢
        rw [hne _ heq] at hp
        exact hp
      have hnext_ne : link.next ≠ q := by
        intro hlink
        rw [hlink, hself] at hpend
        exact hdata hpend
      rw [hne _ hnext_ne] at hpend
      rcases hdue _ _ (h.due n link hn hp' hpend) with hd | hd
      · exact hd
      · exact absurd (hd link hn) hnext_ne
  · intro p n hn
    simp only at hn ⊢
    by_cases heq : p = q
    · rw [heq, hself, hcallbacks] at hn
      rw [heq]
      exact h.callbacks q n hn
    · rw [hne _ heq] at hn
      exact h.callbacks p n hn
  · intro f hf
    simp only
    rcases hframes f hf with rfl | ⟨f', hf', hp, hsub⟩
    · exact ⟨hsize, by rw [hself]; exact hdata, fun n hn => h.callbacks q n hn⟩
    · obtain ⟨h1, h2, h3⟩ := h.frames f' hf'
      rw [hp] at h1 h2 h3
      exact ⟨h1, by rw [hne _ (hsettled _ h2)]; exact h2, fun n hn => h3 n (hsub hn)⟩

/-- Only the frames change. -/
theorem Linked.reframe (h : Linked s) {frames : List Frame}
    (hframes : ∀ f ∈ frames, ∃ f' ∈ s.frames, f'.promise = f.promise ∧ f.rest ⊆ f'.rest)
    (hdue : ∀ p n, Due s.frames p n → Due frames p n ∨
      ∀ link, s.links[n]? = some link → ¬ Passes s link ∨ (s.promise link.next).state ≠ .pending) :
    Linked { s with frames := frames } := by
  refine ⟨h.link, h.next, h.waiting, ?_, h.callbacks, ?_⟩
  · intro n link hn hp hpend
    rcases hdue _ _ (h.due n link hn hp hpend) with hd | hd
    · exact hd
    · rcases hd link hn with hd | hd
      · exact absurd hp hd
      · exact absurd hpend hd
  · intro f hf
    obtain ⟨f', hf', hp, hsub⟩ := hframes f hf
    obtain ⟨h1, h2, h3⟩ := h.frames f' hf'
    rw [hp] at h1 h2 h3
    exact ⟨h1, h2, fun n hn => h3 n (hsub hn)⟩

/-- What else there is does not concern links. -/
theorem Linked.aside (h : Linked s) (asyncs : List (AsyncCall V)) (microtasks : List ℕ)
    (handled : List (ℕ × Settlement V)) :
    Linked { s with asyncs := asyncs, microtasks := microtasks, handled := handled } :=
  ⟨h.link, h.next, h.waiting, h.due, h.callbacks, h.frames⟩

/-- A promise is settled that no link leads to. -/
theorem Linked.settle_promise (h : Linked s) {q : ℕ} (hq : q < s.size)
    (horigin : ∀ n, s.origin q ≠ .chain n) (S : Settlement V) :
    Linked (settle_promise s q S.state S.nresults S.results_ref) := by
  rw [Promise.settle_promise]
  split_ifs with hpend
  · exact h
  · refine h.settle hq (not_not.mp hpend) S.state_ne_pending rfl ?_ List.mem_cons_self ?_ ?_
    · intro n link hn heq
      exact absurd (heq ▸ (h.link n link hn).2.2) (horigin n)
    · intro f hf
      rcases List.mem_cons.mp hf with rfl | hf
      · exact .inl rfl
      · exact .inr ⟨f, hf, rfl, List.Subset.refl _⟩
    · rintro p n ⟨f, hf, hdue⟩
      exact .inl ⟨f, List.mem_cons_of_mem _ hf, hdue⟩

/-- A link is called back and leaves the frames. -/
theorem Linked.callback (h : Linked s) {n : ℕ} {link : Link} (hn : s.links[n]? = some link)
    (hsource : (s.promise link.source).state ≠ .pending) {frames : List Frame}
    (hframes : ∀ f ∈ frames, ∃ f' ∈ s.frames, f'.promise = f.promise ∧ f.rest ⊆ f'.rest)
    (hdue : ∀ p m, Due s.frames p m → Due frames p m ∨ m = n) :
    Linked (callback { s with frames := frames } n link) := by
  rw [Promise.callback]
  cases hhandler : link.handler (s.promise link.source).state with
  | some f =>
    have hre : Linked { s with frames := frames } := by
      refine h.reframe hframes fun p m hm => (hdue p m hm).imp_right ?_
      rintro rfl link' hlink'
      obtain rfl := Option.some.inj (hn.symm.trans hlink')
      left
      intro hp
      rw [Passes, hhandler] at hp
      exact absurd hp.2 (by simp)
    exact hre.aside _ _ _
  | none =>
    simp only [propagate, Promise.settle_promise]
    split_ifs with hnext
    · -- the next promise was settled before
      refine h.reframe hframes fun p m hm => (hdue p m hm).imp_right ?_
      rintro rfl link' hlink'
      obtain rfl := Option.some.inj (hn.symm.trans hlink')
      exact .inr hnext
    · have hpend : (s.promise link.next).state = .pending := not_not.mp hnext
      obtain ⟨-, hsize, horigin⟩ := h.link n link hn
      have huniq : ∀ (m : ℕ) link', s.links[m]? = some link' → link'.next = link.next →
          link' = link := by
        intro m link' hm heq
        have horigin' := (h.link m link' hm).2.2
        rw [heq, horigin] at horigin'
        obtain rfl := Origin.chain.inj horigin'
        exact Option.some.inj (hm.symm.trans hn)
      refine h.settle hsize hpend hsource rfl ?_ List.mem_cons_self ?_ ?_
      · intro m link' hm heq
        rw [huniq m link' hm heq]
        exact ⟨⟨hsource, hhandler⟩, rfl, rfl, rfl⟩
      · intro f hf
        rcases List.mem_cons.mp hf with rfl | hf
        · exact .inl rfl
        · exact .inr (hframes f hf)
      · intro p m hm
        rcases hdue p m hm with ⟨f, hf, hfp⟩ | rfl
        · exact .inl ⟨f, List.mem_cons_of_mem _ hf, hfp⟩
        · right
          intro link' hlink'
          rw [Option.some.inj (hlink'.symm.trans hn)]

/-- The callbacks of a settled promise are dropped. -/
theorem Linked.clear (h : Linked s) {p : ℕ} (hp : (s.promise p).state ≠ .pending) :
    Linked { s with
      promise := Function.update s.promise p { s.promise p with callbacks := [] } } := by
  have hne : ∀ q, q ≠ p → Function.update s.promise p { s.promise p with callbacks := [] } q =
      s.promise q := fun q hq => Function.update_of_ne hq _ _
  have hsame : ∀ q, SameOutcome
      (Function.update s.promise p { s.promise p with callbacks := [] } q) (s.promise q) := by
    intro q
    by_cases hq : q = p
    · rw [hq, Function.update_self]
      exact ⟨rfl, rfl, rfl⟩
    · rw [hne q hq]
      exact ⟨rfl, rfl, rfl⟩
  have hstate := fun q => (hsame q).1
  refine ⟨h.link, ?_, ?_, ?_, ?_, ?_⟩
  · intro n link hn
    simp only [Passes, SameOutcome, hstate, (hsame _).2.1, (hsame _).2.2]
    exact h.next n link hn
  · intro n link hn hpend
    simp only [hstate] at hpend
    simp only
    rw [hne]
    · exact h.waiting n link hn hpend
    · rintro rfl
      exact hp hpend
  · intro n link hn hpass hpend
    simp only [Passes, hstate] at hpass hpend
    exact h.due n link hn hpass hpend
  · intro q n hn
    simp only at hn
    by_cases hq : q = p
    · rw [hq, Function.update_self] at hn
      exact absurd hn List.not_mem_nil
    · rw [hne q hq] at hn
      exact h.callbacks q n hn
  · intro f hf
    simp only [hstate]
    exact h.frames f hf

theorem Linked.callbacks_step (h : Linked s) : Linked (Promise.callbacks s) := by
  rw [Promise.callbacks]
  split
  · exact h
  · rename_i p outer hframes
    have hp := (h.frames ⟨p, []⟩ (by rw [hframes]; exact List.mem_cons_self)).2.1
    refine (h.clear hp).reframe ?_ ?_
    · intro f hf
      exact ⟨f, by rw [hframes]; exact List.mem_cons_of_mem _ hf, rfl, List.Subset.refl _⟩
    · rintro q n ⟨f, hf, hfq, hn⟩
      left
      simp only [hframes] at hf
      rcases List.mem_cons.mp hf with rfl | hf
      · exact absurd hn List.not_mem_nil
      · exact ⟨f, hf, hfq, hn⟩
  · rename_i p n rest outer hframes
    obtain ⟨-, hp, hlinks⟩ := h.frames ⟨p, n :: rest⟩ (by rw [hframes]; exact List.mem_cons_self)
    obtain ⟨link, hlink, rfl⟩ := hlinks n List.mem_cons_self
    simp only [hlink]
    refine h.callback hlink hp ?_ ?_
    · intro f hf
      rw [hframes]
      rcases List.mem_cons.mp hf with rfl | hf
      · exact ⟨_, List.mem_cons_self, rfl, List.subset_cons_self _ _⟩
      · exact ⟨f, List.mem_cons_of_mem _ hf, rfl, List.Subset.refl _⟩
    · rintro q m ⟨f, hf, hfq, hm⟩
      rw [hframes] at hf
      rcases List.mem_cons.mp hf with rfl | hf
      · rcases List.mem_cons.mp hm with rfl | hm
        · exact .inr rfl
        · exact .inl ⟨_, List.mem_cons_self, hfq, hm⟩
      · exact .inl ⟨f, List.mem_cons_of_mem _ hf, hfq, hm⟩

theorem Linked.create (h : Linked s) (o : Origin) : Linked (Promise.create s o) := by
  have hne : ∀ q, q < s.size → Function.update s.promise s.size new_promise q = s.promise q :=
    fun q hq => Function.update_of_ne (Nat.ne_of_lt hq) _ _
  have hlink : ∀ (n : ℕ) link, s.links[n]? = some link →
      (Promise.create s o).promise link.source = s.promise link.source ∧
        (Promise.create s o).promise link.next = s.promise link.next := by
    intro n link hn
    obtain ⟨h1, h2, -⟩ := h.link n link hn
    exact ⟨hne _ h1, hne _ h2⟩
  refine ⟨?_, ?_, ?_, ?_, ?_, ?_⟩
  · intro n link hn
    obtain ⟨h1, h2, h3⟩ := h.link n link hn
    refine ⟨Nat.lt_succ_of_lt h1, Nat.lt_succ_of_lt h2, ?_⟩
    exact (Function.update_of_ne (Nat.ne_of_lt h2) _ _).trans h3
  · intro n link hn
    obtain ⟨h1, h2⟩ := hlink n link hn
    rw [Passes, h1, h2]
    exact h.next n link hn
  · intro n link hn
    rw [(hlink n link hn).1]
    exact h.waiting n link hn
  · intro n link hn
    obtain ⟨h1, h2⟩ := hlink n link hn
    rw [Passes, h1, h2]
    exact h.due n link hn
  · intro p n hn
    by_cases hp : p = s.size
    · have heq : (Promise.create s o).promise s.size = new_promise := Function.update_self ..
      rw [hp, heq] at hn
      exact absurd hn List.not_mem_nil
    · have heq : (Promise.create s o).promise p = s.promise p := Function.update_of_ne hp _ _
      rw [heq] at hn
      exact h.callbacks p n hn
  · intro f hf
    obtain ⟨h1, h2, h3⟩ := h.frames f hf
    refine ⟨Nat.lt_succ_of_lt h1, ?_, h3⟩
    have heq : (Promise.create s o).promise f.promise = s.promise f.promise := hne _ h1
    rw [heq]
    exact h2

theorem getElem?_concat_eq_some {α : Type} {l : List α} {a b : α} {i : ℕ}
    (h : (l ++ [a])[i]? = some b) : l[i]? = some b ∨ i = l.length ∧ b = a := by
  rcases Nat.lt_or_ge i l.length with hi | hi
  · rw [List.getElem?_append_left hi] at h
    exact .inl h
  · rw [List.getElem?_append_right hi] at h
    obtain ⟨hlt, heq⟩ := List.getElem?_eq_some_iff.mp h
    simp only [List.length_singleton] at hlt
    refine .inr ⟨by omega, ?_⟩
    rw [← heq]
    simp

theorem getElem?_concat_of_some {α : Type} {l : List α} {b : α} {i : ℕ} (a : α)
    (h : l[i]? = some b) : (l ++ [a])[i]? = some b := by
  rw [List.getElem?_append_left (List.getElem?_eq_some_iff.mp h).1, h]

theorem exists_link_concat {links : List Link} {n r : ℕ} (new : Link)
    (h : ∃ link, links[n]? = some link ∧ link.source = r) :
    ∃ link, (links ++ [new])[n]? = some link ∧ link.source = r := by
  obtain ⟨link, hlink, rfl⟩ := h
  exact ⟨link, getElem?_concat_of_some _ hlink, rfl⟩

section Attach

variable {p q : ℕ} {f g : Option ℕ}

/-- A link to a pending promise waits for it. -/
theorem Linked.attach (h : Linked s) (hp : p < s.size) (hq : q < s.size)
    (horigin : s.origin q = .chain s.links.length) (hpend : (s.promise q).state = .pending)
    (hsource : (s.promise p).state = .pending) :
    Linked { s with
      links := s.links ++ [⟨p, q, f, g⟩]
      promise := Function.update s.promise p { s.promise p with
        callbacks := (s.promise p).callbacks ++ [s.links.length] } } := by
  have hsame : ∀ r, SameOutcome (Function.update s.promise p { s.promise p with
      callbacks := (s.promise p).callbacks ++ [s.links.length] } r) (s.promise r) := by
    intro r
    by_cases hr : r = p
    · rw [hr, Function.update_self]
      exact ⟨rfl, rfl, rfl⟩
    · rw [Function.update_of_ne hr]
      exact ⟨rfl, rfl, rfl⟩
  have hstate := fun r => (hsame r).1
  have hsub : ∀ r, (s.promise r).callbacks ⊆ (Function.update s.promise p { s.promise p with
      callbacks := (s.promise p).callbacks ++ [s.links.length] } r).callbacks := by
    intro r
    by_cases hr : r = p
    · rw [hr, Function.update_self]
      exact List.subset_append_left _ _
    · rw [Function.update_of_ne hr]
      exact List.Subset.refl _
  refine ⟨?_, ?_, ?_, ?_, ?_, ?_⟩
  · intro n link hn
    rcases getElem?_concat_eq_some hn with hn | ⟨rfl, rfl⟩
    · exact h.link n link hn
    · exact ⟨hp, hq, horigin⟩
  · intro n link hn
    simp only [Passes, SameOutcome, hstate, (hsame _).2.1, (hsame _).2.2]
    rcases getElem?_concat_eq_some hn with hn | ⟨rfl, rfl⟩
    · exact h.next n link hn
    · exact .inl hpend
  · intro n link hn hsrc
    simp only [hstate] at hsrc
    rcases getElem?_concat_eq_some hn with hn | ⟨rfl, rfl⟩
    · exact hsub _ (h.waiting n link hn hsrc)
    · simp
  · intro n link hn hpass hnext
    simp only [Passes, hstate] at hpass hnext
    rcases getElem?_concat_eq_some hn with hn | ⟨rfl, rfl⟩
    · exact h.due n link hn hpass hnext
    · exact absurd hsource hpass.1
  · intro r n hn
    by_cases hr : r = p
    · simp only [hr, Function.update_self] at hn
      rcases List.mem_append.mp hn with hn | hn
      · exact exists_link_concat _ (hr ▸ h.callbacks p n hn)
      · rw [List.mem_singleton.mp hn]
        exact ⟨⟨p, q, f, g⟩, by simp, hr.symm⟩
    · simp only [Function.update_of_ne hr] at hn
      exact exists_link_concat _ (h.callbacks r n hn)
  · intro fr hfr
    obtain ⟨h1, h2, h3⟩ := h.frames fr hfr
    simp only [hstate]
    exact ⟨h1, h2, fun n hn => exists_link_concat _ (h3 n hn)⟩

/-- A link to a settled promise is called back. -/
theorem Linked.attach_settled (h : Linked s) (hp : p < s.size) (hq : q < s.size)
    (horigin : s.origin q = .chain s.links.length) (hpend : (s.promise q).state = .pending)
    (hsource : (s.promise p).state ≠ .pending) :
    Linked { s with
      links := s.links ++ [⟨p, q, f, g⟩]
      frames := ⟨p, [s.links.length]⟩ :: s.frames } := by
  refine ⟨?_, ?_, ?_, ?_, fun r n hn => exists_link_concat _ (h.callbacks r n hn), ?_⟩
  · intro n link hn
    rcases getElem?_concat_eq_some hn with hn | ⟨rfl, rfl⟩
    · exact h.link n link hn
    · exact ⟨hp, hq, horigin⟩
  · intro n link hn
    rcases getElem?_concat_eq_some hn with hn | ⟨rfl, rfl⟩
    · exact h.next n link hn
    · exact .inl hpend
  · intro n link hn hsrc
    rcases getElem?_concat_eq_some hn with hn | ⟨rfl, rfl⟩
    · exact h.waiting n link hn hsrc
    · exact absurd hsrc hsource
  · intro n link hn hpass hnext
    rcases getElem?_concat_eq_some hn with hn | ⟨rfl, rfl⟩
    · obtain ⟨fr, hfr, hdue⟩ := h.due n link hn hpass hnext
      exact ⟨fr, List.mem_cons_of_mem _ hfr, hdue⟩
    · exact ⟨_, List.mem_cons_self, rfl, List.mem_singleton_self _⟩
  · intro fr hfr
    rcases List.mem_cons.mp hfr with rfl | hfr
    · refine ⟨hp, hsource, fun n hn => ?_⟩
      rw [List.mem_singleton.mp hn]
      exact ⟨⟨p, q, f, g⟩, by simp, rfl⟩
    · obtain ⟨h1, h2, h3⟩ := h.frames fr hfr
      exact ⟨h1, h2, fun n hn => exists_link_concat _ (h3 n hn)⟩

theorem Linked.andThen (h : Linked s) (hp : p < s.size) : Linked (promise_and_then s p f g) := by
  have hcreate := h.create (.chain s.links.length)
  have hpend : ((Promise.create s (.chain s.links.length)).promise s.size).state = .pending := by
    simp [Promise.create, new_promise]
  have horigin : (Promise.create s (.chain s.links.length)).origin s.size =
      .chain s.links.length := by simp [Promise.create]
  have hp' : p < (Promise.create s (.chain s.links.length)).size := Nat.lt_succ_of_lt hp
  have hq' : s.size < (Promise.create s (.chain s.links.length)).size := Nat.lt_succ_self _
  rw [promise_and_then]
  simp only
  split_ifs with hsource
  · exact hcreate.attach hp' hq' horigin hpend hsource
  · have hatt : Linked _ := hcreate.attach_settled (f := f) (g := g) hp' hq' horigin hpend hsource
    have hlink : ((Promise.create s (.chain s.links.length)).links ++
        [(⟨p, s.size, f, g⟩ : Link)])[s.links.length]? = some ⟨p, s.size, f, g⟩ := by
      simp [Promise.create]
    refine hatt.callback hlink hsource ?_ ?_
    · intro fr hfr
      exact ⟨fr, List.mem_cons_of_mem _ hfr, rfl, List.Subset.refl _⟩
    · rintro r m ⟨fr, hfr, hr, hm⟩
      rcases List.mem_cons.mp hfr with rfl | hfr
      · exact .inr (List.mem_singleton.mp hm)
      · exact .inl ⟨fr, hfr, hr, hm⟩

end Attach

end Promise

end Jaci
