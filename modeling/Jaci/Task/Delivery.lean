import Jaci.Task.Channel
import Mathlib.Data.List.Perm.Basic

/-!
# Delivery of channel values

A sender that is told that its value was sent relies on the channel to keep the value or to pass it
to a coroutine.  The channel drops it where the first waiting receiver is no longer suspended.

* `channel_keeps_acknowledged` : the runs in which no value is lost;
* `channel_loses_acknowledged` : a receiver that is cancelled.
-/

namespace Jaci

namespace Task

variable {V : Type} {s s' : State V} {x : Offer V} {t : ℕ}

/-- A value is in the buffer, was received, or its receiver will be resumed with it. -/
def Safe (s : State V) (x : Offer V) : Prop :=
  x ∈ s.chan.buffer_refs ∨ x ∈ s.received ∨
    ∃ m ∈ s.microtasks, m.wake = .value x ∧ m.cancelled = false ∧ s.status m.thread = .suspended

/-- The coroutines that wait in the channel or for a microtask. -/
def busy (s : State V) : List ℕ :=
  s.chan.recv_waiters ++ s.chan.send_waiters.map Sender.thread ++ s.microtasks.map Microtask.thread

/-- The channel stays open, a call that has to wait can yield, no coroutine is cancelled while it
waits to receive or has a value to be resumed with, and coroutines that wait are left alone by
others. -/
def Op.careful (s : State V) : Op V → Prop
  | .send _ _ yieldable => yieldable = true ∨ s.chan.recv_waiters ≠ [] ∨
      s.chan.buffer_refs.length < s.chan.capacity
  | .recv _ yieldable => yieldable = true ∨ s.chan.buffer_refs ≠ [] ∨ s.chan.send_waiters ≠ []
  | .try_send _ _ => True
  | .try_recv _ => True
  | .close => False
  | .cancel thread => thread ∉ s.chan.recv_waiters ∧
      ∀ m ∈ s.microtasks, m.thread = thread → ∀ x, m.wake ≠ .value x
  | .microtask _ => True
  | .other thread _ => thread ∉ busy s

/-- The invariant of careful runs. -/
structure Kept (s : State V) : Prop where
  nodup : (busy s).Nodup
  idle : ∀ c ∈ busy s, s.status c ≠ .active
  recv : ∀ c ∈ s.chan.recv_waiters, s.status c = .suspended
  value : ∀ m ∈ s.microtasks, ∀ x, m.wake = .value x →
    m.cancelled = false ∧ s.status m.thread = .suspended
  sent : ∀ m ∈ s.microtasks, ∀ x, m.wake = .sent x → Safe s x
  acked : ∀ x ∈ s.acked, Safe s x

theorem Kept.active_notMem (h : Kept s) (ht : s.status t = .active) : t ∉ busy s :=
  fun hmem => h.idle t hmem ht

/-! ### Steps of the queues -/

/-- Coroutines leave the queues. -/
theorem Kept.leave (h : Kept s) (hbusy : (busy s').Sublist (busy s))
    (hrecv : s'.chan.recv_waiters ⊆ s.chan.recv_waiters) (hstatus : s'.status = s.status)
    (hmicro : s'.microtasks = s.microtasks) (hsafe : ∀ x, Safe s x → Safe s' x)
    (hacked : ∀ x ∈ s'.acked, x ∈ s.acked ∨ Safe s' x) : Kept s' where
  nodup := h.nodup.sublist hbusy
  idle c hc := by
    rw [hstatus]
    exact h.idle c (hbusy.subset hc)
  recv c hc := by
    rw [hstatus]
    exact h.recv c (hrecv hc)
  value := by
    rw [hmicro, hstatus]
    exact h.value
  sent m hm x hx := by
    rw [hmicro] at hm
    exact hsafe x (h.sent m hm x hx)
  acked x hx := (hacked x hx).elim (fun hx => hsafe x (h.acked x hx)) id

/-- A coroutine that is not busy waits from now on. -/
theorem Kept.enter (h : Kept s) (ht : t ∉ busy s) (hbusy : (busy s').Perm (t :: busy s))
    (hrecv : ∀ c ∈ s'.chan.recv_waiters, c = t ∨ c ∈ s.chan.recv_waiters)
    (hstatus : s'.status = Function.update s.status t .suspended)
    (hmicro : s'.microtasks = s.microtasks) (hbuf : s'.chan.buffer_refs = s.chan.buffer_refs)
    (hreceived : s'.received = s.received) (hacked : s'.acked = s.acked) : Kept s' := by
  have hne : ∀ c ∈ busy s, s'.status c = s.status c := by
    intro c hc
    rw [hstatus, Function.update_of_ne]
    rintro rfl
    exact ht hc
  have hmicro_ne : ∀ m ∈ s.microtasks, s'.status m.thread = s.status m.thread := by
    intro m hm
    exact hne _ (List.mem_append_right _ (List.mem_map_of_mem hm))
  have hself : s'.status t = .suspended := by rw [hstatus, Function.update_self]
  have hsafe : ∀ x, Safe s x → Safe s' x := by
    rintro x (hx | hx | ⟨m, hm, hw, hc, hs⟩)
    · exact .inl (by rw [hbuf]; exact hx)
    · exact .inr (.inl (by rw [hreceived]; exact hx))
    · exact .inr (.inr ⟨m, by rw [hmicro]; exact hm, hw, hc, by rw [hmicro_ne m hm]; exact hs⟩)
  refine ⟨hbusy.nodup_iff.mpr (List.nodup_cons.mpr ⟨ht, h.nodup⟩), ?_, ?_, ?_, ?_, ?_⟩
  · intro c hc
    rcases List.mem_cons.mp (hbusy.subset hc) with rfl | hc
    · rw [hself]
      simp
    · rw [hne c hc]
      exact h.idle c hc
  · intro c hc
    rcases hrecv c hc with rfl | hc
    · exact hself
    · rw [hne c (List.mem_append_left _ (List.mem_append_left _ hc))]
      exact h.recv c hc
  · intro m hm x hx
    rw [hmicro] at hm
    rw [hmicro_ne m hm]
    exact h.value m hm x hx
  · intro m hm x hx
    rw [hmicro] at hm
    exact hsafe x (h.sent m hm x hx)
  · intro x hx
    rw [hacked] at hx
    exact hsafe x (h.acked x hx)

theorem Safe.wake (h : Safe s x) (t : ℕ) (w : Wake V) : Safe (wake s t w) x := by
  rw [Task.wake]
  split_ifs
  · rcases h with hx | hx | ⟨m, hm, hw⟩
    · exact .inl hx
    · exact .inr (.inl hx)
    · exact .inr (.inr ⟨m, List.mem_append_left _ hm, hw⟩)
  · exact h

/-- A coroutine that has left the queues is woken up. -/
theorem Kept.wake (h : Kept s) (t : ℕ) (w : Wake V) (ht : t ∉ busy s)
    (hsent : ∀ x, w = .sent x → Safe s x) : Kept (wake s t w) := by
  have hsafe : ∀ x, Safe s x → Safe (Task.wake s t w) x := fun x hx => hx.wake t w
  by_cases hsus : s.status t = .suspended
  · have hbusy : busy (Task.wake s t w) = busy s ++ [t] := by simp [Task.wake, hsus, busy]
    have hmicro : (Task.wake s t w).microtasks = s.microtasks ++ [⟨t, w, false⟩] := by
      simp [Task.wake, hsus]
    refine ⟨?_, ?_, ?_, ?_, ?_, ?_⟩
    · rw [hbusy]
      exact (List.perm_append_singleton t (busy s)).nodup_iff.mpr
        (List.nodup_cons.mpr ⟨ht, h.nodup⟩)
    · intro c hc
      rw [wake_status]
      rcases List.mem_append.mp (hbusy ▸ hc) with hc | hc
      · exact h.idle c hc
      · rw [List.mem_singleton.mp hc, hsus]
        simp
    · rw [wake_chan, wake_status]
      exact h.recv
    · intro m hm x hx
      rw [wake_status]
      rcases List.mem_append.mp (hmicro ▸ hm) with hm | hm
      · exact h.value m hm x hx
      · rw [List.mem_singleton.mp hm]
        exact ⟨rfl, hsus⟩
    · intro m hm x hx
      rcases List.mem_append.mp (hmicro ▸ hm) with hm | hm
      · exact hsafe x (h.sent m hm x hx)
      · rw [List.mem_singleton.mp hm] at hx
        exact hsafe x (hsent x hx)
    · intro x hx
      rw [wake_acked] at hx
      exact hsafe x (h.acked x hx)
  · rw [Task.wake, if_neg hsus]
    exact h

/-! ### Operations -/

theorem Kept.offer (h : Kept s) (v : V) : Kept (Task.offer s v).2 :=
  h.leave (List.Sublist.refl _) (List.Subset.refl _) rfl rfl (fun _ hx => hx) fun _ hx => .inl hx

/-- A value that is acknowledged at once is safe. -/
theorem Kept.putValue (h : Kept s) (hput : Task.putValue s x = some s') : Kept s' := by
  rw [Task.putValue] at hput
  cases hrecv : s.chan.recv_waiters with
  | cons receiver rest =>
    have hsus : s.status receiver = .suspended := h.recv receiver (by rw [hrecv]; simp)
    simp only [hrecv, hsus, if_true] at hput
    obtain rfl := Option.some.inj hput
    have hbusy : busy s = receiver :: (rest ++ s.chan.send_waiters.map Sender.thread ++
        s.microtasks.map Microtask.thread) := by
      rw [busy, hrecv]
      rfl
    have hnodup := h.nodup
    rw [hbusy, List.nodup_cons] at hnodup
    have hleft : Kept { s with chan := { s.chan with recv_waiters := rest } } := by
      refine h.leave ?_ ?_ rfl rfl (fun _ hx => hx) fun _ hx => .inl hx
      · rw [hbusy]
        exact List.sublist_cons_self _ _
      · rw [hrecv]
        exact List.subset_cons_self _ _
    have hwoken := hleft.wake receiver (.value x) hnodup.1 (by simp)
    refine hwoken.leave (List.Sublist.refl _) (List.Subset.refl _) rfl rfl (fun _ hx => hx) ?_
    intro y hy
    rcases List.mem_append.mp hy with hy | hy
    · exact .inl hy
    · right
      rw [List.mem_singleton.mp hy]
      refine .inr (.inr ⟨⟨receiver, .value x, false⟩, ?_, rfl, rfl, ?_⟩)
      · simp [Task.wake, hsus]
      · simpa using hsus
  | nil =>
    simp only [hrecv, Option.ite_none_right_eq_some] at hput
    obtain ⟨hroom, hput⟩ := hput
    obtain rfl := Option.some.inj hput
    refine h.leave ?_ (by simp) rfl rfl ?_ ?_
    · simp [busy, hrecv]
    · rintro y (hy | hy)
      · exact .inl (List.mem_append_left _ hy)
      · exact .inr hy
    · intro y hy
      rcases List.mem_append.mp hy with hy | hy
      · exact .inl hy
      · exact .inr (.inl (List.mem_append_right _ hy))

theorem Kept.send (h : Kept s) (v : V) (y : Bool) (ht : s.status t = .active)
    (hy : y = true ∨ s.chan.recv_waiters ≠ [] ∨ s.chan.buffer_refs.length < s.chan.capacity) :
    Kept (channel_send s t v y) := by
  rw [channel_send]
  split_ifs with hclosed
  · exact h
  · cases hput : Task.putValue (Task.offer s v).2 (Task.offer s v).1 with
    | some s' =>
      simp only [hput]
      exact (h.offer v).putValue hput
    | none =>
      simp only [hput]
      obtain ⟨hrecv, hcap⟩ := putValue_eq_none hput
      have hyield : y = true := by
        rcases hy with hy | hy | hy
        · exact hy
        · exact absurd hrecv hy
        · exact absurd hy (Nat.not_lt.mpr hcap)
      rw [suspend, if_pos hyield]
      refine h.enter (h.active_notMem ht) ?_ (fun c hc => .inr hc) rfl rfl rfl rfl rfl
      simp only [busy, Task.offer, List.map_append, List.map_cons, List.map_nil]
      rw [← List.append_assoc, List.append_assoc _ [t]]
      exact List.perm_middle

theorem Kept.try_send (h : Kept s) (v : V) : Kept (channel_try_send s v) := by
  rw [channel_try_send]
  split_ifs with hclosed
  · exact h
  · cases hput : Task.putValue (Task.offer s v).2 (Task.offer s v).1 with
    | some s' =>
      simp only [hput, Option.getD_some]
      exact (h.offer v).putValue hput
    | none =>
      simp only [hput, Option.getD_none]
      exact h.offer v

/-- The first sender leaves its queue and is told that its value was sent. -/
theorem Kept.sender (h : Kept s) {sender : Sender V} {senders : List (Sender V)}
    (hsend : s.chan.send_waiters = sender :: senders)
    (hchan : s'.chan.send_waiters = senders) (hrecv : s'.chan.recv_waiters = s.chan.recv_waiters)
    (hstatus : s'.status = s.status) (hmicro : s'.microtasks = s.microtasks)
    (hacked : s'.acked = s.acked) (hsafe : ∀ x, Safe s x → Safe s' x)
    (hoffer : Safe s' sender.offer) :
    Kept (Task.wake s' sender.thread (.sent sender.offer)) := by
  have hperm : (busy s).Perm (sender.thread :: busy s') := by
    rw [busy, busy, hsend, hchan, hrecv, hmicro, List.map_cons, List.append_assoc,
      List.append_assoc]
    exact List.perm_middle
  have hsub : (busy s').Sublist (busy s) := by
    rw [busy, busy, hsend, hchan, hrecv, hmicro, List.map_cons]
    exact List.Sublist.append_right (List.Sublist.append_left (List.sublist_cons_self _ _) _) _
  have hleft : Kept s' := h.leave hsub (by rw [hrecv]; exact List.Subset.refl _) hstatus hmicro
    hsafe (by rw [hacked]; exact fun _ hx => .inl hx)
  have hnot : sender.thread ∉ busy s' := (List.nodup_cons.mp (hperm.nodup_iff.mp h.nodup)).1
  refine hleft.wake _ _ hnot ?_
  rintro x ⟨⟩
  exact hoffer

theorem Kept.takeValue (h : Kept s) (htake : Task.takeValue s = some s') : Kept s' := by
  rw [Task.takeValue] at htake
  cases hbuf : s.chan.buffer_refs with
  | cons x rest =>
    -- the first value moves from the buffer to the values that were received
    have hmoved : ∀ (c : ChannelData V), rest ⊆ c.buffer_refs →
        ∀ y, Safe s y → Safe { s with
          chan := c, handed := s.handed ++ [x], received := s.received ++ [x] } y := by
      rintro c hc y (hy | hy | hy)
      · rw [hbuf] at hy
        rcases List.mem_cons.mp hy with rfl | hy
        · exact .inr (.inl (List.mem_append_right _ (List.mem_singleton_self _)))
        · exact .inl (hc hy)
      · exact .inr (.inl (List.mem_append_left _ hy))
      · exact .inr (.inr hy)
    cases hsend : s.chan.send_waiters with
    | nil =>
      simp only [hbuf, hsend] at htake
      obtain rfl := Option.some.inj htake
      exact h.leave (by simp [busy, hsend]) (List.Subset.refl _) rfl rfl
        (hmoved _ (List.Subset.refl _)) fun _ hy => .inl hy
    | cons sender senders =>
      simp only [hbuf, hsend] at htake
      obtain rfl := Option.some.inj htake
      exact h.sender hsend rfl rfl rfl rfl rfl (hmoved _ (List.subset_append_left _ _))
        (.inl (List.mem_append_right _ (List.mem_singleton_self _)))
  | nil =>
    cases hsend : s.chan.send_waiters with
    | nil =>
      simp only [hbuf, hsend] at htake
      exact absurd htake (by simp)
    | cons sender senders =>
      simp only [hbuf, hsend] at htake
      obtain rfl := Option.some.inj htake
      refine h.sender hsend rfl rfl rfl rfl rfl ?_
        (.inr (.inl (List.mem_append_right _ (List.mem_singleton_self _))))
      rintro y (hy | hy | hy)
      · rw [hbuf] at hy
        exact absurd hy List.not_mem_nil
      · exact .inr (.inl (List.mem_append_left _ hy))
      · exact .inr (.inr hy)

theorem Kept.receive (h : Kept s) (y : Bool) (ht : s.status t = .active)
    (hy : y = true ∨ s.chan.buffer_refs ≠ [] ∨ s.chan.send_waiters ≠ []) :
    Kept (channel_recv s t y) := by
  rw [channel_recv]
  cases htake : Task.takeValue s with
  | some s' => exact h.takeValue htake
  | none =>
    obtain ⟨hbuf, hsend⟩ := takeValue_eq_none htake
    have hyield : y = true := by
      rcases hy with hy | hy | hy
      · exact hy
      · exact absurd hbuf hy
      · exact absurd hsend hy
    simp only
    split_ifs
    · exact h
    · rw [suspend, if_pos hyield]
      refine h.enter (h.active_notMem ht) ?_ ?_ rfl rfl rfl rfl rfl
      · simp only [busy]
        rw [List.append_assoc, List.append_assoc, List.append_assoc]
        exact List.perm_middle
      · intro c hc
        rcases List.mem_append.mp hc with hc | hc
        · exact .inr hc
        · exact .inl (List.mem_singleton.mp hc)

theorem Kept.cancel (h : Kept s) (hrecv : t ∉ s.chan.recv_waiters)
    (hvalue : ∀ m ∈ s.microtasks, m.thread = t → ∀ x, m.wake ≠ .value x) :
    Kept (cancel_thread s t) := by
  have hthread : (cancel_thread s t).microtasks.map Microtask.thread =
      s.microtasks.map Microtask.thread := by
    rw [cancel_thread, List.map_map]
    refine List.map_congr_left fun m _ => ?_
    simp only [Function.comp]
    split_ifs <;> rfl
  have hbusy : busy (cancel_thread s t) = busy s := by
    rw [busy, hthread]
    rfl
  have hstatus : ∀ c, c ≠ t → (cancel_thread s t).status c = s.status c :=
    fun c hc => Function.update_of_ne hc _ _
  -- the microtasks with a value are not touched
  have hmem : ∀ m ∈ s.microtasks, m.thread ≠ t → m ∈ (cancel_thread s t).microtasks := by
    intro m hm hne
    exact List.mem_map.mpr ⟨m, hm, if_neg hne⟩
  have hwake : ∀ m ∈ (cancel_thread s t).microtasks, ∃ m' ∈ s.microtasks, m'.wake = m.wake ∧
      (m.thread ≠ t → m' = m) ∧ m'.thread = m.thread := by
    intro m hm
    obtain ⟨m', hm', rfl⟩ := List.mem_map.mp hm
    refine ⟨m', hm', ?_⟩
    split_ifs with ht
    · exact ⟨rfl, fun hne => absurd ht hne, rfl⟩
    · exact ⟨rfl, fun _ => rfl, rfl⟩
  have hsafe : ∀ x, Safe s x → Safe (cancel_thread s t) x := by
    rintro x (hx | hx | ⟨m, hm, hw, hc, hs⟩)
    · exact .inl hx
    · exact .inr (.inl hx)
    · have hne : m.thread ≠ t := fun ht => hvalue m hm ht x hw
      exact .inr (.inr ⟨m, hmem m hm hne, hw, hc, by rw [hstatus _ hne]; exact hs⟩)
  refine ⟨by rw [hbusy]; exact h.nodup, ?_, ?_, ?_, ?_, fun x hx => hsafe x (h.acked x hx)⟩
  · intro c hc
    by_cases hct : c = t
    · rw [hct]
      simp [cancel_thread]
    · rw [hstatus c hct]
      exact h.idle c (hbusy ▸ hc)
  · intro c hc
    have hne : c ≠ t := by
      rintro rfl
      exact hrecv hc
    rw [hstatus c hne]
    exact h.recv c hc
  · intro m hm x hx
    obtain ⟨m', hm', hw, heq, hth⟩ := hwake m hm
    have hne : m.thread ≠ t := fun ht => hvalue m' hm' (hth.trans ht) x (hw.trans hx)
    obtain rfl := heq hne
    rw [hstatus _ hne]
    exact h.value _ hm' x hx
  · intro m hm x hx
    obtain ⟨m', hm', hw, -, -⟩ := hwake m hm
    exact hsafe x (h.sent m' hm' x (hw.trans hx))

theorem perm_cons_eraseIdx {α : Type} {l : List α} {i : ℕ} {a : α} (h : l[i]? = some a) :
    l.Perm (a :: l.eraseIdx i) := by
  obtain ⟨hi, rfl⟩ := List.getElem?_eq_some_iff.mp h
  exact (List.getElem_cons_eraseIdx_perm hi).symm

/-- A microtask leaves the queue. -/
theorem Kept.taken (h : Kept s) {i : ℕ} {m : Microtask V} (hm : s.microtasks[i]? = some m)
    (hchan : s'.chan = s.chan) (hmicro : s'.microtasks = s.microtasks.eraseIdx i)
    (hstatus : ∀ c, c ≠ m.thread → s'.status c = s.status c)
    (hreceived : ∀ x ∈ s.received, x ∈ s'.received)
    (hvalue : ∀ x, m.wake = .value x → x ∈ s'.received)
    (hacked : ∀ x ∈ s'.acked, x ∈ s.acked ∨ m.wake = .sent x) : Kept s' := by
  have hperm : s.microtasks.Perm (m :: s'.microtasks) := by
    rw [hmicro]
    exact perm_cons_eraseIdx hm
  have hsub : s'.microtasks ⊆ s.microtasks := by
    rw [hmicro]
    exact (List.eraseIdx_sublist _ _).subset
  have hbusy : (busy s).Perm (m.thread :: busy s') := by
    rw [busy, busy, hchan]
    refine (List.Perm.append_left _ (hperm.map Microtask.thread)).trans ?_
    exact List.perm_middle
  have hnodup := List.nodup_cons.mp (hbusy.nodup_iff.mp h.nodup)
  have hne : ∀ c ∈ busy s', s'.status c = s.status c := by
    intro c hc
    refine hstatus c ?_
    rintro rfl
    exact hnodup.1 hc
  have hthread : ∀ m' ∈ s'.microtasks, s'.status m'.thread = s.status m'.thread :=
    fun m' hm' => hne _ (List.mem_append_right _ (List.mem_map_of_mem hm'))
  have hsafe : ∀ x, Safe s x → Safe s' x := by
    rintro x (hx | hx | ⟨m', hm', hw, hc, hs⟩)
    · exact .inl (by rw [hchan]; exact hx)
    · exact .inr (.inl (hreceived x hx))
    · rcases List.mem_cons.mp (hperm.subset hm') with rfl | hmem
      · exact .inr (.inl (hvalue x hw))
      · exact .inr (.inr ⟨m', hmem, hw, hc, by rw [hthread m' hmem]; exact hs⟩)
  refine ⟨hnodup.2, ?_, ?_, ?_, ?_, ?_⟩
  · intro c hc
    rw [hne c hc]
    exact h.idle c (hbusy.symm.subset (List.mem_cons_of_mem _ hc))
  · intro c hc
    rw [hne c (List.mem_append_left _ (List.mem_append_left _ hc))]
    rw [hchan] at hc
    exact h.recv c hc
  · intro m' hm' x hx
    rw [hthread m' hm']
    exact h.value m' (hsub hm') x hx
  · intro m' hm' x hx
    exact hsafe x (h.sent m' (hsub hm') x hx)
  · intro x hx
    rcases hacked x hx with hx | hx
    · exact hsafe x (h.acked x hx)
    · exact hsafe x (h.sent m (hperm.symm.subset List.mem_cons_self) x hx)

theorem Kept.microtask (h : Kept s) (i : ℕ) : Kept (process_microtask s i) := by
  rw [process_microtask]
  cases hm : s.microtasks[i]? with
  | none => exact h
  | some m =>
    simp only
    split_ifs with hrun
    · have hstatus : ∀ c, c ≠ m.thread →
          Function.update s.status m.thread .active c = s.status c :=
        fun c hc => Function.update_of_ne hc _ _
      cases hw : m.wake with
      | value x =>
        refine h.taken hm rfl rfl hstatus (fun y hy => List.mem_append_left _ hy) ?_
          fun y hy => .inl hy
        intro y hy
        rw [hw] at hy
        obtain rfl := Wake.value.inj hy
        exact List.mem_append_right _ (List.mem_singleton_self _)
      | sent x =>
        refine h.taken hm rfl rfl hstatus (fun y hy => hy) (by simp [hw]) ?_
        intro y hy
        rcases List.mem_append.mp hy with hy | hy
        · exact .inl hy
        · rw [List.mem_singleton.mp hy]
          exact .inr hw
      | closed =>
        exact h.taken hm rfl rfl hstatus (fun y hy => hy) (by simp [hw]) fun y hy => .inl hy
      | refused =>
        exact h.taken hm rfl rfl hstatus (fun y hy => hy) (by simp [hw]) fun y hy => .inl hy
    · -- only a microtask without a value is skipped
      refine h.taken hm rfl rfl (fun _ _ => rfl) (fun y hy => hy) ?_ fun y hy => .inl hy
      intro x hx
      exact absurd (h.value m (List.mem_of_getElem? hm) x hx) hrun

theorem Kept.other (h : Kept s) (st : Status) (ht : t ∉ busy s) :
    Kept { s with status := Function.update s.status t st } := by
  have hne : ∀ c ∈ busy s, Function.update s.status t st c = s.status c := by
    intro c hc
    refine Function.update_of_ne ?_ _ _
    rintro rfl
    exact ht hc
  have hthread : ∀ m ∈ s.microtasks,
      Function.update s.status t st m.thread = s.status m.thread :=
    fun m hm => hne _ (List.mem_append_right _ (List.mem_map_of_mem hm))
  have hsafe : ∀ x, Safe s x → Safe { s with status := Function.update s.status t st } x := by
    rintro x (hx | hx | ⟨m, hm, hw, hc, hs⟩)
    · exact .inl hx
    · exact .inr (.inl hx)
    · exact .inr (.inr ⟨m, hm, hw, hc, (hthread m hm).trans hs⟩)
  refine ⟨h.nodup, ?_, ?_, ?_, fun m hm x hx => hsafe x (h.sent m hm x hx),
    fun x hx => hsafe x (h.acked x hx)⟩
  · intro c hc
    exact fun hact => h.idle c hc ((hne c hc).symm.trans hact)
  · intro c hc
    exact (hne c (List.mem_append_left _ (List.mem_append_left _ hc))).trans (h.recv c hc)
  · intro m hm x hx
    exact ⟨(h.value m hm x hx).1, (hthread m hm).trans (h.value m hm x hx).2⟩

/-- One careful operation keeps the values. -/
theorem Kept.exec (h : Kept s) (op : Op V) (hen : op.enabled s) (hop : op.careful s) :
    Kept (exec s op) := by
  cases op with
  | send t v y => exact h.send v y hen hop
  | recv t y => exact h.receive y hen hop
  | try_send t v => exact h.try_send v
  | try_recv t =>
    rw [Task.exec, channel_try_recv]
    cases htake : Task.takeValue s with
    | some s' => exact h.takeValue htake
    | none => exact h
  | close => exact hop.elim
  | cancel t => exact h.cancel hop.1 hop.2
  | microtask i => exact h.microtask i
  | other t st => exact h.other st hop

/-- **No acknowledged value is lost in careful runs.**  A value for which `send` or `try_send` has
returned true is in the buffer, was received, or belongs to a suspended coroutine that the reactor
will resume with it. -/
theorem channel_keeps_acknowledged (h : (channel V).Reach (fun s op => op.careful s) s) :
    ∀ x ∈ s.acked, Safe s x := by
  have hkept : Kept s := by
    refine h.invariant (I := Kept) ?_ fun s op hs hen hop => hs.exec op hen hop
    rintro s ⟨capacity, status, rfl⟩
    exact ⟨by simp [busy, new_channel], by simp [busy, new_channel], by simp [new_channel],
      by simp [new_channel], by simp [new_channel], by simp [new_channel]⟩
  exact hkept.acked

/-- A receiver waits, gets a value, and is cancelled after it has returned. -/
theorem channel_keeps_acknowledged_receiver :
    let s := [Op.recv 1 true, .send 2 10 true, .microtask 0, .cancel 1].foldl exec
      (new_channel 0 fun _ => .active)
    s.acked = [⟨0, 10⟩] ∧ ∀ x ∈ s.acked, Safe s x := by
  intro s
  have hinit : (channel ℕ).Reach (fun s op => op.careful s) (new_channel 0 fun _ => .active) :=
    .init ⟨0, fun _ => .active, rfl⟩
  refine ⟨rfl, channel_keeps_acknowledged (hinit.run ?_)⟩
  refine ⟨rfl, .inl rfl, rfl, .inl rfl, trivial, trivial, trivial, ⟨?_, ?_⟩, trivial⟩
  · exact List.not_mem_nil
  · intro m hm
    exact absurd hm List.not_mem_nil

/-- **A cancelled receiver swallows a value.**  The coroutine stays in the queue, and a later `send`
returns true without passing its value on. -/
theorem channel_loses_acknowledged :
    ∃ s : State ℕ, (channel ℕ).Reach (fun _ op => op ≠ .close) s ∧
      ∃ x ∈ s.acked, ¬ Safe s x := by
  have hinit : (channel ℕ).Reach (fun _ op => op ≠ .close) (new_channel 0 fun _ => .active) :=
    .init ⟨0, fun _ => .active, rfl⟩
  refine ⟨[Op.recv 1 true, .cancel 1, .send 2 10 true].foldl exec (new_channel 0 fun _ => .active),
    hinit.run ?_, ⟨0, 10⟩, List.mem_singleton_self _, ?_⟩
  · exact ⟨rfl, by simp, trivial, by simp, rfl, by simp, trivial⟩
  · rintro (hx | hx | ⟨m, hm, -⟩)
    · exact List.not_mem_nil hx
    · exact List.not_mem_nil hx
    · exact List.not_mem_nil hm

end Task

end Jaci
