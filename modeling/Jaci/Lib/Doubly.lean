import Jaci.Lib.Linked

/-!
# Doubly linked lists

A chain whose cells also link back.  `setAt p v f` is the update `if (p) p->f = v` of a field.

* `Doubly.push` : a new cell in front;
* `Doubly.pop` : the first cell is taken out;
* `Doubly.remove`, `Doubly.erase` : any cell is taken out, by its two neighbours.
-/

namespace Linked

variable {α β : Type} {next prev : α → Option α} {head : Option α} {l l₁ l₂ : List α} {a : α}

/-- Following `next` from `head` visits `l`, and `prev` leads back. -/
structure Doubly (next prev : α → Option α) (head : Option α) (l : List α) : Prop where
  chain : Chain next head l
  first : ∀ b, head = some b → prev b = none
  back : ∀ b ∈ l, ∀ c, next b = some c → prev c = some b

theorem Doubly.nil : Doubly next prev none [] := ⟨rfl, by simp, by simp⟩

theorem Doubly.congr {next' prev' : α → Option α} (h : Doubly next prev head l)
    (hn : ∀ b ∈ l, next' b = next b) (hp : ∀ b ∈ l, prev' b = prev b) :
    Doubly next' prev' head l := by
  have hmem : ∀ b ∈ l, ∀ c, next b = some c → c ∈ l := by
    intro b hb c hc
    obtain ⟨l₁, l₂, rfl⟩ := List.append_of_mem hb
    obtain ⟨r, -, hr⟩ := seg_append.mp h.chain
    have h2 := hr.2
    rw [hc] at h2
    cases l₂ with
    | nil => exact absurd h2 (by simp [Seg])
    | cons d l₂ =>
      obtain rfl : c = d := Option.some.inj h2.1
      simp
  refine ⟨h.chain.congr hn, fun b hb => ?_, fun b hb c hc => ?_⟩
  · have hbl : b ∈ l := by
      cases l with
      | nil => exact absurd (hb.symm.trans h.chain) (by simp)
      | cons d l =>
        obtain rfl : b = d := Option.some.inj (hb.symm.trans h.chain.1)
        exact List.mem_cons_self
    rw [hp b hbl]
    exact h.first b hb
  · rw [hn b hb] at hc
    rw [hp c (hmem b hb c hc)]
    exact h.back b hb c hc

/-- Two cells with the same next cell are the same. -/
theorem Doubly.next_inj (h : Doubly next prev head l) {b c d : α} (hb : b ∈ l) (hc : c ∈ l)
    (hbd : next b = some d) (hcd : next c = some d) : b = c :=
  Option.some.inj ((h.back b hb d hbd).symm.trans (h.back c hc d hcd))

/-- The first cell has no cell before it, and only it. -/
theorem Doubly.prev_eq_none (h : Doubly next prev head (l₁ ++ a :: l₂)) :
    prev a = none ↔ l₁ = [] := by
  rcases List.eq_nil_or_concat l₁ with rfl | ⟨l, b, rfl⟩
  · simp only [iff_true]
    exact h.first a h.chain.1
  · rw [List.concat_eq_append, List.append_assoc] at h
    obtain ⟨r, -, hr⟩ := seg_append.mp h.chain
    have hba : next b = some a := hr.2.1
    have := h.back b (by simp) a hba
    simp [this]

/-- The first cell is the one without a cell before it. -/
theorem Doubly.head_eq (h : Doubly next prev head l) (ha : a ∈ l) (hprev : prev a = none) :
    head = some a := by
  obtain ⟨l₁, l₂, rfl⟩ := List.append_of_mem ha
  rw [h.prev_eq_none] at hprev
  subst hprev
  exact h.chain.1

/-- The neighbours of a cell are in the list. -/
theorem Doubly.next_mem (h : Doubly next prev head l) (ha : a ∈ l) {b : α}
    (hb : next a = some b) : b ∈ l := by
  obtain ⟨l₁, l₂, rfl⟩ := List.append_of_mem ha
  obtain ⟨r, -, hr⟩ := seg_append.mp h.chain
  have h2 := hr.2
  rw [hb] at h2
  cases l₂ with
  | nil => exact absurd h2 (by simp [Seg])
  | cons d l₂ =>
    obtain rfl : b = d := Option.some.inj h2.1
    simp

theorem Doubly.prev_mem (h : Doubly next prev head l) (ha : a ∈ l) {b : α}
    (hb : prev a = some b) : b ∈ l := by
  obtain ⟨l₁, l₂, rfl⟩ := List.append_of_mem ha
  rcases List.eq_nil_or_concat l₁ with rfl | ⟨l, c, rfl⟩
  · rw [h.prev_eq_none.mpr rfl] at hb
    exact absurd hb (by simp)
  · rw [List.concat_eq_append, List.append_assoc] at h
    obtain ⟨r, -, hr⟩ := seg_append.mp h.chain
    have := h.back c (by simp) a hr.2.1
    rw [hb] at this
    rw [Option.some.inj this]
    simp

variable [DecidableEq α]

/-- The update of a field, unless the pointer is null. -/
def setAt (p : Option α) (v : β) (f : α → β) : α → β :=
  match p with
  | some b => Function.update f b v
  | none => f

@[simp] theorem setAt_none (v : β) (f : α → β) : setAt none v f = f := rfl

@[simp] theorem setAt_some (b : α) (v : β) (f : α → β) :
    setAt (some b) v f = Function.update f b v := rfl

theorem setAt_of_ne {p : Option α} {b : α} (h : p ≠ some b) (v : β) (f : α → β) :
    setAt p v f b = f b := by
  cases p with
  | none => rfl
  | some c => exact Function.update_of_ne (fun e => h (congrArg some e.symm)) _ _

/-- A new cell in front of a list. -/
theorem Doubly.push (h : Doubly next prev head l) (ha : a ∉ l) (hprev : prev a = none) :
    Doubly (Function.update next a head) (setAt head (some a) prev) (some a) (a :: l) := by
  have hhead : ∀ b, head = some b → b ∈ l := by
    intro b hb
    cases l with
    | nil => exact absurd (hb.symm.trans h.chain) (by simp)
    | cons c l =>
      obtain rfl : b = c := Option.some.inj (hb.symm.trans h.chain.1)
      exact List.mem_cons_self
  refine ⟨h.chain.push ha, fun b hb => ?_, fun b hb c hc => ?_⟩
  · obtain rfl : a = b := Option.some.inj hb
    rw [setAt_of_ne (fun e => ha (hhead a e)), hprev]
  · by_cases hba : b = a
    · subst hba
      rw [Function.update_self] at hc
      rw [hc, setAt_some, Function.update_self]
    · rw [Function.update_of_ne hba] at hc
      have hbl : b ∈ l := (List.mem_cons.mp hb).resolve_left hba
      rw [setAt_of_ne]
      · exact h.back b hbl c hc
      · intro e
        -- the old first cell has no cell before it
        have := h.first c e
        rw [h.back b hbl c hc] at this
        exact absurd this (by simp)

/-- The first cell is taken out. -/
theorem Doubly.pop (h : Doubly next prev (some a) (a :: l)) (v : Option α) :
    Doubly (Function.update next a v) (setAt (next a) none prev) (next a) l := by
  have hnodup := h.chain.nodup
  have hal : a ∉ l := (List.nodup_cons.mp hnodup).1
  refine ⟨h.chain.2.update hal v, fun b hb => ?_, fun b hb c hc => ?_⟩
  · rw [hb, setAt_some, Function.update_self]
  · have hba : b ≠ a := fun e => hal (e ▸ hb)
    rw [Function.update_of_ne hba] at hc
    rw [setAt_of_ne]
    · exact h.back b (List.mem_cons_of_mem a hb) c hc
    · intro e
      exact hba (h.next_inj (List.mem_cons_of_mem a hb) List.mem_cons_self hc e)

/-- A cell is taken out: its neighbours link to each other. -/
theorem Doubly.remove (h : Doubly next prev head (l₁ ++ a :: l₂)) :
    Doubly (setAt (prev a) (next a) next) (setAt (next a) (prev a) prev)
      (if prev a = none then next a else head) (l₁ ++ l₂) := by
  have hnodup := h.chain.nodup
  have hane : ∀ b ∈ l₁ ++ l₂, b ≠ a := by
    rintro b hb rfl
    rcases List.nodup_append.mp hnodup with ⟨-, h2, h3⟩
    rcases List.mem_append.mp hb with hb | hb
    · exact h3 b hb b List.mem_cons_self rfl
    · exact (List.nodup_cons.mp h2).1 hb
  have hmem : ∀ b ∈ l₁ ++ l₂, b ∈ l₁ ++ a :: l₂ := by
    intro b hb
    rcases List.mem_append.mp hb with hb | hb
    · exact List.mem_append_left _ hb
    · exact List.mem_append_right _ (List.mem_cons_of_mem a hb)
  have hamem : a ∈ l₁ ++ a :: l₂ := List.mem_append_right _ List.mem_cons_self
  by_cases hnil : l₁ = []
  · subst hnil
    have hprev : prev a = none := h.prev_eq_none.mpr rfl
    have hhead : head = some a := h.chain.1
    have hpop := (hhead ▸ h).pop (next a)
    rw [Function.update_eq_self] at hpop
    rw [hprev, if_pos rfl, setAt_none]
    exact hpop
  · obtain ⟨b, hprev⟩ := Option.ne_none_iff_exists'.mp fun e => hnil (h.prev_eq_none.mp e)
    obtain ⟨l, c, rfl⟩ := (List.eq_nil_or_concat l₁).resolve_left hnil
    rw [List.concat_eq_append] at *
    have hchain : Chain next head (l ++ c :: a :: l₂) := by simpa using h.chain
    obtain ⟨r, -, hr⟩ := seg_append.mp hchain
    have hca : next c = some a := hr.2.1
    obtain rfl : b = c :=
      Option.some.inj (hprev.symm.trans (h.back c (by simp) a hca))
    rw [hprev, if_neg (by simp), setAt_some]
    refine ⟨by simpa using hchain.unlink, fun c hc => ?_, fun c hc d hd => ?_⟩
    · rw [setAt_of_ne]
      · exact h.first c hc
      · intro e
        have h1 := h.back a hamem c e
        rw [h.first c hc] at h1
        exact absurd h1 (by simp)
    · by_cases hcb : c = b
      · subst hcb
        rw [Function.update_self] at hd
        rw [hd, setAt_some, Function.update_self]
      · rw [Function.update_of_ne hcb] at hd
        rw [setAt_of_ne]
        · exact h.back c (hmem c hc) d hd
        · intro e
          exact hane c hc (h.next_inj (hmem c hc) hamem hd e)

theorem Doubly.setAt_prev_self (next prev : α → Option α) (a : α) :
    setAt (next a) (prev a) prev a = prev a := by
  by_cases e : next a = some a
  · rw [e, setAt_some, Function.update_self]
  · rw [setAt_of_ne e]

/-- A cell is taken out, with the updates in the order of the usual code. -/
theorem Doubly.erase (h : Doubly next prev head l) (ha : a ∈ l) :
    Doubly (setAt (setAt (next a) (prev a) prev a) (next a) next) (setAt (next a) (prev a) prev)
      (if setAt (next a) (prev a) prev a = none ∧ head = some a then next a else head)
      (l.erase a) := by
  have hnodup := h.chain.nodup
  have hhead := h.head_eq ha
  obtain ⟨l₁, l₂, rfl⟩ := List.append_of_mem ha
  have hal₁ : a ∉ l₁ := fun h1 =>
    (List.nodup_append.mp hnodup).2.2 a h1 a List.mem_cons_self rfl
  rw [List.erase_append_right _ hal₁, List.erase_cons_head, Doubly.setAt_prev_self]
  have hif : (if prev a = none ∧ head = some a then next a else head) =
      if prev a = none then next a else head := by
    by_cases e : prev a = none
    · rw [if_pos ⟨e, hhead e⟩, if_pos e]
    · rw [if_neg fun h => e h.1, if_neg e]
  rw [hif]
  exact h.remove

end Linked
