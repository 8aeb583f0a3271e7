import Mathlib.Logic.Function.Basic
import Mathlib.Data.Finset.Card

/-!
# Linked chains

Cells of any type linked by a `next` function.  `Seg next p l q` says that following `next` from
`p` visits exactly the cells of `l`, in order, and arrives at `q`; a `Chain` arrives at the null
pointer.

* `Chain.unique`, `Chain.nodup` : a chain is determined by its start and visits no cell twice;
* `Seg.map` : cells can be renamed;
* `Seg.insertAfter`, `Chain.push` : a new cell behind another, or in front;
* `Chain.unlink` : a cell taken out of the middle.
-/

namespace Linked

variable {α : Type} {next next' : α → Option α} {p q : Option α} {l : List α} {a b : α}

/-- Following `next` from `p` visits the cells of `l` and arrives at `q`. -/
def Seg (next : α → Option α) : Option α → List α → Option α → Prop
  | p, [], q => p = q
  | p, a :: l, q => p = some a ∧ Seg next (next a) l q

/-- Following `next` from `p` visits the cells of `l` and ends. -/
def Chain (next : α → Option α) (p : Option α) (l : List α) : Prop := Seg next p l none

theorem seg_append {l' : List α} :
    Seg next p (l ++ l') q ↔ ∃ r, Seg next p l r ∧ Seg next r l' q := by
  induction l generalizing p with
  | nil => simp [Seg]
  | cons a l ih => simp [Seg, ih, and_assoc]

theorem Seg.congr (h : Seg next p l q) (hn : ∀ a ∈ l, next' a = next a) : Seg next' p l q := by
  induction l generalizing p with
  | nil => exact h
  | cons a l ih =>
    refine ⟨h.1, ?_⟩
    rw [hn a List.mem_cons_self]
    exact ih h.2 fun b hb => hn b (List.mem_cons_of_mem a hb)

/-- A cell of a segment is its start or follows another cell of the segment. -/
theorem Seg.eq_start_or_next (h : Seg next p l q) (ha : a ∈ l) :
    p = some a ∨ ∃ b ∈ l, next b = some a := by
  induction l generalizing p with
  | nil => exact absurd ha List.not_mem_nil
  | cons c l ih =>
    rcases List.mem_cons.mp ha with rfl | ha
    · exact .inl h.1
    · right
      rcases ih h.2 ha with hc | ⟨b, hb, hn⟩
      · exact ⟨c, List.mem_cons_self, hc⟩
      · exact ⟨b, List.mem_cons_of_mem c hb, hn⟩

/-- The cells of a segment can be renamed along with the links. -/
theorem Seg.map {r : α → α} (h : Seg next p l q) (hr : ∀ a ∈ l, next' (r a) = (next a).map r) :
    Seg next' (p.map r) (l.map r) (q.map r) := by
  induction l generalizing p with
  | nil => exact congrArg (Option.map r) h
  | cons a l ih =>
    refine ⟨by rw [h.1]; rfl, ?_⟩
    rw [hr a List.mem_cons_self]
    exact ih h.2 fun b hb => hr b (List.mem_cons_of_mem a hb)

theorem Chain.congr (h : Chain next p l) (hn : ∀ a ∈ l, next' a = next a) : Chain next' p l :=
  Seg.congr h hn

@[simp] theorem chain_nil : Chain next p [] ↔ p = none := Iff.rfl

@[simp] theorem chain_cons : Chain next p (a :: l) ↔ p = some a ∧ Chain next (next a) l := Iff.rfl

theorem Chain.unique {l' : List α} (h : Chain next p l) (h' : Chain next p l') : l = l' := by
  induction l generalizing p l' with
  | nil =>
    cases l' with
    | nil => rfl
    | cons b l' => exact absurd (h.symm.trans h'.1) (by simp)
  | cons a l ih =>
    cases l' with
    | nil => exact absurd (h'.symm.trans h.1) (by simp)
    | cons b l' =>
      obtain rfl : a = b := by simpa using h.1.symm.trans h'.1
      rw [ih h.2 h'.2]

/-- A chain visits no cell twice: from a cell on, it is determined by the cell. -/
theorem Chain.nodup (h : Chain next p l) : l.Nodup := by
  induction l generalizing p with
  | nil => exact List.nodup_nil
  | cons a l ih =>
    refine List.nodup_cons.mpr ⟨fun hmem => ?_, ih h.2⟩
    obtain ⟨l₁, l₂, rfl⟩ := List.append_of_mem hmem
    obtain ⟨r, -, hr⟩ := seg_append.mp h.2
    have hlong : Chain next (some a) (a :: (l₁ ++ a :: l₂)) := ⟨rfl, h.2⟩
    have hshort : Chain next (some a) (a :: l₂) := ⟨rfl, hr.2⟩
    have := congrArg List.length (hlong.unique hshort)
    simp at this
    omega

/-- A chain in a finite set is no longer than the set. -/
theorem Chain.length_le_card [DecidableEq α] {S : Finset α} (h : Chain next p l)
    (hS : ∀ a ∈ l, a ∈ S) : l.length ≤ S.card := by
  rw [← List.toFinset_card_of_nodup h.nodup]
  exact Finset.card_le_card fun a ha => hS a (List.mem_toFinset.mp ha)

section Update

variable [DecidableEq α]

theorem Seg.update (h : Seg next p l q) (ha : a ∉ l) (v : Option α) :
    Seg (Function.update next a v) p l q :=
  h.congr fun _ hb => Function.update_of_ne (ne_of_mem_of_not_mem hb ha) _ _

theorem Chain.update (h : Chain next p l) (ha : a ∉ l) (v : Option α) :
    Chain (Function.update next a v) p l :=
  Seg.update h ha v

/-- A new cell in front of a chain. -/
theorem Chain.push (h : Chain next p l) (ha : a ∉ l) :
    Chain (Function.update next a p) (some a) (a :: l) := by
  refine ⟨rfl, ?_⟩
  rw [Function.update_self]
  exact h.update ha p

/-- A new cell behind the cell `b`: every segment visits it right after `b`. -/
theorem Seg.insertAfter (h : Seg next p l q) (ha : a ∉ l) :
    Seg (Function.update (Function.update next a (next b)) b (some a)) p
      (l.flatMap fun c => if c = b then [c, a] else [c]) q := by
  induction l generalizing p with
  | nil => exact h
  | cons c l ih =>
    obtain ⟨hca, hal⟩ : c ≠ a ∧ a ∉ l := ⟨fun e => ha (e ▸ List.mem_cons_self),
      fun hm => ha (List.mem_cons_of_mem c hm)⟩
    have htail := ih h.2 hal
    rw [List.flatMap_cons]
    by_cases hcb : c = b
    · subst hcb
      rw [if_pos rfl]
      refine ⟨h.1, ?_⟩
      rw [Function.update_self]
      refine ⟨rfl, ?_⟩
      rw [Function.update_of_ne (Ne.symm hca), Function.update_self]
      exact htail
    · rw [if_neg hcb]
      refine ⟨h.1, ?_⟩
      rw [Function.update_of_ne hcb, Function.update_of_ne hca]
      exact htail

/-- A cell is taken out of a chain by linking its predecessor to its successor. -/
theorem Chain.unlink {l₁ l₂ : List α} (h : Chain next p (l₁ ++ b :: a :: l₂)) :
    Chain (Function.update next b (next a)) p (l₁ ++ b :: l₂) := by
  have hnd := h.nodup
  obtain ⟨r, h₁, hr, -, h₂⟩ := seg_append.mp h
  have hb₁ : b ∉ l₁ := fun hb => (List.nodup_append.mp hnd).2.2 b hb b List.mem_cons_self rfl
  have hb₂ : b ∉ l₂ := fun hb =>
    (List.nodup_cons.mp (List.nodup_append.mp hnd).2.1).1 (List.mem_cons_of_mem a hb)
  refine seg_append.mpr ⟨r, h₁.update hb₁ _, hr, ?_⟩
  rw [Function.update_self]
  exact Seg.update h₂ hb₂ _

end Update

end Linked
