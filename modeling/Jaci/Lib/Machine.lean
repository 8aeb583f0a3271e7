import Mathlib.Logic.Basic

/-!
# Runs of machines

A machine has states and operations, each of which is enabled in some states.  `Reach M ok` are the
states that runs reach in which every operation also meets the condition `ok`.

* `Reach.invariant` : what holds first and is kept by every operation holds in every state;
* `Reach.mono` : a weaker condition allows more runs;
* `Reach.run` : a list of operations.
-/

/-- A machine. -/
structure Machine (σ α : Type) where
  init : σ → Prop
  enabled : σ → α → Prop
  exec : σ → α → σ

namespace Machine

variable {σ α : Type} {M : Machine σ α} {ok ok' : σ → α → Prop} {s : σ}

/-- The states that are reached if every operation meets the condition. -/
inductive Reach (M : Machine σ α) (ok : σ → α → Prop) : σ → Prop where
  | init {s : σ} : M.init s → Reach M ok s
  | step {s : σ} (a : α) : Reach M ok s → M.enabled s a → ok s a → Reach M ok (M.exec s a)

/-- **The rule of invariants.** -/
theorem Reach.invariant {I : σ → Prop} (hinit : ∀ s, M.init s → I s)
    (hstep : ∀ s a, I s → M.enabled s a → ok s a → I (M.exec s a)) (h : Reach M ok s) : I s := by
  induction h with
  | init h => exact hinit _ h
  | step a _ ha hok ih => exact hstep _ a ih ha hok

theorem Reach.mono (hok : ∀ s a, ok s a → ok' s a) (h : Reach M ok s) : Reach M ok' s := by
  induction h with
  | init h => exact .init h
  | step a _ ha ho ih => exact .step a ih ha (hok _ a ho)

/-- Every operation of a list is enabled and meets the condition in its turn. -/
def Allowed (M : Machine σ α) (ok : σ → α → Prop) : σ → List α → Prop
  | _, [] => True
  | s, a :: l => M.enabled s a ∧ ok s a ∧ Allowed M ok (M.exec s a) l

instance Allowed.decidable [∀ s a, Decidable (M.enabled s a)] [∀ s a, Decidable (ok s a)] :
    ∀ s l, Decidable (Allowed M ok s l)
  | _, [] => inferInstanceAs (Decidable True)
  | s, a :: l =>
    have := Allowed.decidable (M.exec s a) l
    inferInstanceAs (Decidable (M.enabled s a ∧ ok s a ∧ Allowed M ok (M.exec s a) l))

theorem Reach.run (h : Reach M ok s) {l : List α} (hl : Allowed M ok s l) :
    Reach M ok (l.foldl M.exec s) := by
  induction l generalizing s with
  | nil => exact h
  | cons a l ih => exact ih (.step a h hl.1 hl.2.1) hl.2.2

end Machine
