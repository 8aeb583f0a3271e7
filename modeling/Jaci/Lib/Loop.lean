import Mathlib.Logic.Relation
import Mathlib.Tactic.Common

/-!
# Loops

A loop has a body that goes on with another state or ends with a result.

* `Loop.run` : the loop, for a number of rounds;
* `Loop.run_spec` : a loop with an invariant and a measure ends;
* `Loop.run_partial` : what holds when a loop with an invariant has ended;
* `Loop.run_of_reaches` : a loop that ends does so from every state it goes through.
-/

namespace Loop

variable {σ ρ : Type}

/-- The loop, if it ends within a number of rounds. -/
def run (body : σ → Option (σ ⊕ ρ)) : ℕ → σ → Option ρ
  | 0, _ => none
  | n + 1, s => (body s).bind fun
    | .inl s => run body n s
    | .inr r => some r

/-- What a round does: it keeps the invariant and lowers the measure, or the result is right. -/
def Round (body : σ → Option (σ ⊕ ρ)) (I : σ → Prop) (μ : σ → ℕ) (Q : ρ → Prop) (s : σ) : Prop :=
  (∃ s', body s = some (.inl s') ∧ I s' ∧ μ s' < μ s) ∨ ∃ r, body s = some (.inr r) ∧ Q r

/-- **The rule of loops.** -/
theorem run_spec {body : σ → Option (σ ⊕ ρ)} {I : σ → Prop} {μ : σ → ℕ} {Q : ρ → Prop}
    (hround : ∀ s, I s → Round body I μ Q s) {n : ℕ} {s : σ} (hs : I s) (hn : μ s < n) :
    ∃ r, run body n s = some r ∧ Q r := by
  induction n generalizing s with
  | zero => exact absurd hn (Nat.not_lt_zero _)
  | succ n ih =>
    rcases hround s hs with ⟨s', hbody, hs', hlt⟩ | ⟨r, hbody, hr⟩
    · obtain ⟨r, hrun, hr⟩ := ih hs' (by omega)
      refine ⟨r, ?_, hr⟩
      rw [run, hbody, Option.bind_some]
      exact hrun
    · exact ⟨r, by rw [run, hbody, Option.bind_some], hr⟩

/-- **The partial rule of loops.** -/
theorem run_partial {body : σ → Option (σ ⊕ ρ)} {I : σ → Prop} {Q : ρ → Prop}
    (hround : ∀ s s', I s → body s = some (.inl s') → I s')
    (hend : ∀ s r, I s → body s = some (.inr r) → Q r) {n : ℕ} {s : σ} {r : ρ} (hs : I s)
    (h : run body n s = some r) : Q r := by
  induction n generalizing s with
  | zero => cases h
  | succ n ih =>
    rw [run, Option.bind_eq_some_iff] at h
    obtain ⟨s' | r', hbody, hrest⟩ := h
    · exact ih (hround s s' hs hbody) hrest
    · cases hrest
      exact hend s r hs hbody

/-- A loop that ends with a result ends with it from every state on the way. -/
theorem run_of_reaches {body : σ → Option (σ ⊕ ρ)} {n : ℕ} {s s' : σ} {r : ρ}
    (h : run body n s = some r)
    (hs : Relation.ReflTransGen (fun s s' => body s = some (.inl s')) s s') :
    ∃ m, run body m s' = some r := by
  induction hs with
  | refl => exact ⟨n, h⟩
  | tail _ hbody ih =>
    obtain ⟨m, hm⟩ := ih
    cases m with
    | zero => cases hm
    | succ m =>
      rw [run, hbody, Option.bind_some] at hm
      exact ⟨m, hm⟩

end Loop
