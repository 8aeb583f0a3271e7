import Mathlib.Data.Finset.Card
import Mathlib.Logic.Function.Basic

/-!
# Linear probing

Items in a ring of `n` slots.  An item is in the first slot from its home that was free when it was
put there, so it is found by going from its home to the next free slot.  An item is removed by
shifting back those behind it, up to the next free slot, that the hole would cut off.

* `Probing` : no free slot is between an item and its home;
* `Probing.put` : a new item in the first free slot;
* `Hole` : a slot was freed, and the items up to another one were looked at;
* `Hole.skip`, `Hole.shift`, `Hole.close` : the next item stays, or goes into the hole, or there is
  none.
-/

namespace Probing

/-- How far `b` is behind `a` in the ring. -/
def dist (n a b : ℕ) : ℕ := (b + n - a) % n

def next (n a : ℕ) : ℕ := (a + 1) % n

variable {n a b c r : ℕ}

theorem dist_eq (ha : a < n) (hb : b < n) : dist n a b = if a ≤ b then b - a else b + n - a := by
  rw [dist]
  split_ifs with h
  · rw [show b + n - a = b - a + n by omega, Nat.add_mod_right, Nat.mod_eq_of_lt (by omega)]
  · rw [Nat.mod_eq_of_lt (by omega)]

theorem next_eq (ha : a < n) : next n a = if a + 1 = n then 0 else a + 1 := by
  rw [next]
  split_ifs with h
  · rw [h, Nat.mod_self]
  · rw [Nat.mod_eq_of_lt (by omega)]

theorem next_lt (hn : 0 < n) : next n a < n := Nat.mod_lt _ hn

theorem dist_lt (hn : 0 < n) : dist n a b < n := Nat.mod_lt _ hn

theorem dist_self (ha : a < n) : dist n a a = 0 := by rw [dist_eq ha ha, if_pos le_rfl, Nat.sub_self]

theorem eq_of_dist (hr : r < n) (ha : a < n) (hb : b < n) (h : dist n r a = dist n r b) : a = b := by
  rw [dist_eq hr ha, dist_eq hr hb] at h
  split_ifs at h <;> omega

theorem dist_next (ha : a < n) (hb : b < n) (h : next n b ≠ a) :
    dist n a (next n b) = dist n a b + 1 := by
  rw [dist_eq ha (next_lt (by omega)), dist_eq ha hb]
  rw [next_eq hb] at h ⊢
  split_ifs at h ⊢ <;> omega

/-- A step towards another slot. -/
theorem dist_next_left (ha : a < n) (hb : b < n) (h : 0 < dist n a b) :
    dist n a b = dist n (next n a) b + 1 := by
  rw [dist_eq ha hb] at h ⊢
  rw [dist_eq (next_lt (by omega)) hb]
  rw [next_eq ha]
  split_ifs at h ⊢ <;> omega

/-- In front of another slot, the next one is not back at the start. -/
theorem next_ne_of_lt (ha : a < n) (hb : b < n) (hc : c < n) (h : dist n a b < dist n a c) :
    next n b ≠ a := by
  rw [dist_eq ha hb, dist_eq ha hc] at h
  rw [next_eq hb]
  split_ifs at h ⊢ <;> omega

/-- What is nearer than what comes behind is passed, too. -/
theorem dist_between (hr : r < n) (ha : a < n) (hb : b < n) (hc : c < n)
    (h : dist n r a ≤ dist n r b) (hcb : dist n a c < dist n a b) : dist n r c < dist n r b := by
  rw [dist_eq hr ha, dist_eq hr hb] at h
  rw [dist_eq ha hc, dist_eq ha hb] at hcb
  rw [dist_eq hr hc, dist_eq hr hb]
  split_ifs at h hcb ⊢ <;> omega

end Probing

open Probing

variable {α : Type*} {n : ℕ} {home : α → ℕ} {slots : ℕ → Option α} {x : α} {i j b e : ℕ}

/-- Every slot from the home of an item to the item is taken. -/
structure Probing (n : ℕ) (home : α → ℕ) (slots : ℕ → Option α) : Prop where
  home_lt : ∀ x, home x < n
  reach : ∀ b < n, ∀ x, slots b = some x → ∀ c < n, dist n (home x) c < dist n (home x) b →
    (slots c).isSome

/-- An item is in front of every free slot. -/
theorem Probing.before_free (h : Probing n home slots) (hb : b < n) (hnone : slots b = none)
    (hi : i < n) (hx : slots i = some x) : dist n (home x) i < dist n (home x) b := by
  rcases lt_trichotomy (dist n (home x) i) (dist n (home x) b) with hlt | heq | hgt
  · exact hlt
  · rw [eq_of_dist (h.home_lt x) hi hb heq, hnone] at hx
    cases hx
  · have := h.reach i hi x hx b hb hgt
    rw [hnone] at this
    cases this

/-- A new item goes into the first free slot. -/
theorem Probing.put (h : Probing n home slots) (hb : b < n)
    (hway : ∀ c < n, dist n (home x) c < dist n (home x) b → (slots c).isSome) :
    Probing n home (Function.update slots b (some x)) := by
  refine ⟨h.home_lt, fun a ha y hy c hc hlt => ?_⟩
  by_cases hcb : c = b
  · rw [hcb, Function.update_self]
    rfl
  · rw [Function.update_of_ne hcb]
    by_cases hab : a = b
    · subst hab
      rw [Function.update_self] at hy
      obtain rfl := Option.some.inj hy
      exact hway c hc hlt
    · rw [Function.update_of_ne hab] at hy
      exact h.reach a ha y hy c hc hlt

/-- Slot `i` was freed, and the items behind it up to `j` are not cut off. -/
structure Hole (n : ℕ) (home : α → ℕ) (slots : ℕ → Option α) (i j : ℕ) : Prop where
  home_lt : ∀ x, home x < n
  hole_lt : i < n
  last_lt : j < n
  free : slots i = none
  taken : ∀ c < n, 0 < dist n i c → dist n i c ≤ dist n i j → (slots c).isSome
  /-- Only the hole cuts items off, and only those that were not looked at. -/
  reach : ∀ b < n, ∀ x, slots b = some x → ∀ c < n, dist n (home x) c < dist n (home x) b →
    (slots c).isSome ∨ c = i ∧ dist n i j < dist n i b

/-- An item is taken out. -/
theorem Probing.hole (h : Probing n home slots) (hi : i < n) :
    Hole n home (Function.update slots i none) i i := by
  refine ⟨h.home_lt, hi, hi, Function.update_self .., fun c hc h0 h1 => ?_,
    fun b hb x hx c hc hlt => ?_⟩
  · rw [dist_self hi] at h1
    omega
  · have hbi : b ≠ i := by
      rintro rfl
      rw [Function.update_self] at hx
      cases hx
    by_cases hci : c = i
    · refine .inr ⟨hci, ?_⟩
      rw [dist_self hi]
      exact Nat.pos_of_ne_zero fun h0 => hbi (eq_of_dist hi hb hi (h0.trans (dist_self hi).symm))
    · rw [Function.update_of_ne hbi] at hx
      rw [Function.update_of_ne hci]
      exact .inl (h.reach b hb x hx c hc hlt)

/-- The ring has another free slot, so that the next one is not the hole. -/
theorem Hole.next_ne (h : Hole n home slots i j) (he : e < n) (hei : e ≠ i)
    (hnone : slots e = none) : next n j ≠ i := by
  intro hji
  have hpos : 0 < dist n i e := Nat.pos_of_ne_zero fun h0 =>
    hei (eq_of_dist h.hole_lt he h.hole_lt (h0.trans (dist_self h.hole_lt).symm))
  have hle : dist n i e ≤ dist n i j :=
    not_lt.1 fun hlt => next_ne_of_lt h.hole_lt h.last_lt he hlt hji
  have := h.taken e he hpos hle
  rw [hnone] at this
  cases this

/-- There is no next item. -/
theorem Hole.close (h : Hole n home slots i j) (hji : next n j ≠ i)
    (hnone : slots (next n j) = none) : Probing n home slots := by
  refine ⟨h.home_lt, fun b hb x hx c hc hlt => ?_⟩
  have hn : 0 < n := by omega
  rcases h.reach b hb x hx c hc hlt with hs | ⟨rfl, hjb⟩
  · exact hs
  · -- The free slot behind would cut the item off as well.
    exfalso
    have hj := next_lt (a := j) hn
    have hb' : next n j ≠ b := by
      intro hbj
      rw [hbj, hx] at hnone
      cases hnone
    have hlt' : dist n c (next n j) < dist n c b := by
      have hne : dist n c (next n j) ≠ dist n c b := fun heq =>
        hb' (eq_of_dist hc hj hb heq)
      rw [dist_next hc h.last_lt hji] at hne ⊢
      omega
    have hway := dist_between (h.home_lt x) hc hb hj hlt.le hlt'
    rcases h.reach b hb x hx _ hj hway with hs | ⟨heq, -⟩
    · rw [hnone] at hs
      cases hs
    · exact hji heq

/-- The next item is not cut off. -/
theorem Hole.skip (h : Hole n home slots i j) (hji : next n j ≠ i)
    (hx : slots (next n j) = some x)
    (hstay : ¬dist n (home x) i < dist n (home x) (next n j)) :
    Hole n home slots i (next n j) := by
  have hj : next n j < n := next_lt (by have := h.hole_lt; omega)
  have hd := dist_next h.hole_lt h.last_lt hji
  refine ⟨h.home_lt, h.hole_lt, hj, h.free, fun c hc h0 h1 => ?_, fun b hb y hy c hc hlt => ?_⟩
  · by_cases heq : c = next n j
    · rw [heq, hx]
      rfl
    · have hne : dist n i c ≠ dist n i (next n j) := fun h2 =>
        heq (eq_of_dist h.hole_lt hc hj h2)
      exact h.taken c hc h0 (by omega)
  · rcases h.reach b hb y hy c hc hlt with hs | ⟨rfl, hjb⟩
    · exact .inl hs
    · by_cases hbj : b = next n j
      · subst hbj
        obtain rfl := Option.some.inj (hx.symm.trans hy)
        exact absurd hlt hstay
      · have hne : dist n c b ≠ dist n c (next n j) := fun h2 =>
          hbj (eq_of_dist hc hb hj h2)
        exact .inr ⟨rfl, by omega⟩

/-- The next item is cut off, and goes into the hole. -/
theorem Hole.shift (h : Hole n home slots i j) (hji : next n j ≠ i)
    (hx : slots (next n j) = some x)
    (hmove : dist n (home x) i < dist n (home x) (next n j)) :
    Hole n home (Function.update (Function.update slots i (some x)) (next n j) none) (next n j)
      (next n j) := by
  have hj : next n j < n := next_lt (by have := h.hole_lt; omega)
  refine ⟨h.home_lt, hj, hj, Function.update_self .., fun c hc h0 h1 => ?_,
    fun b hb y hy c hc hlt => ?_⟩
  · rw [dist_self hj] at h1
    omega
  · have hbj : b ≠ next n j := by
      rintro rfl
      rw [Function.update_self] at hy
      cases hy
    rw [Function.update_of_ne hbj] at hy
    by_cases hcj : c = next n j
    · refine .inr ⟨hcj, ?_⟩
      rw [dist_self hj]
      exact Nat.pos_of_ne_zero fun h0 => hbj (eq_of_dist hj hb hj (h0.trans (dist_self hj).symm))
    · refine .inl ?_
      rw [Function.update_of_ne hcj]
      by_cases hci : c = i
      · rw [hci, Function.update_self]
        rfl
      · rw [Function.update_of_ne hci]
        by_cases hbi : b = i
        · subst hbi
          rw [Function.update_self] at hy
          obtain rfl := Option.some.inj hy
          exact (h.reach _ hj x hx c hc (hlt.trans hmove)).resolve_right fun hc => hci hc.1
        · rw [Function.update_of_ne hbi] at hy
          exact (h.reach b hb y hy c hc hlt).resolve_right fun hc => hci hc.1
