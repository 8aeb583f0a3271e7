import Jaci.TabLib.Sort

/-!
# Heap sort

* `Hole` : a heap but for one element, which is as small as it wants to be;
* `gives_siftheap` : sifting fills the hole;
* `gives_heap` : **heap sort sorts**.
-/

namespace Jaci

namespace TabLib

variable {ε σ α : Type} {ask : σ → α → α → Except ε Bool × σ} {lt : α → α → Bool} {n : ℤ}
variable {a a' : ℤ → α} {l u : ℤ}

/-! ### Orders -/

/-- `y` is not less than `x`. -/
def Le (lt : α → α → Bool) (x y : α) : Prop := lt y x = false

namespace Orders

variable (h : Orders ask lt) {x y z : α}

include h

theorem le_refl (x : α) : Le lt x x := h.irrefl x

theorem le_trans (hxy : Le lt x y) (hyz : Le lt y z) : Le lt x z := h.negTrans _ _ _ hyz hxy

theorem le_of_lt (hxy : lt x y) : Le lt x y := by
  cases hyx : lt y x with
  | false => exact hyx
  | true => exact absurd ((h.irrefl x).symm.trans (h.trans _ _ _ hxy hyx)) Bool.false_ne_true

end Orders

/-- The elements from `l` to `u` are in order. -/
def Sorted (lt : α → α → Bool) (l u : ℤ) (a : ℤ → α) : Prop :=
  ∀ i j, l ≤ i → i < j → j ≤ u → Le lt (a i) (a j)

/-! ### Heaps -/

/-- `c` is a child of `k`. -/
def IsChild (c k : ℤ) : Prop := c = k * 2 + 1 ∨ c = k * 2 + 2

/-- From `r` on no element is less than its children. -/
def HeapFrom (lt : α → α → Bool) (l count r : ℤ) (a : ℤ → α) : Prop :=
  ∀ k c, r ≤ k → IsChild c k → c < count → Le lt (a (l + c)) (a (l + k))

/-- So it is but for `root`, and its children are no greater than its parent. -/
structure Hole (lt : α → α → Bool) (l count r root : ℤ) (a : ℤ → α) : Prop where
  others : ∀ k c, r ≤ k → k ≠ root → IsChild c k → c < count → Le lt (a (l + c)) (a (l + k))
  above : ∀ k c, r ≤ k → IsChild root k → IsChild c root → c < count →
    Le lt (a (l + c)) (a (l + k))

theorem HeapFrom.hole {count r : ℤ} (hr : 0 ≤ r) (h : HeapFrom lt l count (r + 1) a) :
    Hole lt l count r r a :=
  ⟨fun k c hk hne => h k c (by omega), fun k c hk hchild => by
    rcases hchild with hchild | hchild <;> omega⟩

/-- The root is exchanged with its greatest child. -/
theorem Hole.move {count r root next : ℤ} (h : Hole lt l count r root a) (hr : 0 ≤ r)
    (hroot : r ≤ root) (hnext : IsChild next root) (hlt : next < count)
    (hmax : ∀ c, IsChild c root → c < count → Le lt (a (l + c)) (a (l + next)))
    (hle : Le lt (a (l + root)) (a (l + next))) :
    Hole lt l count r next (swapAt a (l + root) (l + next)) := by
  have hgt : root < next := by rcases hnext with h | h <;> omega
  constructor
  · intro k c hk hne hc hcount
    have hkc : k < c := by rcases hc with h | h <;> omega
    by_cases hkr : k = root
    · subst hkr
      rw [swapAt_left]
      by_cases hcn : c = next
      · rw [hcn, swapAt_right]
        exact hle
      · rw [swapAt_other _ (by omega) (by omega)]
        exact hmax c hc hcount
    · rw [swapAt_other a (k := l + k) (by omega) (by omega)]
      by_cases hcr : c = root
      · rw [hcr, swapAt_left]
        exact h.above k next hk (hcr ▸ hc) hnext hlt
      · have hcn : c ≠ next := by
          rintro rfl
          rcases hc with h1 | h1 <;> rcases hnext with h2 | h2 <;> omega
        rw [swapAt_other a (by omega) (by omega)]
        exact h.others k c hk hkr hc hcount
  · intro k c hk hchild hc hcount
    obtain rfl : k = root := by
      rcases hchild with h1 | h1 <;> rcases hnext with h2 | h2 <;> omega
    have hnc : next < c := by rcases hc with h | h <;> omega
    rw [swapAt_left, swapAt_other _ (by omega) (by omega)]
    exact h.others next c (by omega) (by omega) hc hcount

/-- The hole is filled if the root is no less than its children. -/
theorem Hole.fill {count r root : ℤ} (h : Hole lt l count r root a)
    (hroot : ∀ c, IsChild c root → c < count → Le lt (a (l + c)) (a (l + root))) :
    HeapFrom lt l count r a := by
  intro k c hk hc hcount
  by_cases hkr : k = root
  · subst hkr
    exact hroot c hc hcount
  · exact h.others k c hk hkr hc hcount

/-! ### Sifting -/

/-- The greatest of an element and its children. -/
theorem pick {x left right : ℤ} (h : Orders ask lt) {b b' : Bool}
    (hb : b = lt (a (l + x)) (a (l + left)))
    (hb' : b' = lt (a (l + if b then left else x)) (a (l + right))) {next : ℤ}
    (hnext : next = if b' then right else if b then left else x) :
    Le lt (a (l + x)) (a (l + next)) ∧ Le lt (a (l + left)) (a (l + next)) ∧
      Le lt (a (l + right)) (a (l + next)) := by
  have h1 : Le lt (a (l + x)) (a (l + if b then left else x)) ∧
      Le lt (a (l + left)) (a (l + if b then left else x)) := by
    cases b with
    | true => exact ⟨h.le_of_lt hb.symm, h.le_refl _⟩
    | false => exact ⟨h.le_refl _, hb.symm⟩
  rw [hnext]
  cases b' with
  | true =>
    have h2 := h.le_of_lt hb'.symm
    exact ⟨h.le_trans h1.1 h2, h.le_trans h1.2 h2, h.le_refl _⟩
  | false => exact ⟨h1.1, h1.2, hb'.symm⟩

/-- The loop ends at an element whose children are no greater, or which has not two of them. -/
theorem gives_siftLoop {count r root : ℤ} {fuel : ℕ} (hn : 0 ≤ l ∧ l + count - 1 < n) (hr : 0 ≤ r)
    (hroot : r ≤ root) (hcount : root < count) (hfuel : count - root < fuel)
    (ha : Orders ask lt → Hole lt l count r root a) :
    Gives (Orders ask lt) l (l + count - 1) (siftLoop ask n l count fuel root) a fun root a' =>
      (r ≤ root ∧ root < count) ∧ (Orders ask lt → Hole lt l count r root a' ∧
        (root * 2 + 2 < count → ∀ c, IsChild c root → Le lt (a' (l + c)) (a' (l + root)))) := by
  induction fuel generalizing root a with
  | zero => omega
  | succ fuel ih =>
    rw [siftLoop]
    split_ifs with htwo
    · refine (gives_less hn (by omega) (by omega)).bind ?_
      rintro b _ - ⟨rfl, hb⟩
      refine (gives_less hn (by split_ifs <;> omega) (by omega)).bind ?_
      rintro b' _ - ⟨rfl, hb'⟩
      dsimp only
      obtain ⟨next, hnext⟩ : ∃ next, next =
        if b' = true then root * 2 + 2 else if b = true then root * 2 + 1 else root := ⟨_, rfl⟩
      rw [← hnext]
      split_ifs with heq
      · refine gives_pure ⟨⟨hroot, hcount⟩, fun h => ⟨ha h, fun _ c hc => ?_⟩⟩
        obtain ⟨-, hleft, hright⟩ := pick h (hb h) (hb' h) hnext
        rw [heq] at hleft hright
        rcases hc with rfl | rfl
        · exact hleft
        · exact hright
      · have hchild : IsChild next root := by
          rw [hnext] at heq ⊢
          split_ifs at heq ⊢
          · exact .inr rfl
          · exact .inl rfl
          · exact absurd rfl heq
        have hrange : root < next ∧ next < count := by rcases hchild with h | h <;> omega
        refine (gives_swap hn (by omega) (by omega)).bind ?_
        rintro _ _ - rfl
        refine ih (by omega) hrange.2 (by omega) fun h => ?_
        obtain ⟨hle, hleft, hright⟩ := pick h (hb h) (hb' h) hnext
        refine (ha h).move hr hroot hchild hrange.2 (fun c hc _ => ?_) hle
        rcases hc with rfl | rfl
        · exact hleft
        · exact hright
    · exact gives_pure ⟨⟨hroot, hcount⟩, fun h => ⟨ha h, fun h => absurd h htwo⟩⟩

/-- Sifting fills the hole. -/
theorem gives_siftheap {r : ℤ} (hn : 0 ≤ l ∧ u < n) (hr : 0 ≤ r) (hcount : l + r ≤ u)
    (ha : Orders ask lt → HeapFrom lt l (u - l + 1) (r + 1) a) :
    Gives (Orders ask lt) l u (sort_siftheap ask n l u r) a fun _ a' =>
      Orders ask lt → HeapFrom lt l (u - l + 1) r a' := by
  have hu : l + (u - l + 1) - 1 = u := by omega
  have hloop := @gives_siftLoop _ _ _ _ _ _ a _ (u - l + 1) _ _ ((u - l + 1).toNat + 1)
    (by rw [hu]; exact hn) hr le_rfl (by omega) (by omega) fun h => (ha h).hole hr
  rw [hu] at hloop
  refine hloop.bind ?_
  rintro root a' - ⟨⟨hroot, hlt⟩, hhole⟩
  dsimp only
  split_ifs with hlast
  · refine (gives_less hn (by omega) (by omega)).bind ?_
    rintro b _ - ⟨rfl, hb⟩
    -- the last element is the only child
    have honly : ∀ c, IsChild c root → c < u - l + 1 → c = root * 2 + 1 := by
      intro c hc hcount
      rcases hc with h | h <;> omega
    split_ifs with hless
    · refine (gives_swap hn (by omega) (by omega)).mono le_rfl le_rfl ?_
      rintro _ _ - rfl h
      have hmove := (hhole h).1.move hr hroot (.inl rfl) (by omega)
        (fun c hc hcount => honly c hc hcount ▸ h.le_refl _) (h.le_of_lt ((hb h) ▸ hless))
      exact hmove.fill fun c hc hcount => by rcases hc with h | h <;> omega
    · refine gives_pure fun h => (hhole h).1.fill fun c hc hcount => ?_
      rw [honly c hc hcount]
      exact ((hb h).symm.trans (Bool.eq_false_iff.2 hless))
  · refine gives_pure fun h => (hhole h).1.fill fun c hc hcount => ?_
    exact (hhole h).2 (by rcases hc with h | h <;> omega) c hc

/-! ### Heap sort -/

theorem gives_heapify (hn : 0 ≤ l ∧ u < n) (i : ℕ) (hi : l + i ≤ u + 1)
    (ha : Orders ask lt → HeapFrom lt l (u - l + 1) i a) :
    Gives (Orders ask lt) l u (heapify ask n l u i) a fun _ a' =>
      Orders ask lt → HeapFrom lt l (u - l + 1) 0 a' := by
  induction i generalizing a with
  | zero => exact gives_pure ha
  | succ i ih =>
    rw [heapify]
    refine (gives_siftheap hn (by omega) (by omega) ha).bind ?_
    exact fun _ a' _ h => ih (by omega) h

/-- The first element of a heap is the greatest. -/
theorem HeapFrom.le_first {count : ℤ} (ha : HeapFrom lt l count 0 a) (h : Orders ask lt) (k : ℕ)
    (hk : k < count) : Le lt (a (l + k)) (a (l + 0)) := by
  induction k using Nat.strong_induction_on with
  | _ k ih =>
    rcases Nat.eq_zero_or_pos k with rfl | hpos
    · exact h.le_refl _
    · have hparent := ih ((k - 1) / 2) (by omega) (by omega)
      refine h.le_trans (ha ((k - 1) / 2 : ℕ) k (by omega) ?_ hk) hparent
      rw [IsChild]
      omega

/-- What is left of the heap is no greater than what comes after it, which is in order. -/
structure Extracted (lt : α → α → Bool) (l u i : ℤ) (a : ℤ → α) : Prop where
  heap : HeapFrom lt l (i + 1) 0 a
  sorted : Sorted lt (l + i + 1) u a
  le : ∀ k j, l ≤ k → k ≤ l + i → l + i < j → j ≤ u → Le lt (a k) (a j)

theorem gives_extractAll (hn : 0 ≤ l ∧ u < n) (i : ℕ) (hi : l + i ≤ u)
    (ha : Orders ask lt → Extracted lt l u i a) :
    Gives (Orders ask lt) l u (extractAll ask n l i) a fun _ a' =>
      Orders ask lt → Sorted lt l u a' := by
  induction i generalizing a with
  | zero =>
    refine gives_pure fun h j k h1 h2 h3 => ?_
    have hex := ha h
    by_cases hj : j = l
    · exact hex.le j k h1 (by omega) (by omega) h3
    · exact hex.sorted j k (by omega) h2 h3
  | succ i ih =>
    rw [extractAll]
    refine (gives_swap hn (by omega) (by omega)).bind ?_
    rintro _ _ - rfl
    have hsub : l + ((i : ℤ) + 1) - 1 - l + 1 = i + 1 := by omega
    refine (((gives_siftheap (a := swapAt a l (l + (i + 1))) (u := l + ((i : ℤ) + 1) - 1) (r := 0)
      (by omega) le_rfl (by omega) fun h k c hk hc hcount => ?_).mono le_rfl (by omega)
      (R := fun _ a' => Orders ask lt → Extracted lt l u i a') ?_)).bind fun _ a' _ h => ih (by omega) h
    · -- the heap but for its first element
      rw [hsub] at hcount
      have hkc : k < c := by rcases hc with h | h <;> omega
      rw [swapAt_other _ (by omega) (by omega), swapAt_other _ (by omega) (by omega)]
      exact (ha h).heap k c (by omega) hc (by push_cast; omega)
    · intro _ a' hreorder hheap h
      have hex := ha h
      rw [hsub] at hheap
      have hfirst : ∀ k, l ≤ k → k ≤ l + ((i : ℤ) + 1) → Le lt (a k) (a l) := by
        intro k h1 h2
        obtain ⟨m, rfl⟩ : ∃ m : ℕ, k = l + m := ⟨(k - l).toNat, by omega⟩
        have := hex.heap.le_first h m (by push_cast; omega)
        rwa [Int.add_zero] at this
      -- the last element of the heap is now the greatest one, which is no greater than the rest
      have hlast : a' (l + i + 1) = a l := by
        rw [hreorder.outside (by omega), show l + (i : ℤ) + 1 = l + (i + 1) by omega, swapAt_right]
      have hrest : ∀ j, l + (i : ℤ) + 1 < j → a' j = a j := by
        intro j hj
        rw [hreorder.outside (by omega), swapAt_other _ (by omega) (by omega)]
      have hall : ∀ k, l ≤ k → k ≤ l + ((i : ℤ) + 1) - 1 → Le lt (a' k) (a l) ∧
          ∀ j, l + ((i : ℤ) + 1) < j → j ≤ u → Le lt (a' k) (a j) := by
        refine hreorder.forall (P := fun x => Le lt x (a l) ∧
          ∀ j, l + ((i : ℤ) + 1) < j → j ≤ u → Le lt x (a j)) fun k h1 h2 => ?_
        by_cases hk : k = l
        · rw [hk, swapAt_left]
          exact ⟨hfirst _ (by omega) le_rfl, fun j hj hju => hex.le _ j (by omega)
            (by push_cast; omega) (by push_cast; omega) hju⟩
        · rw [swapAt_other _ hk (by omega)]
          exact ⟨hfirst k h1 (by omega), fun j hj hju => hex.le k j h1 (by push_cast; omega)
            (by push_cast; omega) hju⟩
      refine ⟨hheap h, fun j k h1 h2 h3 => ?_, fun k j h1 h2 h3 h4 => ?_⟩
      · rw [hrest k (by omega)]
        by_cases hj : j = l + i + 1
        · rw [hj, hlast]
          exact hex.le l k le_rfl (by push_cast; omega) (by push_cast; omega) h3
        · rw [hrest j (by omega)]
          exact hex.sorted j k (by push_cast; omega) h2 h3
      · by_cases hj : j = l + i + 1
        · rw [hj, hlast]
          exact (hall k h1 (by omega)).1
        · rw [hrest j (by omega)]
          exact (hall k h1 (by omega)).2 j (by omega) h4

/-- **Heap sort sorts.** -/
theorem gives_heap (hn : 0 ≤ l ∧ u < n) (hlu : l ≤ u) :
    Gives (Orders ask lt) l u (sort_heap ask n l u) a fun _ a' =>
      Orders ask lt → Sorted lt l u a' := by
  refine (gives_heapify hn ((u - l + 1) / 2).toNat (by omega) fun h k c hk hc hcount => ?_).bind ?_
  · -- the second half has no children
    rcases hc with h | h <;> omega
  · intro _ a' _ hheap
    refine gives_extractAll hn (u - l + 1 - 1).toNat (by omega) fun h => ⟨?_, ?_, ?_⟩
    · have := hheap h
      rwa [show (((u - l + 1 - 1).toNat : ℕ) : ℤ) + 1 = u - l + 1 by omega]
    · exact fun j k h1 h2 h3 => by omega
    · exact fun k j h1 h2 h3 h4 => by omega

end TabLib

end Jaci
