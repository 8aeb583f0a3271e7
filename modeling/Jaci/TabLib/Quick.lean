import Jaci.TabLib.Heap

/-!
# Quick sort

* `Split` : what the scans have found so far;
* `gives_place` : the pivot is in its place;
* `table_sort` : **`table.sort` sorts**, and with any predicate it only reorders.
-/

namespace Jaci

namespace TabLib

variable {ε σ α : Type} {ask : σ → α → α → Except ε Bool × σ} {lt : α → α → Bool} {n : ℤ}
variable {a a' : ℤ → α} {l u : ℤ}

/-! ### Scans -/

theorem gives_scanUp {p i : ℤ} {fuel : ℕ} (hn : 0 ≤ l ∧ u < n) (hp : l ≤ p ∧ p ≤ u) (hi : l ≤ i ∧ i < u)
    (hfuel : u - i < fuel) (hu : Orders ask lt → Le lt (a p) (a u)) :
    Gives (Orders ask lt) l u (scanUp ask n u p fuel i) a fun i' a' => a = a' ∧ (i < i' ∧ i' ≤ u) ∧
      (Orders ask lt → (∀ k, i < k → k < i' → lt (a k) (a p)) ∧ Le lt (a p) (a i')) := by
  induction fuel generalizing i with
  | zero => omega
  | succ fuel ih =>
    rw [scanUp]
    refine (gives_less hn (by omega) hp).bind ?_
    rintro b _ - ⟨rfl, hb⟩
    split_ifs with hless hend
    · refine gives_throw trivial fun h => ?_
      obtain rfl : i + 1 = u := by omega
      exact absurd (((hb h).trans (hu h)).symm.trans hless) Bool.false_ne_true
    · refine (ih (by omega) (by omega)).mono le_rfl le_rfl ?_
      rintro i' _ - ⟨rfl, hrange, hscan⟩
      refine ⟨rfl, by omega, fun h => ⟨fun k h1 h2 => ?_, (hscan h).2⟩⟩
      by_cases hk : k = i + 1
      · rw [hk]
        exact (hb h).symm.trans hless
      · exact (hscan h).1 k (by omega) h2
    · refine gives_pure ⟨rfl, by omega, fun h => ⟨fun k h1 h2 => by omega, ?_⟩⟩
      exact (hb h).symm.trans (Bool.eq_false_iff.2 hless)

theorem gives_scanDown {p j : ℤ} {fuel : ℕ} (hn : 0 ≤ l ∧ u < n) (hp : l ≤ p ∧ p ≤ u)
    (hj : l < j ∧ j ≤ u) (hfuel : j - l < fuel) (hl : Orders ask lt → Le lt (a l) (a p)) :
    Gives (Orders ask lt) l u (scanDown ask n l p fuel j) a fun j' a' => a = a' ∧
      (l ≤ j' ∧ j' < j) ∧
      (Orders ask lt → (∀ k, j' < k → k < j → lt (a p) (a k)) ∧ Le lt (a j') (a p)) := by
  induction fuel generalizing j with
  | zero => omega
  | succ fuel ih =>
    rw [scanDown]
    refine (gives_less hn hp (by omega)).bind ?_
    rintro b _ - ⟨rfl, hb⟩
    split_ifs with hless hend
    · refine gives_throw trivial fun h => ?_
      obtain rfl : j - 1 = l := by omega
      exact absurd (((hb h).trans (hl h)).symm.trans hless) Bool.false_ne_true
    · refine (ih (by omega) (by omega)).mono le_rfl le_rfl ?_
      rintro j' _ - ⟨rfl, hrange, hscan⟩
      refine ⟨rfl, by omega, fun h => ⟨fun k h1 h2 => ?_, (hscan h).2⟩⟩
      by_cases hk : k = j - 1
      · rw [hk]
        exact (hb h).symm.trans hless
      · exact (hscan h).1 k h1 (by omega)
    · refine gives_pure ⟨rfl, by omega, fun h => ⟨fun k h1 h2 => by omega, ?_⟩⟩
      exact (hb h).symm.trans (Bool.eq_false_iff.2 hless)

/-! ### The partition -/

/-- Up to `i` no element is greater than the pivot, and from `j` on none is less. -/
structure Split (lt : α → α → Bool) (l u i j : ℤ) (a : ℤ → α) : Prop where
  left : ∀ k, l ≤ k → k ≤ i → Le lt (a k) (a (u - 1))
  right : ∀ k, j ≤ k → k ≤ u → Le lt (a (u - 1)) (a k)

theorem gives_partition {i j : ℤ} {fuel : ℕ} (hn : 0 ≤ l ∧ u < n) (hi : l ≤ i ∧ i < u - 1)
    (hj : l < j ∧ j ≤ u - 1) (hij : i ≤ j) (hfuel : j - i < fuel)
    (ha : Orders ask lt → Split lt l u i j a) :
    Gives (Orders ask lt) l u (partition ask n l u (u - 1) fuel i j) a fun i a' =>
      (l < i ∧ i ≤ u) ∧ (Orders ask lt → i ≤ u - 1 ∧ Split lt l u (i - 1) i a') := by
  induction fuel generalizing i j a with
  | zero => omega
  | succ fuel ih =>
    rw [partition]
    refine (gives_scanUp hn (by omega) (by omega) (by omega)
      fun h => (ha h).right u (by omega) le_rfl).bind ?_
    rintro i' _ - ⟨rfl, hi', hup⟩
    refine (gives_scanDown hn (by omega) (by omega) (by omega)
      fun h => (ha h).left l le_rfl (by omega)).bind ?_
    rintro j' _ - ⟨rfl, hj', hdown⟩
    split_ifs with hcross
    · refine gives_pure ⟨by omega, fun h => ⟨?_, fun k h1 h2 => ?_, fun k h1 h2 => ?_⟩⟩
      · -- the pivot itself ends the scan
        by_contra hgt
        have hpivot := (hup h).1 (u - 1) hi.2 (by omega)
        rw [h.irrefl] at hpivot
        exact Bool.false_ne_true hpivot
      · by_cases hk : k ≤ i
        · exact (ha h).left k h1 hk
        · exact h.le_of_lt ((hup h).1 k (by omega) (by omega))
      · by_cases hk : j ≤ k
        · exact (ha h).right k hk h2
        · exact h.le_of_lt ((hdown h).1 k (by omega) (by omega))
    · refine (gives_swap hn (by omega) (by omega)).bind ?_
      rintro _ _ - rfl
      refine ih (by omega) (by omega) (by omega) (by omega) fun h => ?_
      have hpivot : swapAt a i' j' (u - 1) = a (u - 1) := swapAt_other _ (by omega) (by omega)
      refine ⟨fun k h1 h2 => ?_, fun k h1 h2 => ?_⟩ <;> rw [hpivot]
      · by_cases hk : k = i'
        · rw [hk, swapAt_left]
          exact (hdown h).2
        · rw [swapAt_other _ hk (by omega)]
          by_cases hki : k ≤ i
          · exact (ha h).left k h1 hki
          · exact h.le_of_lt ((hup h).1 k (by omega) (by omega))
      · by_cases hk : k = j'
        · rw [hk, swapAt_right]
          exact (hup h).2
        · rw [swapAt_other _ (by omega) hk]
          by_cases hkj : j ≤ k
          · exact (ha h).right k hkj h2
          · exact h.le_of_lt ((hdown h).1 k (by omega) (by omega))

theorem gives_order2 (hn : 0 ≤ l ∧ u < n) (hlu : l < u) :
    Gives (Orders ask lt) l u (order2 ask n l u) a fun _ a' =>
      Orders ask lt → Le lt (a' l) (a' u) := by
  refine (gives_less hn (by omega) (by omega)).bind ?_
  rintro b _ - ⟨rfl, hb⟩
  split_ifs with hless
  · refine (gives_swap hn (by omega) (by omega)).mono le_rfl le_rfl ?_
    rintro _ _ - rfl h
    rw [swapAt_left, swapAt_right]
    exact h.le_of_lt ((hb h).symm.trans hless)
  · exact gives_pure fun h => (hb h).symm.trans (Bool.eq_false_iff.2 hless)

theorem gives_order3 {m : ℤ} (hn : 0 ≤ l ∧ u < n) (hm : l < m ∧ m < u)
    (ha : Orders ask lt → Le lt (a l) (a u)) :
    Gives (Orders ask lt) l u (order3 ask n l m u) a fun _ a' =>
      Orders ask lt → Le lt (a' l) (a' m) ∧ Le lt (a' m) (a' u) := by
  refine (gives_less hn (by omega) (by omega)).bind ?_
  rintro b _ - ⟨rfl, hb⟩
  split_ifs with hless
  · refine (gives_swap hn (by omega) (by omega)).mono le_rfl le_rfl ?_
    rintro _ _ - rfl h
    rw [swapAt_left, swapAt_right, swapAt_other _ (by omega) (by omega)]
    exact ⟨h.le_of_lt ((hb h).symm.trans hless), ha h⟩
  · have hle : Orders ask lt → Le lt (a l) (a m) :=
      fun h => (hb h).symm.trans (Bool.eq_false_iff.2 hless)
    refine (gives_less hn (by omega) (by omega)).bind ?_
    rintro b' _ - ⟨rfl, hb'⟩
    split_ifs with hless'
    · refine (gives_swap hn (by omega) (by omega)).mono le_rfl le_rfl ?_
      rintro _ _ - rfl h
      rw [swapAt_left, swapAt_right, swapAt_other _ (by omega) (by omega)]
      exact ⟨ha h, h.le_of_lt ((hb' h).symm.trans hless')⟩
    · exact gives_pure fun h => ⟨hle h, (hb' h).symm.trans (Bool.eq_false_iff.2 hless')⟩

/-- The pivot is in its place. -/
structure Placed (lt : α → α → Bool) (l u i : ℤ) (a : ℤ → α) : Prop where
  left : ∀ k, l ≤ k → k ≤ i - 1 → Le lt (a k) (a i)
  right : ∀ k, i + 1 ≤ k → k ≤ u → Le lt (a i) (a k)

theorem gives_place {m : ℤ} (hn : 0 ≤ l ∧ u < n) (hlu : 3 ≤ u - l) (hm : l < m ∧ m < u)
    (ha : Orders ask lt → Le lt (a l) (a m) ∧ Le lt (a m) (a u)) :
    Gives (Orders ask lt) l u (place ask n l m u) a fun i a' =>
      (l < i ∧ i ≤ u) ∧ (Orders ask lt → Placed lt l u i a') := by
  refine (gives_swap hn (by omega) (by omega)).bind ?_
  rintro _ _ - rfl
  refine (gives_partition hn (by omega) (by omega) (by omega) (by omega) fun h => ?_).bind ?_
  · refine ⟨fun k h1 h2 => ?_, fun k h1 h2 => ?_⟩ <;> rw [swapAt_right]
    · obtain rfl : k = l := by omega
      rw [swapAt_other _ (by omega) (by omega)]
      exact (ha h).1
    · by_cases hk : k = u - 1
      · rw [hk, swapAt_right]
        exact h.le_refl _
      · obtain rfl : k = u := by omega
        rw [swapAt_other _ (by omega) hk]
        exact (ha h).2
  · rintro i a' - ⟨hi, hsplit⟩
    refine (gives_swap hn (by omega) (by omega)).bind ?_
    rintro _ _ - rfl
    refine gives_pure ⟨hi, fun h => ?_⟩
    obtain ⟨hle, hleft, hright⟩ := hsplit h
    refine ⟨fun k h1 h2 => ?_, fun k h1 h2 => ?_⟩ <;> rw [swapAt_right]
    · rw [swapAt_other _ (by omega) (by omega)]
      exact hleft k h1 h2
    · by_cases hk : k = u - 1
      · rw [hk, swapAt_left]
        exact hright i le_rfl hi.2
      · rw [swapAt_other _ hk (by omega)]
        exact hright k (by omega) h2

/-! ### Recursion -/

/-- Both sides of a pivot are sorted. -/
theorem Placed.sorted {i : ℤ} (h : Placed lt l u i a) (hord : Orders ask lt)
    (hleft : Sorted lt l (i - 1) a) (hright : Sorted lt (i + 1) u a) : Sorted lt l u a := by
  intro j k h1 h2 h3
  by_cases hk : k < i
  · exact hleft j k h1 h2 (by omega)
  by_cases hj : i < j
  · exact hright j k (by omega) h2 h3
  have hji : Le lt (a j) (a i) := by
    by_cases heq : j = i
    · rw [heq]
      exact hord.le_refl _
    · exact h.left j h1 (by omega)
  have hik : Le lt (a i) (a k) := by
    by_cases heq : k = i
    · rw [heq]
      exact hord.le_refl _
    · exact h.right k (by omega) h3
  exact hord.le_trans hji hik

theorem Placed.reorder {i l' u' : ℤ} (h : Placed lt l u i a) (hr : Reorder l' u' a a')
    (hside : u' = i - 1 ∧ l' = l ∨ l' = i + 1 ∧ u' = u) : Placed lt l u i a' := by
  have hi : a' i = a i := hr.outside (by omega)
  rcases hside with ⟨rfl, rfl⟩ | ⟨rfl, rfl⟩
  · refine ⟨hi.symm ▸ hr.forall (P := fun x => Le lt x (a i)) h.left, fun k h1 h2 => ?_⟩
    rw [hi, hr.outside (by omega)]
    exact h.right k h1 h2
  · refine ⟨fun k h1 h2 => ?_, hi.symm ▸ hr.forall (P := fun x => Le lt (a i) x) h.right⟩
    rw [hi, hr.outside (by omega)]
    exact h.left k h1 h2

theorem Sorted.reorder {l' u' : ℤ} (h : Sorted lt l u a) (hr : Reorder l' u' a a')
    (hout : u < l' ∨ u' < l) : Sorted lt l u a' := by
  intro j k h1 h2 h3
  rw [hr.outside (by omega), hr.outside (by omega)]
  exact h j k h1 h2 h3

/-- **Quick sort sorts.** -/
theorem gives_sort_rec {fuel : ℕ} (hn : 0 ≤ l ∧ u < n) (hlu : l ≤ u + 1) (limit : ℤ)
    (hfuel : u - l + 1 < fuel) :
    Gives (Orders ask lt) l u (sort_rec ask n fuel l u limit) a fun _ a' =>
      Orders ask lt → Sorted lt l u a' := by
  induction fuel generalizing l u limit a with
  | zero => omega
  | succ fuel ih =>
    rw [sort_rec]
    by_cases hlt : l < u
    · rw [if_pos hlt]
      have horder2 := @gives_order2 _ _ _ ask lt _ a _ _ hn hlt
      split_ifs with hlimit htwo hthree
      · exact gives_heap hn hlt.le
      · refine horder2.bind fun _ a1 _ h1 => gives_pure fun h j k hj hjk hk => ?_
        obtain rfl : j = l := by omega
        obtain rfl : k = u := by omega
        exact h1 h
      all_goals
        refine horder2.bind fun _ a1 _ h1 => ?_
        refine (gives_order3 (m := l + (u - l) / 2) hn (by omega) h1).bind fun _ a2 _ h2 => ?_
      · refine gives_pure fun h j k hj hjk hk => ?_
        obtain ⟨hlow, hhigh⟩ := h2 h
        have hm : l + (u - l) / 2 = l + 1 := by omega
        rw [hm] at hlow hhigh
        by_cases hjl : j = l
        · by_cases hkm : k = l + 1
          · rw [hjl, hkm]
            exact hlow
          · rw [hjl, show k = u by omega]
            exact h.le_trans hlow hhigh
        · rw [show j = l + 1 by omega, show k = u by omega]
          exact hhigh
      refine (gives_place hn (by omega) (by omega) h2).bind ?_
      rintro i a3 - ⟨hi, hplaced⟩
      -- the sides are sorted one after the other, in either order
      have hleft : ∀ {a : ℤ → α} (limit : ℤ), Gives (Orders ask lt) l (i - 1)
          (sort_rec ask n fuel l (i - 1) limit) a fun _ a' =>
            Orders ask lt → Sorted lt l (i - 1) a' :=
        fun limit => ih (by omega) (by omega) limit (by omega)
      have hright : ∀ {a : ℤ → α} (limit : ℤ), Gives (Orders ask lt) (i + 1) u
          (sort_rec ask n fuel (i + 1) u limit) a fun _ a' =>
            Orders ask lt → Sorted lt (i + 1) u a' :=
        fun limit => ih (by omega) (by omega) limit (by omega)
      dsimp only
      split_ifs with hsmall
      · refine ((hleft _).mono le_rfl (by omega) (R := fun _ a' => Orders ask lt →
          Placed lt l u i a' ∧ Sorted lt l (i - 1) a') fun _ a4 hr h4 h =>
            ⟨(hplaced h).reorder hr (.inl ⟨rfl, rfl⟩), h4 h⟩).bind fun _ a4 _ h4 => ?_
        refine (hright _).mono (by omega) le_rfl fun _ a5 hr h5 h => ?_
        exact ((h4 h).1.reorder hr (.inr ⟨rfl, rfl⟩)).sorted h ((h4 h).2.reorder hr (.inl (by omega)))
          (h5 h)
      · refine ((hright _).mono (by omega) le_rfl (R := fun _ a' => Orders ask lt →
          Placed lt l u i a' ∧ Sorted lt (i + 1) u a') fun _ a4 hr h4 h =>
            ⟨(hplaced h).reorder hr (.inr ⟨rfl, rfl⟩), h4 h⟩).bind fun _ a4 _ h4 => ?_
        refine (hleft _).mono le_rfl (by omega) fun _ a5 hr h5 h => ?_
        exact ((h4 h).1.reorder hr (.inl ⟨rfl, rfl⟩)).sorted h (h5 h)
          ((h4 h).2.reorder hr (.inr (by omega)))
    · rw [if_neg hlt]
      exact gives_pure fun _ j k h1 h2 h3 => by omega

/-- **`table.sort`.**  With a strict weak order it ends without an error, with the elements below `n`
in order.  With any predicate it ends, uses no index but those of these elements, and does nothing
but reorder them. -/
theorem table_sort (ask : σ → α → α → Except ε Bool × σ) (n : ℤ) (a : ℤ → α) (o : σ) :
    (∀ lt, Orders ask lt → ∃ w, tsort ask n false ⟨a, o⟩ = .ok () w ∧ Reorder 0 (n - 1) a w.arr ∧
      Sorted lt 0 (n - 1) w.arr) ∧
    match tsort ask n false ⟨a, o⟩ with
    | .ok _ w => Reorder 0 (n - 1) a w.arr
    | .error e w => Reorder 0 (n - 1) a w.arr ∧ e.ByPredicate := by
  have hsort : ∀ lt, Gives (Orders ask lt) 0 (n - 1) (tsort ask n false) a fun _ a' =>
      Orders ask lt → Sorted lt 0 (n - 1) a' := by
    intro lt
    rw [tsort, if_neg Bool.false_ne_true]
    split_ifs with hn
    · exact gives_sort_rec ⟨le_rfl, by omega⟩ (by omega) n (by omega)
    · exact gives_pure fun _ j k h1 h2 h3 => by omega
  refine ⟨fun lt h => ?_, ?_⟩
  · have hres := hsort lt o
    cases hrun : tsort ask n false ⟨a, o⟩ with
    | ok b w =>
      rw [hrun] at hres
      exact ⟨w, rfl, hres.1, hres.2 h⟩
    | error e w =>
      rw [hrun] at hres
      exact absurd h hres.2.2
  · have hres := hsort (fun _ _ => false) o
    cases hrun : tsort ask n false ⟨a, o⟩ with
    | ok b w =>
      rw [hrun] at hres
      exact hres.1
    | error e w =>
      rw [hrun] at hres
      exact ⟨hres.1, hres.2.1⟩

/-- The numbers 3, 2 and 1 are sorted. -/
theorem table_sort_three : ∃ w : World Unit ℕ,
    tsort (ε := Empty) (fun s x y => (.ok (decide (x < y)), s)) 3 false ⟨fun i => (3 - i).toNat, ()⟩ =
      .ok () w ∧ Reorder 0 2 (fun i : ℤ => (3 - i).toNat) w.arr ∧
      Sorted (fun x y => decide (x < y)) 0 2 w.arr := by
  refine (table_sort _ 3 _ ()).1 _ ⟨fun _ _ _ => rfl, fun x => ?_, fun x y z => ?_, fun x y z => ?_⟩
  · exact decide_eq_false (lt_irrefl x)
  · simp only [decide_eq_true_eq]
    exact lt_trans
  · simp only [decide_eq_false_iff_not, Nat.not_lt]
    exact fun h1 h2 => h2.trans h1

end TabLib

end Jaci
