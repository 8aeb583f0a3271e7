import Mathlib.Algebra.Order.Group.Int
import Mathlib.Logic.Equiv.Basic
import Mathlib.Tactic.Common

/-!
# `table.sort`

The elements of the table are a function of their index.  The predicate is asked with a state of its
own, so that it may answer differently each time, and it may raise an error; it does not change the
table.  Indexes are checked: a swap or a comparison outside the elements that are sorted fails.

* `sort_less`, `sort_swap` : the two things done with the elements;
* `sort_heap` : heap sort;
* `sort_rec` : quick sort, which falls back to it;
* `tsort` : `table.sort`.
-/

namespace Jaci

namespace TabLib

/-- How a call of `table.sort` can fail. -/
inductive SortError (ε : Type) where
  /-- `invalid order function for sorting`. -/
  | invalidOrder
  | predicate (e : ε)
  /-- `attempt to modify a readonly table`. -/
  | readonly
  /-- An index is not one of the elements that are sorted. -/
  | outOfRange
  | fuel

/-- The elements, and the state of the predicate. -/
structure World (σ α : Type) where
  /-- `t->array`. -/
  arr : ℤ → α
  oracle : σ

/-- A computation that sorts: after an error the elements are as they are then. -/
abbrev Sorting (ε σ α β : Type) : Type := EStateM (SortError ε) (World σ α) β

/-- `temp = arr[i]; arr[i] = arr[j]; arr[j] = temp`. -/
def swapAt {α : Type} (a : ℤ → α) (i j : ℤ) : ℤ → α :=
  Function.update (Function.update a i (a j)) j (a i)

section Model

variable {ε σ α : Type} (ask : σ → α → α → Except ε Bool × σ) (n : ℤ)

def sort_swap (i j : ℤ) : Sorting ε σ α Unit :=
  if (0 ≤ i ∧ i < n) ∧ 0 ≤ j ∧ j < n then
    modify fun w => { w with arr := swapAt w.arr i j }
  else throw .outOfRange

/-- The predicate is called. -/
def callPredicate (x y : α) : Sorting ε σ α Bool := fun w =>
  match ask w.oracle x y with
  | (.ok b, oracle) => .ok b { w with oracle := oracle }
  | (.error e, oracle) => .error (.predicate e) { w with oracle := oracle }

def sort_less (i j : ℤ) : Sorting ε σ α Bool :=
  if (0 ≤ i ∧ i < n) ∧ 0 ≤ j ∧ j < n then do
    let w ← get
    callPredicate ask (w.arr i) (w.arr j)
  else throw .outOfRange

/-! ### Heap sort -/

/-- The loop of `sort_siftheap` over the elements with two children. -/
def siftLoop (l count : ℤ) : ℕ → ℤ → Sorting ε σ α ℤ
  | 0, _ => throw .fuel
  | fuel + 1, root =>
    if root * 2 + 2 < count then do
      let left := root * 2 + 1
      let right := root * 2 + 2
      let next := if ← sort_less ask n (l + root) (l + left) then left else root
      let next := if ← sort_less ask n (l + next) (l + right) then right else next
      if next = root then pure root
      else do
        sort_swap n (l + root) (l + next)
        siftLoop l count fuel next
    else pure root

def sort_siftheap (l u root : ℤ) : Sorting ε σ α Unit := do
  let count := u - l + 1
  let root ← siftLoop ask n l count (count.toNat + 1) root
  -- the last element has just one child
  let lastleft := root * 2 + 1
  if lastleft = count - 1 then
    if ← sort_less ask n (l + root) (l + lastleft) then sort_swap n (l + root) (l + lastleft)

/-- The first loop of `sort_heap`, for the `i` elements that are left. -/
def heapify (l u : ℤ) : ℕ → Sorting ε σ α Unit
  | 0 => pure ()
  | i + 1 => do
    sort_siftheap ask n l u i
    heapify l u i

/-- The second loop of `sort_heap`. -/
def extractAll (l : ℤ) : ℕ → Sorting ε σ α Unit
  | 0 => pure ()
  | i + 1 => do
    sort_swap n l (l + (i + 1))
    sort_siftheap ask n l (l + (i + 1) - 1) 0
    extractAll l i

def sort_heap (l u : ℤ) : Sorting ε σ α Unit := do
  let count := u - l + 1
  heapify ask n l u (count / 2).toNat
  extractAll ask n l (count - 1).toNat

/-! ### Quick sort -/

/-- `while (sort_less(L, t, ++i, p, pred))`. -/
def scanUp (u p : ℤ) : ℕ → ℤ → Sorting ε σ α ℤ
  | 0, _ => throw .fuel
  | fuel + 1, i => do
    let i := i + 1
    if ← sort_less ask n i p then
      if i ≥ u then throw .invalidOrder else scanUp u p fuel i
    else pure i

/-- `while (sort_less(L, t, p, --j, pred))`. -/
def scanDown (l p : ℤ) : ℕ → ℤ → Sorting ε σ α ℤ
  | 0, _ => throw .fuel
  | fuel + 1, j => do
    let j := j - 1
    if ← sort_less ask n p j then
      if j ≤ l then throw .invalidOrder else scanDown l p fuel j
    else pure j

/-- The loop of `sort_rec` that moves the elements to their sides. -/
def partition (l u p : ℤ) : ℕ → ℤ → ℤ → Sorting ε σ α ℤ
  | 0, _, _ => throw .fuel
  | fuel + 1, i, j => do
    let i ← scanUp ask n u p ((u - l).toNat + 1) i
    let j ← scanDown ask n l p ((u - l).toNat + 1) j
    if j < i then pure i
    else do
      sort_swap n i j
      partition l u p fuel i j

/-- `a[l]` and `a[u]` are put into order. -/
def order2 (l u : ℤ) : Sorting ε σ α Unit := do
  if ← sort_less ask n u l then sort_swap n u l

/-- `a[m]` is put between them. -/
def order3 (l m u : ℤ) : Sorting ε σ α Unit := do
  if ← sort_less ask n m l then sort_swap n m l
  else if ← sort_less ask n u m then sort_swap n m u

/-- The pivot, which is at `m`, gets to its place. -/
def place (l m u : ℤ) : Sorting ε σ α ℤ := do
  let p := u - 1
  sort_swap n m (u - 1)
  let i ← partition ask n l u p ((u - l).toNat + 1) l (u - 1)
  sort_swap n p i
  return i

/-- `sort_rec`; the loop goes on with the larger half. -/
def sort_rec : ℕ → ℤ → ℤ → ℤ → Sorting ε σ α Unit
  | 0, _, _, _ => throw .fuel
  | fuel + 1, l, u, limit =>
    if l < u then
      if limit = 0 then sort_heap ask n l u
      else do
        order2 ask n l u
        if u - l = 1 then pure ()
        else do
          let m := l + (u - l) / 2
          order3 ask n l m u
          if u - l = 2 then pure ()
          else do
            let i ← place ask n l m u
            let limit := limit / 2 + limit / 4
            if i - l < u - i then do
              sort_rec fuel l (i - 1) limit
              sort_rec fuel (i + 1) u limit
            else do
              sort_rec fuel (i + 1) u limit
              sort_rec fuel l (i - 1) limit
    else pure ()

/-- `tsort`, where `n` is `luaH_getn(t)`. -/
def tsort (isReadonly : Bool) : Sorting ε σ α Unit :=
  if isReadonly then throw .readonly
  else if n > 0 then sort_rec ask n (n.toNat + 1) 0 (n - 1) n
  else pure ()

end Model

/-! ### Reordering -/

section Reorder

variable {α : Type} {l u : ℤ} {a a' a'' : ℤ → α}

@[simp] theorem swapAt_right (a : ℤ → α) (i j : ℤ) : swapAt a i j j = a i := Function.update_self ..

@[simp] theorem swapAt_left (a : ℤ → α) (i j : ℤ) : swapAt a i j i = a j := by
  rw [swapAt]
  by_cases h : i = j
  · rw [h, Function.update_self]
  · rw [Function.update_of_ne h, Function.update_self]

theorem swapAt_other (a : ℤ → α) {i j k : ℤ} (hi : k ≠ i) (hj : k ≠ j) : swapAt a i j k = a k := by
  rw [swapAt, Function.update_of_ne hj, Function.update_of_ne hi]

/-- The elements from `l` to `u` are reordered, and no others. -/
def Reorder (l u : ℤ) (a a' : ℤ → α) : Prop :=
  ∃ π : Equiv.Perm ℤ, (∀ i, i < l ∨ u < i → π i = i) ∧ a' = a ∘ π

theorem Reorder.refl : Reorder l u a a := ⟨Equiv.refl _, fun _ _ => rfl, rfl⟩

theorem Reorder.trans (h : Reorder l u a a') (h' : Reorder l u a' a'') : Reorder l u a a'' := by
  obtain ⟨π, hπ, rfl⟩ := h
  obtain ⟨ρ, hρ, rfl⟩ := h'
  refine ⟨ρ.trans π, fun i hi => ?_, rfl⟩
  rw [Equiv.trans_apply, hρ i hi, hπ i hi]

theorem Reorder.mono {l' u' : ℤ} (h : Reorder l u a a') (hl : l' ≤ l) (hu : u ≤ u') :
    Reorder l' u' a a' := by
  obtain ⟨π, hπ, rfl⟩ := h
  exact ⟨π, fun i hi => hπ i (hi.imp (fun h => by omega) fun h => by omega), rfl⟩

theorem reorder_swap {i j : ℤ} (hi : l ≤ i ∧ i ≤ u) (hj : l ≤ j ∧ j ≤ u) :
    Reorder l u a (swapAt a i j) := by
  refine ⟨Equiv.swap i j, fun k hk => Equiv.swap_apply_of_ne_of_ne (by omega) (by omega), ?_⟩
  funext k
  rw [Function.comp_apply, swapAt]
  by_cases hkj : k = j
  · rw [hkj, Function.update_self, Equiv.swap_apply_right]
  · rw [Function.update_of_ne hkj]
    by_cases hki : k = i
    · rw [hki, Function.update_self, Equiv.swap_apply_left]
    · rw [Function.update_of_ne hki, Equiv.swap_apply_of_ne_of_ne hki hkj]

theorem Reorder.outside (h : Reorder l u a a') {k : ℤ} (hk : k < l ∨ u < k) : a' k = a k := by
  obtain ⟨π, hπ, rfl⟩ := h
  rw [Function.comp_apply, hπ k hk]

/-- What holds of all elements of the range holds after it. -/
theorem Reorder.forall (h : Reorder l u a a') {P : α → Prop} (hP : ∀ k, l ≤ k → k ≤ u → P (a k)) :
    ∀ k, l ≤ k → k ≤ u → P (a' k) := by
  obtain ⟨π, hπ, rfl⟩ := h
  intro k h1 h2
  have hin : ¬(π k < l ∨ u < π k) := by
    intro hout
    have := π.injective (hπ _ hout)
    omega
  exact hP _ (by omega) (by omega)

end Reorder

/-! ### What a computation gives -/

section Gives

variable {ε σ α : Type}

/-- The answers of the predicate are those of a strict weak order. -/
structure Orders (ask : σ → α → α → Except ε Bool × σ) (lt : α → α → Bool) : Prop where
  /-- It answers with the order, whatever its state is. -/
  answers : ∀ s x y, (ask s x y).1 = .ok (lt x y)
  irrefl : ∀ x, lt x x = false
  trans : ∀ x y z, lt x y → lt y z → lt x z
  negTrans : ∀ x y z, lt x y = false → lt y z = false → lt x z = false

/-- An error that a predicate can cause. -/
def SortError.ByPredicate : SortError ε → Prop
  | .invalidOrder => True
  | .predicate _ => True
  | _ => False

variable {β γ : Type} {H : Prop} {l u : ℤ} {a : ℤ → α}

/-- Only elements from `l` to `u` are reordered; the result and the elements are as said, or the
predicate causes an error, which it does not do under `H`. -/
def Gives (H : Prop) (l u : ℤ) (m : Sorting ε σ α β) (a : ℤ → α) (Q : β → (ℤ → α) → Prop) : Prop :=
  ∀ o, match m ⟨a, o⟩ with
    | .ok b w => Reorder l u a w.arr ∧ Q b w.arr
    | .error e w => Reorder l u a w.arr ∧ e.ByPredicate ∧ ¬H

theorem gives_pure {Q : β → (ℤ → α) → Prop} {b : β} (h : Q b a) :
    Gives H l u (pure b : Sorting ε σ α β) a Q := fun _ => ⟨.refl, h⟩

theorem gives_throw {Q : β → (ℤ → α) → Prop} {e : SortError ε} (he : e.ByPredicate) (h : ¬H) :
    Gives H l u (throw e : Sorting ε σ α β) a Q := fun _ => ⟨.refl, he, h⟩

/-- The rule of sequences. -/
theorem Gives.bind {m : Sorting ε σ α β} {f : β → Sorting ε σ α γ} {Q : β → (ℤ → α) → Prop}
    {R : γ → (ℤ → α) → Prop} (hm : Gives H l u m a Q)
    (hf : ∀ b a', Reorder l u a a' → Q b a' → Gives H l u (f b) a' R) :
    Gives H l u (m >>= f) a R := by
  intro o
  have h := hm o
  rw [show (m >>= f) ⟨a, o⟩ = EStateM.bind m f ⟨a, o⟩ from rfl, EStateM.bind]
  cases hres : m ⟨a, o⟩ with
  | error e w =>
    rw [hres] at h
    exact h
  | ok b w =>
    rw [hres] at h
    have h' := hf b w.arr h.1 h.2 w.oracle
    dsimp only
    cases hres' : f b w with
    | error e w' =>
      rw [show (⟨w.arr, w.oracle⟩ : World σ α) = w from rfl, hres'] at h'
      exact ⟨h.1.trans h'.1, h'.2⟩
    | ok c w' =>
      rw [show (⟨w.arr, w.oracle⟩ : World σ α) = w from rfl, hres'] at h'
      exact ⟨h.1.trans h'.1, h'.2⟩

theorem Gives.mono {m : Sorting ε σ α β} {Q R : β → (ℤ → α) → Prop} {l' u' : ℤ}
    (h : Gives H l u m a Q) (hl : l' ≤ l) (hu : u ≤ u')
    (hQ : ∀ b a', Reorder l u a a' → Q b a' → R b a') : Gives H l' u' m a R := by
  intro o
  have h := h o
  cases hres : m ⟨a, o⟩ with
  | error e w =>
    rw [hres] at h
    exact ⟨h.1.mono hl hu, h.2⟩
  | ok b w =>
    rw [hres] at h
    exact ⟨h.1.mono hl hu, hQ b _ h.1 h.2⟩

variable {ask : σ → α → α → Except ε Bool × σ} {lt : α → α → Bool} {n i j : ℤ}

theorem gives_swap (hn : 0 ≤ l ∧ u < n) (hi : l ≤ i ∧ i ≤ u) (hj : l ≤ j ∧ j ≤ u) :
    Gives H l u (sort_swap n i j : Sorting ε σ α Unit) a
      (fun _ a' => a' = swapAt a i j) := by
  intro o
  rw [sort_swap, if_pos ⟨⟨by omega, by omega⟩, by omega, by omega⟩]
  exact ⟨reorder_swap hi hj, rfl⟩

theorem gives_less (hn : 0 ≤ l ∧ u < n) (hi : l ≤ i ∧ i ≤ u) (hj : l ≤ j ∧ j ≤ u) :
    Gives (Orders ask lt) l u (sort_less ask n i j) a
      (fun b a' => a = a' ∧ (Orders ask lt → b = lt (a i) (a j))) := by
  intro o
  rw [sort_less, if_pos ⟨⟨by omega, by omega⟩, by omega, by omega⟩]
  rw [show (get >>= fun w : World σ α => callPredicate ask (w.arr i) (w.arr j)) ⟨a, o⟩ =
    callPredicate ask (a i) (a j) ⟨a, o⟩ from rfl, callPredicate]
  rcases hask : ask o (a i) (a j) with ⟨e | b, oracle⟩
  · refine ⟨.refl, trivial, fun h => ?_⟩
    have := h.answers o (a i) (a j)
    rw [hask] at this
    cases this
  · refine ⟨.refl, rfl, fun h => ?_⟩
    have := h.answers o (a i) (a j)
    rw [hask] at this
    exact Except.ok.inj this

end Gives

end TabLib

end Jaci
