import Jaci.Table.Rehash

/-!
# Resizes whose allocations fail

`resize` allocates the array part, the nodes, and the array part once more when it is cut.  Here
the allocations succeed a number of times and then fail; the error is raised out of `resize`, and
nothing is undone.

* `Failing.resize` : `resize` once more, counting its allocations;
* `Failing.newkey_sound` : as long as no allocation fails, this is what `Table.newkey` does;
* `Failing.Failed` : the tables that a failed allocation leaves, if no insertion rehashes;
* `Failing.resize_atomic_iff` : when the table still holds what it held.
-/

namespace Jaci

namespace Table

variable {σ π ω V : Type}

/-- What is raised. -/
inductive Raised where
  | error (e : TableError)
  | memory
deriving DecidableEq

namespace Failing

/-! ### The source -/

/-- The type of `newkey`; the last argument and result count the allocations that succeed. -/
abbrev NewKey (σ π ω V : Type) :=
  LuaTable (Key σ π ω) V → Key σ π ω → ℕ → Except Raised (Slot × ℕ) × LuaTable (Key σ π ω) V

/-- An allocation, and what is done with the block. -/
def allocate {K : Type} (t : LuaTable K V) (n : ℕ) (f : LuaTable K V → LuaTable K V) :
    Except Raised ℕ × LuaTable K V :=
  match n with
  | 0 => (.error .memory, t)
  | n + 1 => (.ok n, f t)

/-- `setarrayvector`, if the array part grows. -/
def growarray (t : LuaTable (Key σ π ω) V) (nasize n : ℕ) :
    Except Raised ℕ × LuaTable (Key σ π ω) V :=
  if nasize > t.sizearray then allocate t n fun t => setarrayvector t nasize else (.ok n, t)

/-- `setnodevector`: the common `dummynode` is not allocated. -/
def setnodevector (t : LuaTable (Key σ π ω) V) (nhsize n : ℕ) :
    Except Raised ℕ × LuaTable (Key σ π ω) V :=
  if nhsize = 0 then (.ok n, Table.setnodevector t nhsize)
  else allocate t n fun t => Table.setnodevector t nhsize

/-- The block of the array part is cut; no block at all is not allocated. -/
def shrinkarray (t : LuaTable (Key σ π ω) V) (oldasize nasize n : ℕ) :
    Except Raised ℕ × LuaTable (Key σ π ω) V :=
  let f t := { t with array := reallocarray t.array oldasize nasize }
  if nasize = 0 then (.ok n, f t) else allocate t n f

def arrayornewkey (newkey : NewKey σ π ω V) : NewKey σ π ω V := fun t key n =>
  let k := arrayindex key
  if 1 ≤ k ∧ k ≤ t.sizearray then (.ok (.array (k - 1).toNat, n), t) else newkey t key n

/-- Insert a key and assign its value. -/
def migrate (newkey : NewKey σ π ω V) (t : LuaTable (Key σ π ω) V) (key : Key σ π ω) (v : V) (n : ℕ) :
    Except Raised ℕ × LuaTable (Key σ π ω) V :=
  match newkey t key n with
  | (.ok (s, n), t) => (.ok n, t.assign s (some v))
  | (.error e, t) => (.error e, t)

/-- The loop of `resize` over the vanishing slice. -/
def migrateSlice (newkey : NewKey σ π ω V) :
    ℕ → ℕ → LuaTable (Key σ π ω) V → ℕ → Except Raised ℕ × LuaTable (Key σ π ω) V
  | 0, _, t, n => (.ok n, t)
  | turns + 1, i, t, n =>
    match t.arrayAt i with
    | none => migrateSlice newkey turns (i + 1) t n
    | some v =>
      match migrate newkey t (.number (i + 1)) v n with
      | (.ok n, t) => migrateSlice newkey turns (i + 1) t n
      | (.error e, t) => (.error e, t)

/-- The loop of `resize` over the old nodes. -/
def migrateNodes (newkey : NewKey σ π ω V) (nold : ℕ → Node (Key σ π ω) V) :
    ℕ → LuaTable (Key σ π ω) V → ℕ → Except Raised ℕ × LuaTable (Key σ π ω) V
  | 0, t, n => (.ok n, t)
  | i + 1, t, n =>
    match (nold i).val, (nold i).key with
    | some v, some key =>
      match migrate (arrayornewkey newkey) t key v n with
      | (.ok n, t) => migrateNodes newkey nold i t n
      | (.error e, t) => (.error e, t)
    | _, _ => migrateNodes newkey nold i t n

/-- The part of `resize` after the new nodes are there. -/
def migrateAll (newkey : NewKey σ π ω V) (told t : LuaTable (Key σ π ω) V) (nasize n : ℕ) :
    Except Raised ℕ × LuaTable (Key σ π ω) V :=
  if nasize < told.sizearray then
    match migrateSlice newkey (told.sizearray - nasize) nasize { t with sizearray := nasize } n with
    | (.error e, t) => (.error e, t)
    | (.ok n, t) =>
      match shrinkarray t told.sizearray nasize n with
      | (.error e, t) => (.error e, t)
      | (.ok n, t) => migrateNodes newkey told.node told.sizenode t n
  else migrateNodes newkey told.node told.sizenode t n

def resize (newkey : NewKey σ π ω V) (t : LuaTable (Key σ π ω) V) (nasize nhsize n : ℕ) :
    Except Raised ℕ × LuaTable (Key σ π ω) V :=
  if nasize > MAXSIZE ∨ nhsize > MAXSIZE then (.error (.error .overflow), t)
  else
    match growarray t nasize n with
    | (.error e, t) => (.error e, t)
    | (.ok n, t') =>
      match setnodevector t' nhsize n with
      | (.error e, t) => (.error e, t)
      | (.ok n, t') => migrateAll newkey t t' nasize n

section Insert

variable [DecidableEq σ] [DecidableEq π] [DecidableEq ω] (hash : Key σ π ω → ℕ)

/-- `rehash`, followed by the insertion of the extra key. -/
def rehashAndInsert (newkey : NewKey σ π ω V) : NewKey σ π ω V := fun t ek n =>
  let (nasize, nh) := rehashSizes hash t ek
  match resize newkey t nasize nh n with
  | (.error e, t) => (.error e, t)
  | (.ok n, t) => arrayornewkey newkey t ek n

def newkey : ℕ → NewKey σ π ω V
  | 0 => fun t _ _ => (.error (.error .depth), t)
  | depth + 1 => fun t key n =>
    if key = .number (t.sizearray + 1) then rehashAndInsert hash (newkey depth) t key n
    else
      match insertNode hash t key with
      | (some i, t) => (.ok (.node i, n), t)
      | (none, t) => rehashAndInsert hash (newkey depth) t key n

end Insert

/-! ### As long as no allocation fails -/

section Sound

variable {nk : NewKey σ π ω V} {nk' : Table.NewKey σ π ω V} {t t' : LuaTable (Key σ π ω) V}

/-- What an insertion that succeeds does is what `Table.newkey` does. -/
def Follows (nk : NewKey σ π ω V) (nk' : Table.NewKey σ π ω V) : Prop :=
  ∀ t key n s m t', nk t key n = (.ok (s, m), t') → nk' t key = (.ok s, t')

theorem Follows.arrayornewkey (h : Follows nk nk') :
    Follows (arrayornewkey nk) (Table.arrayornewkey nk') := by
  intro t key n s m t' he
  simp only [Failing.arrayornewkey] at he
  simp only [Table.arrayornewkey]
  split_ifs at he ⊢
  · simp only [Prod.mk.injEq, Except.ok.injEq] at he
    obtain ⟨⟨rfl, -⟩, rfl⟩ := he
    rfl
  · exact h _ _ _ _ _ _ he

theorem Follows.migrate (h : Follows nk nk') {key : Key σ π ω} {v : V} {n m : ℕ}
    (he : migrate nk t key v n = (.ok m, t')) : Table.migrate nk' t key v = (.ok (), t') := by
  rw [Failing.migrate] at he
  rw [Table.migrate]
  cases hr : nk t key n with
  | mk r t₁ =>
  rw [hr] at he
  cases r with
  | error e => simp at he
  | ok p =>
    rw [h _ _ _ _ _ _ hr]
    simp only [Prod.mk.injEq] at he
    simp only [he.2]

theorem Follows.migrateSlice (h : Follows nk nk') {turns i n m : ℕ}
    (he : migrateSlice nk turns i t n = (.ok m, t')) :
    Table.migrateSlice nk' turns i t = (.ok (), t') := by
  induction turns generalizing i t n with
  | zero =>
    simp only [Failing.migrateSlice, Prod.mk.injEq] at he
    rw [he.2.symm]
    rfl
  | succ turns ih =>
    rw [Failing.migrateSlice] at he
    rw [Table.migrateSlice]
    cases hv : t.arrayAt i with
    | none =>
      simp only [hv] at he
      exact ih he
    | some v =>
      simp only [hv] at he
      cases hr : Failing.migrate nk t (.number (i + 1)) v n with
      | mk r t₁ =>
      rw [hr] at he
      cases r with
      | error e => simp at he
      | ok n' =>
        simp only [h.migrate hr]
        exact ih he

theorem Follows.migrateNodes (h : Follows nk nk') {nold : ℕ → Node (Key σ π ω) V} {i n m : ℕ}
    (he : migrateNodes nk nold i t n = (.ok m, t')) :
    Table.migrateNodes nk' nold i t = (.ok (), t') := by
  induction i generalizing t n with
  | zero =>
    simp only [Failing.migrateNodes, Prod.mk.injEq] at he
    rw [he.2.symm]
    rfl
  | succ i ih =>
    rw [Failing.migrateNodes] at he
    rw [Table.migrateNodes]
    cases hv : (nold i).val with
    | none =>
      simp only [hv] at he
      exact ih he
    | some v =>
      cases hk : (nold i).key with
      | none =>
        simp only [hv, hk] at he
        exact ih he
      | some k =>
        simp only [hv, hk] at he
        cases hr : Failing.migrate (Failing.arrayornewkey nk) t k v n with
        | mk r t₁ =>
        rw [hr] at he
        cases r with
        | error e => simp at he
        | ok n' =>
          simp only [h.arrayornewkey.migrate hr]
          exact ih he

theorem growarray_ok {nasize n m : ℕ} (he : growarray t nasize n = (.ok m, t')) :
    t' = if nasize > t.sizearray then Table.setarrayvector t nasize else t := by
  rw [growarray] at he
  split_ifs at he ⊢
  · cases n with
    | zero => simp [allocate] at he
    | succ n => exact (Prod.mk.inj he).2.symm
  · exact (Prod.mk.inj he).2.symm

theorem setnodevector_ok {nhsize n m : ℕ} (he : setnodevector t nhsize n = (.ok m, t')) :
    t' = Table.setnodevector t nhsize := by
  rw [setnodevector] at he
  split_ifs at he
  · exact (Prod.mk.inj he).2.symm
  · cases n with
    | zero => simp [allocate] at he
    | succ n => exact (Prod.mk.inj he).2.symm

theorem shrinkarray_ok {oldasize nasize n m : ℕ}
    (he : shrinkarray t oldasize nasize n = (.ok m, t')) :
    t' = { t with array := reallocarray t.array oldasize nasize } := by
  simp only [shrinkarray] at he
  split_ifs at he
  · exact (Prod.mk.inj he).2.symm
  · cases n with
    | zero => simp [allocate] at he
    | succ n => exact (Prod.mk.inj he).2.symm

theorem Follows.migrateAll (h : Follows nk nk') {told : LuaTable (Key σ π ω) V} {nasize n m : ℕ}
    (he : migrateAll nk told t nasize n = (.ok m, t')) :
    Table.migrateAll nk' told t nasize = (.ok (), t') := by
  rw [Failing.migrateAll] at he
  rw [Table.migrateAll]
  by_cases hlt : nasize < told.sizearray
  · rw [if_pos hlt] at he ⊢
    cases hs : Failing.migrateSlice nk (told.sizearray - nasize) nasize { t with sizearray := nasize } n with
    | mk r t₁ =>
    rw [hs] at he
    cases r with
    | error e => simp at he
    | ok n₁ =>
      rw [h.migrateSlice hs]
      cases hc : shrinkarray t₁ told.sizearray nasize n₁ with
      | mk r t₂ =>
      simp only [hc] at he
      cases r with
      | error e => simp at he
      | ok n₂ =>
        obtain rfl := shrinkarray_ok hc
        exact h.migrateNodes he
  · rw [if_neg hlt] at he ⊢
    exact h.migrateNodes he

theorem Follows.resize (h : Follows nk nk') {nasize nhsize n m : ℕ}
    (he : resize nk t nasize nhsize n = (.ok m, t')) :
    Table.resize nk' t nasize nhsize = (.ok (), t') := by
  rw [Failing.resize] at he
  rw [Table.resize]
  by_cases hbig : nasize > MAXSIZE ∨ nhsize > MAXSIZE
  · rw [if_pos hbig] at he
    simp at he
  · rw [if_neg hbig] at he ⊢
    cases hg : growarray t nasize n with
    | mk r t₁ =>
    rw [hg] at he
    cases r with
    | error e => simp at he
    | ok n₁ =>
      cases hs : setnodevector t₁ nhsize n₁ with
      | mk r t₂ =>
      simp only [hs] at he
      cases r with
      | error e => simp at he
      | ok n₂ =>
        obtain rfl := setnodevector_ok hs
        obtain rfl := growarray_ok hg
        exact h.migrateAll he

variable [DecidableEq σ] [DecidableEq π] [DecidableEq ω] {hash : Key σ π ω → ℕ}

theorem Follows.rehashAndInsert (h : Follows nk nk') :
    Follows (rehashAndInsert hash nk) (Table.rehashAndInsert hash nk') := by
  intro t ek n s m t' he
  simp only [Failing.rehashAndInsert] at he
  simp only [Table.rehashAndInsert]
  cases hr : Failing.resize nk t (rehashSizes hash t ek).1 (rehashSizes hash t ek).2 n with
  | mk r t₁ =>
  rw [hr] at he
  cases r with
  | error e => simp at he
  | ok n₁ =>
    rw [h.resize hr]
    exact h.arrayornewkey _ _ _ _ _ _ he

theorem newkey_succ (depth : ℕ) (t : LuaTable (Key σ π ω) V) (key : Key σ π ω) (n : ℕ) :
    newkey hash (depth + 1) t key n =
      if key = .number (t.sizearray + 1) then rehashAndInsert hash (newkey hash depth) t key n
      else
        match insertNode hash t key with
        | (some i, t) => (.ok (.node i, n), t)
        | (none, t) => rehashAndInsert hash (newkey hash depth) t key n := rfl

/-- As long as no allocation fails, an insertion does what `Table.newkey` does. -/
theorem newkey_follows (depth : ℕ) :
    Follows (V := V) (newkey hash depth) (Table.newkey hash depth) := by
  induction depth with
  | zero =>
    intro t key n s m t' he
    simp [newkey] at he
  | succ depth ih =>
    intro t key n s m t' he
    rw [newkey_succ] at he
    rw [Table.newkey_succ]
    split_ifs at he ⊢
    · exact ih.rehashAndInsert _ _ _ _ _ _ he
    · cases hi : insertNode hash t key with
      | mk o t₁ =>
      rw [hi] at he
      cases o with
      | some i =>
        simp only [Prod.mk.injEq, Except.ok.injEq] at he
        obtain ⟨⟨rfl, -⟩, rfl⟩ := he
        rfl
      | none => exact ih.rehashAndInsert _ _ _ _ _ _ he

/-! ### Insertions that do not rehash -/

theorem newkey_of_checked {key : Key σ π ω} {s : Slot} (h : Checked.newkey hash t key = .ok (s, t'))
    (depth n : ℕ) : newkey hash (depth + 1) t key n = (.ok (s, n), t') := by
  rw [Checked.newkey] at h
  rw [newkey_succ]
  split_ifs at h ⊢ with hb
  obtain ⟨⟨o, t₁⟩, hr, h⟩ := Checked.exists_of_bind h
  rw [Checked.insertNode_sound hr]
  cases o with
  | none => exact absurd h (by simp [throw, throwThe, MonadExceptOf.throw])
  | some i =>
    obtain ⟨rfl, rfl⟩ := Prod.mk.inj (Except.ok.inj h)
    rfl

theorem arrayornewkey_of_checked {key : Key σ π ω} {s : Slot}
    (h : Checked.arrayornewkey hash t key = .ok (s, t')) (depth n : ℕ) :
    arrayornewkey (newkey hash (depth + 1)) t key n = (.ok (s, n), t') := by
  simp only [Checked.arrayornewkey] at h
  simp only [arrayornewkey]
  split_ifs at h ⊢
  · obtain ⟨rfl, rfl⟩ := Prod.mk.inj (Except.ok.inj h)
    rfl
  · exact newkey_of_checked h depth n

theorem migrateSlice_of_checked {turns i : ℕ} (h : Checked.migrateSlice hash turns i t = .ok t')
    (depth n : ℕ) : migrateSlice (newkey hash (depth + 1)) turns i t n = (.ok n, t') := by
  induction turns generalizing i t with
  | zero =>
    obtain rfl := Except.ok.inj h
    rfl
  | succ turns ih =>
    rw [Checked.migrateSlice] at h
    rw [migrateSlice]
    obtain ⟨v, hv, h⟩ := Checked.exists_of_bind h
    obtain rfl := Checked.slotAt_ok hv
    simp only [Int.toNat_natCast] at h
    cases hv : t.arrayAt i with
    | none =>
      rw [hv] at h
      exact ih h
    | some v =>
      rw [hv] at h
      obtain ⟨⟨s, t₁⟩, hr, h⟩ := Checked.exists_of_bind h
      obtain ⟨t₂, hs, h⟩ := Checked.exists_of_bind h
      obtain rfl := Checked.store_sound hs
      simp only [migrate, newkey_of_checked hr depth n]
      exact ih h

theorem migrateNodes_of_checked {told : LuaTable (Key σ π ω) V} {i : ℕ}
    (h : Checked.migrateNodes hash told i t = .ok t') (depth n : ℕ) :
    migrateNodes (newkey hash (depth + 1)) told.node i t n = (.ok n, t') := by
  induction i generalizing t with
  | zero =>
    obtain rfl := Except.ok.inj h
    rfl
  | succ i ih =>
    rw [Checked.migrateNodes] at h
    rw [migrateNodes]
    obtain ⟨nd, hnd, h⟩ := Checked.exists_of_bind h
    obtain rfl := Checked.nodeAt_ok hnd
    simp only [Int.toNat_natCast] at h
    cases hv : (told.node i).val with
    | none =>
      simp only [hv] at h
      exact ih h
    | some v =>
      cases hk : (told.node i).key with
      | none =>
        simp only [hv, hk] at h
        exact ih h
      | some k =>
        simp only [hv, hk] at h
        obtain ⟨⟨s, t₁⟩, hr, h⟩ := Checked.exists_of_bind h
        obtain ⟨t₂, hs, h⟩ := Checked.exists_of_bind h
        obtain rfl := Checked.store_sound hs
        simp only [migrate, arrayornewkey_of_checked hr depth n]
        exact ih h

end Sound

/-! ### What a failed allocation leaves -/

section Failed

variable [DecidableEq σ] [DecidableEq π] [DecidableEq ω] {hash : Key σ π ω → ℕ}
  {t t' : LuaTable (Key σ π ω) V} {k : Key σ π ω} {nasize nhsize n : ℕ}

/-- The tables that a failed allocation of `resize` leaves if no insertion rehashes, and the
number of allocations before it. -/
inductive Failed (hash : Key σ π ω → ℕ) (t : LuaTable (Key σ π ω) V) (nasize nhsize : ℕ) :
    ℕ → LuaTable (Key σ π ω) V → Prop where
  | array : t.sizearray < nasize → Failed hash t nasize nhsize 0 t
  | nodes : nhsize ≠ 0 → Failed hash t nasize nhsize (if t.sizearray < nasize then 1 else 0)
    (if nasize > t.sizearray then Table.setarrayvector t nasize else t)
  /-- The array part cannot be cut, and the old nodes are lost. -/
  | shrink {t' : LuaTable (Key σ π ω) V} : nasize < t.sizearray → nasize ≠ 0 → Moving hash t (nodePend t t.sizenode) t' →
    Failed hash t nasize nhsize (if nhsize = 0 then 0 else 1) t'

omit [DecidableEq σ] [DecidableEq π] [DecidableEq ω] in
theorem growarray_cases (t : LuaTable (Key σ π ω) V) (nasize n : ℕ) :
    (growarray t nasize n = (.error .memory, t) ∧ t.sizearray < nasize ∧ n = 0) ∨
    ∃ m, growarray t nasize n =
        (.ok m, if nasize > t.sizearray then Table.setarrayvector t nasize else t) ∧
      n = m + if t.sizearray < nasize then 1 else 0 := by
  rw [growarray]
  by_cases hgt : nasize > t.sizearray
  · rw [if_pos hgt, if_pos hgt, if_pos hgt]
    cases n with
    | zero => exact .inl ⟨rfl, hgt, rfl⟩
    | succ n => exact .inr ⟨n, rfl, rfl⟩
  · rw [if_neg hgt, if_neg hgt, if_neg hgt]
    exact .inr ⟨n, rfl, rfl⟩

omit [DecidableEq σ] [DecidableEq π] [DecidableEq ω] in
theorem setnodevector_cases (t : LuaTable (Key σ π ω) V) (nhsize n : ℕ) :
    (setnodevector t nhsize n = (.error .memory, t) ∧ nhsize ≠ 0 ∧ n = 0) ∨
    ∃ m, setnodevector t nhsize n = (.ok m, Table.setnodevector t nhsize) ∧
      n = m + if nhsize = 0 then 0 else 1 := by
  rw [setnodevector]
  by_cases h0 : nhsize = 0
  · rw [if_pos h0, if_pos h0]
    exact .inr ⟨n, rfl, rfl⟩
  · rw [if_neg h0, if_neg h0]
    cases n with
    | zero => exact .inl ⟨rfl, h0, rfl⟩
    | succ n => exact .inr ⟨n, rfl, rfl⟩

omit [DecidableEq σ] [DecidableEq π] [DecidableEq ω] in
theorem shrinkarray_cases (t : LuaTable (Key σ π ω) V) (oldasize nasize n : ℕ) :
    (shrinkarray t oldasize nasize n = (.error .memory, t) ∧ nasize ≠ 0 ∧ n = 0) ∨
    ∃ m, shrinkarray t oldasize nasize n =
      (.ok m, { t with array := reallocarray t.array oldasize nasize }) := by
  simp only [shrinkarray]
  by_cases h0 : nasize = 0
  · rw [if_pos h0]
    exact .inr ⟨n, rfl⟩
  · rw [if_neg h0]
    cases n with
    | zero => exact .inl ⟨rfl, h0, rfl⟩
    | succ n => exact .inr ⟨n, rfl⟩

/-- A resize that fits: one of its allocations fails, or it is done. -/
theorem resize_fits (h : Good hash t) (hna : nasize ≤ MAXSIZE) (hnh : nhsize ≤ MAXSIZE)
    (hb : content hash t (.number (nasize + 1)) = none)
    (hfit : count t none (fun k => !inRange nasize k) ≤ capacity nhsize) (depth n : ℕ) :
    (∃ t', resize (newkey hash (depth + 1)) t nasize nhsize n = (.error .memory, t') ∧
      Failed hash t nasize nhsize n t') ∨
    ∃ t' m, resize (newkey hash (depth + 1)) t nasize nhsize n = (.ok m, t') ∧
      Checked.resize hash t nasize nhsize = .ok t' := by
  have hbig : ¬(nasize > MAXSIZE ∨ nhsize > MAXSIZE) := by omega
  rw [resize, if_neg hbig, Checked.resize, if_neg hbig]
  rcases growarray_cases t nasize n with ⟨hr, hgt, rfl⟩ | ⟨n₁, hr, hn⟩
  · rw [hr]
    exact .inl ⟨t, rfl, .array hgt⟩
  simp only [hr]
  rcases setnodevector_cases (if nasize > t.sizearray then Table.setarrayvector t nasize else t)
    nhsize n₁ with ⟨hs, h0, rfl⟩ | ⟨n₂, hs, hn₁⟩
  · rw [hs]
    refine .inl ⟨_, rfl, ?_⟩
    rw [hn, Nat.zero_add]
    exact .nodes h0
  simp only [hs, migrateAll]
  by_cases hlt : nasize < t.sizearray
  · have hgt : ¬nasize > t.sizearray := by omega
    simp only [if_pos hlt, if_neg hgt]
    have hstart : SliceFit hash t nasize (capacity nhsize) nasize _ := .start h hna hlt
    obtain ⟨t₁, h1, hs₁⟩ := migrateSlice_checked h hfit hb (t.sizearray - nasize) nasize le_rfl
      (by omega) hstart
    simp only [migrateSlice_of_checked h1 depth n₂, bind_ok h1]
    rcases shrinkarray_cases t₁ t.sizearray nasize n₂ with ⟨hc, h0, rfl⟩ | ⟨n₃, hc⟩
    · rw [hc]
      refine .inl ⟨t₁, rfl, ?_⟩
      rw [if_neg hgt, Nat.add_zero] at hn
      rw [hn, hn₁, Nat.zero_add]
      exact .shrink hlt h0 hs₁.finish.moving
    · obtain ⟨t₂, h2, -⟩ := migrateNodes_checked h hfit hb t.sizenode le_rfl
        (.of_cut hs₁.finish hlt)
      simp only [hc, migrateNodes_of_checked h2 depth n₃]
      exact .inr ⟨t₂, n₃, rfl, h2⟩
  · simp only [if_neg hlt]
    obtain ⟨t₂, h2, -⟩ := migrateNodes_checked h hfit hb t.sizenode le_rfl
      (.start h hna (not_lt.mp hlt))
    simp only [migrateNodes_of_checked h2 depth n₂]
    exact .inr ⟨t₂, n₂, rfl, h2⟩

/-! ### The content after a failed allocation -/

/-- Where the content of a table comes from. -/
theorem content_eq (h : t.sizearray ≤ MAXSIZE) (k : Key σ π ω) :
    content hash t k =
      if inRange t.sizearray k then t.arrayAt (arrayindex k - 1).toNat
      else t.value (searchChain hash t k) := by
  cases hr : inRange t.sizearray k with
  | true =>
    obtain ⟨n, rfl, h1, h2⟩ := exists_of_inRange hr
    rw [if_pos rfl, content, luaH_get_inRange hash h (by omega) h2, arrayindex_number h1 (by omega)]
    rfl
  | false =>
    rw [if_neg (by simp), content, luaH_get_of_not_inRange h hr]

/-- A larger array part hides the nodes whose keys it covers. -/
theorem content_setarrayvector (h : Good hash t) (hna : nasize ≤ MAXSIZE) (hlt : t.sizearray < nasize)
    (k : Key σ π ω) :
    content hash (Table.setarrayvector t nasize) k =
      if inRange nasize k = true ∧ inRange t.sizearray k = false then none else content hash t k := by
  have hsize : (Table.setarrayvector t nasize).sizearray = nasize := rfl
  rw [content_eq (by rw [hsize]; exact hna), content_eq h.size, hsize]
  cases hr : inRange nasize k with
  | true =>
    obtain ⟨n, rfl, h1, h2⟩ := exists_of_inRange hr
    have hidx : arrayindex (.number n : Key σ π ω) = n := arrayindex_number h1 (by omega)
    have harray : (Table.setarrayvector t nasize).arrayAt (n - 1).toNat =
        if (n - 1).toNat < t.sizearray then t.arrayAt (n - 1).toNat else none :=
      getD_reallocarray _ _ (by omega)
    rw [if_pos rfl, hidx, harray]
    cases hr' : inRange t.sizearray (.number n : Key σ π ω) with
    | true =>
      have hin := inRange_eq_true.mp hr'
      rw [if_pos (show (n - 1).toNat < t.sizearray by omega), if_neg (by simp), if_pos rfl]
    | false =>
      have hnot : ¬(n - 1).toNat < t.sizearray := fun hlt' =>
        Bool.eq_false_iff.mp hr' (inRange_eq_true.mpr ⟨h1, by omega⟩)
      rw [if_neg hnot, if_pos ⟨rfl, rfl⟩]
  | false =>
    have hr' : inRange t.sizearray k = false :=
      Bool.eq_false_iff.mpr fun e => Bool.eq_false_iff.mp hr (inRange_mono hlt.le e)
    simp only [hr', Bool.false_eq_true, if_false, false_and]
    -- the search reads the nodes only
    have hs : searchChain hash (Table.setarrayvector t nasize) k = searchChain hash t k := rfl
    rw [hs, searchChain]
    split_ifs
    · rfl
    · cases findNode t.node k t.sizenode (mainposition hash t.sizenode k) <;> rfl

/-- What was nil is nil. -/
theorem Failed.content_eq_none (h : Good hash t) (hna : nasize ≤ MAXSIZE)
    (hf : Failed hash t nasize nhsize n t') (hk : content hash t k = none) :
    content hash t' k = none := by
  cases hf with
  | array hgt => exact hk
  | nodes h0 =>
    split_ifs with hgt
    · rw [content_setarrayvector h hna hgt]
      split_ifs
      · rfl
      · exact hk
    · exact hk
  | shrink hlt h0 hm =>
    by_cases hp : nodePend t t.sizenode k
    · exact (hm.left k hp).1
    · rw [hm.moved k hp, hk]

/-- When the content stays although an allocation failed: the first one did, or the one of the nodes
while no node has a key for the new array part, or the one that cuts the array part while no node
has a value. -/
def Atomic (t : LuaTable (Key σ π ω) V) (nasize nhsize n : ℕ) : Prop :=
  (t.sizearray < nasize ∧ n = 0) ∨
  (nhsize ≠ 0 ∧ n = (if t.sizearray < nasize then 1 else 0) ∧
    ∀ i < t.sizenode, ∀ k, (t.node i).key = some k → (t.node i).val ≠ none →
      inRange nasize k = false) ∨
  (nasize < t.sizearray ∧ nasize ≠ 0 ∧ n = (if nhsize = 0 then 0 else 1) ∧
    ∀ i < t.sizenode, (t.node i).val = none)

/-- An element that is hidden or still to be moved is missing. -/
theorem Failed.atomic_iff (h : Good hash t) (hna : nasize ≤ MAXSIZE)
    (hf : Failed hash t nasize nhsize n t') :
    (∀ k, content hash t' k = content hash t k) ↔ Atomic t nasize nhsize n := by
  cases hf with
  | array hgt => exact ⟨fun _ => .inl ⟨hgt, rfl⟩, fun _ _ => rfl⟩
  | nodes h0 =>
    by_cases hgt : t.sizearray < nasize
    · rw [if_pos hgt, if_pos hgt]
      constructor
      · intro hsame
        refine .inr (.inl ⟨h0, (if_pos hgt).symm, fun i hi k hk hv => ?_⟩)
        refine Bool.eq_false_iff.mpr fun hr => hv ?_
        have hout := h.toWf.not_inRange hi hk
        have hnone := hsame k
        rw [content_setarrayvector h hna hgt, if_pos ⟨hr, hout⟩] at hnone
        by_contra hv'
        obtain ⟨v, hv'⟩ := Option.ne_none_iff_exists'.mp hv'
        rw [(h.toWf.content_node hout).mpr ⟨i, hi, hk, hv'⟩] at hnone
        exact absurd hnone (by simp)
      · rintro (⟨-, h1⟩ | ⟨-, -, hlive⟩ | ⟨h1, -⟩) k
        · omega
        · rw [content_setarrayvector h hna hgt]
          split_ifs with hr
          · by_contra hne
            obtain ⟨v, hv⟩ := Option.ne_none_iff_exists'.mp (Ne.symm hne)
            obtain ⟨i, hi, hk, hv⟩ := (h.toWf.content_node hr.2).mp hv
            rw [hlive i hi k hk (by simp [hv])] at hr
            exact absurd hr.1 (by simp)
          · rfl
        · omega
    · rw [if_neg hgt, if_neg (show ¬nasize > t.sizearray from hgt)]
      refine ⟨fun _ => .inr (.inl ⟨h0, (if_neg hgt).symm, fun i hi k hk _ => ?_⟩), fun _ _ => rfl⟩
      refine Bool.eq_false_iff.mpr fun hr => ?_
      exact Bool.eq_false_iff.mp (h.toWf.not_inRange hi hk) (inRange_mono (not_lt.mp hgt) hr)
  | shrink hlt hna0 hm =>
    constructor
    · intro hsame
      refine .inr (.inr ⟨hlt, hna0, rfl, fun i hi => ?_⟩)
      by_contra hv
      obtain ⟨v, hv'⟩ := Option.ne_none_iff_exists'.mp hv
      obtain ⟨k, hk⟩ : ∃ k, (t.node i).key = some k := by
        refine Option.ne_none_iff_exists'.mp fun e => hv ?_
        exact (h.nodes.inv (by omega)).free i hi e
      have hcontent := (h.toWf.content_node (h.toWf.not_inRange hi hk)).mpr ⟨i, hi, hk, hv'⟩
      rw [← hsame k, (hm.left k ⟨i, hi, hk, hv⟩).1] at hcontent
      exact absurd hcontent (by simp)
    · rintro (⟨h1, -⟩ | ⟨h0, h1, -⟩ | ⟨-, -, -, hdead⟩) k
      · omega
      · rw [if_neg h0, if_neg (by omega)] at h1
        omega
      · refine hm.moved k ?_
        rintro ⟨i, hi, -, hv⟩
        exact hv (hdead i hi)

/-! ### Insertions that rehash -/

/-- The key is not in the table if its insertion fails. -/
theorem rehashAndInsert_memory (h : Good hash t) (hk : content hash t k = none) {depth : ℕ}
    (hr : rehashAndInsert hash (newkey hash (depth + 1)) t k n = (.error .memory, t')) :
    content hash t' k = none := by
  simp only [rehashAndInsert] at hr
  by_cases hbig : (rehashSizes hash t k).1 > MAXSIZE ∨ (rehashSizes hash t k).2 > MAXSIZE
  · simp [resize, if_pos hbig] at hr
  · rw [not_or, not_lt, not_lt] at hbig
    obtain ⟨s, t₂, hchecked, -⟩ := rehashAndInsert_checked h hk hbig.1 hbig.2
    obtain ⟨hcount, -, hb⟩ := rehashSizes_spec h.nodes h.size k
    have hsum : ∀ p : Key σ π ω → Bool, count t (some k) p = count t none p + (p k).toNat :=
      fun p => rfl
    rw [hsum] at hcount
    have hcap := le_capacity (rehashSizes hash t k).2
    rw [← luaH_get_number hash h.size] at hb
    rcases resize_fits h hbig.1 hbig.2 hb (by omega) depth n with ⟨t₁, h1, hf⟩ | ⟨t₁, m, h1, hc⟩
    · simp only [h1, Prod.mk.injEq] at hr
      rw [← hr.2]
      exact hf.content_eq_none h hbig.1 hk
    · -- the resize is done, and the key has its place
      rw [Checked.rehashAndInsert, bind_ok (rehashSizes_checked h.toWf k)] at hchecked
      simp only [bind_ok hc] at hchecked
      obtain ⟨⟨s', t₃⟩, hnew, -⟩ := Checked.exists_of_bind hchecked
      simp only [h1, arrayornewkey_of_checked hnew depth m] at hr
      simp at hr

theorem newkey_memory (h : Good hash t) (hk : luaH_get hash t k = none) {depth : ℕ}
    (hr : newkey hash (depth + 2) t k n = (.error .memory, t')) : content hash t' k = none := by
  have hcontent : content hash t k = none := by
    rw [content, hk]
    rfl
  rw [newkey_succ] at hr
  split_ifs at hr with hne
  · exact rehashAndInsert_memory h hcontent hr
  · cases hi : insertNode hash t k with
    | mk o t₁ =>
    rw [hi] at hr
    cases o with
    | some i => simp at hr
    | none =>
      obtain ⟨hfull, x, rfl, hx, hx'⟩ := insertNode_none h.nodes hi
      have hcache := h.cache
      have hg : Good hash { t with lastfree := x } :=
        ⟨h.toWf.with_lastfree hfull hx (by omega), h.length⟩
      exact rehashAndInsert_memory hg (by rw [content_with_lastfree, hcontent]) hr

/-- Where the loop over the old nodes fails, an element is missing. -/
theorem migrateNodes_memory {told : LuaTable (Key σ π ω) V} (hold : Good hash told) {depth i : ℕ}
    (hi : i ≤ told.sizenode) (h : Good hash t) (hm : Moving hash told (nodePend told i) t)
    (hr : migrateNodes (newkey hash (depth + 2)) told.node i t n = (.error .memory, t')) :
    ∃ k, content hash told k ≠ none ∧ content hash t' k = none := by
  induction i generalizing t n with
  | zero => simp [migrateNodes] at hr
  | succ i ih =>
    rw [migrateNodes] at hr
    cases hv : (told.node i).val with
    | none =>
      simp only [hv] at hr
      exact ih (by omega) h (hm.congr (nodePend_skip (.inl hv))) hr
    | some v =>
      cases hk : (told.node i).key with
      | none =>
        simp only [hv, hk] at hr
        exact ih (by omega) h (hm.congr (nodePend_skip (.inr hk))) hr
      | some k =>
        have hpend : nodePend told (i + 1) k := ⟨i, i.lt_succ_self, hk, by simp [hv]⟩
        have hcontent : content hash told k = some v :=
          (hold.toWf.content_node (hold.toWf.not_inRange hi hk)).mpr ⟨i, hi, hk, hv⟩
        have hstep := nodePend_step hold.nodes hi hk
        simp only [hv, hk] at hr
        cases hin : inRange t.sizearray k with
        | true =>
          obtain ⟨m, rfl, h1, h2⟩ := exists_of_inRange hin
          have hidx : arrayindex (.number m : Key σ π ω) = m :=
            arrayindex_number h1 (by have := h.size; omega)
          have hnew : arrayornewkey (newkey hash (depth + 2)) t (.number m) n =
              (.ok (.array (m - 1).toNat, n), t) := by
            simp only [arrayornewkey, hidx]
            exact if_pos ⟨by omega, h2⟩
          have hslot := luaH_get_inRange hash h.size (show 1 ≤ m by omega) h2
          have hp : Placed hash t t (.number m) (.array (m - 1).toNat) :=
            ⟨hslot, rfl, fun _ _ _ hf => hf⟩
          simp only [migrate, hnew] at hr
          exact ih (by omega) (h.assign _ hslot) (hm.step h.toWf hp hpend hcontent hstep) hr
        | false =>
          have hnone := h.toWf.luaH_get_eq_none.mpr ⟨hin, (hm.left k hpend).2⟩
          have harr : arrayornewkey (newkey hash (depth + 2)) t k n =
              newkey hash (depth + 2) t k n := by
            refine if_neg fun hc => Bool.eq_false_iff.mp hin ?_
            rw [eq_number_of_arrayindex k (by omega), inRange_eq_true]
            omega
          rw [migrate, harr] at hr
          cases hnew : newkey hash (depth + 2) t k n with
          | mk r t₁ =>
          rw [hnew] at hr
          cases r with
          | error e =>
            simp only [Prod.mk.injEq, Except.error.injEq] at hr
            obtain ⟨rfl, rfl⟩ := hr
            exact ⟨k, by simp [hcontent], newkey_memory h hnone hnew⟩
          | ok p =>
            have hspec := newkey_spec h hnone depth
            rw [newkey_follows (depth + 2) _ _ _ _ _ _ hnew] at hspec
            obtain ⟨hg, hp⟩ := hspec
            exact ih (by omega) (hg.assign _ hp.slot) (hm.step hg.toWf hp hpend hcontent hstep) hr

/-! ### Atomicity -/

/-- A smaller array part leaves what the new node part holds, and no element just behind it. -/
def Room (hash : Key σ π ω → ℕ) (t : LuaTable (Key σ π ω) V) (nasize nhsize : ℕ) : Prop :=
  nasize < t.sizearray → content hash t (.number (nasize + 1)) = none ∧
    count t none (fun k => !inRange nasize k) ≤ capacity nhsize

theorem resize_atomic (h : Good hash t) (hroom : Room hash t nasize nhsize) {depth : ℕ}
    (hr : resize (newkey hash (depth + 2)) t nasize nhsize n = (.error .memory, t')) :
    (∀ k, content hash t' k = content hash t k) ↔ Atomic t nasize nhsize n := by
  by_cases hbig : nasize > MAXSIZE ∨ nhsize > MAXSIZE
  · simp [resize, if_pos hbig] at hr
  have hsizes : nasize ≤ MAXSIZE ∧ nhsize ≤ MAXSIZE := by omega
  by_cases hlt : nasize < t.sizearray
  · obtain ⟨hb, hfit⟩ := hroom hlt
    rcases resize_fits h hsizes.1 hsizes.2 hb hfit (depth + 1) n with ⟨t₁, h1, hf⟩ | ⟨t₁, m, h1, -⟩
    · obtain rfl : t₁ = t' := (Prod.mk.inj (h1.symm.trans hr)).2
      exact hf.atomic_iff h hsizes.1
    · exact absurd (Prod.mk.inj (h1.symm.trans hr)).1 (by simp)
  rw [resize, if_neg hbig] at hr
  rcases growarray_cases t nasize n with ⟨hg, hgt, rfl⟩ | ⟨n₁, hg, hn⟩
  · simp only [hg, Prod.mk.injEq, true_and] at hr
    rw [← hr]
    have hf : Failed hash t nasize nhsize 0 t := .array hgt
    exact hf.atomic_iff h hsizes.1
  simp only [hg] at hr
  rcases setnodevector_cases (if nasize > t.sizearray then Table.setarrayvector t nasize else t)
    nhsize n₁ with ⟨hs, h0, rfl⟩ | ⟨n₂, hs, hn₁⟩
  · simp only [hs, Prod.mk.injEq, true_and] at hr
    rw [← hr, hn, Nat.zero_add]
    have hf : Failed hash t nasize nhsize _ _ := .nodes h0
    exact hf.atomic_iff h hsizes.1
  -- an insertion rehashes, and one of its allocations fails
  simp only [hs, migrateAll, if_neg hlt] at hr
  have hstart : NodesFit hash t nasize (capacity nhsize) t.sizenode _ :=
    .start h hsizes.1 (not_lt.mp hlt)
  have hgood : Good hash (Table.setnodevector
      (if nasize > t.sizearray then Table.setarrayvector t nasize else t) nhsize) :=
    ⟨hstart.fit.wf, by rw [hstart.length, hstart.fit.sizearray]⟩
  obtain ⟨k, h1, h2⟩ := migrateNodes_memory h le_rfl hgood hstart.fit.moving hr
  refine ⟨fun hsame => absurd ((hsame k).symm.trans h2) h1, ?_⟩
  rintro (⟨h3, h4⟩ | ⟨h3, h4, -⟩ | ⟨h3, -⟩)
  · rw [if_pos h3] at hn
    omega
  · rw [if_neg h3] at hn₁
    omega
  · exact absurd h3 hlt

/-- **When a failed resize keeps the content.**  An allocation of `resize` fails, or one of a rehash
inside of it.  The table holds what it held if and only if the array part could not grow, or there
were no new nodes and no node had a key for the new array part, or the array part could not be cut
and no node had a value. -/
theorem resize_atomic_iff {es : List (Event σ π ω V)}
    (h : Run hash (Op.Allowed (Fits hash) fun _ _ => True) t es) (hroom : Room hash t nasize nhsize)
    (hr : resize (newkey hash maxDepth) t nasize nhsize n = (.error .memory, t')) :
    (∀ k, t'.value (luaH_get hash t' k) = t.value (luaH_get hash t k)) ↔
      Atomic t nasize nhsize n :=
  resize_atomic h.good hroom hr

/-- The nodes cannot be allocated, and the array part is not changed. -/
theorem resize_atomic_iff_nodes : ∃ (t t' : LuaTable (Key ℕ Empty Empty) ℕ) (es : _),
    Run sampleHash (Op.Allowed (Fits sampleHash) fun _ _ => True) t es ∧
      resize (newkey sampleHash maxDepth) t 1 4 0 = (.error .memory, t') ∧
      ∀ k, t'.value (luaH_get sampleHash t' k) = t.value (luaH_get sampleHash t k) := by
  obtain ⟨t, es, hrun, hsize, hnode⟩ : ∃ (t : LuaTable (Key ℕ Empty Empty) ℕ) (es : _),
      Run sampleHash (Op.Allowed (Fits sampleHash) fun _ _ => True) t es ∧ t.sizearray = 1 ∧
        ∀ i < t.sizenode, ∀ k ∈ (t.node i).key, inRange 1 k = false :=
    ⟨_, _, ((Run.new 1 2 rfl).step (.setnum 1 (some 10)) (show isInt 1 by decide)).step
      (.setstr 5 (some 50)) trivial, by decide, by decide⟩
  have hr : resize (newkey sampleHash maxDepth) t 1 4 0 = (.error .memory, t) := by
    rw [resize, if_neg (by decide), growarray, if_neg (by omega)]
    rfl
  refine ⟨t, t, es, hrun, hr, (resize_atomic_iff hrun ?_ hr).mpr (.inr (.inl ⟨by decide, ?_, ?_⟩))⟩
  · exact fun hlt => absurd hlt (by omega)
  · rw [if_neg (by omega)]
  · exact fun i hi k hk _ => hnode i hi k hk

/-- The array part has grown when the nodes cannot be allocated: it hides the key 2, which is still
in its node. -/
theorem resize_hides : ∃ (t t' : LuaTable (Key ℕ Empty Empty) ℕ) (es : _),
    Run sampleHash (Op.Allowed (Fits sampleHash) fun _ _ => True) t es ∧
      resize (newkey sampleHash maxDepth) t 4 1 1 = (.error .memory, t') ∧
      t.value (luaH_get sampleHash t (.number 2)) = some 20 ∧
      t'.value (luaH_get sampleHash t' (.number 2)) = none :=
  ⟨_, _, _, (Run.new 0 0 rfl).step (.setnum 2 (some 20)) (show isInt 2 by decide), rfl,
    by decide, by decide⟩

end Failed

end Failing

end Table

end Jaci
