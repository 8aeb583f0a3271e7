import Jaci.Table.Resize

/-!
# Checked rehashes

`rehash` once more, as a run that checks what it does: it stops at an index outside of the block of
the array part, at an offset outside of the node vector, at an index outside of the counts, in a
loop that does not end, and where an insertion would rehash again.

* `Fault` : why a checked run stops;
* `Checked.rehashAndInsert` : `rehash` and the insertion of the extra key;
* `Checked.rehashAndInsert_sound` : a checked run that does not stop does what the source does.
-/

namespace Jaci

namespace Table

variable {σ π ω V : Type}

/-- Why a checked run stops. -/
inductive Fault where
  | range
  | loop
  | rehash
  | overflow
deriving DecidableEq

namespace Checked

/-! ### Access -/

/-- A slot of the block of the array part. -/
def slotAt {K : Type} (t : LuaTable K V) (i : ℤ) : Except Fault (Option V) :=
  if 0 ≤ i ∧ i < t.array.length then .ok (t.arrayAt i.toNat) else .error .range

def nodeAt {K : Type} (t : LuaTable K V) (i : ℤ) : Except Fault (Node K V) :=
  if 0 ≤ i ∧ i < t.sizenode then .ok (t.node i.toNat) else .error .range

def countAt (nums : ℕ → ℕ) (i : ℕ) : Except Fault ℕ :=
  if i ≤ MAXBITS then .ok (nums i) else .error .range

/-- An assignment through a pointer. -/
def store {K : Type} (t : LuaTable K V) (s : Slot) (v : V) : Except Fault (LuaTable K V) := do
  match s with
  | .array i => let _ ← slotAt t i
  | .node i => let _ ← nodeAt t i
  return t.assign s (some v)

/-! ### Counting -/

/-- The loop of `numusearray` over one slice. -/
def countSlice (t : LuaTable (Key σ π ω) V) : ℕ → ℕ → ℕ → Except Fault ℕ
  | 0, _, lc => return lc
  | turns + 1, i, lc => do
    let v ← slotAt t ((i : ℤ) - 1)
    countSlice t turns (i + 1) (lc + v.isSome.toNat)

/-- The loop of `numusearray` over the slices. -/
def numusearrayLoop (t : LuaTable (Key σ π ω) V) :
    ℕ → ℕ → ℕ → ℕ → (ℕ → ℕ) → Except Fault (ℕ × (ℕ → ℕ))
  | 0, _, _, ause, nums => return (ause, nums)
  | turns + 1, lg, i, ause, nums =>
    if 2 ^ lg > t.sizearray ∧ i > t.sizearray then return (ause, nums)
    else do
      let lim := min (2 ^ lg) t.sizearray
      let lc ← countSlice t (lim + 1 - i) i 0
      let c ← countAt nums lg
      numusearrayLoop t turns (lg + 1) (lim + 1) (ause + lc) (Function.update nums lg (c + lc))

def countint (key : Key σ π ω) (nums : ℕ → ℕ) : Except Fault (ℕ × (ℕ → ℕ)) :=
  let k := arrayindex key
  if 0 < k ∧ k ≤ MAXSIZE then do
    let lg := ceillog2 k.toNat
    let c ← countAt nums lg
    return (1, Function.update nums lg (c + 1))
  else return (0, nums)

/-- The extra key is counted if it is a number. -/
def countExtra (ek : Key σ π ω) (nums : ℕ → ℕ) : Except Fault (ℕ × (ℕ → ℕ)) :=
  match ek with
  | .number _ => countint ek nums
  | _ => return (0, nums)

/-- The loop of `numusehash`. -/
def numusehashLoop (t : LuaTable (Key σ π ω) V) :
    ℕ → ℕ → ℕ → (ℕ → ℕ) → Except Fault (ℕ × ℕ × (ℕ → ℕ))
  | 0, totaluse, ause, nums => return (totaluse, ause, nums)
  | i + 1, totaluse, ause, nums => do
    let n ← nodeAt t i
    match n.val, n.key with
    | some _, some key => do
      let (c, nums) ← countint key nums
      numusehashLoop t i (totaluse + 1) (ause + c) nums
    | some _, none => numusehashLoop t i (totaluse + 1) ause nums
    | none, _ => numusehashLoop t i totaluse ause nums

/-- The loop of `computesizes`. -/
def computesizesLoop (nums : ℕ → ℕ) (narray : ℕ) : ℕ → ℕ → ℕ → ℕ → ℕ → Except Fault (ℕ × ℕ)
  | 0, _, _, _, _ => throw .loop
  | turns + 1, i, a, na, n =>
    if 2 ^ i / 2 < narray then do
      let c ← countAt nums i
      let a' := if c > 0 then a + c else a
      let (n, na) := if c > 0 ∧ a' > 2 ^ i / 2 then (2 ^ i, a') else (n, na)
      if a' = narray then return (n, na) else computesizesLoop nums narray turns (i + 1) a' na n
    else return (n, na)

/-! ### Search -/

section Search

variable [DecidableEq σ] [DecidableEq π] [DecidableEq ω] (hash : Key σ π ω → ℕ)

/-- The search for a key in the chain from `n` on. -/
def findNode (t : LuaTable (Key σ π ω) V) (key : Key σ π ω) : ℕ → ℤ → Except Fault (Option V)
  | 0, _ => throw .loop
  | turns + 1, n => do
    let nd ← nodeAt t n
    if nd.key = some key then return nd.val
    else if nd.next = 0 then return none
    else findNode t key turns (n + nd.next)

/-- The value at the pointer that `luaH_getnum` returns. -/
def luaH_getnum (t : LuaTable (Key σ π ω) V) (key : ℤ) : Except Fault (Option V) :=
  if 1 ≤ key ∧ key ≤ t.sizearray then slotAt t (key - 1)
  else if t.sizenode = 0 then return none
  else findNode t (.number key) t.sizenode (mainposition hash t.sizenode (.number key))

/-- The loop of `adjustasize`. -/
def adjustLoop (present : ℕ → Except Fault Bool) : ℕ → ℕ → Except Fault ℕ
  | 0, _ => throw .loop
  | turns + 1, size => do
    if ← present (size + 1) then adjustLoop present turns (size + 1) else return size

/-- The test of `adjustasize`. -/
def indexUsed (t : LuaTable (Key σ π ω) V) (tbound : Bool) (ekindex : ℤ) (k : ℕ) :
    Except Fault Bool :=
  if (k : ℤ) = ekindex then return true
  else if tbound then return (← luaH_getnum hash t k).isSome
  else return false

def adjustasize (t : LuaTable (Key σ π ω) V) (size : ℕ) (ek : Key σ π ω) : Except Fault ℕ :=
  adjustLoop (indexUsed hash t (t.sizenode ≠ 0 ∨ size < t.sizearray) (arrayindex ek))
    (t.sizearray + t.sizenode + 2) size

/-- The sizes that `rehash` chooses. -/
def rehashSizes (t : LuaTable (Key σ π ω) V) (ek : Key σ π ω) : Except Fault (ℕ × ℕ) := do
  let (nasize, nums) ← numusearrayLoop t (MAXBITS + 1) 0 1 0 fun _ => 0
  let (used, ause, nums) ← numusehashLoop t t.sizenode 0 0 nums
  let (c, nums) ← countExtra ek nums
  let totaluse := nasize + used + 1
  let (nasize, na) ← computesizesLoop nums (nasize + ause + c) (MAXBITS + 2) 0 0 0 0
  let nh := totaluse - na
  let nadjusted ← adjustasize hash t nasize ek
  let aextra := nadjusted - nasize
  if aextra ≠ 0 then return (← adjustasize hash t (nadjusted + aextra) ek, nh - aextra)
  else return (nasize, nh)

/-! ### Insertion -/

/-- The loop of `getfreepos`. -/
def freeBelow (t : LuaTable (Key σ π ω) V) : ℕ → Except Fault (Option ℕ × ℕ)
  | 0 => return (none, 0)
  | n + 1 => do
    let nd ← nodeAt t n
    if nd.key.isNone then return (some n, n) else freeBelow t n

def getfreepos (t : LuaTable (Key σ π ω) V) : Except Fault (Option ℕ × LuaTable (Key σ π ω) V) :=
  if t.lastfree > 0 then do
    let (n, lastfree) ← freeBelow t t.lastfree.toNat
    return (n, { t with lastfree := lastfree })
  else return (none, t)

/-- The search for the node before `mp`. -/
def findPrevious (t : LuaTable (Key σ π ω) V) (mp : ℕ) : ℕ → ℤ → Except Fault ℕ
  | 0, _ => throw .loop
  | turns + 1, othern => do
    let nd ← nodeAt t othern
    if othern + nd.next = mp then return othern.toNat
    else findPrevious t mp turns (othern + nd.next)

/-- The part of `newkey` that inserts into the node part.  The nodes that are written are the free
place, the main position and the node before it. -/
def insertNode (t : LuaTable (Key σ π ω) V) (key : Key σ π ω) :
    Except Fault (Option ℕ × LuaTable (Key σ π ω) V) := do
  let mp := mainposition hash t.sizenode key
  let taken ← (if t.sizenode = 0 then pure true else do return (← nodeAt t mp).val.isSome)
  if taken then
    match ← getfreepos t with
    | (none, t) => return (none, t)
    | (some n, t) =>
      let _ ← nodeAt t n
      match (← nodeAt t mp).key.map (mainposition hash t.sizenode) with
      | none => throw .range
      | some othern =>
        if othern ≠ mp then
          let _ ← findPrevious t mp t.sizenode othern
          return (some mp,
            { t with node := setnodekey (moveNode t.node t.sizenode mp n othern) mp key })
        else return (some n, { t with node := setnodekey (chainNode t.node mp n) n key })
  else return (some mp, { t with node := setnodekey t.node mp key })

/-- `newkey`, which must not rehash. -/
def newkey (t : LuaTable (Key σ π ω) V) (key : Key σ π ω) :
    Except Fault (Slot × LuaTable (Key σ π ω) V) :=
  if key = .number (t.sizearray + 1) then throw .rehash
  else do
    match ← insertNode hash t key with
    | (some n, t) => return (.node n, t)
    | (none, _) => throw .rehash

def arrayornewkey (t : LuaTable (Key σ π ω) V) (key : Key σ π ω) :
    Except Fault (Slot × LuaTable (Key σ π ω) V) :=
  let k := arrayindex key
  if 1 ≤ k ∧ k ≤ t.sizearray then return (.array (k - 1).toNat, t) else newkey hash t key

/-! ### Resize -/

/-- The loop over the vanishing slice. -/
def migrateSlice : ℕ → ℕ → LuaTable (Key σ π ω) V → Except Fault (LuaTable (Key σ π ω) V)
  | 0, _, t => return t
  | n + 1, i, t => do
    match ← slotAt t i with
    | none => migrateSlice n (i + 1) t
    | some v =>
      let (s, t) ← newkey hash t (.number (i + 1))
      migrateSlice n (i + 1) (← store t s v)

/-- The loop over the old nodes. -/
def migrateNodes (told : LuaTable (Key σ π ω) V) :
    ℕ → LuaTable (Key σ π ω) V → Except Fault (LuaTable (Key σ π ω) V)
  | 0, t => return t
  | i + 1, t => do
    let old ← nodeAt told i
    match old.val, old.key with
    | some v, some key =>
      let (s, t) ← arrayornewkey hash t key
      migrateNodes told i (← store t s v)
    | _, _ => migrateNodes told i t

def resize (t : LuaTable (Key σ π ω) V) (nasize nhsize : ℕ) :
    Except Fault (LuaTable (Key σ π ω) V) :=
  if nasize > MAXSIZE ∨ nhsize > MAXSIZE then throw .overflow
  else do
    let t' := setnodevector (if nasize > t.sizearray then setarrayvector t nasize else t) nhsize
    if nasize < t.sizearray then
      let t' ← migrateSlice hash (t.sizearray - nasize) nasize { t' with sizearray := nasize }
      migrateNodes hash t t.sizenode { t' with array := reallocarray t'.array t.sizearray nasize }
    else migrateNodes hash t t.sizenode t'

/-- `rehash`, followed by the insertion of the extra key. -/
def rehashAndInsert (t : LuaTable (Key σ π ω) V) (ek : Key σ π ω) :
    Except Fault (Slot × LuaTable (Key σ π ω) V) := do
  let (nasize, nh) ← rehashSizes hash t ek
  let t ← resize hash t nasize nh
  let (s, t) ← arrayornewkey hash t ek
  -- the value of the extra key is stored through the pointer
  match s with
  | .array i => let _ ← slotAt t i
  | .node i => let _ ← nodeAt t i
  return (s, t)

end Search

/-! ### Soundness -/

section Sound

theorem exists_of_bind {ε α β : Type} {x : Except ε α} {f : α → Except ε β} {b : β}
    (h : (x >>= f) = .ok b) : ∃ a, x = .ok a ∧ f a = .ok b := by
  cases x with
  | ok a => exact ⟨a, rfl, h⟩
  | error e => exact absurd h (by simp [bind, Except.bind])

variable {K : Type} {t t' : LuaTable K V}

theorem slotAt_ok {i : ℤ} {v : Option V} (h : slotAt t i = .ok v) : v = t.arrayAt i.toNat := by
  rw [slotAt] at h
  split_ifs at h
  exact (Except.ok.inj h).symm

theorem nodeAt_ok {i : ℤ} {n : Node K V} (h : nodeAt t i = .ok n) : n = t.node i.toNat := by
  rw [nodeAt] at h
  split_ifs at h
  exact (Except.ok.inj h).symm

theorem store_sound {s : Slot} {v : V} (h : store t s v = .ok t') : t' = t.assign s (some v) := by
  cases s with
  | array i =>
    obtain ⟨_, -, h⟩ := exists_of_bind h
    exact (Except.ok.inj h).symm
  | node i =>
    obtain ⟨_, -, h⟩ := exists_of_bind h
    exact (Except.ok.inj h).symm

end Sound

section Sound

variable {t t' told : LuaTable (Key σ π ω) V} {key : Key σ π ω}

theorem freeBelow_sound {n : ℕ} {r : Option ℕ × ℕ} (h : freeBelow t n = .ok r) :
    Table.freeBelow t.node n = r := by
  induction n with
  | zero => exact Except.ok.inj h
  | succ n ih =>
    rw [freeBelow] at h
    obtain ⟨nd, h1, h⟩ := exists_of_bind h
    obtain rfl := nodeAt_ok h1
    rw [Table.freeBelow]
    simp only [Int.toNat_natCast] at h
    split_ifs at h ⊢
    · exact Except.ok.inj h
    · exact ih h

theorem getfreepos_sound {r : Option ℕ × LuaTable (Key σ π ω) V} (h : getfreepos t = .ok r) :
    Table.getfreepos t = r := by
  rw [getfreepos] at h
  rw [Table.getfreepos]
  split_ifs at h ⊢
  · obtain ⟨_, h1, h⟩ := exists_of_bind h
    rw [freeBelow_sound h1]
    exact Except.ok.inj h
  · exact Except.ok.inj h

variable [DecidableEq σ] [DecidableEq π] [DecidableEq ω] {hash : Key σ π ω → ℕ}

omit [DecidableEq σ] [DecidableEq π] [DecidableEq ω] in
theorem insertNode_sound {r : Option ℕ × LuaTable (Key σ π ω) V} (h : insertNode hash t key = .ok r) :
    Table.insertNode hash t key = r := by
  simp only [insertNode] at h
  simp only [Table.insertNode]
  set mp := mainposition hash t.sizenode key with hmp
  obtain ⟨taken, htaken, h⟩ := exists_of_bind h
  have hc : taken = true ↔ (t.sizenode = 0 ∨ (t.node mp).val.isSome) := by
    split_ifs at htaken with h0
    · exact ⟨fun _ => .inl h0, fun _ => (Except.ok.inj htaken).symm⟩
    · obtain ⟨nd, hn, htaken⟩ := exists_of_bind htaken
      obtain rfl := nodeAt_ok hn
      obtain rfl := Except.ok.inj htaken
      exact ⟨.inr, fun h => h.resolve_left h0⟩
  by_cases ht : taken = true
  · rw [if_pos (hc.mp ht)]
    rw [if_pos ht] at h
    obtain ⟨f, hf, h⟩ := exists_of_bind h
    rw [getfreepos_sound hf]
    obtain ⟨o, t₁⟩ := f
    cases o with
    | none => exact Except.ok.inj h
    | some n =>
      obtain ⟨_, -, h⟩ := exists_of_bind h
      obtain ⟨nd, hnd, h⟩ := exists_of_bind h
      obtain rfl := nodeAt_ok hnd
      simp only [Int.toNat_natCast] at h ⊢
      cases hk : (t₁.node mp).key with
      | none =>
        rw [hk] at h
        exact absurd h (by simp [throw, throwThe, MonadExceptOf.throw])
      | some k₁ =>
        rw [hk] at h
        simp only [Option.map_some] at h ⊢
        split_ifs at h ⊢ with haway
        · obtain ⟨_, -, h⟩ := exists_of_bind h
          exact Except.ok.inj h
        · exact Except.ok.inj h
  · rw [if_neg fun h => ht (hc.mpr h)]
    rw [if_neg ht] at h
    exact Except.ok.inj h

theorem newkey_sound {s : Slot} (h : newkey hash t key = .ok (s, t')) (depth : ℕ) :
    Table.newkey hash (depth + 1) t key = (.ok s, t') := by
  rw [newkey] at h
  rw [newkey_succ]
  split_ifs at h ⊢ with hb
  obtain ⟨⟨o, t₁⟩, hr, h⟩ := exists_of_bind h
  rw [insertNode_sound hr]
  cases o with
  | none => exact absurd h (by simp [throw, throwThe, MonadExceptOf.throw])
  | some n =>
    obtain ⟨rfl, rfl⟩ := Prod.mk.inj (Except.ok.inj h)
    rfl

theorem arrayornewkey_sound {s : Slot} (h : arrayornewkey hash t key = .ok (s, t')) (depth : ℕ) :
    Table.arrayornewkey (Table.newkey hash (depth + 1)) t key = (.ok s, t') := by
  simp only [arrayornewkey] at h
  simp only [Table.arrayornewkey]
  split_ifs at h ⊢
  · obtain ⟨rfl, rfl⟩ := Prod.mk.inj (Except.ok.inj h)
    rfl
  · exact newkey_sound h depth

theorem migrateSlice_sound {n i : ℕ} (h : migrateSlice hash n i t = .ok t') (depth : ℕ) :
    Table.migrateSlice (Table.newkey hash (depth + 1)) n i t = (.ok (), t') := by
  induction n generalizing i t with
  | zero =>
    obtain rfl := Except.ok.inj h
    rfl
  | succ n ih =>
    rw [migrateSlice] at h
    rw [Table.migrateSlice]
    obtain ⟨v, hv, h⟩ := exists_of_bind h
    obtain rfl := slotAt_ok hv
    simp only [Int.toNat_natCast] at h
    cases hv : t.arrayAt i with
    | none =>
      rw [hv] at h
      exact ih h
    | some v =>
      rw [hv] at h
      obtain ⟨⟨s, t₁⟩, hr, h⟩ := exists_of_bind h
      obtain ⟨t₂, hs, h⟩ := exists_of_bind h
      obtain rfl := store_sound hs
      simp only [migrate, newkey_sound hr depth]
      exact ih h

theorem migrateNodes_sound {n : ℕ} (h : migrateNodes hash told n t = .ok t') (depth : ℕ) :
    Table.migrateNodes (Table.newkey hash (depth + 1)) told.node n t = (.ok (), t') := by
  induction n generalizing t with
  | zero =>
    obtain rfl := Except.ok.inj h
    rfl
  | succ n ih =>
    rw [migrateNodes] at h
    rw [Table.migrateNodes]
    obtain ⟨nd, hnd, h⟩ := exists_of_bind h
    obtain rfl := nodeAt_ok hnd
    simp only [Int.toNat_natCast] at h
    cases hv : (told.node n).val with
    | none =>
      simp only [hv] at h
      exact ih h
    | some v =>
      cases hk : (told.node n).key with
      | none =>
        simp only [hv, hk] at h
        exact ih h
      | some k =>
        simp only [hv, hk] at h
        obtain ⟨⟨s, t₁⟩, hr, h⟩ := exists_of_bind h
        obtain ⟨t₂, hs, h⟩ := exists_of_bind h
        obtain rfl := store_sound hs
        simp only [migrate, arrayornewkey_sound hr depth]
        exact ih h

/-- A checked resize that does not stop does what the source does. -/
theorem resize_sound {nasize nhsize : ℕ} (h : resize hash t nasize nhsize = .ok t') (depth : ℕ) :
    Table.resize (Table.newkey hash (depth + 1)) t nasize nhsize = (.ok (), t') := by
  rw [resize] at h
  rw [Table.resize]
  by_cases hbig : nasize > MAXSIZE ∨ nhsize > MAXSIZE
  · rw [if_pos hbig] at h
    exact absurd h (by simp [throw, throwThe, MonadExceptOf.throw])
  rw [if_neg hbig] at h ⊢
  simp only [migrateAll]
  by_cases hlt : nasize < t.sizearray
  · rw [if_pos hlt] at h ⊢
    obtain ⟨t₁, h1, h⟩ := exists_of_bind h
    rw [migrateSlice_sound h1 depth]
    exact migrateNodes_sound h depth
  · rw [if_neg hlt] at h ⊢
    exact migrateNodes_sound h depth

end Sound

end Checked

end Table

end Jaci
