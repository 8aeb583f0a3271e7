import Jaci.Table.Counting

/-!
# The content of a table

What a table holds is what `luaH_get` reads.  `Wf` is the invariant of a table, and `Good` the
invariant between operations, when the block of the array part has the size that the table says.

* `content_assign` : an assignment through the slot of a key changes this key only;
* `Placed` : a slot for a new key was made, and the content is the same;
* `Placed.of_inserted` : an insertion without a rehash makes such a slot.
-/

namespace Jaci

namespace Table

variable {σ π ω V : Type} {hash : Key σ π ω → ℕ} {t t' : LuaTable (Key σ π ω) V} {k : Key σ π ω}

/-- The invariant of a table, also in the middle of a resize. -/
structure Wf (hash : Key σ π ω → ℕ) (t : LuaTable (Key σ π ω) V) : Prop where
  nodes : Nodes hash t
  block : t.sizearray ≤ t.array.length
  size : t.sizearray ≤ MAXSIZE
  /-- The array part and the index behind it are not in the node part. -/
  boundary : ∀ i < t.sizenode, ∀ key, (t.node i).key = some key →
    inRange (t.sizearray + 1) key = false
  cache : -t.lastfree ≤ t.sizearray

/-- The invariant of a table between operations. -/
structure Good (hash : Key σ π ω → ℕ) (t : LuaTable (Key σ π ω) V) : Prop extends Wf hash t where
  length : t.array.length = t.sizearray

def Fresh (t : LuaTable (Key σ π ω) V) (k : Key σ π ω) : Prop :=
  ∀ i < t.sizenode, (t.node i).key ≠ some k

theorem inRange_mono {n m : ℕ} (h : n ≤ m) (hk : inRange n k = true) : inRange m k = true := by
  obtain ⟨k, rfl, h1, h2⟩ := exists_of_inRange hk
  exact inRange_eq_true.mpr ⟨h1, by omega⟩

theorem inRange_succ_of_ne {n : ℕ} (h : inRange n k = false) (hne : k ≠ .number (n + 1)) :
    inRange (n + 1) k = false := by
  refine Bool.eq_false_iff.mpr fun e => ?_
  obtain ⟨k, rfl, h1, h2⟩ := exists_of_inRange e
  refine Bool.eq_false_iff.mp h (inRange_eq_true.mpr ⟨h1, ?_⟩)
  have : k ≠ n + 1 := fun e => hne (by rw [e])
  push_cast at h2
  omega

/-- A change of `lastfree` when no node is free. -/
theorem Wf.with_lastfree (h : Wf hash t) (hfull : ∀ i < t.sizenode, (t.node i).key ≠ none) {x : ℤ}
    (hx : x ≤ 0) (hcache : -x ≤ t.sizearray) : Wf hash { t with lastfree := x } where
  nodes := ⟨h.nodes.inv, by simp; omega, fun i hi _ => hfull i hi⟩
  block := h.block
  size := h.size
  boundary := h.boundary
  cache := hcache

/-- The keys in the node part are not in the array part. -/
theorem Wf.not_inRange (h : Wf hash t) {i : ℕ} (hi : i < t.sizenode)
    (hk : (t.node i).key = some k) : inRange t.sizearray k = false := by
  have := h.boundary i hi k hk
  exact Bool.eq_false_iff.mpr fun e => Bool.eq_false_iff.mp this (inRange_mono (Nat.le_succ _) e)

variable [DecidableEq σ] [DecidableEq π] [DecidableEq ω]

/-- What a table holds at a key. -/
def content (hash : Key σ π ω → ℕ) (t : LuaTable (Key σ π ω) V) (k : Key σ π ω) : Option V :=
  t.value (luaH_get hash t k)

/-! ### Search -/

theorem luaH_get_number (hash : Key σ π ω → ℕ) (h : t.sizearray ≤ MAXSIZE) (n : ℤ) :
    luaH_get hash t (.number n) = luaH_getnum hash t n := by
  rw [luaH_get]
  split_ifs with hn
  · rfl
  · have := MAXSIZE_lt
    rw [luaH_getnum, if_neg]
    rintro ⟨h1, h2⟩
    exact hn ⟨by omega, by omega⟩

theorem luaH_get_inRange (hash : Key σ π ω → ℕ) (h : t.sizearray ≤ MAXSIZE) {n : ℤ} (h1 : 1 ≤ n) (h2 : n ≤ t.sizearray) :
    luaH_get hash t (.number n) = some (.array (n - 1).toNat) := by
  rw [luaH_get_number hash h, luaH_getnum, if_pos ⟨h1, h2⟩]

theorem luaH_get_of_not_inRange (h : t.sizearray ≤ MAXSIZE) (hk : inRange t.sizearray k = false) :
    luaH_get hash t k = searchChain hash t k := by
  cases k with
  | number n =>
    rw [luaH_get_number hash h, luaH_getnum, if_neg]
    rintro ⟨h1, h2⟩
    exact Bool.eq_false_iff.mp hk (inRange_eq_true.mpr ⟨by omega, h2⟩)
  | string s => rfl
  | lightuserdata p tag => rfl
  | other o => rfl

theorem content_array (hash : Key σ π ω → ℕ) (h : t.sizearray ≤ MAXSIZE) {i : ℕ} (hi : i < t.sizearray) :
    content hash t (.number (i + 1)) = t.arrayAt i := by
  rw [content, luaH_get_inRange hash h (by omega) (by omega)]
  simp [LuaTable.value, LuaTable.read]

/-- The content of the node part. -/
theorem Wf.content_node (h : Wf hash t) (hk : inRange t.sizearray k = false) {v : V} :
    content hash t k = some v ↔
      ∃ i < t.sizenode, (t.node i).key = some k ∧ (t.node i).val = some v := by
  rw [content, luaH_get_of_not_inRange h.size hk]
  exact h.nodes.value_searchChain

theorem Wf.luaH_get_eq_some (h : Wf hash t) {i : ℕ} (hi : i < t.sizenode)
    (hk : (t.node i).key = some k) : luaH_get hash t k = some (.node i) := by
  rw [luaH_get_of_not_inRange h.size (h.not_inRange hi hk)]
  exact h.nodes.searchChain_eq_some.mpr ⟨i, hi, hk, rfl⟩

/-- A slot that `luaH_get` leads to. -/
theorem Wf.slot_cases (h : Wf hash t) {s : Slot} (hs : luaH_get hash t k = some s) :
    (∃ i < t.sizearray, k = .number (i + 1) ∧ s = .array i) ∨
      ∃ i < t.sizenode, (t.node i).key = some k ∧ s = .node i := by
  by_cases hk : inRange t.sizearray k = true
  · obtain ⟨n, rfl, h1, h2⟩ := exists_of_inRange hk
    rw [luaH_get_inRange hash h.size (by omega) h2] at hs
    refine .inl ⟨(n - 1).toNat, by omega, ?_, (Option.some.inj hs).symm⟩
    congr 1
    omega
  · rw [Bool.not_eq_true] at hk
    rw [luaH_get_of_not_inRange h.size hk] at hs
    exact .inr (h.nodes.searchChain_eq_some.mp hs)

/-- A key without a slot is in neither part. -/
theorem Wf.luaH_get_eq_none (h : Wf hash t) :
    luaH_get hash t k = none ↔ inRange t.sizearray k = false ∧ Fresh t k := by
  constructor
  · intro hs
    have hk : inRange t.sizearray k = false := by
      refine Bool.eq_false_iff.mpr fun hk => ?_
      obtain ⟨n, rfl, h1, h2⟩ := exists_of_inRange hk
      rw [luaH_get_inRange hash h.size (by omega) h2] at hs
      exact absurd hs (by simp)
    rw [luaH_get_of_not_inRange h.size hk] at hs
    exact ⟨hk, h.nodes.searchChain_eq_none.mp hs⟩
  · rintro ⟨hk, hf⟩
    rw [luaH_get_of_not_inRange h.size hk]
    exact h.nodes.searchChain_eq_none.mpr hf

/-- The index behind the array part has no value. -/
theorem Wf.content_boundary (h : Wf hash t) : content hash t (.number (t.sizearray + 1)) = none := by
  have hs : luaH_get hash t (.number (t.sizearray + 1)) = none := by
    refine h.luaH_get_eq_none.mpr ⟨decide_eq_false (by omega), fun i hi hk => ?_⟩
    have hb := h.boundary i hi _ hk
    exact Bool.eq_false_iff.mp hb (inRange_eq_true.mpr (by omega))
  rw [content, hs]
  rfl

/-! ### Assignment -/

section Assign

variable {s : Slot} (v : Option V)

omit [DecidableEq σ] [DecidableEq π] [DecidableEq ω] in
theorem assign_shape (t : LuaTable (Key σ π ω) V) (s : Slot) :
    (t.assign s v).sizearray = t.sizearray ∧ (t.assign s v).sizenode = t.sizenode ∧
      (t.assign s v).lastfree = t.lastfree ∧ (t.assign s v).array.length = t.array.length ∧
      ∀ i, ((t.assign s v).node i).key = (t.node i).key ∧
        ((t.assign s v).node i).next = (t.node i).next := by
  cases s with
  | array i => exact ⟨rfl, rfl, rfl, List.length_set, fun _ => ⟨rfl, rfl⟩⟩
  | node i =>
    refine ⟨rfl, rfl, rfl, rfl, fun j => ?_⟩
    by_cases hj : j = i
    · subst hj
      simp [LuaTable.assign]
    · simp [LuaTable.assign, Function.update_of_ne hj]

/-- An assignment keeps the invariant. -/
theorem Wf.assign (h : Wf hash t) (hs : luaH_get hash t k = some s) : Wf hash (t.assign s v) := by
  obtain ⟨ha, hn, hl, hb, hk⟩ := assign_shape v t s
  have hkeys : keys (t.assign s v).node = keys t.node := funext fun i => (hk i).1
  have hlink : link (t.assign s v).node = link t.node := by
    funext i
    rw [link, link, (hk i).2]
  refine ⟨⟨fun hsize => ?_, by rw [hl, hn]; exact h.nodes.top, ?_⟩, by rw [ha, hb]; exact h.block,
    by rw [ha]; exact h.size, ?_, by rw [hl, ha]; exact h.cache⟩
  · rw [hn] at hsize ⊢
    have hinv := h.nodes.inv hsize
    refine ⟨hinv.pow, fun i hi => ?_, fun i hi hfree => ?_, ?_⟩
    · rw [(hk i).2]
      exact hinv.offset i hi
    · rw [(hk i).1] at hfree
      have hval := hinv.free i hi hfree
      rcases h.slot_cases hs with ⟨j, -, -, rfl⟩ | ⟨j, -, hkj, rfl⟩
      · exact hval
      · have hij : i ≠ j := by
          rintro rfl
          rw [hfree] at hkj
          exact absurd hkj (by simp)
        simpa [LuaTable.assign, Function.update_of_ne hij] using hval
    · rw [hkeys, hlink]
      exact hinv.scatter
  · intro i hi hle
    rw [hn] at hi
    rw [hl] at hle
    rw [(hk i).1]
    exact h.nodes.taken i hi hle
  · intro i hi key hkey
    rw [hn] at hi
    rw [(hk i).1] at hkey
    rw [ha]
    exact h.boundary i hi key hkey

theorem Good.assign (h : Good hash t) (hs : luaH_get hash t k = some s) :
    Good hash (t.assign s v) := by
  obtain ⟨ha, -, -, hb, -⟩ := assign_shape v t s
  exact ⟨h.toWf.assign v hs, by rw [ha, hb, h.length]⟩

omit [DecidableEq σ] [DecidableEq π] [DecidableEq ω] in
theorem Fresh.assign {k' : Key σ π ω} (h : Fresh t k') : Fresh (t.assign s v) k' := by
  obtain ⟨-, hn, -, -, hk⟩ := assign_shape v t s
  intro i hi
  rw [(hk i).1]
  exact h i (hn ▸ hi)

/-- Slots do not change under assignments. -/
theorem Wf.luaH_get_assign (h : Wf hash t) (hs : luaH_get hash t k = some s) (k' : Key σ π ω) :
    luaH_get hash (t.assign s v) k' = luaH_get hash t k' := by
  obtain ⟨ha, hn, -, -, hk⟩ := assign_shape v t s
  have h' := h.assign v hs
  cases hs' : luaH_get hash t k' with
  | none =>
    obtain ⟨h1, h2⟩ := h.luaH_get_eq_none.mp hs'
    exact h'.luaH_get_eq_none.mpr ⟨by rw [ha]; exact h1, h2.assign v⟩
  | some s' =>
    rcases h.slot_cases hs' with ⟨i, hi, rfl, rfl⟩ | ⟨i, hi, hki, rfl⟩
    · have := luaH_get_inRange hash h'.size (n := (i : ℤ) + 1) (by omega) (by omega)
      rw [this, show ((i : ℤ) + 1 - 1).toNat = i by omega]
    · exact h'.luaH_get_eq_some (hn ▸ hi) (by rw [(hk i).1]; exact hki)

/-- Two keys do not share a slot. -/
theorem Wf.slot_inj (h : Wf hash t) {k' : Key σ π ω} (hs : luaH_get hash t k = some s)
    (hs' : luaH_get hash t k' = some s) : k = k' := by
  rcases h.slot_cases hs with ⟨i, -, rfl, rfl⟩ | ⟨i, -, hki, rfl⟩
  · rcases h.slot_cases hs' with ⟨j, -, rfl, hj⟩ | ⟨j, -, -, hj⟩
    · obtain rfl : i = j := by simpa using hj
      rfl
    · exact absurd hj (by simp)
  · rcases h.slot_cases hs' with ⟨j, -, rfl, hj⟩ | ⟨j, -, hkj, hj⟩
    · exact absurd hj (by simp)
    · obtain rfl : i = j := by simpa using hj
      exact Option.some.inj (hki.symm.trans hkj)

theorem Wf.read_assign (h : Wf hash t) (hs : luaH_get hash t k = some s) (s' : Slot) :
    (t.assign s v).read s' = if s' = s then v else t.read s' := by
  rcases h.slot_cases hs with ⟨i, hi, rfl, rfl⟩ | ⟨i, hi, hki, rfl⟩
  · have hlen : i < t.array.length := lt_of_lt_of_le hi h.block
    cases s' with
    | array j =>
      by_cases hj : j = i
      · subst hj
        simp [LuaTable.assign, LuaTable.read, LuaTable.arrayAt, hlen]
      · simp [LuaTable.assign, LuaTable.read, LuaTable.arrayAt, hj, List.getElem?_set_ne (Ne.symm hj)]
    | node j => simp [LuaTable.assign, LuaTable.read]
  · cases s' with
    | array j => simp [LuaTable.assign, LuaTable.read, LuaTable.arrayAt]
    | node j =>
      by_cases hj : j = i
      · subst hj
        simp [LuaTable.assign, LuaTable.read]
      · simp [LuaTable.assign, LuaTable.read, hj]

/-- An assignment through the slot of a key changes this key only. -/
theorem Wf.content_assign (h : Wf hash t) (hs : luaH_get hash t k = some s) :
    content hash (t.assign s v) = Function.update (content hash t) k v := by
  funext k'
  rw [content, h.luaH_get_assign v hs, Function.update_apply]
  split_ifs with e
  · rw [e, hs]
    exact (h.read_assign v hs s).trans (if_pos rfl)
  · cases hs' : luaH_get hash t k' with
    | none => simp [content, hs', LuaTable.value]
    | some s' =>
      have hne : s' ≠ s := fun e' => e (h.slot_inj (e' ▸ hs') hs)
      rw [content, hs']
      exact (h.read_assign v hs s').trans (if_neg hne)

end Assign

/-! ### New keys -/

/-- A slot for a new key was made; the content is the same. -/
structure Placed (hash : Key σ π ω → ℕ) (t t' : LuaTable (Key σ π ω) V) (k : Key σ π ω) (s : Slot) :
    Prop where
  slot : luaH_get hash t' k = some s
  same : content hash t' = content hash t
  fresh : ∀ k', k' ≠ k → content hash t k' = none → Fresh t k' → Fresh t' k'

omit [DecidableEq σ] [DecidableEq π] [DecidableEq ω] in
/-- An insertion without a rehash. -/
theorem Wf.of_inserted (h : Wf hash t) (hk : inRange t.sizearray k = false)
    (hne : k ≠ .number (t.sizearray + 1)) {n : ℕ} (hi : Inserted hash t t' k n) : Wf hash t' where
  nodes := hi.nodes
  block := by rw [hi.array, hi.sizearray]; exact h.block
  size := by rw [hi.sizearray]; exact h.size
  boundary := by
    intro i hlt key hkey
    rw [hi.sizearray]
    rcases hi.keys i (hi.sizenode ▸ hlt) key hkey with rfl | ⟨j, hj, hkj⟩
    · exact inRange_succ_of_ne hk hne
    · exact h.boundary j hj key hkj
  cache := by
    have := h.cache
    have := hi.lastfree
    rw [hi.sizearray]
    omega

theorem Placed.of_inserted (h : Wf hash t) (h' : Wf hash t') {n : ℕ}
    (hi : Inserted hash t t' k n) : Placed hash t t' k (.node n) := by
  refine ⟨h'.luaH_get_eq_some (hi.sizenode ▸ hi.lt) hi.key, funext fun k' => ?_, ?_⟩
  · by_cases hk' : inRange t.sizearray k' = true
    · obtain ⟨m, rfl, h1, h2⟩ := exists_of_inRange hk'
      rw [content, content, luaH_get_inRange hash h.size (by omega) h2,
        luaH_get_inRange hash h'.size (by omega) (by rw [hi.sizearray]; exact h2)]
      simp only [LuaTable.value, LuaTable.read, LuaTable.arrayAt, hi.array]
    · rw [Bool.not_eq_true] at hk'
      refine Option.ext fun v => ?_
      rw [h.content_node hk', h'.content_node (by rw [hi.sizearray]; exact hk'), hi.sizenode]
      constructor
      · rintro ⟨i, hlt, h1, h2⟩
        exact hi.only i hlt k' v h1 h2
      · rintro ⟨i, hlt, h1, h2⟩
        exact hi.keep i hlt k' v h1 h2
  · intro k' hne _ hf i hlt hkey
    rcases hi.keys i (hi.sizenode ▸ hlt) k' hkey with rfl | ⟨j, hj, hkj⟩
    · exact hne rfl
    · exact hf j hj hkj

end Table

end Jaci
