import Jaci.Lib.Machine
import Jaci.Table.Refinement

/-!
# Traversals

`luaH_next` numbers the slots of the array part first and those of the nodes after them, finds the
number of the key it is given, and returns the next slot that has a value.  During a traversal the
program may assign to keys that are there, also nil, and the collector may mark keys without a
value as dead; a dead key is still found in its chain.

* `findindex`, `luaH_next` : the source;
* `findindex_slot` : a key is found where it is stored, dead or not;
* `luaH_next_spec` : one call passes only slots without a value;
* `luaH_next_traverses` : a traversal visits the keys that stay, each once, and no key twice.
-/

namespace Jaci

namespace Table

variable {σ π ω V : Type}

/-! ### The source -/

section Next

variable [DecidableEq σ] [DecidableEq π] [DecidableEq ω] (hash : Key σ π ω → ℕ)
  (iscollectable : Key σ π ω → Bool)

/-- The loop of `findindex` over a chain: a dead key is compared by its address. -/
def findChain (node : ℕ → Node (Key σ π ω) V) (dead : ℕ → Bool) (key : Key σ π ω) :
    ℕ → ℕ → Option ℕ
  | 0, _ => none
  | turns + 1, n =>
    if (dead n = false ∧ (node n).key = some key) ∨
        (dead n = true ∧ iscollectable key = true ∧ (node n).key = some key) then some n
    else if (node n).next = 0 then none
    else findChain node dead key turns (n + (node n).next).toNat

/-- `findindex`: the number of a key, -1 for nil; there is none if the key is not valid. -/
def findindex (t : LuaTable (Key σ π ω) V) (dead : ℕ → Bool) : Option (Key σ π ω) → Option ℤ
  | none => some (-1)
  | some key =>
    let i := arrayindex key
    if 0 < i ∧ i ≤ t.sizearray then some (i - 1)
    else if t.sizenode = 0 then none
    else
      (findChain iscollectable t.node dead key t.sizenode (mainposition hash t.sizenode key)).map
        fun n : ℕ => (n : ℤ) + t.sizearray

omit [DecidableEq σ] [DecidableEq π] [DecidableEq ω] in
/-- The loop over the array part, over `turns` slots from `i` on. -/
def nextArray (t : LuaTable (Key σ π ω) V) : ℕ → ℕ → Option (Option (Key σ π ω) × V)
  | 0, _ => none
  | turns + 1, i =>
    match t.arrayAt i with
    | some v => some (some (.number (i + 1)), v)
    | none => nextArray t turns (i + 1)

omit [DecidableEq σ] [DecidableEq π] [DecidableEq ω] in
/-- The loop over the nodes, over `turns` nodes from `i` on. -/
def nextNode (t : LuaTable (Key σ π ω) V) : ℕ → ℕ → Option (Option (Key σ π ω) × V)
  | 0, _ => none
  | turns + 1, i =>
    match (t.node i).val with
    | some v => some ((t.node i).key, v)
    | none => nextNode t turns (i + 1)

/-- `luaH_next`: the next key and its value, or nothing at the end.  There is no result if the key
is not valid. -/
def luaH_next (t : LuaTable (Key σ π ω) V) (dead : ℕ → Bool) (key : Option (Key σ π ω)) :
    Option (Option (Option (Key σ π ω) × V)) :=
  (findindex hash iscollectable t dead key).map fun i =>
    let i := (i + 1).toNat
    match nextArray t (t.sizearray - i) i with
    | some r => some r
    | none => nextNode t (t.sizenode - (i - t.sizearray)) (i - t.sizearray)

end Next

/-! ### The numbers of the slots -/

def Slot.index (t : LuaTable (Key σ π ω) V) : Slot → ℕ
  | .array i => i
  | .node i => t.sizearray + i

/-- Only keys that are collectable and have no value are marked. -/
def Marked (iscollectable : Key σ π ω → Bool) (t : LuaTable (Key σ π ω) V) (dead : ℕ → Bool) : Prop :=
  ∀ i < t.sizenode, dead i = true →
    (t.node i).val = none ∧ ∀ k, (t.node i).key = some k → iscollectable k = true

variable {hash : Key σ π ω → ℕ} {iscollectable : Key σ π ω → Bool} {t : LuaTable (Key σ π ω) V}
  {dead : ℕ → Bool} {k : Key σ π ω}

theorem nextArray_some {turns i : ℕ} {r : Option (Key σ π ω) × V}
    (h : nextArray t turns i = some r) :
    ∃ j, i ≤ j ∧ j < i + turns ∧ r.1 = some (.number (j + 1)) ∧ t.arrayAt j = some r.2 ∧
      ∀ j', i ≤ j' → j' < j → t.arrayAt j' = none := by
  induction turns generalizing i with
  | zero => exact absurd h (by simp [nextArray])
  | succ turns ih =>
    rw [nextArray] at h
    cases hv : t.arrayAt i with
    | some v =>
      rw [hv] at h
      obtain rfl := Option.some.inj h
      exact ⟨i, le_rfl, by omega, rfl, hv, fun j' h1 h2 => by omega⟩
    | none =>
      rw [hv] at h
      obtain ⟨j, h1, h2, h3, h4, h5⟩ := ih h
      refine ⟨j, by omega, by omega, h3, h4, fun j' h6 h7 => ?_⟩
      rcases Nat.eq_or_lt_of_le h6 with rfl | h8
      · exact hv
      · exact h5 j' h8 h7

theorem nextArray_none {turns i : ℕ} (h : nextArray t turns i = none) :
    ∀ j, i ≤ j → j < i + turns → t.arrayAt j = none := by
  induction turns generalizing i with
  | zero => exact fun j h1 h2 => by omega
  | succ turns ih =>
    rw [nextArray] at h
    intro j h1 h2
    cases hv : t.arrayAt i with
    | some v =>
      rw [hv] at h
      exact absurd h (by simp)
    | none =>
      rw [hv] at h
      rcases Nat.eq_or_lt_of_le h1 with rfl | h3
      · exact hv
      · exact ih h j h3 (by omega)

theorem nextNode_some {turns i : ℕ} {r : Option (Key σ π ω) × V}
    (h : nextNode t turns i = some r) :
    ∃ j, i ≤ j ∧ j < i + turns ∧ r.1 = (t.node j).key ∧ (t.node j).val = some r.2 ∧
      ∀ j', i ≤ j' → j' < j → (t.node j').val = none := by
  induction turns generalizing i with
  | zero => exact absurd h (by simp [nextNode])
  | succ turns ih =>
    rw [nextNode] at h
    cases hv : (t.node i).val with
    | some v =>
      rw [hv] at h
      obtain rfl := Option.some.inj h
      exact ⟨i, le_rfl, by omega, rfl, hv, fun j' h1 h2 => by omega⟩
    | none =>
      rw [hv] at h
      obtain ⟨j, h1, h2, h3, h4, h5⟩ := ih h
      refine ⟨j, by omega, by omega, h3, h4, fun j' h6 h7 => ?_⟩
      rcases Nat.eq_or_lt_of_le h6 with rfl | h8
      · exact hv
      · exact h5 j' h8 h7

theorem nextNode_none {turns i : ℕ} (h : nextNode t turns i = none) :
    ∀ j, i ≤ j → j < i + turns → (t.node j).val = none := by
  induction turns generalizing i with
  | zero => exact fun j h1 h2 => by omega
  | succ turns ih =>
    rw [nextNode] at h
    intro j h1 h2
    cases hv : (t.node i).val with
    | some v =>
      rw [hv] at h
      exact absurd h (by simp)
    | none =>
      rw [hv] at h
      rcases Nat.eq_or_lt_of_le h1 with rfl | h3
      · exact hv
      · exact ih h j h3 (by omega)

variable [DecidableEq σ] [DecidableEq π] [DecidableEq ω]

/-- A dead key is found like one that is not. -/
theorem findChain_eq_findNode (h : Nodes hash t) (hm : Marked iscollectable t dead) {turns n : ℕ}
    (hn : n < t.sizenode) :
    findChain iscollectable t.node dead k turns n = findNode t.node k turns n := by
  induction turns generalizing n with
  | zero => rfl
  | succ turns ih =>
    rw [findChain, findNode]
    by_cases hk : (t.node n).key = some k
    · rw [if_pos hk, if_pos]
      cases hd : dead n with
      | false => exact .inl ⟨rfl, hk⟩
      | true => exact .inr ⟨rfl, (hm n hn hd).2 k hk, hk⟩
    · rw [if_neg hk, if_neg fun h => h.elim (fun h => hk h.2) fun h => hk h.2.2]
      split_ifs with h0
      · rfl
      · exact ih ((h.inv (by omega)).scatter.closed n hn _ (link_of_next_ne h0))

/-- A key is found where it is stored, dead or not. -/
theorem findindex_slot (h : Wf hash t) (hm : Marked iscollectable t dead) {s : Slot}
    (hs : luaH_get hash t k = some s) :
    findindex hash iscollectable t dead (some k) = some (s.index t : ℤ) := by
  have hmax := h.size
  rcases h.slot_cases hs with ⟨i, hi, rfl, rfl⟩ | ⟨i, hi, hk, rfl⟩
  · have hidx : arrayindex (.number (i + 1) : Key σ π ω) = i + 1 :=
      arrayindex_number (by omega) (by omega)
    simp only [findindex, hidx]
    rw [if_pos ⟨by omega, by omega⟩, Slot.index, add_sub_cancel_right]
  · have hnot : ¬(0 < arrayindex k ∧ arrayindex k ≤ t.sizearray) := by
      intro hr
      have hkey := eq_number_of_arrayindex k (by omega)
      refine Bool.eq_false_iff.mp (h.not_inRange hi hk) ?_
      rw [hkey]
      exact inRange_eq_true.mpr hr
    have hsize : t.sizenode ≠ 0 := by omega
    have hinv := h.nodes.inv hsize
    simp only [findindex]
    rw [if_neg hnot, if_neg hsize,
      findChain_eq_findNode h.nodes hm (mainposition_lt hash hinv.pow k),
      hinv.findNode_eq_some.mpr ⟨hi, hk⟩, Option.map_some, Slot.index]
    exact congrArg some (by omega)

/-- What one call of `luaH_next` does, from the number `p` on. -/
theorem luaH_next_spec (h : Wf hash t) {key : Option (Key σ π ω)} {p : ℕ}
    (hp : findindex hash iscollectable t dead key = some ((p : ℤ) - 1)) :
    (luaH_next hash iscollectable t dead key = some none ∧
      ∀ k s, luaH_get hash t k = some s → p ≤ s.index t → t.read s = none) ∨
    ∃ k v s, luaH_next hash iscollectable t dead key = some (some (some k, v)) ∧
      luaH_get hash t k = some s ∧ t.read s = some v ∧ p ≤ s.index t ∧
      ∀ k' s', luaH_get hash t k' = some s' → p ≤ s'.index t → s'.index t < s.index t →
        t.read s' = none := by
  have hstart : ((p : ℤ) - 1 + 1).toNat = p := by omega
  rw [luaH_next, hp]
  simp only [Option.map_some, hstart]
  cases ha : nextArray t (t.sizearray - p) p with
  | some r =>
    obtain ⟨j, h1, h2, h3, h4, h5⟩ := nextArray_some ha
    have hj : j < t.sizearray := by omega
    have hget : luaH_get hash t (.number (j + 1)) = some (.array j) := by
      rw [luaH_get_inRange hash h.size (by omega) (by omega)]
      congr 2
      omega
    refine .inr ⟨.number (j + 1), r.2, .array j, ?_, hget, h4, h1, fun k' s' hs' h6 h7 => ?_⟩
    · rw [← h3]
    · rcases h.slot_cases hs' with ⟨i, hi, -, rfl⟩ | ⟨i, hi, -, rfl⟩
      · exact h5 i h6 h7
      · simp only [Slot.index] at h7
        omega
  | none =>
    have hnone := nextArray_none ha
    cases hn : nextNode t (t.sizenode - (p - t.sizearray)) (p - t.sizearray) with
    | some r =>
      obtain ⟨j, h1, h2, h3, h4, h5⟩ := nextNode_some hn
      have hj : j < t.sizenode := by omega
      obtain ⟨k, hk⟩ : ∃ k, (t.node j).key = some k := by
        refine Option.ne_none_iff_exists'.mp fun e => ?_
        rw [(h.nodes.inv (by omega)).free j hj e] at h4
        exact absurd h4 (by simp)
      refine .inr ⟨k, r.2, .node j, ?_, h.luaH_get_eq_some hj hk, h4, ?_, fun k' s' hs' h6 h7 => ?_⟩
      · rw [← hk, ← h3]
      · simp only [Slot.index]
        omega
      · rcases h.slot_cases hs' with ⟨i, hi, -, rfl⟩ | ⟨i, hi, -, rfl⟩
        · exact hnone i h6 (by simp only [Slot.index] at h6; omega)
        · simp only [Slot.index] at h6 h7
          exact h5 i (by omega) (by omega)
    | none =>
      have hnode := nextNode_none hn
      refine .inl ⟨rfl, fun k s hs hle => ?_⟩
      rcases h.slot_cases hs with ⟨i, hi, -, rfl⟩ | ⟨i, hi, -, rfl⟩
      · exact hnone i hle (by simp only [Slot.index] at hle; omega)
      · simp only [Slot.index] at hle
        exact hnode i (by omega) (by omega)

/-! ### Traversals -/

/-- How far a traversal is. -/
inductive Progress where
  | running
  /-- `luaH_next` has returned 0. -/
  | ended
  /-- `luaH_next` has raised its error. -/
  | invalidKey
deriving DecidableEq

/-- A traversal. -/
structure Traversal (σ π ω V : Type) where
  start : LuaTable (Key σ π ω) V
  table : LuaTable (Key σ π ω) V
  dead : ℕ → Bool
  /-- The key that `luaH_next` gets next; nil at first. -/
  key : Option (Key σ π ω)
  /-- The keys that were returned, the last one first. -/
  visited : List (Key σ π ω)
  progress : Progress
  /-- The keys that have had a value since the start. -/
  stays : Key σ π ω → Prop

/-- What happens during a traversal. -/
inductive TraversalOp (σ π ω V : Type) where
  | assign (key : Key σ π ω) (v : Option V)
  /-- The collector marks the key of a node that has no value. -/
  | mark (i : ℕ)
  /-- The program calls `luaH_next` with the key that it returned last. -/
  | next

/-- The table has a slot for the key, and the key in it is not dead. -/
def Present (hash : Key σ π ω → ℕ) (s : Traversal σ π ω V) (key : Key σ π ω) : Prop :=
  match luaH_get hash s.table key with
  | some (.array _) => True
  | some (.node i) => s.dead i = false
  | none => False

instance (s : Traversal σ π ω V) (key : Key σ π ω) : Decidable (Present hash s key) := by
  unfold Present
  split <;> infer_instance

/-- The traversal after an assignment. -/
def Traversal.assign (hash : Key σ π ω → ℕ) (s : Traversal σ π ω V) (key : Key σ π ω)
    (v : Option V) : Traversal σ π ω V :=
  match luaH_get hash s.table key with
  | none => s
  | some slot =>
    let table := s.table.assign slot v
    { s with table := table, stays := fun k => s.stays k ∧ content hash table k ≠ none }

/-- The traversal after a call of `luaH_next`. -/
def Traversal.next (hash : Key σ π ω → ℕ) (iscollectable : Key σ π ω → Bool)
    (s : Traversal σ π ω V) : Traversal σ π ω V :=
  match luaH_next hash iscollectable s.table s.dead s.key with
  | none => { s with progress := .invalidKey }
  | some none => { s with progress := .ended }
  | some (some (key, _)) => { s with key := key, visited := key.toList ++ s.visited }

/-- Traversals of the tables that runs reach; no new keys are inserted meanwhile. -/
def traversals (V : Type) (hash : Key σ π ω → ℕ) (iscollectable : Key σ π ω → Bool) :
    Machine (Traversal σ π ω V) (TraversalOp σ π ω V) where
  init s := ∃ t es dead, Run hash (Op.Allowed (Fits hash) fun _ _ => True) t es ∧
    Marked iscollectable t dead ∧ s = ⟨t, t, dead, none, [], .running, fun k => content hash t k ≠ none⟩
  enabled s
    | .assign key _ => Present hash s key
    | .mark i => (s.table.node i).val.isNone ∧ (s.table.node i).key.all iscollectable
    | .next => s.progress = .running
  exec s
    | .assign key v => s.assign hash key v
    | .mark i => { s with dead := Function.update s.dead i true }
    | .next => s.next hash iscollectable

/-- The invariant of a traversal: it has passed the slots before `p`. -/
structure Passed (hash : Key σ π ω → ℕ) (iscollectable : Key σ π ω → Bool) (s : Traversal σ π ω V)
    (p : ℕ) : Prop where
  wf : Wf hash s.table
  marked : Marked iscollectable s.table s.dead
  sizearray : s.table.sizearray = s.start.sizearray
  sizenode : s.table.sizenode = s.start.sizenode
  /-- The key that was returned last is just behind. -/
  last : (s.key = none ∧ p = 0) ∨
    ∃ k slot, s.key = some k ∧ luaH_get hash s.table k = some slot ∧ p = slot.index s.table + 1
  behind : ∀ k ∈ s.visited, ∃ slot, luaH_get hash s.table k = some slot ∧ slot.index s.table < p
  nodup : s.visited.Nodup
  /-- No more keys were returned than slots were passed. -/
  length : s.visited.length ≤ p
  inside : p ≤ s.start.sizearray + s.start.sizenode
  stays : ∀ k, s.stays k → content hash s.table k ≠ none
  visits : ∀ k slot, s.stays k → luaH_get hash s.table k = some slot → slot.index s.table < p →
    k ∈ s.visited
  valid : s.progress ≠ .invalidKey
  ended : s.progress = .ended → ∀ k, s.stays k → k ∈ s.visited

omit [DecidableEq σ] [DecidableEq π] [DecidableEq ω] in
theorem Slot.index_congr {t t' : LuaTable (Key σ π ω) V} (h : t'.sizearray = t.sizearray) (s : Slot) :
    s.index t' = s.index t := by
  cases s with
  | array i => rfl
  | node i => rw [Slot.index, Slot.index, h]

/-- A slot in the table has a number below the number of all slots. -/
theorem Wf.index_lt (h : Wf hash t) {s : Slot} (hs : luaH_get hash t k = some s) :
    s.index t < t.sizearray + t.sizenode := by
  rcases h.slot_cases hs with ⟨i, hi, -, rfl⟩ | ⟨i, hi, -, rfl⟩
  · exact Nat.lt_add_right _ hi
  · exact Nat.add_lt_add_left hi _

/-- Two slots do not share a number. -/
theorem Wf.index_inj (h : Wf hash t) {k' : Key σ π ω} {s s' : Slot}
    (hs : luaH_get hash t k = some s) (hs' : luaH_get hash t k' = some s')
    (he : s.index t = s'.index t) : s = s' := by
  rcases h.slot_cases hs with ⟨i, hi, -, rfl⟩ | ⟨i, hi, -, rfl⟩ <;>
    rcases h.slot_cases hs' with ⟨j, hj, -, rfl⟩ | ⟨j, hj, -, rfl⟩ <;>
    simp only [Slot.index] at he
  · rw [he]
  · omega
  · omega
  · congr 1
    omega

/-- A key with a value has a slot. -/
theorem exists_slot (h : content hash t k ≠ none) : ∃ s, luaH_get hash t k = some s := by
  refine Option.ne_none_iff_exists'.mp fun e => h ?_
  rw [content, e]
  rfl

section Step

variable {s : Traversal σ π ω V} {p : ℕ}

theorem Marked.assign (h : Wf hash t) (hm : Marked iscollectable t dead) {slot : Slot} {v : Option V}
    (hs : luaH_get hash t k = some slot) (hlive : ∀ i, slot = .node i → dead i = false) :
    Marked iscollectable (t.assign slot v) dead := by
  obtain ⟨-, hn, -, -, hk⟩ := assign_shape v t slot
  intro i hi hd
  rw [(hk i).1]
  obtain ⟨hval, hc⟩ := hm i (hn ▸ hi) hd
  refine ⟨?_, hc⟩
  rcases h.slot_cases hs with ⟨j, -, -, rfl⟩ | ⟨j, -, -, rfl⟩
  · exact hval
  · have hij : i ≠ j := by
      rintro rfl
      rw [hlive i rfl] at hd
      exact absurd hd (by simp)
    simpa [LuaTable.assign, Function.update_of_ne hij] using hval

/-- An assignment moves no key. -/
theorem Passed.assign (h : Passed hash iscollectable s p) (key : Key σ π ω) (v : Option V)
    (hp : Present hash s key) : Passed hash iscollectable (s.assign hash key v) p := by
  rw [Present] at hp
  rw [Traversal.assign]
  cases hs : luaH_get hash s.table key with
  | none =>
    rw [hs] at hp
    exact hp.elim
  | some slot =>
    have hlive : ∀ i, slot = .node i → s.dead i = false := by
      rintro i rfl
      rw [hs] at hp
      exact hp
    obtain ⟨ha, hn, -, -, -⟩ := assign_shape v s.table slot
    have hwf := h.wf.assign v hs
    have hmarked := h.marked.assign (v := v) h.wf hs hlive
    have hget := h.wf.luaH_get_assign v hs
    have hidx : ∀ x : Slot, x.index (s.table.assign slot v) = x.index s.table :=
      Slot.index_congr ha
    refine ⟨hwf, hmarked, ha.trans h.sizearray, hn.trans h.sizenode, h.last.imp id ?_, ?_, h.nodup,
      h.length, h.inside, fun k hk => hk.2, ?_, h.valid, fun he k hk => h.ended he k hk.1⟩
    · rintro ⟨k, x, h1, h2, h3⟩
      exact ⟨k, x, h1, (hget k).trans h2, by rw [hidx]; exact h3⟩
    · intro k hk
      obtain ⟨x, h1, h2⟩ := h.behind k hk
      exact ⟨x, (hget k).trans h1, by rw [hidx]; exact h2⟩
    · intro k x hk h1 h2
      exact h.visits k x hk.1 ((hget k).symm.trans h1) (by rw [← hidx]; exact h2)

/-- The mark of a dead key. -/
theorem Passed.mark (h : Passed hash iscollectable s p) {i : ℕ} (hval : (s.table.node i).val.isNone)
    (hkey : (s.table.node i).key.all iscollectable) :
    Passed hash iscollectable { s with dead := Function.update s.dead i true } p := by
  refine ⟨h.wf, fun j hj hd => ?_, h.sizearray, h.sizenode, h.last, h.behind, h.nodup, h.length,
    h.inside, h.stays, h.visits, h.valid, h.ended⟩
  by_cases hji : j = i
  · subst hji
    refine ⟨Option.isNone_iff_eq_none.mp hval, fun k hk => ?_⟩
    rw [hk] at hkey
    exact hkey
  · exact h.marked j hj (by simpa [Function.update_of_ne hji] using hd)

/-- The key that was returned last is valid, even if it has no value any more. -/
theorem Passed.found (h : Passed hash iscollectable s p) :
    findindex hash iscollectable s.table s.dead s.key = some ((p : ℤ) - 1) := by
  rcases h.last with ⟨hk, rfl⟩ | ⟨k, slot, hk, hs, rfl⟩
  · rw [hk]
    rfl
  · rw [hk, findindex_slot h.wf h.marked hs]
    exact congrArg some (by omega)

/-- A call of `luaH_next`. -/
theorem Passed.next (h : Passed hash iscollectable s p) :
    ∃ p', Passed hash iscollectable (s.next hash iscollectable) p' := by
  rw [Traversal.next]
  rcases luaH_next_spec h.wf h.found with ⟨hr, hrest⟩ | ⟨k, v, slot, hr, hs, hv, hle, hskip⟩
  · rw [hr]
    refine ⟨p, ⟨h.wf, h.marked, h.sizearray, h.sizenode, h.last, h.behind, h.nodup, h.length,
      h.inside, h.stays, h.visits, by simp, fun _ k hk => ?_⟩⟩
    obtain ⟨slot, hs⟩ := exists_slot (h.stays k hk)
    refine h.visits k slot hk hs ?_
    by_contra hlt
    refine h.stays k hk ?_
    rw [content, hs]
    exact hrest k slot hs (not_lt.mp hlt)
  · rw [hr]
    have hlt := h.wf.index_lt hs
    refine ⟨slot.index s.table + 1, ⟨h.wf, h.marked, h.sizearray, h.sizenode,
      .inr ⟨k, slot, rfl, hs, rfl⟩, ?_, ?_, ?_, ?_, h.stays, ?_, h.valid, ?_⟩⟩
    · intro k' hk'
      rcases List.mem_cons.mp hk' with rfl | hk'
      · exact ⟨slot, hs, Nat.lt_succ_self _⟩
      · obtain ⟨x, h1, h2⟩ := h.behind k' hk'
        exact ⟨x, h1, Nat.lt_succ_of_lt (lt_of_lt_of_le h2 hle)⟩
    · refine List.nodup_cons.mpr ⟨fun hmem => ?_, h.nodup⟩
      obtain ⟨x, h1, h2⟩ := h.behind k hmem
      have hx : slot = x := Option.some.inj (hs.symm.trans h1)
      rw [← hx] at h2
      omega
    · have := h.length
      show s.visited.length + 1 ≤ _
      omega
    · rw [← h.sizearray, ← h.sizenode]
      omega
    · -- what was passed has no value, so that no key there has stayed
      intro k' x hk' h1 h2
      by_cases hxp : x.index s.table < p
      · exact List.mem_cons_of_mem _ (h.visits k' x hk' h1 hxp)
      · rcases Nat.lt_succ_iff_lt_or_eq.mp h2 with h3 | h3
        · refine absurd ?_ (h.stays k' hk')
          rw [content, h1]
          exact hskip k' x h1 (not_lt.mp hxp) h3
        · have hx : x = slot := h.wf.index_inj h1 hs h3
          subst hx
          exact List.mem_cons.mpr (.inl (h.wf.slot_inj h1 hs))
    · intro he k' hk'
      exact List.mem_cons_of_mem _ (h.ended he k' hk')

end Step

/-- **A traversal visits what stays.**  In every run in which the program assigns only to keys that
are in the table, `luaH_next` raises no error and returns no key twice, it returns at most as many
keys as the table has slots, and when it ends it has returned every key that had a value all the
time. -/
theorem luaH_next_traverses {s : Traversal σ π ω V}
    (h : (traversals V hash iscollectable).Reach (fun _ _ => True) s) :
    s.progress ≠ .invalidKey ∧ s.visited.Nodup ∧
      s.visited.length ≤ s.start.sizearray + s.start.sizenode ∧
      (s.progress = .ended → ∀ k, s.stays k → s.visited.count k = 1) := by
  have hinv : ∃ p, Passed hash iscollectable s p := by
    refine h.invariant (I := fun s => ∃ p, Passed hash iscollectable s p) ?_ ?_
    · rintro _ ⟨t, es, dead, hrun, hm, rfl⟩
      exact ⟨0, ⟨hrun.good.toWf, hm, rfl, rfl, .inl ⟨rfl, rfl⟩, by simp, List.nodup_nil, le_rfl,
        Nat.zero_le _, fun _ hk => hk, fun _ _ _ _ hlt => absurd hlt (Nat.not_lt_zero _), by simp,
        by simp⟩⟩
    · rintro s op ⟨p, hp⟩ hen -
      cases op with
      | assign key v => exact ⟨p, hp.assign key v hen⟩
      | mark i => exact ⟨p, hp.mark hen.1 hen.2⟩
      | next => exact hp.next
  obtain ⟨p, hp⟩ := hinv
  exact ⟨hp.valid, hp.nodup, hp.length.trans hp.inside, fun he k hk =>
    List.count_eq_one_of_mem hp.nodup (hp.ended he k hk)⟩

instance (s : Traversal σ π ω V) (op : TraversalOp σ π ω V) :
    Decidable ((traversals V hash iscollectable).enabled s op) := by
  cases op with
  | assign key v => exact inferInstanceAs (Decidable (Present hash s key))
  | mark i => exact inferInstanceAs (Decidable (_ ∧ _))
  | next => exact inferInstanceAs (Decidable (s.progress = .running))

/-- The traversal of a table with elements in both parts; each key gets nil when it was returned,
and the key of the node dies. -/
theorem luaH_next_traverses_sample : ∃ s : Traversal ℕ Empty Empty ℕ,
    (traversals ℕ sampleHash fun _ => true).Reach (fun _ _ => True) s ∧ s.progress = .ended ∧
      s.visited = [.string 5, .number 1] ∧ s.visited.Nodup := by
  have hrun : Run (V := ℕ) sampleHash (Op.Allowed (Fits sampleHash) fun _ _ => True) _ _ :=
    ((Run.new 2 2 rfl).step (.setnum 1 (some 10)) (show isInt 1 by decide)).step
      (.setstr 5 (some 50)) trivial
  have hstart : (traversals ℕ sampleHash fun _ => true).Reach (fun _ _ => True) _ :=
    .init ⟨_, _, fun _ => false, hrun, fun i _ hi => absurd hi (by simp), rfl⟩
  have hreach := hstart.run (l := [.next, .assign (.number 1) none, .next,
    .assign (.string 5) none, .mark 1, .next]) (by decide)
  exact ⟨_, hreach, by decide, by decide, (luaH_next_traverses hreach).2.1⟩

end Table

end Jaci
