import Jaci.Lib.Scatter
import Jaci.Table.Basic

/-!
# The node part

The node part is a chained scatter table (`Scatter`): every key in it is found from its main
position.  Insertion keeps this, and keeps every entry.

* `NodesInv` : the invariant of a node vector;
* `findNode_eq_some` : a key is found exactly where it is stored;
* `insertNode_some`, `insertNode_none` : what an insertion without a rehash does.
-/

namespace Jaci

namespace Table

open Linked

variable {K V : Type} {hash : K → ℕ} {size : ℕ} {node : ℕ → Node K V} {k : K}

/-! ### Links -/

/-- The node that a node links to. -/
def link (node : ℕ → Node K V) (i : ℕ) : Option ℕ :=
  if (node i).next = 0 then none else some (i + (node i).next).toNat

def keys (node : ℕ → Node K V) (i : ℕ) : Option K := (node i).key

/-- The invariant of a vector of nodes. -/
structure NodesInv (hash : K → ℕ) (size : ℕ) (node : ℕ → Node K V) : Prop where
  pow : ∃ k, size = 2 ^ k
  /-- Offsets do not lead in front of the first node. -/
  offset : ∀ i < size, 0 ≤ (i : ℤ) + (node i).next
  free : ∀ i < size, (node i).key = none → (node i).val = none
  scatter : Scatter {i | i < size} (mainposition hash size) (keys node) (link node)

theorem mainposition_lt (hash : K → ℕ) (hpow : ∃ k, size = 2 ^ k) (k : K) :
    mainposition hash size k < size := by
  obtain ⟨e, rfl⟩ := hpow
  rw [mainposition, Nat.and_two_pow_sub_one_eq_mod]
  exact Nat.mod_lt _ (Nat.two_pow_pos e)

/-- A vector of free nodes. -/
theorem NodesInv.free_nodes (hash : K → ℕ) (hpow : ∃ k, size = 2 ^ k) :
    NodesInv hash size (fun _ => (Node.free : Node K V)) where
  pow := hpow
  offset := fun i _ => by simp [Node.free]
  free := fun _ _ _ => rfl
  scatter := Scatter.empty (mainposition_lt hash hpow)

theorem link_of_next_ne {i : ℕ} (h : (node i).next ≠ 0) :
    link node i = some (i + (node i).next).toNat :=
  if_neg h

theorem link_of_next_eq {i : ℕ} (h : (node i).next = 0) : link node i = none := if_pos h

theorem link_setnext (node : ℕ → Node K V) (i : ℕ) (d : ℤ) :
    link (setnext node i d) =
      Function.update (link node) i (if d = 0 then none else some (i + d).toNat) := by
  funext j
  by_cases h : j = i
  · subst h
    simp [link, setnext]
  · simp [link, setnext, Function.update_of_ne h]

theorem keys_setnext (node : ℕ → Node K V) (i : ℕ) (d : ℤ) :
    keys (setnext node i d) = keys node := by
  funext j
  by_cases h : j = i
  · subst h
    simp [keys, setnext]
  · simp [keys, setnext, Function.update_of_ne h]

theorem val_setnext (node : ℕ → Node K V) (i j : ℕ) (d : ℤ) :
    (setnext node i d j).val = (node j).val := by
  by_cases h : j = i
  · subst h
    simp [setnext]
  · simp [setnext, Function.update_of_ne h]

theorem next_setnext (node : ℕ → Node K V) (i j : ℕ) (d : ℤ) :
    (setnext node i d j).next = if j = i then d else (node j).next := by
  by_cases h : j = i
  · subst h
    simp [setnext]
  · simp [setnext, h]

theorem link_setnodekey (node : ℕ → Node K V) (i : ℕ) (k : K) :
    link (setnodekey node i k) = link node := by
  funext j
  by_cases h : j = i
  · subst h
    simp [link, setnodekey]
  · simp [link, setnodekey, Function.update_of_ne h]

theorem keys_setnodekey (node : ℕ → Node K V) (i : ℕ) (k : K) :
    keys (setnodekey node i k) = Function.update (keys node) i (some k) := by
  funext j
  by_cases h : j = i
  · subst h
    simp [keys, setnodekey]
  · simp [keys, setnodekey, Function.update_of_ne h]

theorem val_setnodekey (node : ℕ → Node K V) (i j : ℕ) (k : K) :
    (setnodekey node i k j).val = (node j).val := by
  by_cases h : j = i
  · subst h
    simp [setnodekey]
  · simp [setnodekey, Function.update_of_ne h]

theorem next_setnodekey (node : ℕ → Node K V) (i j : ℕ) (k : K) :
    (setnodekey node i k j).next = (node j).next := by
  by_cases h : j = i
  · subst h
    simp [setnodekey]
  · simp [setnodekey, Function.update_of_ne h]

/-! ### Search -/

section Search

variable [DecidableEq K]

theorem findNode_of_seg {l : List ℕ} {s i turns : ℕ} (hl : Seg (link node) (some s) l (some i))
    (hi : (node i).key = some k) (hne : ∀ a ∈ l, (node a).key ≠ some k)
    (hturns : l.length < turns) : findNode node k turns s = some i := by
  induction l generalizing s turns with
  | nil =>
    obtain ⟨turns, rfl⟩ : ∃ m, turns = m + 1 := ⟨turns - 1, by simp at hturns; omega⟩
    obtain rfl : s = i := Option.some.inj hl
    rw [findNode, if_pos hi]
  | cons a l ih =>
    obtain ⟨turns, rfl⟩ : ∃ m, turns = m + 1 := ⟨turns - 1, by simp at hturns; omega⟩
    obtain rfl : s = a := Option.some.inj hl.1
    have hl' := hl.2
    have hnext : (node s).next ≠ 0 := by
      intro e
      rw [link_of_next_eq e] at hl'
      cases l with
      | nil => exact absurd hl' (by simp [Seg])
      | cons c l => exact absurd hl'.1 (by simp)
    rw [link_of_next_ne hnext] at hl'
    rw [findNode, if_neg (hne s List.mem_cons_self), if_neg hnext]
    exact ih hl' (fun c hc => hne c (List.mem_cons_of_mem s hc)) (by simpa using hturns)

theorem key_of_findNode {turns s i : ℕ} (h : findNode node k turns s = some i) :
    (node i).key = some k := by
  induction turns generalizing s with
  | zero => simp [findNode] at h
  | succ turns ih =>
    rw [findNode] at h
    split_ifs at h with h1 h2
    · obtain rfl : s = i := Option.some.inj h
      exact h1
    · exact ih h

theorem NodesInv.findNode_lt (h : NodesInv hash size node) {turns s i : ℕ} (hs : s < size)
    (hf : findNode node k turns s = some i) : i < size := by
  induction turns generalizing s with
  | zero => simp [findNode] at hf
  | succ turns ih =>
    rw [findNode] at hf
    split_ifs at hf with h1 h2
    · exact Option.some.inj hf ▸ hs
    · exact ih (h.scatter.closed s hs _ (link_of_next_ne h2)) hf

omit [DecidableEq K] in
/-- The way to a node is shorter than the vector. -/
theorem NodesInv.length_lt (h : NodesInv hash size node) {s i : ℕ} (hs : s < size) (hi : i < size)
    {l : List ℕ} (hl : Seg (link node) (some s) l (some i)) : l.length < size := by
  obtain ⟨l', hl'⟩ := h.scatter.chain i hi
  have hchain : Chain (link node) (some s) (l ++ l') := seg_append.mpr ⟨_, hl, hl'⟩
  have hle := hchain.length_le_card (S := Finset.range size) fun a ha =>
    Finset.mem_range.mpr (h.scatter.seg_subset hs hchain a ha)
  have hpos : 0 < l'.length := by
    cases l' with
    | nil => exact absurd (chain_nil.mp hl') (by simp)
    | cons a l' => simp
  rw [Finset.card_range, List.length_append] at hle
  omega

/-- A key is found exactly where it is stored. -/
theorem NodesInv.findNode_eq_some (h : NodesInv hash size node) {i : ℕ} :
    findNode node k size (mainposition hash size k) = some i ↔ i < size ∧ (node i).key = some k := by
  have hmp := mainposition_lt hash h.pow k
  constructor
  · exact fun hf => ⟨h.findNode_lt hmp hf, key_of_findNode hf⟩
  · rintro ⟨hi, hk⟩
    obtain ⟨l, hl, -, hne⟩ := h.scatter.found i hi k hk
    exact findNode_of_seg hl hk hne (h.length_lt hmp hi hl)

theorem NodesInv.findNode_eq_none (h : NodesInv hash size node) :
    findNode node k size (mainposition hash size k) = none ↔
      ∀ i < size, (node i).key ≠ some k := by
  constructor
  · intro hf i hi hk
    rw [h.findNode_eq_some.mpr ⟨hi, hk⟩] at hf
    exact absurd hf (by simp)
  · intro hall
    cases hf : findNode node k size (mainposition hash size k) with
    | none => rfl
    | some i =>
      obtain ⟨hi, hk⟩ := h.findNode_eq_some.mp hf
      exact absurd hk (hall i hi)

end Search

/-! ### Free positions -/

theorem freeBelow_some {n m l : ℕ} (h : freeBelow node n = (some m, l)) :
    l = m ∧ m < n ∧ (node m).key = none ∧ ∀ j < n, m < j → (node j).key ≠ none := by
  induction n with
  | zero => simp [freeBelow] at h
  | succ n ih =>
    rw [freeBelow] at h
    split_ifs at h with hn
    · obtain ⟨rfl, rfl⟩ : n = m ∧ n = l := by simpa using h
      exact ⟨rfl, n.lt_succ_self, Option.isNone_iff_eq_none.mp hn, fun j h1 h2 => by omega⟩
    · obtain ⟨h1, h2, h3, h4⟩ := ih h
      refine ⟨h1, h2.trans n.lt_succ_self, h3, fun j hj hm => ?_⟩
      by_cases e : j = n
      · rw [e]
        exact fun e' => hn (by rw [e']; rfl)
      · exact h4 j (by omega) hm

theorem freeBelow_none {n l : ℕ} (h : freeBelow node n = (none, l)) :
    l = 0 ∧ ∀ j < n, (node j).key ≠ none := by
  induction n with
  | zero =>
    obtain rfl : 0 = l := by simpa [freeBelow] using h
    exact ⟨rfl, fun j hj => absurd hj j.not_lt_zero⟩
  | succ n ih =>
    rw [freeBelow] at h
    split_ifs at h with hn
    · simp at h
    · obtain ⟨h1, h2⟩ := ih h
      refine ⟨h1, fun j hj => ?_⟩
      by_cases e : j = n
      · rw [e]
        exact fun e' => hn (by rw [e']; rfl)
      · exact h2 j (by omega)

/-! ### Collisions -/

/-- The node before `mp` on a chain is found. -/
theorem findPrevious_of_seg {l : List ℕ} {s b mp turns : ℕ} (hl : Seg (link node) (some s) l (some b))
    (hb : link node b = some mp) (hne : ∀ a ∈ l, link node a ≠ some mp)
    (hoff : 0 ≤ (b : ℤ) + (node b).next) (hturns : l.length < turns) : findPrevious node mp turns s = b := by
  induction l generalizing s turns with
  | nil =>
    obtain ⟨turns, rfl⟩ : ∃ m, turns = m + 1 := ⟨turns - 1, by simp at hturns; omega⟩
    obtain rfl : s = b := Option.some.inj hl
    have hnext : (node s).next ≠ 0 := fun e => by simp [link_of_next_eq e] at hb
    rw [link_of_next_ne hnext] at hb
    have := Option.some.inj hb
    rw [findPrevious, if_pos (by omega)]
  | cons a l ih =>
    obtain ⟨turns, rfl⟩ : ∃ m, turns = m + 1 := ⟨turns - 1, by simp at hturns; omega⟩
    obtain rfl : s = a := Option.some.inj hl.1
    have hl' := hl.2
    have hs : link node s ≠ some mp := hne s List.mem_cons_self
    have hnext : (node s).next ≠ 0 := by
      intro e
      rw [link_of_next_eq e] at hl'
      cases l with
      | nil => exact absurd hl' (by simp [Seg])
      | cons c l => exact absurd hl'.1 (by simp)
    rw [link_of_next_ne hnext] at hl' hs
    rw [findPrevious, if_neg]
    · exact ih hl' (fun c hc => hne c (List.mem_cons_of_mem s hc)) (by simpa using hturns)
    · intro e
      exact hs (by rw [e, Int.toNat_natCast])

section Collision

variable {mp n b : ℕ}

theorem link_chainNode (hn : link node n = none) (hmp : link node mp ≠ some n) (hne : n ≠ mp) :
    link (chainNode node mp n) =
      Function.update (Function.update (link node) n (link node mp)) mp (some n) := by
  have hd : (n : ℤ) - mp ≠ 0 := by omega
  have hto : ((mp : ℤ) + (n - mp)).toNat = n := by omega
  rw [chainNode]
  by_cases h0 : (node mp).next = 0
  · simp only [ne_eq, h0, not_true_eq_false, if_false, link_setnext, if_neg hd, hto]
    rw [link_of_next_eq h0, ← hn, Function.update_eq_self]
  · have hl := link_of_next_ne h0
    have hd' : ((mp : ℤ) + (node mp).next) - n ≠ 0 := by
      intro e
      exact hmp (by rw [hl]; congr 1; omega)
    have hto' : ((n : ℤ) + (mp + (node mp).next - n)).toNat = (mp + (node mp).next).toNat := by
      congr 1
      omega
    simp only [ne_eq, h0, not_false_eq_true, if_true, link_setnext, if_neg hd, if_neg hd', hto, hto', hl]

theorem keys_chainNode : keys (chainNode node mp n) = keys node := by
  rw [chainNode]
  split_ifs <;> simp only [keys_setnext]

theorem val_chainNode (i : ℕ) : (chainNode node mp n i).val = (node i).val := by
  rw [chainNode]
  split_ifs <;> simp only [val_setnext]

theorem offset_chainNode (hoff : ∀ i < size, 0 ≤ (i : ℤ) + (node i).next) (hmp : mp < size) :
    ∀ i < size, 0 ≤ (i : ℤ) + (chainNode node mp n i).next := by
  intro i hi
  have h1 := hoff i hi
  have h2 := hoff mp hmp
  rw [chainNode]
  split_ifs with h0
  · simp only [next_setnext]
    split_ifs <;> omega
  · simp only [next_setnext]
    split_ifs <;> omega

/-- The move of a node, field by field. -/
theorem moveNode_eq (hb : findPrevious node mp size s = b) (hbm : b ≠ mp) (hbn : b ≠ n)
    (hne : n ≠ mp) (i : ℕ) :
    moveNode node size mp n s i =
      if i = mp then { node mp with val := none, next := 0 }
      else if i = n then
        { node mp with next := if (node mp).next = 0 then 0 else (node mp).next + (mp - n) }
      else if i = b then { node b with next := (n : ℤ) - b }
      else node i := by
  have hmb : mp ≠ b := Ne.symm hbm
  have hmn : mp ≠ n := Ne.symm hne
  rw [moveNode, hb]
  by_cases h0 : (node mp).next = 0
  · by_cases h1 : i = mp
    · subst h1
      simp [setnext, hmb, hmn, h0]
    · by_cases h2 : i = n
      · subst h2
        simp [setnext, hmb, hmn, h0, h1]
        rw [← h0]
      · by_cases h3 : i = b
        · subst h3
          simp [setnext, hmb, hmn, h0, h1, h2]
        · simp [setnext, hmb, hmn, h0, h1, h2, h3]
  · by_cases h1 : i = mp
    · subst h1
      simp [setnext, hmb, hmn, h0]
    · by_cases h2 : i = n
      · subst h2
        simp [setnext, hmb, hmn, h0, h1]
      · by_cases h3 : i = b
        · subst h3
          simp [setnext, hmb, hmn, h0, h1, h2]
        · simp [setnext, hmb, hmn, h0, h1, h2, h3]

section Move

variable {s : ℕ} (hb : findPrevious node mp size s = b) (hbm : b ≠ mp) (hbn : b ≠ n) (hne : n ≠ mp)

include hb hbm hbn hne

theorem link_moveNode (hmp : link node mp ≠ some n) :
    link (moveNode node size mp n s) =
      Function.update (Function.update (Function.update (link node) b (some n)) n (link node mp))
        mp none := by
  funext i
  rw [link, moveNode_eq hb hbm hbn hne]
  by_cases h1 : i = mp
  · subst h1
    simp
  · by_cases h2 : i = n
    · subst h2
      by_cases h0 : (node mp).next = 0
      · simp [h1, h0, link_of_next_eq]
      · rw [link_of_next_ne h0] at hmp ⊢
        have hd : (node mp).next + ((mp : ℤ) - i) ≠ 0 := fun e => hmp (by congr 1; omega)
        have hto : (i : ℤ) + ((node mp).next + ((mp : ℤ) - i)) = mp + (node mp).next := by omega
        simp [h1, h0, hd, hto]
    · by_cases h3 : i = b
      · subst h3
        have hd : (n : ℤ) - i ≠ 0 := by omega
        simp [h1, h2, hd]
      · simp [h1, h2, h3, link]

theorem keys_moveNode :
    keys (moveNode node size mp n s) = Function.update (keys node) n (keys node mp) := by
  funext i
  rw [keys, moveNode_eq hb hbm hbn hne]
  by_cases h1 : i = mp
  · subst h1
    simp [Ne.symm hne, keys]
  · by_cases h2 : i = n
    · subst h2
      simp [h1, keys]
    · by_cases h3 : i = b
      · subst h3
        simp [h1, h2, keys]
      · simp [h1, h2, h3, keys]

theorem val_moveNode (i : ℕ) :
    (moveNode node size mp n s i).val =
      if i = mp then none else if i = n then (node mp).val else (node i).val := by
  rw [moveNode_eq hb hbm hbn hne]
  by_cases h1 : i = mp
  · simp [h1]
  · by_cases h2 : i = n
    · simp [h2, hne]
    · by_cases h3 : i = b
      · simp [h3, hbm, hbn]
      · simp [h1, h2, h3]

theorem offset_moveNode (hoff : ∀ i < size, 0 ≤ (i : ℤ) + (node i).next) (hmp : mp < size) :
    ∀ i < size, 0 ≤ (i : ℤ) + (moveNode node size mp n s i).next := by
  intro i hi
  have h1 := hoff i hi
  have h2 := hoff mp hmp
  rw [moveNode_eq hb hbm hbn hne]
  split_ifs <;> simp <;> omega

end Move

end Collision

/-! ### Insertion -/

/-- The invariant of the node part of a table. -/
structure Nodes (hash : K → ℕ) (t : LuaTable K V) : Prop where
  /-- The vector of nodes, unless it is the common `dummynode`. -/
  inv : t.sizenode ≠ 0 → NodesInv hash t.sizenode t.node
  top : t.lastfree ≤ t.sizenode
  /-- From `lastfree` on there is no free node. -/
  taken : ∀ i < t.sizenode, t.lastfree ≤ i → (t.node i).key ≠ none

/-- A key was inserted at the node `n`; it has no value yet. -/
structure Inserted (hash : K → ℕ) (t t' : LuaTable K V) (k : K) (n : ℕ) : Prop where
  nodes : Nodes hash t'
  array : t'.array = t.array
  sizearray : t'.sizearray = t.sizearray
  sizenode : t'.sizenode = t.sizenode
  lastfree : t'.lastfree < 0 → t'.lastfree = t.lastfree
  lt : n < t.sizenode
  key : (t'.node n).key = some k
  val : (t'.node n).val = none
  keys : ∀ i < t.sizenode, ∀ k', (t'.node i).key = some k' →
    k' = k ∨ ∃ j < t.sizenode, (t.node j).key = some k'
  keep : ∀ i < t.sizenode, ∀ k' v, (t.node i).key = some k' → (t.node i).val = some v →
    ∃ j < t.sizenode, (t'.node j).key = some k' ∧ (t'.node j).val = some v
  only : ∀ i < t.sizenode, ∀ k' v, (t'.node i).key = some k' → (t'.node i).val = some v →
    ∃ j < t.sizenode, (t.node j).key = some k' ∧ (t.node j).val = some v
  used : ∃ x, ∀ i < t.sizenode, (t'.node i).key ≠ none → (t.node i).key ≠ none ∨ i = x

section Search

variable {t : LuaTable K V} [DecidableEq K]

theorem Nodes.searchChain_eq_some (h : Nodes hash t) {s : Slot} :
    searchChain hash t k = some s ↔ ∃ i < t.sizenode, (t.node i).key = some k ∧ s = .node i := by
  rw [searchChain]
  split_ifs with hsize
  · simp [hsize]
  · rw [Option.map_eq_some_iff]
    simp only [(h.inv hsize).findNode_eq_some, and_assoc, eq_comm]

theorem Nodes.searchChain_eq_none (h : Nodes hash t) :
    searchChain hash t k = none ↔ ∀ i < t.sizenode, (t.node i).key ≠ some k := by
  rw [searchChain]
  split_ifs with hsize
  · simp [hsize]
  · rw [Option.map_eq_none_iff, (h.inv hsize).findNode_eq_none]

/-- The value that the search leads to is the one that is stored with the key. -/
theorem Nodes.value_searchChain (h : Nodes hash t) {v : V} :
    t.value (searchChain hash t k) = some v ↔
      ∃ i < t.sizenode, (t.node i).key = some k ∧ (t.node i).val = some v := by
  cases hs : searchChain hash t k with
  | none =>
    have hall := h.searchChain_eq_none.mp hs
    refine ⟨fun e => absurd e (by simp [LuaTable.value]), ?_⟩
    rintro ⟨i, hi, hk, -⟩
    exact absurd hk (hall i hi)
  | some s =>
    obtain ⟨i, hi, hk, rfl⟩ := h.searchChain_eq_some.mp hs
    refine ⟨fun e => ⟨i, hi, hk, e⟩, ?_⟩
    rintro ⟨j, hj, hkj, hv⟩
    obtain rfl : i = j := (h.inv (by omega)).scatter.key_unique hi hj hk hkj
    exact hv

end Search

section Insertion

variable {t t' : LuaTable K V} {n l : ℕ}

theorem getfreepos_some (h : Nodes hash t) (hf : getfreepos t = (some n, t')) :
    n < t.sizenode ∧ (t.node n).key = none ∧ t' = { t with lastfree := (n : ℤ) } ∧
      ∀ i < t.sizenode, n < i → (t.node i).key ≠ none := by
  rw [getfreepos] at hf
  split_ifs at hf with hpos
  · cases hx : freeBelow t.node t.lastfree.toNat with
    | mk m l =>
    rw [hx] at hf
    obtain ⟨rfl, rfl⟩ := Prod.mk.inj hf
    obtain ⟨rfl, h3, h4, h5⟩ := freeBelow_some hx
    have htop := h.top
    refine ⟨by omega, h4, rfl, fun i hi hle => ?_⟩
    by_cases e : i < t.lastfree.toNat
    · exact h5 i e hle
    · exact h.taken i hi (by omega)
  · simp at hf

theorem getfreepos_none (h : Nodes hash t) (hf : getfreepos t = (none, t')) :
    (∀ i < t.sizenode, (t.node i).key ≠ none) ∧
      ∃ x : ℤ, t' = { t with lastfree := x } ∧ x ≤ 0 ∧ (x < 0 → x = t.lastfree) := by
  rw [getfreepos] at hf
  split_ifs at hf with hpos
  · cases hx : freeBelow t.node t.lastfree.toNat with
    | mk m l =>
    rw [hx] at hf
    obtain ⟨rfl, rfl⟩ := Prod.mk.inj hf
    obtain ⟨rfl, h3⟩ := freeBelow_none hx
    refine ⟨fun i hi => ?_, 0, rfl, le_rfl, fun e => absurd e (by omega)⟩
    by_cases e : i < t.lastfree.toNat
    · exact h3 i e
    · exact h.taken i hi (by omega)
  · obtain rfl : t = t' := (Prod.ext_iff.mp hf).2
    exact ⟨fun i hi => h.taken i hi (by omega), t.lastfree, rfl, by omega, fun _ => rfl⟩

/-- The main position has no value: it takes the new key. -/
theorem Inserted.of_overwrite (h : Nodes hash t) (hnew : ∀ i < t.sizenode, (t.node i).key ≠ some k)
    (hsize : t.sizenode ≠ 0) (hval : (t.node (mainposition hash t.sizenode k)).val = none) :
    Inserted hash t { t with node := setnodekey t.node (mainposition hash t.sizenode k) k } k
      (mainposition hash t.sizenode k) := by
  set mp := mainposition hash t.sizenode k with hmp
  have hinv := h.inv hsize
  have hlt : mp < t.sizenode := mainposition_lt hash hinv.pow k
  have hkeys : ∀ i, (setnodekey t.node mp k i).key = if i = mp then some k else (t.node i).key := by
    intro i
    have := congrFun (keys_setnodekey t.node mp k) i
    rw [Function.update_apply] at this
    exact this
  refine ⟨⟨fun _ => ⟨hinv.pow, ?_, ?_, ?_⟩, h.top, ?_⟩, rfl, rfl, rfl, fun _ => rfl, hlt, ?_, ?_,
    ?_, ?_, ?_, mp, ?_⟩
  · intro i hi
    rw [next_setnodekey]
    exact hinv.offset i hi
  · intro i hi hk
    rw [val_setnodekey]
    rw [hkeys] at hk
    split_ifs at hk with e
    exact hinv.free i hi hk
  · rw [keys_setnodekey, link_setnodekey]
    exact hinv.scatter.overwrite hnew
  · intro i hi hle
    rw [hkeys]
    split_ifs
    · simp
    · exact h.taken i hi hle
  · rw [hkeys, if_pos rfl]
  · rw [val_setnodekey, hval]
  · intro i hi k' hk'
    rw [hkeys] at hk'
    split_ifs at hk' with e
    · exact .inl (Option.some.inj hk').symm
    · exact .inr ⟨i, hi, hk'⟩
  · intro i hi k' v hk' hv
    refine ⟨i, hi, ?_, by rw [val_setnodekey, hv]⟩
    rw [hkeys, if_neg]
    · exact hk'
    · rintro rfl
      rw [hval] at hv
      exact absurd hv (by simp)
  · intro i hi k' v hk' hv
    rw [val_setnodekey] at hv
    rw [hkeys, if_neg] at hk'
    · exact ⟨i, hi, hk', hv⟩
    · rintro rfl
      rw [hval] at hv
      exact absurd hv (by simp)
  · intro i hi hk'
    rw [hkeys] at hk'
    split_ifs at hk' with e
    · exact .inr e
    · exact .inl hk'

/-- The main position holds a key at home: the new key goes to a free node behind it. -/
theorem Inserted.of_chain (h : Nodes hash t) (hnew : ∀ i < t.sizenode, (t.node i).key ≠ some k)
    (hsize : t.sizenode ≠ 0) (hn : n < t.sizenode) (hfree : (t.node n).key = none)
    (habove : ∀ i < t.sizenode, n < i → (t.node i).key ≠ none)
    (hhome : ∃ k', (t.node (mainposition hash t.sizenode k)).key = some k' ∧
      mainposition hash t.sizenode k' = mainposition hash t.sizenode k) :
    Inserted hash t { t with
      node := setnodekey (chainNode t.node (mainposition hash t.sizenode k) n) n k
      lastfree := (n : ℤ) } k n := by
  set mp := mainposition hash t.sizenode k with hmp
  have hinv := h.inv hsize
  have hlt : mp < t.sizenode := mainposition_lt hash hinv.pow k
  obtain ⟨hnext, hpred⟩ := hinv.scatter.free n hn hfree
  have hne : n ≠ mp := by
    rintro rfl
    obtain ⟨k', hk', -⟩ := hhome
    rw [hfree] at hk'
    exact absurd hk' (by simp)
  have hkeys : ∀ i, (setnodekey (chainNode t.node mp n) n k i).key =
      if i = n then some k else (t.node i).key := by
    intro i
    have := congrFun (keys_setnodekey (chainNode t.node mp n) n k) i
    rw [keys_chainNode, Function.update_apply] at this
    exact this
  have hvals : ∀ i, (setnodekey (chainNode t.node mp n) n k i).val = (t.node i).val := by
    intro i
    rw [val_setnodekey, val_chainNode]
  have hval := hinv.free n hn hfree
  refine ⟨⟨fun _ => ⟨hinv.pow, ?_, ?_, ?_⟩, ?_, ?_⟩, rfl, rfl, rfl, fun e => ?_, hn, ?_, ?_,
    ?_, ?_, ?_, n, ?_⟩
  · intro i hi
    rw [next_setnodekey]
    exact offset_chainNode hinv.offset hlt i hi
  · intro i hi hk
    rw [hvals]
    rw [hkeys] at hk
    split_ifs at hk with e
    exact hinv.free i hi hk
  · rw [keys_setnodekey, link_setnodekey, keys_chainNode, link_chainNode hnext (hpred mp hlt) hne]
    exact hinv.scatter.insertAfter hnew hn hfree hhome
  · exact Int.ofNat_le.mpr hn.le
  · intro i hi hle
    rw [hkeys]
    split_ifs with e
    · simp
    · exact habove i hi (lt_of_le_of_ne (Int.ofNat_le.mp hle) (Ne.symm e))
  · exact absurd e (by simp)
  · rw [hkeys, if_pos rfl]
  · rw [hvals, hval]
  · intro i hi k' hk'
    rw [hkeys] at hk'
    split_ifs at hk' with e
    · exact .inl (Option.some.inj hk').symm
    · exact .inr ⟨i, hi, hk'⟩
  · intro i hi k' v hk' hv
    refine ⟨i, hi, ?_, by rw [hvals, hv]⟩
    rw [hkeys, if_neg]
    · exact hk'
    · rintro rfl
      rw [hval] at hv
      exact absurd hv (by simp)
  · intro i hi k' v hk' hv
    rw [hvals] at hv
    rw [hkeys, if_neg] at hk'
    · exact ⟨i, hi, hk', hv⟩
    · rintro rfl
      rw [hval] at hv
      exact absurd hv (by simp)
  · intro i hi hk'
    rw [hkeys] at hk'
    split_ifs at hk' with e
    · exact .inr e
    · exact .inl hk'

/-- The main position holds a key that is not at home: it is moved to a free node. -/
theorem Inserted.of_move (h : Nodes hash t) (hsize : t.sizenode ≠ 0) (hn : n < t.sizenode)
    (hfree : (t.node n).key = none) (habove : ∀ i < t.sizenode, n < i → (t.node i).key ≠ none)
    {k₁ : K} (hk₁ : (t.node (mainposition hash t.sizenode k)).key = some k₁)
    (haway : mainposition hash t.sizenode k₁ ≠ mainposition hash t.sizenode k) :
    Inserted hash t { t with
      node := setnodekey (moveNode t.node t.sizenode (mainposition hash t.sizenode k) n
        (mainposition hash t.sizenode k₁)) (mainposition hash t.sizenode k) k
      lastfree := (n : ℤ) } k (mainposition hash t.sizenode k) := by
  set mp := mainposition hash t.sizenode k with hmp
  have hinv := h.inv hsize
  have hlt : mp < t.sizenode := mainposition_lt hash hinv.pow k
  obtain ⟨hnext, hpred⟩ := hinv.scatter.free n hn hfree
  have hne : n ≠ mp := by
    rintro rfl
    rw [hfree] at hk₁
    exact absurd hk₁ (by simp)
  -- the node before the main position, on the chain of the key that is there
  obtain ⟨b, hb, hbmp, hbfind⟩ : ∃ b < t.sizenode, link t.node b = some mp ∧
      findPrevious t.node mp t.sizenode (mainposition hash t.sizenode k₁) = b := by
    obtain ⟨b, hb, hbmp, l, hl, hne⟩ := hinv.scatter.predecessor hlt hk₁ haway
    have hlen := hinv.length_lt (mainposition_lt hash hinv.pow k₁) hb hl
    exact ⟨b, hb, hbmp, findPrevious_of_seg hl hbmp hne (hinv.offset b hb) hlen⟩
  have hbn : b ≠ n := by
    rintro rfl
    rw [hnext] at hbmp
    exact absurd hbmp (by simp)
  have hbm : b ≠ mp := by
    rintro rfl
    exact hinv.scatter.next_ne_self hlt hbmp
  set node' := moveNode t.node t.sizenode mp n (mainposition hash t.sizenode k₁) with hnode'
  have hval : (t.node n).val = none := hinv.free n hn hfree
  have hkeys : ∀ i, (setnodekey node' mp k i).key =
      if i = mp then some k else if i = n then (t.node mp).key else (t.node i).key := by
    intro i
    have := congrFun (keys_setnodekey node' mp k) i
    rw [hnode', keys_moveNode hbfind hbm hbn hne, Function.update_apply, Function.update_apply] at this
    exact this
  have hvals : ∀ i, (setnodekey node' mp k i).val =
      if i = mp then none else if i = n then (t.node mp).val else (t.node i).val := by
    intro i
    rw [val_setnodekey, hnode', val_moveNode hbfind hbm hbn hne]
  refine ⟨⟨fun _ => ⟨hinv.pow, ?_, ?_, ?_⟩, ?_, ?_⟩, rfl, rfl, rfl, fun e => ?_, hlt, ?_, ?_,
    ?_, ?_, ?_, n, ?_⟩
  · intro i hi
    rw [next_setnodekey]
    exact offset_moveNode hbfind hbm hbn hne hinv.offset hlt i hi
  · intro i hi hk
    rw [hkeys] at hk
    rw [hvals]
    split_ifs at hk ⊢ with e1 e2
    · exact hinv.free mp hlt hk
    · exact hinv.free i hi hk
  · rw [keys_setnodekey, link_setnodekey, hnode', keys_moveNode hbfind hbm hbn hne,
      link_moveNode hbfind hbm hbn hne (hpred mp hlt)]
    exact hinv.scatter.relocate hn hfree hk₁ haway hb hbmp
  · exact Int.ofNat_le.mpr hn.le
  · intro i hi hle
    rw [hkeys]
    split_ifs with e1 e2
    · simp
    · rw [hk₁]
      simp
    · exact habove i hi (lt_of_le_of_ne (Int.ofNat_le.mp hle) (Ne.symm e2))
  · exact absurd e (by simp)
  · rw [hkeys, if_pos rfl]
  · rw [hvals, if_pos rfl]
  · intro i hi k' hk'
    rw [hkeys] at hk'
    split_ifs at hk' with e1 e2
    · exact .inl (Option.some.inj hk').symm
    · exact .inr ⟨mp, hlt, hk'⟩
    · exact .inr ⟨i, hi, hk'⟩
  · intro i hi k' v hk' hv
    by_cases e1 : i = mp
    · subst e1
      exact ⟨n, hn, by rw [hkeys, if_neg hne, if_pos rfl, hk'],
        by rw [hvals, if_neg hne, if_pos rfl, hv]⟩
    · have e2 : i ≠ n := by
        rintro rfl
        rw [hval] at hv
        exact absurd hv (by simp)
      exact ⟨i, hi, by rw [hkeys, if_neg e1, if_neg e2, hk'],
        by rw [hvals, if_neg e1, if_neg e2, hv]⟩
  · intro i hi k' v hk' hv
    rw [hkeys] at hk'
    rw [hvals] at hv
    split_ifs at hk' hv with e1 e2
    · exact ⟨mp, hlt, hk', hv⟩
    · exact ⟨i, hi, hk', hv⟩
  · intro i hi hk'
    rw [hkeys] at hk'
    split_ifs at hk' with e1 e2
    · exact .inl (by rw [e1, hk₁]; simp)
    · exact .inr e2
    · exact .inl hk'

/-- An insertion without a rehash. -/
theorem insertNode_some (h : Nodes hash t) (hnew : ∀ i < t.sizenode, (t.node i).key ≠ some k)
    (e : insertNode hash t k = (some n, t')) : Inserted hash t t' k n := by
  rw [insertNode] at e
  by_cases hc : t.sizenode = 0 ∨ (t.node (mainposition hash t.sizenode k)).val.isSome
  · rw [if_pos hc] at e
    cases hf : getfreepos t with
    | mk o t₁ =>
    cases o with
    | none => simp [hf] at e
    | some m =>
      obtain ⟨hm, hfree, rfl, habove⟩ := getfreepos_some h hf
      have hsize : t.sizenode ≠ 0 := by omega
      simp only [hf] at e
      cases hk₁ : (t.node (mainposition hash t.sizenode k)).key with
      | none => simp [hk₁] at e
      | some k₁ =>
        simp only [hk₁, Option.map_some] at e
        split_ifs at e with haway
        · obtain ⟨rfl, rfl⟩ : mainposition hash t.sizenode k = n ∧ _ = t' := by simpa using e
          exact .of_move h hsize hm hfree habove hk₁ haway
        · obtain ⟨rfl, rfl⟩ : m = n ∧ _ = t' := by simpa using e
          exact .of_chain h hnew hsize hm hfree habove ⟨k₁, hk₁, not_not.mp haway⟩
  · rw [if_neg hc] at e
    obtain ⟨rfl, rfl⟩ : mainposition hash t.sizenode k = n ∧ _ = t' := by simpa using e
    rw [not_or] at hc
    exact .of_overwrite h hnew hc.1 (by simpa using hc.2)

/-- An insertion only fails if no node is free. -/
theorem insertNode_none (h : Nodes hash t) (e : insertNode hash t k = (none, t')) :
    (∀ i < t.sizenode, (t.node i).key ≠ none) ∧
      ∃ x : ℤ, t' = { t with lastfree := x } ∧ x ≤ 0 ∧ (x < 0 → x = t.lastfree) := by
  rw [insertNode] at e
  by_cases hc : t.sizenode = 0 ∨ (t.node (mainposition hash t.sizenode k)).val.isSome
  · rw [if_pos hc] at e
    cases hf : getfreepos t with
    | mk o t₁ =>
    cases o with
    | none =>
      simp only [hf] at e
      obtain rfl : t₁ = t' := (Prod.mk.inj e).2
      exact getfreepos_none h hf
    | some m =>
      obtain ⟨hm, hfree, rfl, habove⟩ := getfreepos_some h hf
      have hsize : t.sizenode ≠ 0 := by omega
      have hinv := h.inv hsize
      simp only [hf] at e
      cases hk₁ : (t.node (mainposition hash t.sizenode k)).key with
      | none =>
        -- a node with a value has a key
        have hval := hinv.free _ (mainposition_lt hash hinv.pow k) hk₁
        simp [hval, hsize] at hc
      | some k₁ =>
        simp only [hk₁, Option.map_some] at e
        split_ifs at e <;> simp at e
  · rw [if_neg hc] at e
    simp at e

end Insertion

end Table

end Jaci
