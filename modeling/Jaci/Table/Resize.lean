import Jaci.Table.Content

/-!
# Resizing

A resize makes a new node part and moves the elements into the new parts one by one.  As long as
the elements fit the new node part no insertion rehashes, and the content of the table is the same
afterwards.  The sizes that `rehash` chooses are such; so an insertion keeps the content, whether
it rehashes or not.

* `Outcome` : pre- and postconditions of operations that may fail;
* `Moving` : the content in the middle of a resize;
* `resize_fits` : a resize into a node part that is large enough;
* `newkey_spec` : the insertion of a new key;
* `resize_nodes` : a resize of the node part to any size.
-/

namespace Jaci

namespace Table

variable {σ π ω V : Type} {hash : Key σ π ω → ℕ} {t t' told : LuaTable (Key σ π ω) V}
  {k : Key σ π ω}

/-! ### Outcomes -/

/-- A result satisfies `P`, and after an error the table satisfies `E`. -/
def Outcome {α : Type} (r : Except TableError α × LuaTable (Key σ π ω) V)
    (P : α → LuaTable (Key σ π ω) V → Prop) (E : LuaTable (Key σ π ω) V → Prop) : Prop :=
  match r with
  | (.ok a, t) => P a t
  | (.error _, t) => E t

section Outcome

variable {α : Type} {nk : NewKey σ π ω V} {E : LuaTable (Key σ π ω) V → Prop}

theorem Outcome.mono {r : Except TableError α × LuaTable (Key σ π ω) V}
    {P P' : α → LuaTable (Key σ π ω) V → Prop} {E' : LuaTable (Key σ π ω) V → Prop}
    (h : Outcome r P E) (hP : ∀ a t, P a t → P' a t) (hE : ∀ t, E t → E' t) : Outcome r P' E' := by
  obtain ⟨r, t⟩ := r
  cases r with
  | ok a => exact hP a t h
  | error e => exact hE t h

theorem Outcome.bind {r : Except TableError Unit × LuaTable (Key σ π ω) V}
    {f : LuaTable (Key σ π ω) V → Except TableError α × LuaTable (Key σ π ω) V}
    {P : LuaTable (Key σ π ω) V → Prop} {Q : α → LuaTable (Key σ π ω) V → Prop}
    (h : Outcome r (fun _ => P) E) (hf : ∀ t, P t → Outcome (f t) Q E) :
    Outcome (match r with
      | (.ok (), t) => f t
      | (.error e, t) => (.error e, t)) Q E := by
  obtain ⟨r, t⟩ := r
  cases r with
  | ok u => exact hf t h
  | error e => exact h

theorem migrate_outcome {v : V} {P : LuaTable (Key σ π ω) V → Prop}
    (h : Outcome (nk t k) (fun s t' => P (t'.assign s (some v))) E) :
    Outcome (migrate nk t k v) (fun _ => P) E := by
  rw [migrate]
  cases hr : nk t k with
  | mk r t' =>
  rw [hr] at h
  cases r with
  | ok s => exact h
  | error e => exact h

/-- The rule for the loop over the vanishing slice. -/
theorem migrateSlice_outcome (P : ℕ → LuaTable (Key σ π ω) V → Prop) (n i : ℕ)
    (hskip : ∀ j t, i ≤ j → j < i + n → P j t → t.arrayAt j = none → P (j + 1) t)
    (hstep : ∀ j t v, i ≤ j → j < i + n → P j t → t.arrayAt j = some v →
      Outcome (migrate nk t (.number (j + 1)) v) (fun _ => P (j + 1)) E)
    (h : P i t) : Outcome (migrateSlice nk n i t) (fun _ => P (i + n)) E := by
  induction n generalizing i t with
  | zero => exact h
  | succ n ih =>
    have hskip' : ∀ j t, i + 1 ≤ j → j < i + 1 + n → P j t → t.arrayAt j = none → P (j + 1) t :=
      fun j t h1 h2 => hskip j t (by omega) (by omega)
    have hstep' : ∀ j t v, i + 1 ≤ j → j < i + 1 + n → P j t → t.arrayAt j = some v →
        Outcome (migrate nk t (.number (j + 1)) v) (fun _ => P (j + 1)) E :=
      fun j t v h1 h2 => hstep j t v (by omega) (by omega)
    have hadd : i + 1 + n = i + (n + 1) := by omega
    rw [migrateSlice]
    cases hv : t.arrayAt i with
    | none =>
      have := ih (i + 1) hskip' hstep' (hskip i t le_rfl (by omega) h hv)
      rwa [hadd] at this
    | some v =>
      have hm := hstep i t v le_rfl (by omega) h hv
      cases hr : migrate nk t (.number (i + 1)) v with
      | mk r t' =>
      rw [hr] at hm
      cases r with
      | ok u =>
        have := ih (i + 1) hskip' hstep' hm
        rw [hadd] at this
        simpa only [hr] using this
      | error e =>
        simp only [hr]
        exact hm

/-- The rule for the loop over the old nodes. -/
theorem migrateNodes_outcome (nold : ℕ → Node (Key σ π ω) V)
    (P : ℕ → LuaTable (Key σ π ω) V → Prop) (n : ℕ)
    (hskip : ∀ i t, i < n → P (i + 1) t → (nold i).val = none ∨ (nold i).key = none → P i t)
    (hstep : ∀ i t k v, i < n → P (i + 1) t → (nold i).key = some k → (nold i).val = some v →
      Outcome (migrate (arrayornewkey nk) t k v) (fun _ => P i) E)
    (h : P n t) : Outcome (migrateNodes nk nold n t) (fun _ => P 0) E := by
  induction n generalizing t with
  | zero => exact h
  | succ n ih =>
    have hskip' : ∀ i t, i < n → P (i + 1) t → (nold i).val = none ∨ (nold i).key = none → P i t :=
      fun i t hi => hskip i t (by omega)
    have hstep' : ∀ i t k v, i < n → P (i + 1) t → (nold i).key = some k →
        (nold i).val = some v → Outcome (migrate (arrayornewkey nk) t k v) (fun _ => P i) E :=
      fun i t k v hi => hstep i t k v (by omega)
    rw [migrateNodes]
    cases hv : (nold n).val with
    | none => exact ih hskip' hstep' (hskip n t n.lt_succ_self h (.inl hv))
    | some v =>
      cases hk : (nold n).key with
      | none => exact ih hskip' hstep' (hskip n t n.lt_succ_self h (.inr hk))
      | some k =>
        have hm := hstep n t k v n.lt_succ_self h hk hv
        cases hr : migrate (arrayornewkey nk) t k v with
        | mk r t' =>
        rw [hr] at hm
        cases r with
        | ok u =>
          simp only [hr]
          exact ih hskip' hstep' hm
        | error e =>
          simp only [hr]
          exact hm

end Outcome

/-! ### The nodes in use -/

/-- The number of nodes that are not free. -/
def keyed (t : LuaTable (Key σ π ω) V) : ℕ :=
  ((Finset.range t.sizenode).filter fun i => (t.node i).key.isSome).card

theorem keyed_assign (s : Slot) (v : Option V) : keyed (t.assign s v) = keyed t := by
  obtain ⟨-, hn, -, -, hk⟩ := assign_shape v t s
  simp only [keyed, hn, (hk _).1]

theorem keyed_inserted {n : ℕ} (h : Inserted hash t t' k n) : keyed t' ≤ keyed t + 1 := by
  obtain ⟨x, hx⟩ := h.used
  calc keyed t'
      ≤ (insert x ((Finset.range t.sizenode).filter fun i => (t.node i).key.isSome)).card := by
        refine Finset.card_le_card fun i hi => ?_
        rw [h.sizenode, Finset.mem_filter, Finset.mem_range, Option.isSome_iff_ne_none] at hi
        rw [Finset.mem_insert, Finset.mem_filter, Finset.mem_range, Option.isSome_iff_ne_none]
        rcases hx i hi.1 hi.2 with h1 | h1
        · exact .inr ⟨hi.1, h1⟩
        · exact .inl h1
    _ ≤ keyed t + 1 := Finset.card_insert_le _ _

theorem keyed_eq_zero (h : ∀ i, (t.node i).key = none) : keyed t = 0 := by
  simp [keyed, h]

/-- If all nodes are in use, so many are. -/
theorem sizenode_le_keyed (h : ∀ i < t.sizenode, (t.node i).key ≠ none) : t.sizenode ≤ keyed t := by
  have hall : (Finset.range t.sizenode).filter (fun i => (t.node i).key.isSome) =
      Finset.range t.sizenode :=
    Finset.filter_true_of_mem fun i hi =>
      Option.isSome_iff_ne_none.mpr (h i (Finset.mem_range.mp hi))
  rw [keyed, hall, Finset.card_range]

variable [DecidableEq σ] [DecidableEq π] [DecidableEq ω]

theorem newkey_succ (depth : ℕ) (t : LuaTable (Key σ π ω) V) (k : Key σ π ω) :
    newkey hash (depth + 1) t k =
      if k = .number (t.sizearray + 1) then rehashAndInsert hash (newkey hash depth) t k
      else
        match insertNode hash t k with
        | (some n, t) => (.ok (.node n), t)
        | (none, t) => rehashAndInsert hash (newkey hash depth) t k := rfl

/-- A new key is inserted without a rehash if there is room. -/
theorem newkey_room (h : Wf hash t) (hfresh : Fresh t k) (hne : k ≠ .number (t.sizearray + 1))
    (hroom : keyed t < t.sizenode) (depth : ℕ) :
    ∃ n t', newkey hash (depth + 1) t k = (.ok (.node n), t') ∧ Inserted hash t t' k n := by
  rw [newkey_succ, if_neg hne]
  cases hr : insertNode hash t k with
  | mk o t' =>
  cases o with
  | none =>
    have := sizenode_le_keyed (insertNode_none h.nodes hr).1
    omega
  | some n => exact ⟨n, t', rfl, insertNode_some h.nodes hfresh hr⟩

/-- A key of the array part has its slot there. -/
theorem arrayornewkey_inRange (hash : Key σ π ω → ℕ) (hsize : t.sizearray ≤ MAXSIZE) (nk : NewKey σ π ω V)
    (hk : inRange t.sizearray k = true) :
    ∃ i, arrayornewkey nk t k = (.ok (.array i), t) ∧ luaH_get hash t k = some (.array i) := by
  obtain ⟨n, rfl, h1, h2⟩ := exists_of_inRange hk
  refine ⟨(n - 1).toNat, ?_, luaH_get_inRange hash hsize (by omega) h2⟩
  have hn : arrayindex (.number n : Key σ π ω) = n := arrayindex_number h1 (by omega)
  simp only [arrayornewkey, hn]
  exact if_pos ⟨by omega, h2⟩

omit [DecidableEq σ] [DecidableEq π] [DecidableEq ω] in
theorem arrayornewkey_not_inRange (nk : NewKey σ π ω V) (hk : inRange t.sizearray k = false) :
    arrayornewkey nk t k = nk t k := by
  refine if_neg fun h => Bool.eq_false_iff.mp hk ?_
  rw [eq_number_of_arrayindex k (by omega), inRange_eq_true]
  omega

/-! ### The content in the middle of a resize -/

/-- The elements of `told` are in `t`, except for those that are still to be moved. -/
structure Moving (hash : Key σ π ω → ℕ) (told : LuaTable (Key σ π ω) V) (pend : Key σ π ω → Prop)
    (t : LuaTable (Key σ π ω) V) : Prop where
  moved : ∀ k, ¬pend k → content hash t k = content hash told k
  left : ∀ k, pend k → content hash t k = none ∧ Fresh t k
  fresh : ∀ k, content hash told k = none → Fresh t k

section Moving

variable {pend pend' : Key σ π ω → Prop}

/-- One element is moved. -/
theorem Moving.step (h : Moving hash told pend t) (h' : Wf hash t') {s : Slot} {v : V}
    (hs : Placed hash t t' k s) (hk : pend k) (hv : content hash told k = some v)
    (hpend : ∀ k', pend' k' ↔ pend k' ∧ k' ≠ k) :
    Moving hash told pend' (t'.assign s (some v)) := by
  have hcontent : content hash (t'.assign s (some v)) =
      Function.update (content hash t) k (some v) := by
    rw [h'.content_assign _ hs.slot, hs.same]
  refine ⟨fun k' hk' => ?_, fun k' hk' => ?_, fun k' hk' => ?_⟩
  · rw [hcontent, Function.update_apply]
    split_ifs with e
    · rw [e, hv]
    · exact h.moved k' fun hp => hk' ((hpend k').mpr ⟨hp, e⟩)
  · obtain ⟨hp, hne⟩ := (hpend k').mp hk'
    obtain ⟨h1, h2⟩ := h.left k' hp
    exact ⟨by rw [hcontent, Function.update_of_ne hne, h1], (hs.fresh k' hne h1 h2).assign _⟩
  · have hne : k' ≠ k := by
      rintro rfl
      rw [hv] at hk'
      exact absurd hk' (by simp)
    refine (hs.fresh k' hne ?_ (h.fresh k' hk')).assign _
    by_cases hp : pend k'
    · exact (h.left k' hp).1
    · rw [h.moved k' hp, hk']

theorem Moving.congr (h : Moving hash told pend t) (hpend : ∀ k, pend' k ↔ pend k) :
    Moving hash told pend' t := by
  obtain rfl : pend' = pend := funext fun k => propext (hpend k)
  exact h

end Moving

/-- The elements of the nodes below `i` are still to be moved. -/
def nodePend (told : LuaTable (Key σ π ω) V) (i : ℕ) (k : Key σ π ω) : Prop :=
  ∃ j < i, (told.node j).key = some k ∧ (told.node j).val ≠ none

omit [DecidableEq σ] [DecidableEq π] [DecidableEq ω] in
/-- A node without an element is passed. -/
theorem nodePend_skip {i : ℕ} (hdead : (told.node i).val = none ∨ (told.node i).key = none)
    (k : Key σ π ω) : nodePend told i k ↔ nodePend told (i + 1) k := by
  constructor
  · rintro ⟨j, hj, h1, h2⟩
    exact ⟨j, by omega, h1, h2⟩
  · rintro ⟨j, hj, h1, h2⟩
    have hne : j ≠ i := by
      rintro rfl
      rcases hdead with h | h
      · exact h2 h
      · rw [h] at h1
        exact absurd h1 (by simp)
    exact ⟨j, by omega, h1, h2⟩

omit [DecidableEq σ] [DecidableEq π] [DecidableEq ω] in
/-- The element of a node is moved; no other node has its key. -/
theorem nodePend_step (hold : Nodes hash told) {i : ℕ} (hi : i < told.sizenode)
    (hk : (told.node i).key = some k) (k' : Key σ π ω) :
    nodePend told i k' ↔ nodePend told (i + 1) k' ∧ k' ≠ k := by
  have hscatter := (hold.inv (by omega)).scatter
  constructor
  · rintro ⟨j, hj, h1, h2⟩
    refine ⟨⟨j, by omega, h1, h2⟩, ?_⟩
    rintro rfl
    have := hscatter.key_unique (show j < told.sizenode by omega) hi h1 hk
    omega
  · rintro ⟨⟨j, hj, h1, h2⟩, hne⟩
    have hji : j ≠ i := by
      rintro rfl
      exact hne (Option.some.inj (h1.symm.trans hk))
    exact ⟨j, by omega, h1, h2⟩

/-- The elements of the array part from `i` on, and those of the nodes, are still to be moved. -/
def slicePend (told : LuaTable (Key σ π ω) V) (i : ℕ) (k : Key σ π ω) : Prop :=
  (∃ j, i ≤ j ∧ j < told.sizearray ∧ k = .number (j + 1) ∧ told.arrayAt j ≠ none) ∨
    nodePend told told.sizenode k

/-! ### A resize that fits -/

/-- The number of nodes for a size. -/
def capacity (nhsize : ℕ) : ℕ := if nhsize = 0 then 0 else 2 ^ ceillog2 nhsize

theorem le_capacity (nhsize : ℕ) : nhsize ≤ capacity nhsize := by
  rw [capacity]
  split_ifs with h
  · exact h.le
  · exact ceillog2_le.mp le_rfl

/-- In the middle of a resize; there is room for the elements outside of the array part, of which
`rest` are still to be moved. -/
structure Fit (hash : Key σ π ω → ℕ) (told : LuaTable (Key σ π ω) V) (nasize cap rest : ℕ)
    (pend : Key σ π ω → Prop) (t : LuaTable (Key σ π ω) V) : Prop where
  wf : Wf hash t
  sizearray : t.sizearray = nasize
  sizenode : t.sizenode = cap
  moving : Moving hash told pend t
  room : keyed t + rest ≤ count told none (fun k => !inRange nasize k)

section Fit

variable {nasize cap rest : ℕ} {pend pend' : Key σ π ω → Prop} {v : V}

/-- An element that goes to the node part can be inserted there. -/
theorem Fit.insertable (h : Fit hash told nasize cap (rest + 1) pend t)
    (hfit : count told none (fun k => !inRange nasize k) ≤ cap) (hk : pend k)
    (hv : content hash told k = some v) (hb : content hash told (.number (nasize + 1)) = none) :
    Fresh t k ∧ k ≠ .number (t.sizearray + 1) ∧ keyed t < t.sizenode := by
  refine ⟨(h.moving.left k hk).2, ?_, ?_⟩
  · rintro rfl
    rw [h.sizearray, hb] at hv
    exact absurd hv (by simp)
  · have hroom := h.room
    rw [h.sizenode]
    omega

/-- An element that goes to the node part. -/
theorem Fit.newkey (h : Fit hash told nasize cap (rest + 1) pend t)
    (hfit : count told none (fun k => !inRange nasize k) ≤ cap) (hk : pend k)
    (hv : content hash told k = some v) (hr : inRange nasize k = false)
    (hb : content hash told (.number (nasize + 1)) = none)
    (hpend : ∀ k', pend' k' ↔ pend k' ∧ k' ≠ k) (depth : ℕ) :
    Outcome (migrate (newkey hash (depth + 1)) t k v)
      (fun _ t' => Fit hash told nasize cap rest pend' t' ∧ t'.array = t.array)
      (fun _ => False) := by
  have hr' : inRange t.sizearray k = false := by rw [h.sizearray, hr]
  obtain ⟨hfresh, hne, hroom⟩ := h.insertable hfit hk hv hb
  obtain ⟨n, t', hnew, hi⟩ := newkey_room h.wf hfresh hne hroom depth
  have hwf' := h.wf.of_inserted hr' hne hi
  have hp := Placed.of_inserted h.wf hwf' hi
  have hkeyed := keyed_inserted hi
  apply migrate_outcome
  rw [hnew]
  refine ⟨⟨hwf'.assign _ hp.slot, ?_, ?_, h.moving.step hwf' hp hk hv hpend, ?_⟩, ?_⟩
  · rw [(assign_shape _ _ _).1, hi.sizearray, h.sizearray]
  · rw [(assign_shape _ _ _).2.1, hi.sizenode, h.sizenode]
  · have := h.room
    rw [keyed_assign]
    omega
  · exact hi.array

/-- An element that goes to the array part. -/
theorem Fit.array (h : Fit hash told nasize cap rest pend t) (hk : pend k)
    (hv : content hash told k = some v) (hr : inRange nasize k = true)
    (hpend : ∀ k', pend' k' ↔ pend k' ∧ k' ≠ k) (nk : NewKey σ π ω V) :
    Outcome (migrate (arrayornewkey nk) t k v)
      (fun _ t' => Fit hash told nasize cap rest pend' t' ∧ t'.array.length = t.array.length)
      (fun _ => False) := by
  obtain ⟨i, hnew, hslot⟩ := arrayornewkey_inRange hash h.wf.size nk
    (k := k) (by rw [h.sizearray, hr])
  have hp : Placed hash t t k (.array i) := ⟨hslot, rfl, fun _ _ _ hf => hf⟩
  obtain ⟨h1, h2, -, h4, -⟩ := assign_shape (some v) t (.array i)
  apply migrate_outcome
  rw [hnew]
  refine ⟨⟨h.wf.assign _ hslot, ?_, ?_, h.moving.step h.wf hp hk hv hpend, ?_⟩, h4⟩
  · rw [h1, h.sizearray]
  · rw [h2, h.sizenode]
  · rw [keyed_assign]
    exact h.room

/-- In the middle of the loop over the vanishing slice. -/
structure SliceFit (hash : Key σ π ω → ℕ) (told : LuaTable (Key σ π ω) V) (nasize cap j : ℕ)
    (t : LuaTable (Key σ π ω) V) : Prop where
  /-- The elements from `j` on are still to be moved. -/
  fit : Fit hash told nasize cap (arrayCount told (fun k => !inRange j k) +
    nodeCount told.node told.sizenode (fun k => !inRange nasize k)) (slicePend told j) t
  array : t.array = told.array

theorem SliceFit.skip {j : ℕ} (h : SliceFit hash told nasize cap j t) (hj : j < told.sizearray)
    (hnone : t.arrayAt j = none) : SliceFit hash told nasize cap (j + 1) t := by
  have hnone' : told.arrayAt j = none := by rwa [LuaTable.arrayAt, h.array] at hnone
  have hcount := arrayCount_outside_succ hj
  have hf := h.fit
  refine ⟨⟨hf.wf, hf.sizearray, hf.sizenode, hf.moving.congr fun k => ?_, ?_⟩, h.array⟩
  · refine or_congr ⟨?_, ?_⟩ Iff.rfl
    · rintro ⟨j', h3, h4⟩
      exact ⟨j', by omega, h4⟩
    · rintro ⟨j', h3, h4, h5, h6⟩
      have hne : j' ≠ j := by
        rintro rfl
        exact h6 hnone'
      exact ⟨j', by omega, h4, h5, h6⟩
  · have := hf.room
    omega

/-- The next element of the slice. -/
theorem SliceFit.elem (hold : Good hash told) {j : ℕ} (h : SliceFit hash told nasize cap j t)
    (hle : nasize ≤ j) (hj : j < told.sizearray) (hv : t.arrayAt j = some v) :
    Fit hash told nasize cap (arrayCount told (fun k => !inRange (j + 1) k) +
        nodeCount told.node told.sizenode (fun k => !inRange nasize k) + 1) (slicePend told j) t ∧
      slicePend told j (.number (j + 1)) ∧ content hash told (.number (j + 1)) = some v ∧
      inRange nasize (.number (j + 1) : Key σ π ω) = false ∧
      ∀ k', slicePend told (j + 1) k' ↔ slicePend told j k' ∧ k' ≠ .number (j + 1) := by
  have hv' : told.arrayAt j = some v := by rwa [LuaTable.arrayAt, h.array] at hv
  have hcount := arrayCount_outside_succ hj
  rw [hv'] at hcount
  have hf := h.fit
  refine ⟨⟨hf.wf, hf.sizearray, hf.sizenode, hf.moving, ?_⟩, .inl ⟨j, le_rfl, hj, rfl, by simp [hv']⟩,
    ?_, ?_, fun k' => ⟨?_, ?_⟩⟩
  · have := hf.room
    have : (some v).isSome.toNat = 1 := rfl
    omega
  · rw [content_array hash hold.size hj, hv']
  · refine Bool.eq_false_iff.mpr fun e => ?_
    have := inRange_eq_true.mp e
    omega
  · rintro (⟨j', h3, h4, rfl, h5⟩ | hn)
    · refine ⟨.inl ⟨j', by omega, h4, rfl, h5⟩, fun e => ?_⟩
      have : (j' : ℤ) + 1 = j + 1 := by simpa using e
      omega
    · refine ⟨.inr hn, ?_⟩
      rintro rfl
      obtain ⟨i, hi, hki, -⟩ := hn
      have := hold.toWf.not_inRange hi hki
      exact Bool.eq_false_iff.mp this (inRange_eq_true.mpr (by omega))
  · rintro ⟨⟨j', h3, h4, rfl, h5⟩ | hn, hne⟩
    · have : j' ≠ j := by
        rintro rfl
        exact hne rfl
      exact .inl ⟨j', by omega, h4, rfl, h5⟩
    · exact .inr hn

theorem SliceFit.finish (h : SliceFit hash told nasize cap told.sizearray t) :
    Fit hash told nasize cap (nodeCount told.node told.sizenode (fun k => !inRange nasize k))
      (nodePend told told.sizenode) t := by
  have hf := h.fit
  refine ⟨hf.wf, hf.sizearray, hf.sizenode, hf.moving.congr fun k => ⟨.inr, ?_⟩, ?_⟩
  · rintro (⟨j', h3, h4, -⟩ | hn)
    · omega
    · exact hn
  · have := hf.room
    omega

/-- The elements of the vanishing slice are moved. -/
theorem Fit.slice (hold : Good hash told) (h : SliceFit hash told nasize cap nasize t)
    (hfit : count told none (fun k => !inRange nasize k) ≤ cap)
    (hb : content hash told (.number (nasize + 1)) = none) (hlt : nasize ≤ told.sizearray)
    (depth : ℕ) :
    Outcome (migrateSlice (Table.newkey hash (depth + 1)) (told.sizearray - nasize) nasize t)
      (fun _ t' => Fit hash told nasize cap
        (nodeCount told.node told.sizenode (fun k => !inRange nasize k))
        (nodePend told told.sizenode) t' ∧ t'.array = told.array)
      (fun _ => False) := by
  have hend : nasize + (told.sizearray - nasize) = told.sizearray := by omega
  refine (migrateSlice_outcome (SliceFit hash told nasize cap) _ _ ?_ ?_ h).mono ?_ fun _ h => h
  · exact fun j t h1 h2 hf hnone => hf.skip (by omega) hnone
  · rintro j t v h1 h2 hf hv
    obtain ⟨hf', hpend, hcontent, hr, hstep⟩ := hf.elem hold h1 (by omega) hv
    exact (hf'.newkey hfit hpend hcontent hr hb hstep depth).mono
      (fun _ t' h => ⟨h.1, h.2.trans hf.array⟩) fun _ h => h
  · rintro _ t' hf
    rw [hend] at hf
    exact ⟨hf.finish, hf.array⟩

/-- In the middle of the loop over the old nodes. -/
structure NodesFit (hash : Key σ π ω → ℕ) (told : LuaTable (Key σ π ω) V) (nasize cap i : ℕ)
    (t : LuaTable (Key σ π ω) V) : Prop where
  /-- The elements of the nodes below `i` are still to be moved. -/
  fit : Fit hash told nasize cap (nodeCount told.node i (fun k => !inRange nasize k))
    (nodePend told i) t
  length : t.array.length = nasize

omit [DecidableEq σ] [DecidableEq π] [DecidableEq ω] in
theorem nodeCount_succ (node : ℕ → Node (Key σ π ω) V) (i : ℕ) (p : Key σ π ω → Bool) :
    nodeCount node (i + 1) p = nodeCount node i p + tally (node i).val (node i).key p :=
  Finset.sum_range_succ _ i

theorem NodesFit.skip {i : ℕ} (h : NodesFit hash told nasize cap (i + 1) t)
    (hdead : (told.node i).val = none ∨ (told.node i).key = none) :
    NodesFit hash told nasize cap i t := by
  have hf := h.fit
  refine ⟨⟨hf.wf, hf.sizearray, hf.sizenode, hf.moving.congr (nodePend_skip hdead), ?_⟩, h.length⟩
  have := hf.room
  rw [nodeCount_succ] at this
  omega

/-- The next element of the old nodes. -/
theorem NodesFit.elem (hold : Good hash told) {i : ℕ} (h : NodesFit hash told nasize cap (i + 1) t)
    (hi : i < told.sizenode) (hk : (told.node i).key = some k) (hv : (told.node i).val = some v) :
    Fit hash told nasize cap (nodeCount told.node i (fun k => !inRange nasize k) +
        (!inRange nasize k).toNat) (nodePend told (i + 1)) t ∧
      nodePend told (i + 1) k ∧ content hash told k = some v ∧
      ∀ k', nodePend told i k' ↔ nodePend told (i + 1) k' ∧ k' ≠ k := by
  have htally : tally (told.node i).val (told.node i).key (fun k => !inRange nasize k) =
      (!inRange nasize k).toNat := by
    rw [hv, hk]
    rfl
  have hf := h.fit
  have hroom := hf.room
  rw [nodeCount_succ, htally] at hroom
  exact ⟨⟨hf.wf, hf.sizearray, hf.sizenode, hf.moving, hroom⟩,
    ⟨i, i.lt_succ_self, hk, by simp [hv]⟩,
    (hold.toWf.content_node (hold.toWf.not_inRange hi hk)).mpr ⟨i, hi, hk, hv⟩,
    nodePend_step hold.nodes hi hk⟩

/-- The elements of the old nodes are moved. -/
theorem Fit.nodes (hold : Good hash told) (h : NodesFit hash told nasize cap told.sizenode t)
    (hfit : count told none (fun k => !inRange nasize k) ≤ cap)
    (hb : content hash told (.number (nasize + 1)) = none) (depth : ℕ) :
    Outcome (migrateNodes (Table.newkey hash (depth + 1)) told.node told.sizenode t)
      (fun _ => NodesFit hash told nasize cap 0) (fun _ => False) := by
  refine migrateNodes_outcome told.node (NodesFit hash told nasize cap) _ ?_ ?_ h
  · exact fun i t hi hf hdead => hf.skip hdead
  · rintro i t k v hi hf hk hv
    obtain ⟨hf', hpend, hcontent, hstep⟩ := hf.elem hold hi hk hv
    cases hr : inRange nasize k with
    | true =>
      rw [hr] at hf'
      exact (hf'.array hpend hcontent hr hstep _).mono
        (fun _ t' h => ⟨h.1, h.2.trans hf.length⟩) fun _ h => h
    | false =>
      rw [hr] at hf'
      rw [migrate, arrayornewkey_not_inRange _ (by rw [hf.fit.sizearray, hr]), ← migrate]
      exact (hf'.newkey hfit hpend hcontent hr hb hstep depth).mono
        (fun _ t' h => ⟨h.1, by rw [h.2, hf.length]⟩) fun _ h => h

/-- The table with its new parts, before the elements are moved. -/
theorem Moving.start (hold : Good hash told) (h : Wf hash t) (hfree : ∀ k, Fresh t k)
    (harray : ∀ i < t.sizearray,
      t.arrayAt i = if i < told.sizearray then told.arrayAt i else none) :
    Moving hash told (slicePend told t.sizearray) t := by
  have hnode : ∀ k, inRange t.sizearray k = false → content hash t k = none := by
    intro k hk
    rw [content, h.luaH_get_eq_none.mpr ⟨hk, hfree k⟩]
    rfl
  have hpend : ∀ k, content hash told k ≠ none → ¬slicePend told t.sizearray k →
      ∃ i < t.sizearray, i < told.sizearray ∧ k = .number (i + 1) := by
    intro k hk hp
    rw [slicePend, not_or] at hp
    cases hr : inRange told.sizearray k with
    | true =>
      obtain ⟨n, rfl, h1, h2⟩ := exists_of_inRange hr
      obtain ⟨i, rfl⟩ : ∃ i : ℕ, n = i + 1 := ⟨(n - 1).toNat, by omega⟩
      rw [content_array hash hold.size (by omega)] at hk
      by_contra hno
      refine hp.1 ⟨i, ?_, by omega, rfl, hk⟩
      by_contra hlt
      exact hno ⟨i, by omega, by omega, rfl⟩
    | false =>
      obtain ⟨v, hv⟩ := Option.ne_none_iff_exists'.mp hk
      obtain ⟨i, hi, h1, h2⟩ := (hold.toWf.content_node hr).mp hv
      exact absurd ⟨i, hi, h1, by simp [h2]⟩ hp.2
  refine ⟨fun k hp => ?_, fun k hp => ⟨?_, hfree k⟩, fun k _ => hfree k⟩
  · by_cases hk : content hash told k = none
    · rw [hk]
      cases hr : inRange t.sizearray k with
      | false => exact hnode k hr
      | true =>
        obtain ⟨n, rfl, h1, h2⟩ := exists_of_inRange hr
        obtain ⟨i, rfl⟩ : ∃ i : ℕ, n = i + 1 := ⟨(n - 1).toNat, by omega⟩
        rw [content_array hash h.size (by omega), harray i (by omega)]
        split_ifs with hi
        · rw [← content_array hash hold.size hi, hk]
        · rfl
    · obtain ⟨i, hi, hi', rfl⟩ := hpend k hk hp
      rw [content_array hash h.size hi, content_array hash hold.size hi', harray i hi, if_pos hi']
  · cases hr : inRange t.sizearray k with
    | false => exact hnode k hr
    | true =>
      obtain ⟨n, rfl, h1, h2⟩ := exists_of_inRange hr
      obtain ⟨i, rfl⟩ : ∃ i : ℕ, n = i + 1 := ⟨(n - 1).toNat, by omega⟩
      rcases hp with ⟨j, h3, h4, h5, -⟩ | ⟨j, hj, hkj, -⟩
      · have : (i : ℤ) + 1 = j + 1 := by simpa using h5
        omega
      · -- a key of the node part that now has its place in the array part
        have hnr := hold.toWf.not_inRange hj hkj
        rw [content_array hash h.size (by omega), harray i (by omega), if_neg]
        intro hi
        exact Bool.eq_false_iff.mp hnr (inRange_eq_true.mpr (by omega))

theorem capacity_pow {n : ℕ} (h : capacity n ≠ 0) : ∃ k, capacity n = 2 ^ k := by
  have h0 : n ≠ 0 := by
    rintro rfl
    exact h rfl
  exact ⟨ceillog2 n, if_neg h0⟩

omit [DecidableEq σ] [DecidableEq π] [DecidableEq ω] in
/-- A new node part is well-formed. -/
theorem Wf.fresh_nodes {array : List (Option V)} {nasize nhsize : ℕ} (hblock : nasize ≤ array.length)
    (hsize : nasize ≤ MAXSIZE) :
    Wf hash (⟨array, nasize, fun _ => .free, capacity nhsize, capacity nhsize⟩ :
      LuaTable (Key σ π ω) V) where
  nodes := ⟨fun h => .free_nodes hash (capacity_pow h), le_rfl, fun i hi hle => by
    have : (capacity nhsize : ℤ) ≤ i := hle
    have : i < capacity nhsize := hi
    omega⟩
  block := hblock
  size := hsize
  boundary := fun i _ key hkey => absurd hkey (by simp [Node.free])
  cache := by
    have := Int.natCast_nonneg (capacity nhsize)
    show -(capacity nhsize : ℤ) ≤ (nasize : ℤ)
    omega

end Fit

theorem length_reallocarray (array : List (Option V)) (oldn n : ℕ) :
    (reallocarray array oldn n).length = n := by
  simp [reallocarray]

theorem getD_reallocarray (array : List (Option V)) (oldn : ℕ) {n i : ℕ} (hi : i < n) :
    (reallocarray array oldn n).getD i none = if i < oldn then array.getD i none else none := by
  simp [reallocarray, hi]

/-- The content does not depend on what the block holds behind the array part. -/
theorem Wf.content_with_array (h : Wf hash t) (array : List (Option V))
    (ha : ∀ i < t.sizearray, array.getD i none = t.arrayAt i) :
    content hash { t with array := array } = content hash t := by
  funext k
  have hget : luaH_get hash { t with array := array } k = luaH_get hash t k := by
    cases k <;> rfl
  rw [content, content, hget]
  cases hs : luaH_get hash t k with
  | none => rfl
  | some s =>
    rcases h.slot_cases hs with ⟨i, hi, -, rfl⟩ | ⟨i, hi, -, rfl⟩
    · exact ha i hi
    · rfl

theorem Fit.with_array {nasize cap rest : ℕ} {pend : Key σ π ω → Prop}
    (h : Fit hash told nasize cap rest pend t) (array : List (Option V))
    (ha : ∀ i < nasize, array.getD i none = t.arrayAt i) (hlen : array.length = nasize) :
    Fit hash told nasize cap rest pend { t with array := array } := by
  have hcontent := h.wf.content_with_array array (by rw [h.sizearray]; exact ha)
  refine ⟨⟨⟨h.wf.nodes.inv, h.wf.nodes.top, h.wf.nodes.taken⟩, ?_, h.wf.size, h.wf.boundary,
    h.wf.cache⟩, h.sizearray, h.sizenode, ⟨?_, ?_, h.moving.fresh⟩, h.room⟩
  · exact (h.sizearray.trans hlen.symm).le
  · rw [hcontent]
    exact h.moving.moved
  · rw [hcontent]
    exact h.moving.left

/-- What a resize that fits does. -/
structure Resized (hash : Key σ π ω → ℕ) (t t' : LuaTable (Key σ π ω) V) (nasize cap : ℕ) : Prop
    where
  good : Good hash t'
  sizearray : t'.sizearray = nasize
  sizenode : t'.sizenode = cap
  same : content hash t' = content hash t
  fresh : ∀ k, content hash t k = none → Fresh t' k
  used : keyed t' ≤ count t none (fun k => !inRange nasize k)

theorem NodesFit.finish {nasize cap : ℕ} (h : NodesFit hash told nasize cap 0 t) :
    Resized hash told t nasize cap := by
  have hempty : ∀ k, ¬nodePend told 0 k := by
    rintro k ⟨j, hj, -⟩
    omega
  have hroom := h.fit.room
  exact ⟨⟨h.fit.wf, by rw [h.length, h.fit.sizearray]⟩, h.fit.sizearray, h.fit.sizenode,
    funext fun k => h.fit.moving.moved k (hempty k), h.fit.moving.fresh, by omega⟩

section Start

variable {nasize nhsize : ℕ}

/-- Before the elements are moved. -/
theorem Fit.start (h : Good hash t) (hna : nasize ≤ MAXSIZE) {array : List (Option V)}
    (hlen : nasize ≤ array.length)
    (ha : ∀ i < nasize, array.getD i none = if i < t.sizearray then t.arrayAt i else none) :
    Fit hash t nasize (capacity nhsize) (arrayCount t (fun k => !inRange nasize k) +
      nodeCount t.node t.sizenode (fun k => !inRange nasize k)) (slicePend t nasize)
      ⟨array, nasize, fun _ => .free, capacity nhsize, capacity nhsize⟩ := by
  have hcount : count t none (fun k => !inRange nasize k) =
      arrayCount t (fun k => !inRange nasize k) +
        nodeCount t.node t.sizenode (fun k => !inRange nasize k) := rfl
  have hwf : Wf hash (⟨array, nasize, fun _ => .free, capacity nhsize, capacity nhsize⟩ :
      LuaTable (Key σ π ω) V) := .fresh_nodes hlen hna
  refine ⟨hwf, rfl, rfl, Moving.start h hwf (fun k i _ => by simp [Node.free]) ha, ?_⟩
  rw [keyed_eq_zero fun i => rfl, hcount, Nat.zero_add]

/-- The array part is made smaller. -/
theorem SliceFit.start (h : Good hash t) (hna : nasize ≤ MAXSIZE) (hlt : nasize < t.sizearray) :
    SliceFit hash t nasize (capacity nhsize) nasize
      { setnodevector t nhsize with sizearray := nasize } where
  fit := Fit.start h hna (hlt.le.trans h.length.ge) fun i hi => by
    rw [if_pos (lt_trans hi hlt)]
    rfl
  array := rfl

/-- The block is cut to the new size. -/
theorem NodesFit.of_cut {cap n : ℕ}
    (hf : Fit hash told nasize cap (nodeCount told.node told.sizenode (fun k => !inRange nasize k))
      (nodePend told told.sizenode) t) (hlt : nasize < n) :
    NodesFit hash told nasize cap told.sizenode
      { t with array := reallocarray t.array n nasize } where
  fit := hf.with_array _
    (fun i hi => by rw [getD_reallocarray _ _ hi, if_pos (lt_trans hi hlt)]; rfl)
    (length_reallocarray _ _ _)
  length := length_reallocarray _ _ _

/-- The array part is not made smaller. -/
theorem NodesFit.start (h : Good hash t) (hna : nasize ≤ MAXSIZE) (hle : t.sizearray ≤ nasize) :
    NodesFit hash t nasize (capacity nhsize) t.sizenode
      (setnodevector (if nasize > t.sizearray then setarrayvector t nasize else t) nhsize) := by
  have hmid : ∀ array : List (Option V), array.length = nasize →
      (∀ i < nasize, array.getD i none = if i < t.sizearray then t.arrayAt i else none) →
      NodesFit hash t nasize (capacity nhsize) t.sizenode
        ⟨array, nasize, fun _ => .free, capacity nhsize, capacity nhsize⟩ := by
    intro array hlen ha
    have hf : Fit hash t nasize (capacity nhsize) _ _ _ := Fit.start h hna hlen.ge ha
    refine ⟨⟨hf.wf, rfl, rfl, hf.moving.congr fun k => ⟨.inr, ?_⟩, ?_⟩, hlen⟩
    · rintro (⟨j, h1, h2, -⟩ | hn)
      · omega
      · exact hn
    · have := hf.room
      omega
  by_cases hgt : nasize > t.sizearray
  · rw [if_pos hgt]
    exact hmid _ (length_reallocarray _ _ _) fun i hi => getD_reallocarray _ _ hi
  · obtain rfl : nasize = t.sizearray := by omega
    rw [if_neg hgt]
    exact hmid t.array h.length fun i hi => by rw [if_pos hi]; rfl

/-- A resize into a node part that is large enough keeps the content. -/
theorem resize_fits (h : Good hash t) (hna : nasize ≤ MAXSIZE) (hnh : nhsize ≤ MAXSIZE)
    (hb : content hash t (.number (nasize + 1)) = none)
    (hfit : count t none (fun k => !inRange nasize k) ≤ capacity nhsize) (depth : ℕ) :
    Outcome (resize (newkey hash (depth + 1)) t nasize nhsize)
      (fun _ t' => Resized hash t t' nasize (capacity nhsize)) (fun _ => False) := by
  rw [resize, if_neg (by omega), migrateAll]
  by_cases hlt : nasize < t.sizearray
  · rw [if_pos hlt, if_neg (show ¬nasize > t.sizearray by omega)]
    have hstart : SliceFit hash t nasize (capacity nhsize) nasize _ := .start h hna hlt
    refine (Fit.slice h hstart hfit hb hlt.le depth).bind fun t₁ ⟨hf, ha⟩ => ?_
    exact (Fit.nodes h (.of_cut hf hlt) hfit hb depth).mono (fun _ _ h => h.finish) fun _ h => h
  · rw [if_neg hlt]
    exact (Fit.nodes h (.start h hna (not_lt.mp hlt)) hfit hb depth).mono
      (fun _ _ h => h.finish) fun _ h => h

end Start

/-! ### Insertion with a rehash -/

theorem content_with_lastfree (x : ℤ) : content hash { t with lastfree := x } = content hash t := by
  funext k
  cases k <;> rfl

omit [DecidableEq σ] [DecidableEq π] [DecidableEq ω] in
theorem Good.of_inserted (h : Good hash t) (hk : inRange t.sizearray k = false)
    (hne : k ≠ .number (t.sizearray + 1)) {n : ℕ} (hi : Inserted hash t t' k n) : Good hash t' :=
  ⟨h.toWf.of_inserted hk hne hi, by rw [hi.array, hi.sizearray, h.length]⟩

theorem Placed.trans {t₁ t₂ : LuaTable (Key σ π ω) V} {s : Slot} (h : Placed hash t₁ t₂ k s)
    (hsame : content hash t₁ = content hash t)
    (hfresh : ∀ k', content hash t k' = none → Fresh t k' → Fresh t₁ k') : Placed hash t t₂ k s :=
  ⟨h.slot, by rw [h.same, hsame], fun k' hne hc hf =>
    h.fresh k' hne (by rw [hsame, hc]) (hfresh k' hc hf)⟩

omit [DecidableEq σ] [DecidableEq π] [DecidableEq ω] in
theorem count_some (t : LuaTable (Key σ π ω) V) (k : Key σ π ω) (p : Key σ π ω → Bool) :
    count t (some k) p = count t none p + (p k).toNat := rfl

/-- After a resize to the sizes of a rehash, an extra key that is not in the array part has room in
the node part, and does not come right after the array part. -/
theorem Resized.room {nasize nh : ℕ} (hr : Resized hash t t' nasize (capacity nh))
    (hna : nasize ≤ MAXSIZE) (hcount : count t (some k) (fun k => !inRange nasize k) ≤ nh)
    (hne : arrayindex k ≠ nasize + 1) (hin : inRange nasize k = false) :
    inRange t'.sizearray k = false ∧ k ≠ .number (t'.sizearray + 1) ∧
      keyed t' < t'.sizenode := by
  refine ⟨by rw [hr.sizearray, hin], ?_, ?_⟩
  · rintro rfl
    have hsize := MAXSIZE_lt
    have hint : isInt ((nasize : ℤ) + 1) := ⟨by omega, by omega⟩
    rw [hr.sizearray] at hne
    exact hne (by rw [arrayindex, if_pos hint])
  · have hcap := le_capacity nh
    have hused := hr.used
    have hone : (!false).toNat = 1 := rfl
    rw [count_some, hin] at hcount
    rw [hr.sizenode]
    omega

/-- A rehash and the insertion of the extra key: the content is the same, also if the table would
be too large. -/
theorem rehashAndInsert_spec (h : Good hash t) (hk : luaH_get hash t k = none) (depth : ℕ) :
    Outcome (rehashAndInsert hash (newkey hash (depth + 1)) t k)
      (fun s t' => Good hash t' ∧ Placed hash t t' k s) (fun t' => t' = t) := by
  obtain ⟨hcount, hne, hb⟩ := rehashSizes_spec h.nodes h.size k
  have hcontent : content hash t k = none := by rw [content, hk]; rfl
  simp only [rehashAndInsert]
  set nasize := (rehashSizes hash t k).1 with hna
  set nh := (rehashSizes hash t k).2 with hnh
  by_cases hbig : nasize > MAXSIZE ∨ nh > MAXSIZE
  · simp only [resize, if_pos hbig]
    exact rfl
  · rw [not_or, not_lt, not_lt] at hbig
    have hcap := le_capacity nh
    have hsum := count_some t k fun k => !inRange nasize k
    rw [← luaH_get_number hash h.size] at hb
    have hfits := resize_fits h hbig.1 hbig.2 hb (by omega) depth
    refine (hfits.mono (fun _ _ h => h) fun _ h => h.elim).bind fun t₁ hr => ?_
    have hfresh₁ := hr.fresh k hcontent
    cases hin : inRange nasize k with
    | true =>
      obtain ⟨i, hnew, hslot⟩ := arrayornewkey_inRange hash hr.good.size
        (newkey hash (depth + 1)) (k := k) (by rw [hr.sizearray, hin])
      rw [hnew]
      exact ⟨hr.good, hslot, hr.same, fun k' _ hc _ => hr.fresh k' hc⟩
    | false =>
      obtain ⟨hin₁, hne₁, hroom⟩ := hr.room hbig.1 hcount hne hin
      obtain ⟨n, t₂, hnew, hi⟩ := newkey_room hr.good.toWf hfresh₁ hne₁ hroom depth
      rw [arrayornewkey_not_inRange _ hin₁, hnew]
      have hg := hr.good.of_inserted hin₁ hne₁ hi
      exact ⟨hg, (Placed.of_inserted hr.good.toWf hg.toWf hi).trans hr.same
        fun k' hc _ => hr.fresh k' hc⟩

/-- The insertion of a new key. -/
theorem newkey_spec (h : Good hash t) (hk : luaH_get hash t k = none) (depth : ℕ) :
    Outcome (newkey hash (depth + 2) t k) (fun s t' => Good hash t' ∧ Placed hash t t' k s)
      (fun t' => Good hash t' ∧ content hash t' = content hash t) := by
  obtain ⟨hin, hfresh⟩ := h.toWf.luaH_get_eq_none.mp hk
  rw [newkey_succ]
  split_ifs with hne
  · refine (rehashAndInsert_spec h hk depth).mono (fun _ _ h => h) fun t' e => ?_
    rw [e]
    exact ⟨h, rfl⟩
  · cases hr : insertNode hash t k with
    | mk o t' =>
    cases o with
    | some n =>
      have hi := insertNode_some h.nodes hfresh hr
      have hg := h.of_inserted hin hne hi
      exact ⟨hg, Placed.of_inserted h.toWf hg.toWf hi⟩
    | none =>
      obtain ⟨hfull, x, rfl, hx, hx'⟩ := insertNode_none h.nodes hr
      have hcache := h.cache
      have hg : Good hash { t with lastfree := x } :=
        ⟨h.toWf.with_lastfree hfull hx (by omega), h.length⟩
      have hk' : luaH_get hash { t with lastfree := x } k = none := by
        rw [hg.toWf.luaH_get_eq_none]
        exact ⟨hin, hfresh⟩
      refine (rehashAndInsert_spec hg hk' depth).mono (fun s t' h => ⟨h.1, ?_⟩) fun t' e => ?_
      · exact h.2.trans (content_with_lastfree x) fun _ _ hf => hf
      · rw [e]
        exact ⟨hg, content_with_lastfree x⟩

/-- A resize of the node part, to any size: elements that do not fit make the table grow again. -/
theorem resize_nodes (h : Good hash t) (nhsize depth : ℕ) :
    Outcome (resize (newkey hash (depth + 2)) t t.sizearray nhsize)
      (fun _ t' => Good hash t' ∧ content hash t' = content hash t) (Good hash) := by
  rw [resize]
  split_ifs with hbig hgt
  · exact h
  · omega
  · rw [migrateAll, if_neg (lt_irrefl _)]
    set P : ℕ → LuaTable (Key σ π ω) V → Prop := fun i t' =>
      Good hash t' ∧ Moving hash t (nodePend t i) t' with hP
    have hstart : P t.sizenode (setnodevector t nhsize) := by
      have hwf : Wf hash (⟨t.array, t.sizearray, fun _ => .free, capacity nhsize, capacity nhsize⟩ :
          LuaTable (Key σ π ω) V) := .fresh_nodes h.length.ge h.size
      refine ⟨⟨hwf, h.length⟩, ?_⟩
      refine (Moving.start h hwf (fun k i _ => by simp [Node.free])
        fun i hi => by rw [if_pos hi]; rfl).congr fun k => ⟨.inr, ?_⟩
      rintro (⟨j, h1, h2, -⟩ | hn)
      · have : t.sizearray ≤ j := h1
        omega
      · exact hn
    refine (migrateNodes_outcome t.node P _ ?_ ?_ hstart).mono ?_ fun _ h => h
    · rintro i t' hi ⟨hg, hm⟩ hdead
      exact ⟨hg, hm.congr (nodePend_skip hdead)⟩
    · rintro i t' k v hi ⟨hg, hm⟩ hk hv
      have hpend : nodePend t (i + 1) k := ⟨i, i.lt_succ_self, hk, by simp [hv]⟩
      have hcontent : content hash t k = some v :=
        (h.toWf.content_node (h.toWf.not_inRange hi hk)).mpr ⟨i, hi, hk, hv⟩
      have hstep := nodePend_step h.nodes hi hk
      apply migrate_outcome
      cases hin : inRange t'.sizearray k with
      | true =>
        obtain ⟨j, hnew, hslot⟩ := arrayornewkey_inRange hash hg.size
          (newkey hash (depth + 2)) hin
        rw [hnew]
        have hp : Placed hash t' t' k (.array j) := ⟨hslot, rfl, fun _ _ _ hf => hf⟩
        exact ⟨hg.assign _ hslot, hm.step hg.toWf hp hpend hcontent hstep⟩
      | false =>
        have hnone := hg.toWf.luaH_get_eq_none.mpr ⟨hin, (hm.left k hpend).2⟩
        rw [arrayornewkey_not_inRange _ hin]
        refine (newkey_spec hg hnone depth).mono (fun s t'' hnew => ?_) fun _ h => h.1
        obtain ⟨hg', hp⟩ := hnew
        exact ⟨hg'.assign _ hp.slot, hm.step hg'.toWf hp hpend hcontent hstep⟩
    · rintro _ t' ⟨hg, hm⟩
      refine ⟨hg, funext fun k => hm.moved k ?_⟩
      rintro ⟨j, hj, -⟩
      omega

end Table

end Jaci
