import Jaci.Table.Boundary

/-!
# A table refines a map

The operations of a run are logged: which key was assigned which value, and when the table was
cleared.  After every run, a table holds at each key what was last assigned to it.

* `Op`, `Run` : the operations and the runs;
* `Sets` : what `luaH_set` and its relatives do;
* `Op.exec_content` : one operation;
* `Run.content_eq` : a whole run;
* `luaH_get_eq_lastAssigned` : the searches return what was last assigned;
* `luaH_getn_isBoundary` : in every run, the length of the table is a boundary.

A resize of the array part that is to move more elements to the node part than fit there rehashes
while the vanishing slice is read, and loses elements (`luaH_resizearray_loses`).  All callers only
grow the array part; this always fits (`fits_of_grow`).
-/

namespace Jaci

namespace Table

variable {σ π ω V : Type}

/-! ### Operations -/

/-- The operations on a table. -/
inductive Op (σ π ω V : Type) where
  /-- `luaH_set`, and an assignment through the slot. -/
  | set (key : KeyArg σ π ω) (v : Option V)
  /-- `luaH_setnum`, and an assignment through the slot. -/
  | setnum (key : ℤ) (v : Option V)
  /-- `luaH_setstr`, and an assignment through the slot. -/
  | setstr (key : σ) (v : Option V)
  /-- `luaH_setp`, and an assignment through the slot. -/
  | setp (key : π) (tag : ℤ) (v : Option V)
  /-- `luaH_resizearray`. -/
  | resizearray (nasize : ℕ)
  /-- `luaH_resizehash`. -/
  | resizehash (nhsize : ℕ)
  /-- `luaH_clone`; the run goes on with the clone. -/
  | clone
  /-- `luaH_clear`. -/
  | clear
  /-- `luaH_getn`, which may cache its result. -/
  | getn

/-- What is logged. -/
inductive Event (σ π ω V : Type) where
  | assigned (key : Key σ π ω) (v : Option V)
  | cleared

/-- The assignment through the slot that an operation returned. -/
def store (r : Except TableError Slot × LuaTable (Key σ π ω) V) (key : Key σ π ω) (v : Option V) :
    List (Event σ π ω V) × LuaTable (Key σ π ω) V :=
  match r with
  | (.ok s, t) => ([.assigned key v], t.assign s v)
  | (.error _, t) => ([], t)

variable [DecidableEq σ] [DecidableEq π] [DecidableEq ω]

/-- The last value that was assigned to a key since the last clear; the log is in reverse order. -/
def lastAssigned : List (Event σ π ω V) → Key σ π ω → Option V
  | [], _ => none
  | .assigned key v :: es, k => if k = key then v else lastAssigned es k
  | .cleared :: _, _ => none

variable (hash : Key σ π ω → ℕ)

/-- An operation: what is logged, and the table afterwards. -/
def Op.exec (t : LuaTable (Key σ π ω) V) :
    Op σ π ω V → List (Event σ π ω V) × LuaTable (Key σ π ω) V
  | .set (.key k) v => store (luaH_set hash t (.key k)) k v
  | .set key _ => ([], (luaH_set hash t key).2)
  | .setnum key v => store (luaH_setnum hash t key) (.number key) v
  | .setstr key v => store (luaH_setstr hash t key) (.string key) v
  | .setp key tag v => store (luaH_setp hash t key tag) (.lightuserdata key tag) v
  | .resizearray nasize => ([], (luaH_resizearray hash t nasize).2)
  | .resizehash nhsize => ([], (luaH_resizehash hash t nhsize).2)
  | .clone => ([], luaH_clone t)
  | .clear => ([.cleared], luaH_clear t)
  | .getn => ([], ((luaH_getn t).getD (0, t)).2)

/-- The elements outside of an array part of this size fit the node part. -/
def Fits (t : LuaTable (Key σ π ω) V) (nasize : ℕ) : Prop :=
  count t none (fun k => !inRange (adjustasize hash t nasize none) k) ≤ t.sizenode

/-- A hash size is large enough for the elements of the node part. -/
def Holds (t : LuaTable (Key σ π ω) V) (nhsize : ℕ) : Prop :=
  nodeCount t.node t.sizenode (fun _ => true) ≤ nhsize

/-- The operations of a run: the key of `luaH_setnum` is an `int`; `F` and `H` say which sizes of
the array part and the node part are allowed. -/
def Op.Allowed (F H : LuaTable (Key σ π ω) V → ℕ → Prop) (t : LuaTable (Key σ π ω) V) :
    Op σ π ω V → Prop
  | .setnum key _ => isInt key
  | .resizearray nasize => F t nasize
  | .resizehash nhsize => H t nhsize
  | _ => True

/-- The runs, with their logs; `A` says which operations are allowed. -/
inductive Run (A : LuaTable (Key σ π ω) V → Op σ π ω V → Prop) :
    LuaTable (Key σ π ω) V → List (Event σ π ω V) → Prop where
  /-- `luaH_new`. -/
  | new (narray nhash : ℕ) {t : LuaTable (Key σ π ω) V} (h : luaH_new narray nhash = .ok t) :
    Run A t []
  | step {t : LuaTable (Key σ π ω) V} {es : List (Event σ π ω V)} (op : Op σ π ω V)
    (h : Run A t es) (ha : A t op) : Run A (op.exec hash t).2 ((op.exec hash t).1 ++ es)

/-! ### Insertion -/

variable {hash} {t : LuaTable (Key σ π ω) V} {k : Key σ π ω}

/-- The slot of a key is returned; the content is the same, also after an error. -/
def Sets (hash : Key σ π ω → ℕ) (t : LuaTable (Key σ π ω) V) (k : Key σ π ω)
    (r : Except TableError Slot × LuaTable (Key σ π ω) V) : Prop :=
  Outcome r
    (fun s t' => Good hash t' ∧ luaH_get hash t' k = some s ∧ content hash t' = content hash t)
    (fun t' => Good hash t' ∧ content hash t' = content hash t)

theorem Sets.of_found (h : Good hash t) {s : Slot} (hs : luaH_get hash t k = some s) :
    Sets hash t k (.ok s, t) :=
  ⟨h, hs, rfl⟩

theorem newkey_sets (h : Good hash t) (hk : luaH_get hash t k = none) :
    Sets hash t k (newkey hash maxDepth t k) :=
  (newkey_spec h hk 6).mono (fun _ _ h => ⟨h.1, h.2.slot, h.2.same⟩) fun _ h => h

theorem luaH_set_sets (h : Good hash t) (k : Key σ π ω) :
    Sets hash t k (luaH_set hash t (.key k)) := by
  simp only [luaH_set]
  cases hs : luaH_get hash t k with
  | some s => exact .of_found h hs
  | none => exact newkey_sets h hs

theorem luaH_setnum_sets (h : Good hash t) {key : ℤ} :
    Sets hash t (.number key) (luaH_setnum hash t key) := by
  have hget := luaH_get_number hash h.size key
  rw [luaH_setnum]
  split_ifs with hr
  · exact .of_found h (luaH_get_inRange hash h.size hr.1 hr.2)
  · cases hs : luaH_getnum hash t key with
    | some s => exact .of_found h (hget.trans hs)
    | none => exact newkey_sets h (hget.trans hs)

theorem luaH_setp_sets (h : Good hash t) (key : π) (tag : ℤ) :
    Sets hash t (.lightuserdata key tag) (luaH_setp hash t key tag) := by
  rw [luaH_setp]
  cases hs : luaH_getp hash t key tag with
  | some s => exact .of_found h hs
  | none => exact newkey_sets h hs

/-- A string whose main position was never used goes there. -/
theorem luaH_newkeystr_sets (h : Good hash t) {key : σ} (hk : luaH_get hash t (.string key) = none) :
    Sets hash t (.string key) (luaH_newkeystr hash t key) := by
  simp only [luaH_newkeystr]
  split_ifs with hc
  · obtain ⟨hsize, hval, -⟩ := hc
    obtain ⟨hin, hfresh⟩ := h.toWf.luaH_get_eq_none.mp hk
    have hi := Inserted.of_overwrite h.nodes hfresh hsize (by simpa using hval)
    have hg := h.of_inserted hin (by simp) hi
    have hp := Placed.of_inserted h.toWf hg.toWf hi
    exact ⟨hg, hp.slot, hp.same⟩
  · exact newkey_sets h hk

theorem luaH_setstr_sets (h : Good hash t) (key : σ) :
    Sets hash t (.string key) (luaH_setstr hash t key) := by
  rw [luaH_setstr]
  cases hs : luaH_getstr hash t key with
  | some s => exact .of_found h hs
  | none => exact luaH_newkeystr_sets h hs

/-! ### Whole tables -/

theorem content_eq_none_of_empty (h : Good hash t) (hfresh : ∀ k, Fresh t k)
    (harray : ∀ i, t.arrayAt i = none) : content hash t = fun _ => none := by
  funext k
  rw [content]
  cases hs : luaH_get hash t k with
  | none => rfl
  | some s =>
    rcases h.toWf.slot_cases hs with ⟨i, hi, -, rfl⟩ | ⟨i, hi, hk, rfl⟩
    · exact harray i
    · exact absurd hk (hfresh k i hi)

omit [DecidableEq σ] [DecidableEq π] [DecidableEq ω] in
theorem luaH_new_eq {narray nhash : ℕ} (h : luaH_new narray nhash = .ok t) :
    narray ≤ MAXSIZE ∧
      t = ⟨reallocarray [] 0 narray, narray, fun _ => .free, capacity nhash, capacity nhash⟩ := by
  rw [luaH_new] at h
  by_cases hbig : narray > MAXSIZE ∨ nhash > MAXSIZE
  · rw [if_pos hbig] at h
    exact absurd h (by simp)
  · rw [if_neg hbig] at h
    rw [not_or, not_lt] at hbig
    refine ⟨hbig.1, (Except.ok.inj h).symm.trans ?_⟩
    rcases Nat.eq_zero_or_pos narray with rfl | ha <;> rcases Nat.eq_zero_or_pos nhash with rfl | hn
    · rfl
    · rw [if_pos hn]
      rfl
    · rw [if_pos ha]
      rfl
    · rw [if_pos ha, if_pos hn]
      rfl

/-- A new table is empty. -/
theorem luaH_new_spec {narray nhash : ℕ} (h : luaH_new narray nhash = .ok t) :
    Good hash t ∧ content hash t = fun _ => none := by
  obtain ⟨hsize, rfl⟩ := luaH_new_eq h
  have hlen : (reallocarray ([] : List (Option V)) 0 narray).length = narray :=
    length_reallocarray _ _ _
  have hg : Good hash (⟨reallocarray [] 0 narray, narray, fun _ => .free, capacity nhash,
      capacity nhash⟩ : LuaTable (Key σ π ω) V) := ⟨.fresh_nodes hlen.ge hsize, hlen⟩
  refine ⟨hg, content_eq_none_of_empty hg (fun k i _ => by simp [Node.free]) fun i => ?_⟩
  by_cases hi : i < narray
  · exact (getD_reallocarray _ _ hi).trans (if_neg (Nat.not_lt_zero i))
  · simp [LuaTable.arrayAt, reallocarray, hi]

omit [DecidableEq σ] [DecidableEq π] [DecidableEq ω] in
theorem Good.of_no_nodes (hsize : t.sizenode = 0) (hlen : t.array.length = t.sizearray)
    (hmax : t.sizearray ≤ MAXSIZE) (hx : t.lastfree ≤ 0) (hcache : -t.lastfree ≤ t.sizearray) :
    Good hash t where
  nodes := ⟨fun h => absurd hsize h, by omega, fun i hi => by omega⟩
  block := hlen.ge
  size := hmax
  boundary := fun i hi => by omega
  cache := hcache
  length := hlen

theorem content_of_no_nodes {t' : LuaTable (Key σ π ω) V} (hsize : t.sizenode = 0)
    (hsize' : t'.sizenode = 0) (harray : t'.array = t.array) (hn : t'.sizearray = t.sizearray) :
    content hash t' = content hash t := by
  have hs : ∀ k, searchChain hash t k = none := fun k => if_pos hsize
  have hs' : ∀ k, searchChain hash t' k = none := fun k => if_pos hsize'
  funext k
  have hget : luaH_get hash t' k = luaH_get hash t k := by
    cases k with
    | number n => simp only [luaH_get, luaH_getnum, hs, hs', hn]
    | string s => exact (hs' _).trans (hs _).symm
    | lightuserdata p tag => exact (hs' _).trans (hs _).symm
    | other o => exact (hs' _).trans (hs _).symm
  rw [content, content, hget]
  cases hslot : luaH_get hash t k with
  | none => rfl
  | some s =>
    cases s with
    | array i => simp only [LuaTable.value, LuaTable.read, LuaTable.arrayAt, harray]
    | node i =>
      -- without nodes, no search leads to a node
      cases k with
      | number n =>
        simp only [luaH_get, luaH_getnum, hs] at hslot
        split_ifs at hslot
        simp at hslot
      | string s => exact absurd ((hs _).symm.trans hslot) (by simp)
      | lightuserdata p tag => exact absurd ((hs _).symm.trans hslot) (by simp)
      | other o => exact absurd ((hs _).symm.trans hslot) (by simp)

/-- A cleared table is empty. -/
theorem luaH_clear_spec (h : Good hash t) :
    Good hash (luaH_clear t) ∧ content hash (luaH_clear t) = fun _ => none := by
  have harray : ∀ i, (List.replicate t.array.length (none : Option V)).getD i none = none := by
    intro i
    by_cases hi : i < t.array.length <;> simp [hi]
  have hlen : (List.replicate t.array.length (none : Option V)).length = t.sizearray := by
    rw [List.length_replicate, h.length]
  have htop := h.nodes.top
  by_cases hsize : t.sizenode = 0
  · have hx : t.lastfree ≤ 0 := by omega
    have heq : luaH_clear t = ⟨List.replicate t.array.length none, t.sizearray, t.node, t.sizenode,
        0⟩ := by
      simp [luaH_clear, maybesetaboundary, hsize, hx]
    rw [heq]
    have hg : Good hash (⟨List.replicate t.array.length none, t.sizearray, t.node, t.sizenode, 0⟩ :
        LuaTable (Key σ π ω) V) := .of_no_nodes hsize hlen h.size le_rfl (by simp)
    exact ⟨hg, content_eq_none_of_empty hg (fun k i hi => by rw [hsize] at hi; omega) harray⟩
  · obtain ⟨n, hn⟩ := (h.nodes.inv hsize).pow
    have heq : luaH_clear t = ⟨List.replicate t.array.length none, t.sizearray, fun _ => .free,
        t.sizenode, t.sizenode⟩ := by
      simp only [luaH_clear, maybesetaboundary]
      split_ifs <;> rfl
    rw [heq]
    have hg : Good hash (⟨List.replicate t.array.length none, t.sizearray, fun _ => .free,
        t.sizenode, t.sizenode⟩ : LuaTable (Key σ π ω) V) := by
      refine ⟨⟨⟨fun _ => .free_nodes hash ⟨n, hn⟩, le_rfl, fun i hi hle => ?_⟩, hlen.ge, h.size,
        fun i _ key hkey => absurd hkey (by simp [Node.free]), ?_⟩, hlen⟩
      · exact absurd (Int.ofNat_le.mp hle) (Nat.not_le.mpr hi)
      · exact Int.neg_le_of_neg_le (by simp)
    exact ⟨hg, content_eq_none_of_empty hg (fun k i _ => by simp [Node.free]) harray⟩

theorem reallocarray_self {array : List (Option V)} {n : ℕ} (h : array.length = n) :
    reallocarray array n n = array := by
  subst h
  refine List.ext_getElem (length_reallocarray _ _ _) fun i h1 h2 => ?_
  simp [reallocarray, h2]

/-- A clone has the same content. -/
theorem luaH_clone_spec (h : Good hash t) :
    Good hash (luaH_clone t) ∧ content hash (luaH_clone t) = content hash t := by
  have hself := reallocarray_self h.length
  have hnil : t.sizearray = 0 → t.array = [] := fun h0 =>
    List.length_eq_zero_iff.mp (h.length.trans h0)
  by_cases hsize : t.sizenode = 0
  · obtain ⟨x, heq, hx, hcache⟩ : ∃ x, luaH_clone t = ⟨t.array, t.sizearray, fun _ => .free, 0, x⟩ ∧
        x ≤ 0 ∧ -x ≤ (t.sizearray : ℤ) := by
      by_cases h0 : t.sizearray = 0
      · exact ⟨0, by simp [luaH_clone, hsize, h0, hnil h0], le_rfl, by simp⟩
      · refine ⟨-(getaboundary t : ℤ), ?_, by simp, ?_⟩
        · simp [luaH_clone, hsize, h0, hself, maybesetaboundary]
        · have := h.cache
          rw [getaboundary]
          split_ifs <;> omega
    rw [heq]
    exact ⟨.of_no_nodes rfl h.length h.size hx hcache, content_of_no_nodes hsize rfl rfl rfl⟩
  · have heq : luaH_clone t = t := by
      by_cases h0 : t.sizearray = 0
      · have := hnil h0
        cases t
        simp_all [luaH_clone]
      · simp [luaH_clone, hsize, h0, hself]
    rw [heq]
    exact ⟨h, rfl⟩

/-! ### Resizes -/

theorem fits_of_grow (h : Good hash t) {nasize : ℕ} (hgrow : t.sizearray ≤ nasize) :
    Fits hash t nasize := by
  have hle := (adjustasize_spec h.nodes none nasize).1
  have hzero : arrayCount t (fun k => !inRange (adjustasize hash t nasize none) k) = 0 := by
    refine arrayCount_eq_zero fun i h1 h2 => ?_
    rw [Bool.not_eq_false']
    exact inRange_eq_true.mpr ⟨by omega, by omega⟩
  have hnodes := nodeCount_le t.node t.sizenode
    (fun k => !inRange (adjustasize hash t nasize none) k)
  rw [Fits, count, hzero, Option.any_none, Bool.toNat_false]
  omega

omit [DecidableEq σ] [DecidableEq π] [DecidableEq ω] in
theorem resize_snd_of_outcome {r : Except TableError Unit × LuaTable (Key σ π ω) V}
    {P : LuaTable (Key σ π ω) V → Prop} (h : Outcome r (fun _ => P) P) : P r.2 := by
  obtain ⟨r, t⟩ := r
  cases r <;> exact h

/-- A resize of the array part, if the elements outside of it fit the node part. -/
theorem luaH_resizearray_spec (h : Good hash t) {nasize : ℕ} (hfit : Fits hash t nasize) :
    Good hash (luaH_resizearray hash t nasize).2 ∧
      content hash (luaH_resizearray hash t nasize).2 = content hash t := by
  obtain ⟨-, -, -, hb⟩ := adjustasize_spec h.nodes none nasize
  rw [Fits] at hfit
  rw [luaH_resizearray]
  set n := adjustasize hash t nasize none with hn
  by_cases hbig : n > MAXSIZE ∨ t.sizenode > MAXSIZE
  · rw [resize, if_pos hbig]
    exact ⟨h, rfl⟩
  · rw [not_or, not_lt, not_lt] at hbig
    rw [← luaH_get_number hash h.size] at hb
    refine resize_snd_of_outcome (P := fun t' => Good hash t' ∧ content hash t' = content hash t)
      ((resize_fits h hbig.1 hbig.2 hb (hfit.trans (le_capacity _)) 7).mono
        (fun _ t' h => ⟨h.good, h.same⟩) fun _ h => h.elim)

/-- A resize of the node part that is large enough. -/
theorem luaH_resizehash_spec (h : Good hash t) {nhsize : ℕ}
    (hfit : Holds t nhsize) : Good hash (luaH_resizehash hash t nhsize).2 ∧
      content hash (luaH_resizehash hash t nhsize).2 = content hash t := by
  rw [Holds] at hfit
  rw [luaH_resizehash]
  by_cases hbig : t.sizearray > MAXSIZE ∨ nhsize > MAXSIZE
  · rw [resize, if_pos hbig]
    exact ⟨h, rfl⟩
  · rw [not_or, not_lt, not_lt] at hbig
    have hcount : count t none (fun k => !inRange t.sizearray k) ≤ capacity nhsize := by
      have hzero : arrayCount t (fun k => !inRange t.sizearray k) = 0 := by
        refine arrayCount_eq_zero fun i h1 h2 => ?_
        rw [Bool.not_eq_false']
        exact inRange_eq_true.mpr ⟨by omega, by omega⟩
      have hadd : nodeCount t.node t.sizenode (fun _ => true) =
          nodeCount t.node t.sizenode (inRange t.sizearray) +
            nodeCount t.node t.sizenode (fun k => !inRange t.sizearray k) :=
        nodeCount_add (fun k => by cases inRange t.sizearray k <;> rfl) _ _
      have hcap := le_capacity nhsize
      rw [count, hzero, Option.any_none, Bool.toNat_false]
      omega
    refine resize_snd_of_outcome (P := fun t' => Good hash t' ∧ content hash t' = content hash t)
      ((resize_fits h hbig.1 hbig.2 h.toWf.content_boundary hcount 7).mono
        (fun _ t' h => ⟨h.good, h.same⟩) fun _ h => h.elim)

/-! ### Runs -/

/-- The length of a table changes the cache only. -/
theorem getn_spec (h : Good hash t) :
    Good hash (Op.exec hash t .getn).2 ∧ content hash (Op.exec hash t .getn).2 = content hash t := by
  obtain ⟨n, hb, hr | hr⟩ := luaH_getn_spec h.length h.cache
  · simp only [Op.exec, hr, Option.getD_some]
    exact ⟨h, trivial⟩
  · simp only [Op.exec, hr, Option.getD_some]
    refine ⟨h.maybesetaboundary hb.le, ?_⟩
    rw [maybesetaboundary]
    split_ifs
    · exact content_with_lastfree _
    · rfl

/-- An assignment through the slot that was returned. -/
theorem store_spec {r : Except TableError Slot × LuaTable (Key σ π ω) V} (h : Sets hash t k r)
    (v : Option V) (es : List (Event σ π ω V)) (hes : content hash t = lastAssigned es) :
    Good hash (store r k v).2 ∧
      content hash (store r k v).2 = lastAssigned ((store r k v).1 ++ es) := by
  obtain ⟨r, t'⟩ := r
  cases r with
  | ok s =>
    obtain ⟨hg, hs, hc⟩ := h
    refine ⟨hg.assign v hs, ?_⟩
    rw [store, hg.toWf.content_assign v hs, hc, hes]
    funext k'
    rw [Function.update_apply]
    rfl
  | error e =>
    obtain ⟨hg, hc⟩ := h
    exact ⟨hg, hc.trans hes⟩

/-- One operation keeps the invariant, and the table holds what was last assigned. -/
theorem Op.exec_content (h : Good hash t) {op : Op σ π ω V} (ha : op.Allowed (Fits hash) Holds t)
    {es : List (Event σ π ω V)} (hes : content hash t = lastAssigned es) :
    Good hash (op.exec hash t).2 ∧
      content hash (op.exec hash t).2 = lastAssigned ((op.exec hash t).1 ++ es) := by
  cases op with
  | set key v =>
    cases key with
    | nil => exact ⟨h, hes⟩
    | nan => exact ⟨h, hes⟩
    | key k => exact store_spec (luaH_set_sets h k) v es hes
  | setnum key v => exact store_spec (luaH_setnum_sets h) v es hes
  | setstr key v => exact store_spec (luaH_setstr_sets h key) v es hes
  | setp key tag v => exact store_spec (luaH_setp_sets h key tag) v es hes
  | resizearray nasize =>
    obtain ⟨hg, hc⟩ := luaH_resizearray_spec h ha
    exact ⟨hg, hc.trans hes⟩
  | resizehash nhsize =>
    obtain ⟨hg, hc⟩ := luaH_resizehash_spec h ha
    exact ⟨hg, hc.trans hes⟩
  | clone =>
    obtain ⟨hg, hc⟩ := luaH_clone_spec h
    exact ⟨hg, hc.trans hes⟩
  | clear => exact luaH_clear_spec h
  | getn =>
    obtain ⟨hg, hc⟩ := getn_spec h
    exact ⟨hg, hc.trans hes⟩

/-- After every run the table holds what was last assigned. -/
theorem Run.content_eq {es : List (Event σ π ω V)} (h : Run hash (Op.Allowed (Fits hash) Holds) t es) :
    Good hash t ∧ content hash t = lastAssigned es := by
  induction h with
  | new narray nhash h => exact luaH_new_spec h
  | step op _ ha ih => exact op.exec_content ih.1 ha ih.2

/-- **Tables refine maps.**  After every run the searches return the value that was last assigned
to a key since the last clear.  No key is in two nodes, or in a node and in the array part. -/
theorem luaH_get_eq_lastAssigned {es : List (Event σ π ω V)}
    (h : Run hash (Op.Allowed (Fits hash) Holds) t es) :
    (∀ k, t.value (luaH_get hash t k) = lastAssigned es k) ∧
      (∀ n, t.value (luaH_getnum hash t n) = lastAssigned es (.number n)) ∧
      (∀ s, t.value (luaH_getstr hash t s) = lastAssigned es (.string s)) ∧
      (∀ p tag, t.value (luaH_getp hash t p tag) = lastAssigned es (.lightuserdata p tag)) ∧
      (∀ i < t.sizenode, ∀ j < t.sizenode, ∀ k, (t.node i).key = some k →
        (t.node j).key = some k → i = j) ∧
      ∀ i < t.sizenode, ∀ k, (t.node i).key = some k → inRange t.sizearray k = false := by
  obtain ⟨hg, hc⟩ := h.content_eq
  refine ⟨fun k => congrFun hc k, fun n => ?_, fun s => congrFun hc (.string s),
    fun p tag => congrFun hc (.lightuserdata p tag), fun i hi j hj k => ?_,
    fun i hi k => hg.toWf.not_inRange hi⟩
  · rw [← congrFun hc (.number n), content, luaH_get_number hash hg.size]
  · exact (hg.nodes.inv (by omega)).scatter.key_unique hi hj

/-- A hash function for the runs below. -/
def sampleHash : Key ℕ Empty Empty → ℕ
  | .number n => n.toNat
  | .string s => s
  | _ => 0

theorem luaH_get_eq_lastAssigned_sample : ∃ t es,
    Run (V := ℕ) sampleHash (Op.Allowed (Fits sampleHash) Holds) t es ∧
      t.value (luaH_get sampleHash t (.number 1)) = some 10 ∧
      t.value (luaH_get sampleHash t (.string 5)) = none := by
  have hnew : Run (V := ℕ) sampleHash (Op.Allowed (Fits sampleHash) Holds) _ _ := .new 0 0 rfl
  have hset := (hnew.step (.setnum 1 (some 10)) (show isInt 1 by decide)).step
    (.setstr 5 (some 50)) trivial
  have hgrow := hset.step (.resizearray 2) (fits_of_grow hset.content_eq.1 (by decide))
  have hrun := hgrow.step (.setstr 5 none) trivial
  refine ⟨_, _, hrun, ?_, ?_⟩
  · exact ((luaH_get_eq_lastAssigned hrun).1 _).trans (by decide)
  · exact ((luaH_get_eq_lastAssigned hrun).1 _).trans (by decide)

/-- The array part is made smaller than the node part allows.  The elements that are to be moved
there come back to the array part, whose block is then cut. -/
theorem luaH_resizearray_loses : ∃ t es,
    Run (V := ℕ) sampleHash (Op.Allowed (fun _ _ => True) Holds) t es ∧
      t.value (luaH_get sampleHash t (.number 3)) ≠ lastAssigned es (.number 3) := by
  refine ⟨_, _, .step (.resizearray 0) (.step (.setnum 4 (some 40)) (.step (.setnum 3 (some 30))
    (.step (.setnum 2 (some 20)) (.new 4 0 rfl) ?_) ?_) ?_) trivial, ?_⟩
  · show isInt 2
    decide
  · show isInt 3
    decide
  · show isInt 4
    decide
  · decide +kernel

/-! ### The length -/

theorem store_good {r : Except TableError Slot × LuaTable (Key σ π ω) V} (h : Sets hash t k r)
    (v : Option V) : Good hash (store r k v).2 := by
  obtain ⟨r, t'⟩ := r
  cases r with
  | ok s => exact h.1.assign v h.2.1
  | error e => exact h.1

/-- One operation keeps the invariant; a new hash size may be too small for the elements. -/
theorem Op.exec_good (h : Good hash t) {op : Op σ π ω V}
    (ha : op.Allowed (Fits hash) (fun _ _ => True) t) : Good hash (op.exec hash t).2 := by
  cases op with
  | set key v =>
    cases key with
    | nil => exact h
    | nan => exact h
    | key k => exact store_good (luaH_set_sets h k) v
  | setnum key v => exact store_good (luaH_setnum_sets h) v
  | setstr key v => exact store_good (luaH_setstr_sets h key) v
  | setp key tag v => exact store_good (luaH_setp_sets h key tag) v
  | resizearray nasize => exact (luaH_resizearray_spec h ha).1
  | resizehash nhsize =>
    exact resize_snd_of_outcome ((resize_nodes h nhsize 6).mono (fun _ _ h => h.1) fun _ h => h)
  | clone => exact (luaH_clone_spec h).1
  | clear => exact (luaH_clear_spec h).1
  | getn => exact (getn_spec h).1

theorem Run.good {es : List (Event σ π ω V)}
    (h : Run hash (Op.Allowed (Fits hash) fun _ _ => True) t es) : Good hash t := by
  induction h with
  | new narray nhash h => exact (luaH_new_spec h).1
  | step op _ ha ih => exact op.exec_good ih ha

/-- **The length is a boundary.**  In every state of every run `luaH_getn` returns an index of the
array part that has a value, or 0, while the next index has none; the index behind the array part
has no value in the node part. -/
theorem luaH_getn_isBoundary {es : List (Event σ π ω V)}
    (h : Run hash (Op.Allowed (Fits hash) fun _ _ => True) t es) :
    (∃ n t', luaH_getn t = some (n, t') ∧ n ≤ t.sizearray ∧
      (n = 0 ∨ t.value (luaH_getnum hash t n) ≠ none) ∧
      t.value (luaH_getnum hash t (n + 1)) = none) ∧
    ∀ i < t.sizenode, (t.node i).key = some (.number (t.sizearray + 1)) → (t.node i).val = none := by
  have hg := h.good
  refine ⟨?_, fun i hi hk => ?_⟩
  · obtain ⟨n, hb, hr⟩ := luaH_getn_spec hg.length hg.cache
    obtain ⟨h1, h2⟩ := hb.luaH_getnum hg
    rcases hr with hr | hr
    · exact ⟨n, _, hr, hb.le, h1, h2⟩
    · exact ⟨n, _, hr, hb.le, h1, h2⟩
  · have hb := hg.boundary i hi _ hk
    exact absurd (inRange_eq_true.mpr (by omega)) (Bool.eq_false_iff.mp hb)

theorem luaH_getn_isBoundary_sample : ∃ (t : LuaTable (Key ℕ Empty Empty) ℕ) (es : _),
    Run sampleHash (Op.Allowed (Fits sampleHash) fun _ _ => True) t es ∧
      ∃ n t', luaH_getn t = some (n, t') ∧ (n = 0 ∨ t.value (luaH_getnum sampleHash t n) ≠ none) ∧
        t.value (luaH_getnum sampleHash t (n + 1)) = none := by
  have hnew : Run (V := ℕ) sampleHash (Op.Allowed (Fits sampleHash) fun _ _ => True) _ _ :=
    .new 4 0 rfl
  have hset := (hnew.step (.setnum 1 (some 10)) (show isInt 1 by decide)).step
    (.setstr 5 (some 50)) trivial
  have hrun := (hset.step .getn trivial).step (.resizehash 0) trivial
  obtain ⟨⟨n, t', h1, -, h2, h3⟩, -⟩ := luaH_getn_isBoundary hrun
  exact ⟨_, _, hrun, n, t', h1, h2, h3⟩

/-- After the array part was made smaller than the node part allows, the length is searched outside
of the block of the array part. -/
theorem luaH_resizearray_outside : ∃ t es,
    Run (V := ℕ) sampleHash (Op.Allowed (fun _ _ => True) fun _ _ => True) t es ∧
      luaH_getn t = none := by
  refine ⟨_, _, .step (.resizearray 0) (.step (.setnum 4 (some 40)) (.step (.setnum 3 (some 30))
    (.step (.setnum 2 (some 20)) (.new 4 0 rfl) ?_) ?_) ?_) trivial, ?_⟩
  · show isInt 2
    decide
  · show isInt 3
    decide
  · show isInt 4
    decide
  · exact Option.isNone_iff_eq_none.mp (by decide +kernel)

end Table

end Jaci
