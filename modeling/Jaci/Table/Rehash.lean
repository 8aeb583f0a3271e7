import Jaci.Table.Checked
import Jaci.Table.Refinement

/-!
# Rehashes do not nest

The sizes that `rehash` chooses hold all elements, so that none of the insertions of `resize`
rehashes again, and the extra key has its place as well.  All loops end, and all indices and
offsets are in range.

* `rehashSizes_checked` : the counts and the new sizes;
* `newkey_checked` : an insertion where there is room;
* `resize_checked` : a resize that fits;
* `rehash_not_nested` : a rehash of any table that a run reaches.
-/

namespace Jaci

namespace Table

variable {σ π ω V : Type} {hash : Key σ π ω → ℕ} {t t' told : LuaTable (Key σ π ω) V}
  {k : Key σ π ω}

/-! ### Access -/

theorem slotAt_eq {K : Type} {t : LuaTable K V} {i : ℤ} (h0 : 0 ≤ i) (h : i < t.array.length) :
    Checked.slotAt t i = .ok (t.arrayAt i.toNat) :=
  if_pos ⟨h0, h⟩

theorem nodeAt_eq {K : Type} {t : LuaTable K V} {i : ℤ} (h0 : 0 ≤ i) (h : i < t.sizenode) :
    Checked.nodeAt t i = .ok (t.node i.toNat) :=
  if_pos ⟨h0, h⟩

theorem nodeAt_nat {K : Type} {t : LuaTable K V} {i : ℕ} (h : i < t.sizenode) :
    Checked.nodeAt t i = .ok (t.node i) :=
  nodeAt_eq (Int.natCast_nonneg i) (Int.ofNat_lt.mpr h)

theorem bind_ok {ε α β : Type} {x : Except ε α} {a : α} (h : x = .ok a) (f : α → Except ε β) :
    (x >>= f) = f a := by
  rw [h]
  rfl

/-! ### Counting -/

theorem countSlice_eq (turns i lc : ℕ) (hi : 1 ≤ i)
    (hlen : 0 < turns → i + turns ≤ t.array.length + 1) :
    Checked.countSlice t turns i lc = .ok (lc +
      ((Finset.Ico i (i + turns)).filter fun k => (t.arrayAt (k - 1)).isSome).card) := by
  induction turns generalizing i lc with
  | zero => simp [Checked.countSlice, pure, Except.pure]
  | succ turns ih =>
    have hlen' := hlen turns.succ_pos
    have hslot : Checked.slotAt t ((i : ℤ) - 1) = .ok (t.arrayAt (i - 1)) := by
      rw [slotAt_eq (by omega) (by omega)]
      congr 2
      omega
    rw [Checked.countSlice, bind_ok hslot, ih _ _ (by omega) (by omega),
      show i + (turns + 1) = i + 1 + turns by omega,
      ← Finset.insert_Ico_add_one_left_eq_Ico (show i < i + 1 + turns by omega),
      Finset.filter_insert]
    cases hv : (t.arrayAt (i - 1)).isSome with
    | false => simp
    | true =>
      rw [if_pos rfl, Finset.card_insert_of_notMem (by simp)]
      exact congrArg Except.ok (by simp only [Bool.toNat_true]; omega)

theorem numusearrayLoop_checked (hblock : t.sizearray ≤ t.array.length) (turns lg i ause : ℕ)
    (nums : ℕ → ℕ) (hlg : lg + turns = MAXBITS + 1) (hi : 1 ≤ i) :
    Checked.numusearrayLoop t turns lg i ause nums = .ok (numusearrayLoop t turns lg i ause nums) := by
  induction turns generalizing lg i ause nums with
  | zero => rfl
  | succ turns ih =>
    rw [Checked.numusearrayLoop, numusearrayLoop]
    split_ifs with hend
    · rfl
    · have hpos := Nat.two_pow_pos lg
      set lim := min (2 ^ lg) t.sizearray with hlim
      have hico : Finset.Ico i (i + (lim + 1 - i)) = Finset.Icc i lim := by
        ext j
        simp only [Finset.mem_Ico, Finset.mem_Icc]
        omega
      have hslice := countSlice_eq (t := t) (lim + 1 - i) i 0 hi (by omega)
      rw [Nat.zero_add, hico] at hslice
      have hcount : Checked.countAt nums lg = .ok (nums lg) := if_pos (by omega)
      simp only [bind_ok hslice, bind_ok hcount]
      exact ih _ _ _ _ (by omega) (by omega)

theorem countint_checked (key : Key σ π ω) (nums : ℕ → ℕ) :
    Checked.countint key nums = .ok (countint key nums) := by
  simp only [Checked.countint, countint]
  split_ifs with h
  · have hlg : ceillog2 (arrayindex key).toNat ≤ MAXBITS := by
      rw [ceillog2_le]
      have : (arrayindex key).toNat ≤ MAXSIZE := by omega
      exact this
    have hcount : Checked.countAt nums (ceillog2 (arrayindex key).toNat) = .ok _ := if_pos hlg
    rw [bind_ok hcount]
    rfl
  · rfl

theorem numusehashLoop_checked (i total ause : ℕ) (nums : ℕ → ℕ) (hi : i ≤ t.sizenode) :
    Checked.numusehashLoop t i total ause nums = .ok (numusehashLoop t.node i total ause nums) := by
  induction i generalizing total ause nums with
  | zero => rfl
  | succ i ih =>
    rw [Checked.numusehashLoop, numusehashLoop, bind_ok (nodeAt_nat hi)]
    cases hv : (t.node i).val with
    | none => exact ih _ _ _ (by omega)
    | some v =>
      cases hk : (t.node i).key with
      | none => exact ih _ _ _ (by omega)
      | some key =>
        simp only [bind_ok (countint_checked key nums)]
        exact ih _ _ _ (by omega)

/-- The loop of `computesizes` ends when all integer keys are counted, so that no count outside of
the table of counts is read. -/
theorem computesizesLoop_checked {ek : Option (Key σ π ω)} {nums : ℕ → ℕ}
    (hnums : ∀ j, nums j = count t ek (slice j)) (turns i a na n : ℕ) (hi : i + turns = MAXBITS + 1)
    (ha : a = count t ek (below i)) (hmore : i = 0 ∨ a ≠ count t ek (below (MAXBITS + 1))) :
    Checked.computesizesLoop nums (count t ek (below (MAXBITS + 1))) (turns + 1) i a na n =
      .ok (computesizesLoop nums (count t ek (below (MAXBITS + 1))) turns i a na n) := by
  induction turns generalizing i a na n with
  | zero =>
    obtain rfl : i = MAXBITS + 1 := by omega
    rcases hmore with h | h
    · exact absurd h (by decide)
    · exact absurd ha h
  | succ turns ih =>
    rw [Checked.computesizesLoop, computesizesLoop]
    by_cases h1 : 2 ^ i / 2 < count t ek (below (MAXBITS + 1))
    · rw [if_pos h1, if_pos h1]
      have hcount : Checked.countAt nums i = .ok (nums i) := if_pos (by omega)
      have ha' : (if nums i > 0 then a + nums i else a) = count t ek (below (i + 1)) := by
        rw [count_add (below_succ i), ← ha, ← hnums]
        split_ifs <;> omega
      simp only [bind_ok hcount, ha']
      by_cases h2 : nums i > 0 ∧ count t ek (below (i + 1)) > 2 ^ i / 2
      · simp only [if_pos h2]
        split_ifs with h3
        · rfl
        · exact ih (i + 1) _ _ _ (by omega) rfl (.inr h3)
      · simp only [if_neg h2]
        split_ifs with h3
        · rfl
        · exact ih (i + 1) _ _ _ (by omega) rfl (.inr h3)
    · rw [if_neg h1, if_neg h1]
      rfl

/-! ### The integer keys are counted -/

theorem countint_fst (key : Key σ π ω) (nums : ℕ → ℕ) :
    (countint key nums).1 = (below (MAXBITS + 1) key).toNat := by
  have hall : ∀ x : ℕ, x ≤ MAXSIZE → ceillog2 x < MAXBITS + 1 := fun x hx =>
    Nat.lt_succ_of_le (ceillog2_le.mpr hx)
  have hlt := MAXSIZE_lt
  simp only [countint]
  cases key with
  | number n =>
    by_cases hn : 0 < n ∧ n ≤ MAXSIZE
    · have hb : below (MAXBITS + 1) (.number n : Key σ π ω) = true :=
        below_eq_true.mpr ⟨hn.1, hn.2, hall _ (by omega)⟩
      rw [arrayindex_number hn.1 hn.2, if_pos hn, hb]
      rfl
    · have hb : below (MAXBITS + 1) (.number n : Key σ π ω) = false :=
        Bool.eq_false_iff.mpr fun h => hn ⟨(below_eq_true.mp h).1, (below_eq_true.mp h).2.1⟩
      rw [if_neg, hb]
      · rfl
      · rw [arrayindex]
        split_ifs
        · exact hn
        · omega
  | string s => rfl
  | lightuserdata p tag => rfl
  | other o => rfl

theorem numusehashLoop_ause (node : ℕ → Node (Key σ π ω) V) (i total ause : ℕ) (nums : ℕ → ℕ) :
    (numusehashLoop node i total ause nums).2.1 =
      ause + nodeCount node i (below (MAXBITS + 1)) := by
  induction i generalizing total ause nums with
  | zero => simp [numusehashLoop, nodeCount]
  | succ i ih =>
    rw [numusehashLoop, nodeCount_succ]
    cases hv : (node i).val with
    | none =>
      simp only [ih, tally, Option.isSome_none, Bool.false_and, Bool.toNat_false]
      omega
    | some v =>
      cases hk : (node i).key with
      | none =>
        simp only [ih, tally, Option.any_none, Bool.and_false, Bool.toNat_false]
        omega
      | some key =>
        simp only [ih, tally, countint_fst, Option.isSome_some, Option.any_some, Bool.true_and]
        omega

/-- All keys of the array part are counted. -/
theorem arrayCount_below (hsize : t.sizearray ≤ MAXSIZE) :
    arrayCount t (fun _ => true) = arrayCount t (below (MAXBITS + 1)) := by
  refine Finset.sum_congr rfl fun i hi => ?_
  obtain ⟨h1, h2⟩ := Finset.mem_Icc.mp hi
  have hb : below (MAXBITS + 1) (.number i : Key σ π ω) = true := by
    refine below_eq_true.mpr ⟨by omega, by omega, ?_⟩
    rw [Int.toNat_natCast]
    exact Nat.lt_succ_of_le (ceillog2_le.mpr (h2.trans hsize))
  rw [tally, tally, Option.any_some, Option.any_some, hb]

/-! ### Search -/

variable [DecidableEq σ] [DecidableEq π] [DecidableEq ω]

/-- A chain ends, and its offsets stay inside. -/
theorem findNode_checked (h : NodesInv hash t.sizenode t.node) {l : List ℕ} {n turns : ℕ}
    (hn : n < t.sizenode) (hl : Linked.Chain (link t.node) (some n) l) (hturns : l.length ≤ turns) :
    Checked.findNode t k turns n = .ok (t.value ((findNode t.node k turns n).map .node)) := by
  induction l generalizing n turns with
  | nil => exact absurd (Linked.chain_nil.mp hl) (by simp)
  | cons a l ih =>
    obtain ⟨ha, hl⟩ := Linked.chain_cons.mp hl
    obtain rfl : n = a := Option.some.inj ha
    obtain ⟨turns, rfl⟩ : ∃ m, turns = m + 1 := ⟨turns - 1, by simp at hturns; omega⟩
    rw [Checked.findNode, findNode, bind_ok (nodeAt_nat hn)]
    split_ifs with hk h0
    · rfl
    · rfl
    · have hlink := link_of_next_ne h0
      have hoff := h.offset n hn
      rw [hlink] at hl
      have := ih (h.scatter.closed n hn _ hlink) hl (Nat.le_of_succ_le_succ hturns)
      rwa [Int.toNat_of_nonneg hoff] at this

theorem luaH_getnum_checked (h : Nodes hash t) (hblock : t.sizearray ≤ t.array.length) (n : ℤ) :
    Checked.luaH_getnum hash t n = .ok (t.value (luaH_getnum hash t n)) := by
  rw [Checked.luaH_getnum, luaH_getnum]
  split_ifs with hr hsize
  · exact slotAt_eq (by omega) (by omega)
  · rw [searchChain, if_pos hsize]
    rfl
  · have hinv := h.inv hsize
    have hmp := mainposition_lt hash hinv.pow (.number n)
    obtain ⟨l, hl⟩ := hinv.scatter.chain _ hmp
    have hlen := hl.length_le_card (S := Finset.range t.sizenode) fun a ha =>
      Finset.mem_range.mpr (hinv.scatter.seg_subset hmp hl a ha)
    rw [Finset.card_range] at hlen
    rw [searchChain, if_neg hsize]
    exact findNode_checked hinv hmp hl hlen

/-! ### The new sizes -/

omit [DecidableEq σ] [DecidableEq π] [DecidableEq ω] in
theorem adjustLoop_checked {present : ℕ → Bool} {present' : ℕ → Except Fault Bool}
    (hp : ∀ k, present' k = .ok (present k)) (turns size : ℕ)
    (hlt : adjustLoop present turns size < size + turns) :
    Checked.adjustLoop present' turns size = .ok (adjustLoop present turns size) := by
  induction turns generalizing size with
  | zero => exact absurd hlt (by simp [adjustLoop])
  | succ turns ih =>
    rw [adjustLoop] at hlt
    rw [Checked.adjustLoop, adjustLoop, bind_ok (hp _)]
    cases hb : present (size + 1) with
    | true =>
      rw [hb, if_pos rfl] at hlt
      exact ih (size + 1) (by omega)
    | false => rfl

theorem adjustasize_checked (h : Nodes hash t) (hblock : t.sizearray ≤ t.array.length) (size : ℕ)
    (ek : Key σ π ω) :
    Checked.adjustasize hash t size ek = .ok (adjustasize hash t size (some ek)) := by
  refine adjustLoop_checked (fun k => ?_) _ _ ?_
  · rw [Checked.indexUsed, indexUsed]
    split_ifs with h1 h2
    · rw [decide_eq_true h1]
      rfl
    · rw [bind_ok (luaH_getnum_checked h hblock k), decide_eq_false h1, h2]
      rfl
    · rw [decide_eq_false h1, Bool.not_eq_true _ |>.mp h2]
      rfl
  · -- each index that is passed is in use, and there are not more than there are slots
    obtain ⟨h1, h2, -⟩ := adjustasize_spec h (some ek) size
    have hle := count_le (t := t) (some ek) (inRange (adjustasize hash t size (some ek)))
    show adjustasize hash t size (some ek) < _
    omega

/-- The extra key is counted if it is a number. -/
def countExtra (ek : Key σ π ω) (nums : ℕ → ℕ) : ℕ × (ℕ → ℕ) :=
  match ek with
  | .number _ => countint ek nums
  | _ => (0, nums)

/-- The counts and the choice of the new sizes stay in range and end. -/
theorem rehashSizes_checked (h : Wf hash t) (ek : Key σ π ω) :
    Checked.rehashSizes hash t ek = .ok (rehashSizes hash t ek) := by
  have harray := numusearrayLoop_checked h.block (MAXBITS + 1) 0 1 0 (fun _ => 0)
    (Nat.zero_add _) le_rfl
  obtain ⟨ha1, ha2⟩ := numusearray_spec h.size
  rw [numusearray] at ha1 ha2
  rw [Checked.rehashSizes, bind_ok harray]
  set array := numusearrayLoop t (MAXBITS + 1) 0 1 0 fun _ => 0 with harr
  have hnodes := numusehashLoop_checked (t := t) t.sizenode 0 0 array.2 le_rfl
  obtain ⟨-, hn2⟩ := numusehashLoop_spec t.node t.sizenode 0 0 array.2
  have hause := numusehashLoop_ause t.node t.sizenode 0 0 array.2
  simp only [bind_ok hnodes]
  set nodes := numusehashLoop t.node t.sizenode 0 0 array.2 with hnod
  set extra := countExtra ek nodes.2.2 with hext
  have hextra : Checked.countExtra ek nodes.2.2 = .ok extra := by
    cases ek with
    | number n => exact countint_checked _ _
    | string s => rfl
    | lightuserdata p tag => rfl
    | other o => rfl
  have hextra1 : extra.1 = (below (MAXBITS + 1) ek).toNat := by
    cases ek with
    | number n => exact countint_fst _ _
    | string s => rfl
    | lightuserdata p tag => rfl
    | other o => rfl
  have hextra2 : ∀ j, extra.2 j = count t (some ek) (slice j) := by
    intro j
    have hj : extra.2 j = nodes.2.2 j + (slice j ek).toNat := by
      cases ek with
      | number n => exact countint_snd _ _ j
      | string s => rfl
      | lightuserdata p tag => rfl
      | other o => rfl
    rw [hj, hn2, ha2, count, Option.any_some]
  have hnarray : array.1 + nodes.2.1 + extra.1 = count t (some ek) (below (MAXBITS + 1)) := by
    rw [ha1, hause, hextra1, count, arrayCount_below h.size, Option.any_some, Nat.zero_add]
  have hzero : 0 = count t (some ek) (below 0) := by
    have hadd : count t (some ek) (below 0) =
        count t (some ek) (below 0) + count t (some ek) (below 0) := count_add fun key => by
      have hb : below 0 key = false := by cases key <;> simp [below]
      rw [hb]
      rfl
    omega
  have hsizes := computesizesLoop_checked hextra2 (MAXBITS + 1) 0 0 0 0 (Nat.zero_add _) hzero
    (.inl rfl)
  rw [← hnarray] at hsizes
  simp only [bind_ok hextra, bind_ok hsizes, bind_ok (adjustasize_checked h.nodes h.block _ ek)]
  exact (apply_ite Except.ok _ _ _).symm

/-! ### Insertion -/

omit [DecidableEq σ] [DecidableEq π] [DecidableEq ω] in
theorem freeBelow_checked {n : ℕ} (hn : n ≤ t.sizenode) :
    Checked.freeBelow t n = .ok (freeBelow t.node n) := by
  induction n with
  | zero => rfl
  | succ n ih =>
    rw [Checked.freeBelow, freeBelow, bind_ok (nodeAt_nat hn)]
    split_ifs
    · rfl
    · exact ih (by omega)

omit [DecidableEq σ] [DecidableEq π] [DecidableEq ω] in
theorem getfreepos_checked (h : Nodes hash t) : Checked.getfreepos t = .ok (getfreepos t) := by
  have htop := h.top
  rw [Checked.getfreepos, getfreepos]
  split_ifs
  · rw [bind_ok (freeBelow_checked (by omega))]
    rfl
  · rfl

omit [DecidableEq σ] [DecidableEq π] [DecidableEq ω] in
/-- The search for the node before the main position ends there. -/
theorem findPrevious_checked (h : NodesInv hash t.sizenode t.node) {l : List ℕ} {s b mp turns : ℕ}
    (hs : s < t.sizenode) (hb : b < t.sizenode)
    (hl : Linked.Seg (link t.node) (some s) l (some b)) (hmp : link t.node b = some mp)
    (hturns : l.length < turns) :
    ∃ p, Checked.findPrevious t mp turns s = .ok p := by
  induction l generalizing s turns with
  | nil =>
    obtain ⟨turns, rfl⟩ : ∃ m, turns = m + 1 := ⟨turns - 1, by simp at hturns; omega⟩
    obtain rfl : s = b := Option.some.inj hl
    have hnext : (t.node s).next ≠ 0 := fun e => by simp [link_of_next_eq e] at hmp
    have hoff := h.offset s hs
    rw [link_of_next_ne hnext] at hmp
    have hmp' := Option.some.inj hmp
    rw [Checked.findPrevious, bind_ok (nodeAt_nat hs), if_pos (by omega)]
    exact ⟨_, rfl⟩
  | cons a l ih =>
    obtain ⟨turns, rfl⟩ : ∃ m, turns = m + 1 := ⟨turns - 1, by simp at hturns; omega⟩
    obtain rfl : s = a := Option.some.inj hl.1
    have hl' := hl.2
    have hnext : (t.node s).next ≠ 0 := by
      intro e
      rw [link_of_next_eq e] at hl'
      cases l with
      | nil => exact absurd hl' (by simp [Linked.Seg])
      | cons c l => exact absurd hl'.1 (by simp)
    have hlink := link_of_next_ne hnext
    have hoff := h.offset s hs
    rw [hlink] at hl'
    rw [Checked.findPrevious, bind_ok (nodeAt_nat hs)]
    split_ifs
    · exact ⟨_, rfl⟩
    · obtain ⟨p, hp⟩ := ih (h.scatter.closed s hs _ hlink) hl' (Nat.le_of_succ_le_succ hturns)
      rw [Int.toNat_of_nonneg hoff] at hp
      exact ⟨p, hp⟩

omit [DecidableEq σ] [DecidableEq π] [DecidableEq ω] in
/-- An insertion into the node part stays in range. -/
theorem insertNode_checked (h : Nodes hash t) {n : ℕ} (e : insertNode hash t k = (some n, t')) :
    Checked.insertNode hash t k = .ok (some n, t') := by
  rw [insertNode] at e
  simp only [Checked.insertNode]
  set mp := mainposition hash t.sizenode k with hmp
  have htaken : (if t.sizenode = 0 then pure true else do
      return (← Checked.nodeAt t mp).val.isSome : Except Fault Bool) =
      .ok (decide (t.sizenode = 0 ∨ (t.node mp).val.isSome)) := by
    split_ifs with h0
    · rw [decide_eq_true (.inl h0)]
      rfl
    · have hlt : mp < t.sizenode := mainposition_lt hash (h.inv h0).pow k
      rw [bind_ok (nodeAt_nat hlt)]
      simp [h0, pure, Except.pure]
  rw [bind_ok htaken]
  by_cases hc : t.sizenode = 0 ∨ (t.node mp).val.isSome
  · rw [if_pos (decide_eq_true hc), bind_ok (getfreepos_checked h)]
    rw [if_pos hc] at e
    cases hf : getfreepos t with
    | mk o t₁ =>
    cases o with
    | none => simp [hf] at e
    | some m =>
      obtain ⟨hm, hfree, rfl, -⟩ := getfreepos_some h hf
      have hsize : t.sizenode ≠ 0 := by omega
      have hinv := h.inv hsize
      have hlt : mp < t.sizenode := mainposition_lt hash hinv.pow k
      have hnode : ∀ i < t.sizenode,
          Checked.nodeAt { t with lastfree := (m : ℤ) } i = .ok (t.node i) := fun i hi =>
        nodeAt_nat (t := { t with lastfree := (m : ℤ) }) hi
      simp only [hf] at e
      simp only [bind_ok (hnode m hm), bind_ok (hnode mp hlt)]
      cases hk₁ : (t.node mp).key with
      | none => simp [hk₁] at e
      | some k₁ =>
        simp only [hk₁, Option.map_some] at e ⊢
        by_cases haway : mainposition hash t.sizenode k₁ ≠ mp
        · rw [if_pos haway] at e ⊢
          obtain ⟨b, hb, hbmp, l, hl, -⟩ := hinv.scatter.predecessor hlt hk₁ haway
          have hhome := mainposition_lt hash hinv.pow k₁
          obtain ⟨p, hp⟩ := findPrevious_checked (t := { t with lastfree := (m : ℤ) }) hinv hhome hb
            hl hbmp (hinv.length_lt hhome hb hl)
          rw [bind_ok hp, ← e]
          rfl
        · rw [if_neg haway] at e ⊢
          rw [← e]
          rfl
  · rw [if_neg (by simpa using hc), ← e, if_neg hc]
    rfl

/-- An insertion where there is room does not rehash. -/
theorem newkey_checked (h : Wf hash t) (hfresh : Fresh t k) (hne : k ≠ .number (t.sizearray + 1))
    (hroom : keyed t < t.sizenode) :
    ∃ n t', Checked.newkey hash t k = .ok (.node n, t') ∧ n < t'.sizenode := by
  rw [Checked.newkey, if_neg hne]
  cases hr : insertNode hash t k with
  | mk o t' =>
  cases o with
  | none =>
    have := sizenode_le_keyed (insertNode_none h.nodes hr).1
    omega
  | some n =>
    have hi := insertNode_some h.nodes hfresh hr
    refine ⟨n, t', ?_, hi.sizenode ▸ hi.lt⟩
    rw [bind_ok (insertNode_checked h.nodes hr)]
    rfl

omit [DecidableEq σ] [DecidableEq π] [DecidableEq ω] in
theorem store_node {n : ℕ} (hn : n < t.sizenode) (v : V) :
    Checked.store t (.node n) v = .ok (t.assign (.node n) (some v)) := by
  rw [Checked.store]
  exact bind_ok (nodeAt_nat hn) _

omit [DecidableEq σ] [DecidableEq π] [DecidableEq ω] in
theorem store_array {i : ℕ} (hi : i < t.array.length) (v : V) :
    Checked.store t (.array i) v = .ok (t.assign (.array i) (some v)) := by
  rw [Checked.store]
  exact bind_ok (slotAt_eq (Int.natCast_nonneg i) (Int.ofNat_lt.mpr hi)) _

/-! ### Resize -/

section Resize

variable {nasize cap nhsize rest : ℕ} {pend pend' : Key σ π ω → Prop} {v : V}

/-- An element is moved to the node part, and no rehash nests. -/
theorem Fit.newkey_checked (h : Fit hash told nasize cap (rest + 1) pend t)
    (hfit : count told none (fun k => !inRange nasize k) ≤ cap) (hk : pend k)
    (hv : content hash told k = some v) (hr : inRange nasize k = false)
    (hb : content hash told (.number (nasize + 1)) = none)
    (hpend : ∀ k', pend' k' ↔ pend k' ∧ k' ≠ k) :
    ∃ s t' t'', Checked.newkey hash t k = .ok (s, t') ∧ Checked.store t' s v = .ok t'' ∧
      Fit hash told nasize cap rest pend' t'' ∧ t''.array = t.array := by
  obtain ⟨hfresh, hne, hroom⟩ := h.insertable hfit hk hv hb
  obtain ⟨n, t', hnew, hn⟩ := Table.newkey_checked h.wf hfresh hne hroom
  refine ⟨.node n, t', _, hnew, store_node hn v, ?_⟩
  have hplain := Checked.newkey_sound hnew 0
  have hout := h.newkey hfit hk hv hr hb hpend 0
  rw [migrate, hplain] at hout
  exact hout

/-- The loop over the vanishing slice. -/
theorem migrateSlice_checked (hold : Good hash told)
    (hfit : count told none (fun k => !inRange nasize k) ≤ cap)
    (hb : content hash told (.number (nasize + 1)) = none) (n j : ℕ) (hle : nasize ≤ j)
    (hj : j + n = told.sizearray) (h : SliceFit hash told nasize cap j t) :
    ∃ t', Checked.migrateSlice hash n j t = .ok t' ∧
      SliceFit hash told nasize cap told.sizearray t' := by
  induction n generalizing j t with
  | zero =>
    obtain rfl : j = told.sizearray := hj
    exact ⟨t, rfl, h⟩
  | succ n ih =>
    have hlen : j < t.array.length := by
      rw [h.array, hold.length]
      omega
    rw [Checked.migrateSlice,
      bind_ok (slotAt_eq (Int.natCast_nonneg j) (Int.ofNat_lt.mpr hlen)), Int.toNat_natCast]
    cases hv : t.arrayAt j with
    | none => exact ih (j + 1) (by omega) (by omega) (h.skip (by omega) hv)
    | some v =>
      obtain ⟨hf, hpend, hcontent, hr, hstep⟩ := h.elem hold hle (by omega) hv
      obtain ⟨s, t₁, t₂, h1, h2, h3, h4⟩ := hf.newkey_checked hfit hpend hcontent hr hb hstep
      simp only [bind_ok h1, bind_ok h2]
      exact ih (j + 1) (by omega) (by omega) ⟨h3, h4.trans h.array⟩

/-- The loop over the old nodes. -/
theorem migrateNodes_checked (hold : Good hash told)
    (hfit : count told none (fun k => !inRange nasize k) ≤ cap)
    (hb : content hash told (.number (nasize + 1)) = none) (n : ℕ) (hn : n ≤ told.sizenode)
    (h : NodesFit hash told nasize cap n t) :
    ∃ t', Checked.migrateNodes hash told n t = .ok t' ∧ NodesFit hash told nasize cap 0 t' := by
  induction n generalizing t with
  | zero => exact ⟨t, rfl, h⟩
  | succ n ih =>
    rw [Checked.migrateNodes, bind_ok (nodeAt_nat hn)]
    cases hv : (told.node n).val with
    | none => exact ih (by omega) (h.skip (.inl hv))
    | some v =>
      cases hk : (told.node n).key with
      | none => exact ih (by omega) (h.skip (.inr hk))
      | some k =>
        obtain ⟨hf, hpend, hcontent, hstep⟩ := h.elem hold hn hk hv
        have hsize := h.fit.sizearray
        cases hr : inRange nasize k with
        | true =>
          -- the element has a slot in the array part
          rw [hr] at hf
          obtain ⟨m, rfl, h1, h2⟩ := exists_of_inRange hr
          have hlt : (m - 1).toNat < t.array.length := by
            rw [h.length]
            omega
          have hidx : arrayindex (.number m : Key σ π ω) = m :=
            arrayindex_number h1 (by have := h.fit.wf.size; omega)
          have hnew : Checked.arrayornewkey hash t (.number m) = .ok (.array (m - 1).toNat, t) := by
            simp only [Checked.arrayornewkey, hidx]
            exact if_pos ⟨by omega, by omega⟩
          have hout := hf.array hpend hcontent hr hstep (newkey hash 1)
          rw [migrate, Checked.arrayornewkey_sound hnew 0] at hout
          simp only [bind_ok hnew, bind_ok (store_array hlt v)]
          exact ih (by omega) ⟨hout.1, hout.2.trans h.length⟩
        | false =>
          rw [hr] at hf
          obtain ⟨s, t₁, t₂, h1, h2, h3, h4⟩ := hf.newkey_checked hfit hpend hcontent hr hb hstep
          have hnew : Checked.arrayornewkey hash t k = .ok (s, t₁) := by
            rw [← h1]
            refine if_neg fun hc => Bool.eq_false_iff.mp hr ?_
            rw [eq_number_of_arrayindex k (by omega), inRange_eq_true]
            omega
          simp only [bind_ok hnew, bind_ok h2]
          exact ih (by omega) ⟨h3, by rw [h4, h.length]⟩

/-- A resize into a node part that is large enough: no insertion rehashes. -/
theorem resize_checked (h : Good hash t) (hna : nasize ≤ MAXSIZE) (hnh : nhsize ≤ MAXSIZE)
    (hb : content hash t (.number (nasize + 1)) = none)
    (hfit : count t none (fun k => !inRange nasize k) ≤ capacity nhsize) :
    ∃ t', Checked.resize hash t nasize nhsize = .ok t' ∧
      Resized hash t t' nasize (capacity nhsize) := by
  rw [Checked.resize, if_neg (by omega)]
  by_cases hlt : nasize < t.sizearray
  · simp only [if_pos hlt, if_neg (show ¬nasize > t.sizearray by omega)]
    have hstart : SliceFit hash t nasize (capacity nhsize) nasize _ := .start h hna hlt
    obtain ⟨t₁, h1, hs⟩ := migrateSlice_checked h hfit hb (t.sizearray - nasize) nasize le_rfl
      (by omega) hstart
    obtain ⟨t₂, h2, hn⟩ := migrateNodes_checked h hfit hb t.sizenode le_rfl
      (.of_cut hs.finish hlt)
    exact ⟨t₂, (bind_ok h1 _).trans h2, hn.finish⟩
  · simp only [if_neg hlt]
    obtain ⟨t₁, h1, hn⟩ := migrateNodes_checked h hfit hb t.sizenode le_rfl
      (.start h hna (not_lt.mp hlt))
    exact ⟨t₁, h1, hn.finish⟩

end Resize

/-! ### Rehash -/

/-- What a rehash that does not nest does with the extra key: it has a slot, the parts have the
sizes that were chosen, and the content is the same. -/
structure Rehashed (hash : Key σ π ω → ℕ) (t t' : LuaTable (Key σ π ω) V) (k : Key σ π ω) (s : Slot) :
    Prop where
  slot : luaH_get hash t' k = some s
  same : content hash t' = content hash t
  sizearray : t'.sizearray = (rehashSizes hash t k).1
  length : t'.array.length = (rehashSizes hash t k).1
  sizenode : t'.sizenode = capacity (rehashSizes hash t k).2

theorem rehashAndInsert_checked (h : Good hash t) (hk : content hash t k = none)
    (hna : (rehashSizes hash t k).1 ≤ MAXSIZE) (hnh : (rehashSizes hash t k).2 ≤ MAXSIZE) :
    ∃ s t', Checked.rehashAndInsert hash t k = .ok (s, t') ∧ Rehashed hash t t' k s ∧
      ∀ depth, rehashAndInsert hash (newkey hash (depth + 1)) t k = (.ok s, t') := by
  obtain ⟨hcount, hne, hb⟩ := rehashSizes_spec h.nodes h.size k
  set nasize := (rehashSizes hash t k).1 with hnasize
  set nh := (rehashSizes hash t k).2 with hnhsize
  have hsum := count_some t k fun k => !inRange nasize k
  have hcap := le_capacity nh
  rw [← luaH_get_number hash h.size] at hb
  obtain ⟨t₁, h1, hr⟩ := resize_checked h hna hnh hb (by omega)
  have hsound : ∀ depth, rehashAndInsert hash (newkey hash (depth + 1)) t k =
      arrayornewkey (newkey hash (depth + 1)) t₁ k := by
    intro depth
    simp only [rehashAndInsert, ← hnasize, ← hnhsize, Checked.resize_sound h1 depth]
  rw [Checked.rehashAndInsert, bind_ok (rehashSizes_checked h.toWf k)]
  simp only [← hnasize, ← hnhsize, bind_ok h1]
  cases hin : inRange nasize k with
  | true =>
    obtain ⟨i, hnew, hslot⟩ := arrayornewkey_inRange hash hr.good.size (newkey hash 1) (k := k)
      (by rw [hr.sizearray, hin])
    obtain ⟨m, rfl, h2, h3⟩ := exists_of_inRange hin
    have hidx : arrayindex (.number m : Key σ π ω) = m := arrayindex_number h2 (by omega)
    have hcond : 1 ≤ m ∧ m ≤ t₁.sizearray := ⟨by omega, by rw [hr.sizearray]; exact h3⟩
    have hnew' : Checked.arrayornewkey hash t₁ (.number m) = .ok (.array (m - 1).toNat, t₁) := by
      simp only [Checked.arrayornewkey, hidx]
      exact if_pos hcond
    have hlt : (m - 1).toNat < t₁.array.length := by
      rw [hr.good.length, hr.sizearray]
      omega
    refine ⟨.array (m - 1).toNat, t₁, ?_, ⟨?_, hr.same, hr.sizearray,
      hr.good.length.trans hr.sizearray, hr.sizenode⟩, fun depth => ?_⟩
    · simp only [bind_ok hnew', bind_ok (slotAt_eq (Int.natCast_nonneg _) (Int.ofNat_lt.mpr hlt))]
      rfl
    · exact luaH_get_inRange hash hr.good.size hcond.1 hcond.2
    · rw [hsound, Checked.arrayornewkey_sound hnew' depth]
  | false =>
    obtain ⟨hin₁, hne₁, hroom⟩ := hr.room hna hcount hne hin
    have hfresh := hr.fresh k hk
    obtain ⟨n, t₂, hnew, hn⟩ := newkey_checked hr.good.toWf hfresh hne₁ hroom
    have hnew' : Checked.arrayornewkey hash t₁ k = .ok (.node n, t₂) := by
      rw [← hnew]
      refine if_neg fun hc => Bool.eq_false_iff.mp hin₁ ?_
      rw [eq_number_of_arrayindex k (by omega), inRange_eq_true]
      omega
    obtain ⟨n', t', hplain, hi⟩ := newkey_room hr.good.toWf hfresh hne₁ hroom 0
    obtain ⟨hs, rfl⟩ := Prod.mk.inj (hplain.symm.trans (Checked.newkey_sound hnew 0))
    obtain rfl : n' = n := by simpa using hs
    have hp := Placed.of_inserted hr.good.toWf (hr.good.toWf.of_inserted hin₁ hne₁ hi) hi
    refine ⟨.node n', t', ?_, ⟨hp.slot, hp.same.trans hr.same, hi.sizearray.trans hr.sizearray,
      ?_, hi.sizenode.trans hr.sizenode⟩, fun depth => ?_⟩
    · simp only [bind_ok hnew', bind_ok (nodeAt_nat hn)]
      rfl
    · rw [hi.array, hr.good.length, hr.sizearray]
    · rw [hsound, Checked.arrayornewkey_sound hnew' depth]

/-- **Rehashes do not nest.**  In every state of every run, and for every key that is not in the
table, a rehash raises the error of a table that is too large, or else the checked run does not
stop: no insertion of `resize` rehashes, all indices and offsets are in range, and the extra key has
its place, in the parts that were made.  The source does the same. -/
theorem rehash_not_nested {es : List (Event σ π ω V)}
    (h : Run hash (Op.Allowed (Fits hash) fun _ _ => True) t es) (hk : content hash t k = none) :
    (∀ depth, rehashAndInsert hash (newkey hash depth) t k = (.error .overflow, t)) ∨
      ∃ s t', Checked.rehashAndInsert hash t k = .ok (s, t') ∧ Rehashed hash t t' k s ∧
        ∀ depth, rehashAndInsert hash (newkey hash (depth + 1)) t k = (.ok s, t') := by
  by_cases hbig : (rehashSizes hash t k).1 > MAXSIZE ∨ (rehashSizes hash t k).2 > MAXSIZE
  · refine .inl fun depth => ?_
    simp only [rehashAndInsert, resize, if_pos hbig]
  · rw [not_or, not_lt, not_lt] at hbig
    exact .inr (rehashAndInsert_checked h.good hk hbig.1 hbig.2)

/-- A table with a full array part and a full node part. -/
theorem rehash_not_nested_sample : ∃ (t : LuaTable (Key ℕ Empty Empty) ℕ) (es : _),
    Run sampleHash (Op.Allowed (Fits sampleHash) fun _ _ => True) t es ∧
      t.sizearray = 1 ∧ t.sizenode = 2 ∧
      ∃ s t', Checked.rehashAndInsert sampleHash t (.number 2) = .ok (s, t') ∧
        Rehashed sampleHash t t' (.number 2) s := by
  have hrun : Run (V := ℕ) sampleHash (Op.Allowed (Fits sampleHash) fun _ _ => True) _ _ :=
    (((Run.new 1 2 rfl).step (.setnum 1 (some 10)) (show isInt 1 by decide)).step
      (.setstr 5 (some 50)) trivial).step (.setstr 7 (some 70)) trivial
  refine ⟨_, _, hrun, by decide, by decide, ?_⟩
  rcases rehash_not_nested (k := .number 2) hrun (by decide) with h | ⟨s, t', h1, h2, -⟩
  · exact absurd (congrArg (fun r => r.1) (h 0)) (by decide)
  · exact ⟨s, t', h1, h2⟩

end Table

end Jaci
