import Jaci.Mem.Calls

/-!
# Runs of the allocator

A state is the allocator and the set of live blocks.  Calls get live blocks with their true sizes,
categories and pages, and `frealloc` may fail at any call; between calls, callers write to their
blocks.

* `Correct` : what is promised about a state, without the ghost state;
* `Good.step` : one call keeps the invariant, and a call that fails changes nothing;
* `luaM_correct` : every state that can be reached is correct.
-/

namespace Jaci

namespace Mem

open Linked

/-! ### Calls -/

/-- The allocator and the live blocks. -/
structure State where
  g : Global
  live : Finset Block

/-- What callers do. -/
inductive Op where
  /-- `luaM_new_`. -/
  | new (nsize memcat : ℕ)
  /-- `luaM_newgco_`. -/
  | newgco (nsize memcat : ℕ)
  /-- `luaM_realloc_`; no block is the null pointer. -/
  | realloc (block : Option Block) (nsize memcat : ℕ)
  /-- `luaM_free_`. -/
  | free (block : Option Block) (memcat : ℕ)
  /-- `luaM_freegco_`. -/
  | freegco (block : Block)
  | write (block : Block) (i : ℕ) (v : Cell)

/-- The largest size that can be asked for. -/
def maxSize : ℕ := 2 ^ 31 - dataOffset

/-- What callers and `frealloc` have to respect: freed blocks are live and given with their
category, and `frealloc` answers with memory that is not in use. -/
def Op.Valid (s : State) (fr : Frealloc) : Op → Prop
  | .new nsize _ => nsize < maxSize ∧ Fresh s.g.sys fr.new
  | .newgco nsize _ => kGCOLinkOffset + 8 ≤ nsize ∧ nsize < maxSize ∧ Fresh s.g.sys fr.new
  | .realloc block nsize memcat => nsize < maxSize ∧ Fresh s.g.sys fr.new ∧
      ∀ b, block = some b → b ∈ s.live ∧ b.kind = .plain ∧ b.memcat = memcat ∧
        Fresh (s.g.sys.erase (b.addr, b.size)) fr.resize
  | .free block memcat => ∀ b, block = some b → b ∈ s.live ∧ b.kind = .plain ∧ b.memcat = memcat
  | .freegco b => b ∈ s.live ∧ b.kind = .gco
  | .write b i _ => b ∈ s.live ∧ i < b.size

/-- The live blocks with the result of a call. -/
def keepBlock (live : Finset Block) (block : ℕ → Block) : Option ℕ → Finset Block
  | some a => insert (block a) live
  | none => live

def step (fr : Frealloc) (s : State) : Op → Except MemError (Option ℕ) × State
  | .new nsize memcat =>
    match luaM_new_ fr s.g nsize memcat with
    | (.error e, g) => (.error e, ⟨g, s.live⟩)
    | (.ok a, g) => (.ok a, ⟨g, keepBlock s.live (newBlock fr s.g .plain nsize memcat) a⟩)
  | .newgco nsize memcat =>
    match luaM_newgco_ fr s.g nsize memcat with
    | (.error e, g) => (.error e, ⟨g, s.live⟩)
    | (.ok a, g) => (.ok a, ⟨g, keepBlock s.live (newBlock fr s.g .gco nsize memcat) a⟩)
  | .realloc block nsize memcat =>
    match luaM_realloc_ fr s.g (block.map Block.addr) (sizeOf block) nsize memcat with
    | (.error e, g) => (.error e, ⟨g, s.live⟩)
    | (.ok a, g) => (.ok a, ⟨g, keepBlock (dropBlock s.live block)
        (newBlock fr s.g .plain nsize memcat) a⟩)
  | .free block memcat =>
    (.ok none, ⟨luaM_free_ s.g (block.map Block.addr) (sizeOf block) memcat,
      dropBlock s.live block⟩)
  | .freegco b =>
    (.ok none, ⟨luaM_freegco_ s.g b.addr b.size b.memcat (b.page.getD 0), s.live.erase b⟩)
  | .write b i v => (.ok none, ⟨{ s.g with mem := Function.update s.g.mem (b.addr + i) v }, s.live⟩)

/-- The state of `lua_newstate`: the only allocation holds the main thread and the global state. -/
def initial (lg n : ℕ) : State where
  g :=
    { prev := fun _ => none
      next := fun _ => none
      listprev := fun _ => none
      listnext := fun _ => none
      pageSize := fun _ => 0
      blockSize := fun _ => 0
      freeList := fun _ => none
      freeNext := fun _ => 0
      busyBlocks := fun _ => 0
      mem := fun _ => .byte 0
      freepages := fun _ _ => none
      allgcopages := none
      pagepool := fun _ => none
      pagepool_size := fun _ => 0
      totalbytes := n
      memcatbytes := fun c => if c = 0 then n else 0
      sys := {(lg, n)}
      fault := false }
  live := {⟨lg, .plain, none, n, 0⟩}

/-- The states that can be reached. -/
inductive Reachable : State → Prop where
  /-- The first state; it needs more than a small block. -/
  | init (lg n : ℕ) : kMaxSmallSizeUsed < n → Reachable (initial lg n)
  | step {s : State} (fr : Frealloc) (op : Op) : Reachable s → op.Valid s fr →
      Reachable (Mem.step fr s op).2

/-! ### Counters -/

section Counted

variable {g g' : Global} {live : Finset Block} {b : Block}

theorem Counted.congr (h : Counted g live) (hc : SameCounters g g') : Counted g' live :=
  ⟨hc.1.trans h.total, fun c => (congrFun hc.2 c).trans (h.memcat c)⟩

theorem Counted.insert (h : Counted g live) (hb : b ∉ live) :
    Counted (account g 0 b.size b.memcat) (insert b live) := by
  refine ⟨?_, fun c => ?_⟩
  · rw [Finset.sum_insert hb, ← h.total]
    simp only [account]
    omega
  · rw [Finset.filter_insert]
    simp only [account]
    by_cases hc : b.memcat = c
    · subst hc
      rw [if_pos rfl, Finset.sum_insert (fun hm => hb (Finset.mem_filter.mp hm).1), ← h.memcat,
        Function.update_self]
      omega
    · rw [if_neg hc, Function.update_of_ne (Ne.symm hc)]
      exact h.memcat c

theorem Counted.le (h : Counted g live) (hb : b ∈ live) :
    b.size ≤ g.totalbytes ∧ b.size ≤ g.memcatbytes b.memcat := by
  rw [h.total, h.memcat]
  exact ⟨Finset.single_le_sum (f := Block.size) (fun _ _ => Nat.zero_le _) hb,
    Finset.single_le_sum (f := Block.size) (fun _ _ => Nat.zero_le _)
      (Finset.mem_filter.mpr ⟨hb, rfl⟩)⟩

theorem Counted.erase (h : Counted g live) (hb : b ∈ live) :
    Counted (account g b.size 0 b.memcat) (live.erase b) := by
  refine ⟨?_, fun c => ?_⟩
  · have := Finset.add_sum_erase live Block.size hb
    have := h.total
    simp only [account]
    omega
  · rw [Finset.filter_erase]
    have hc' := h.memcat c
    simp only [account]
    by_cases hc : b.memcat = c
    · subst hc
      have := Finset.add_sum_erase (live.filter fun b' => b'.memcat = b.memcat) Block.size
        (Finset.mem_filter.mpr ⟨hb, rfl⟩)
      rw [Function.update_self]
      omega
    · rw [Function.update_of_ne (Ne.symm hc), Finset.erase_eq_of_notMem]
      · exact hc'
      · exact fun hm => hc (Finset.mem_filter.mp hm).2

/-- The counters of `luaM_realloc_`. -/
theorem account_account {o n c : ℕ} (h : o ≤ g.memcatbytes c) :
    account g o n c = account (account g o 0 c) 0 n c := by
  simp only [account, Function.update_idem, Function.update_self]
  congr 1
  congr 1
  omega

end Counted

/-! ### One call -/

/-- The invariant of runs. -/
structure Good (s : State) : Prop where
  ok : Ok s.g s.live
  counted : Counted s.g s.live
  gco_size : ∀ b ∈ s.live, b.kind = .gco → kGCOLinkOffset + 8 ≤ b.size

/-- What one call does. -/
structure Stepped (s : State) (r : Except MemError (Option ℕ) × State) : Prop where
  good : Good r.2
  large : ∀ b ∈ r.2.live, b.page = none → ∀ b' ∈ s.live, b'.page ≠ some b.start
  error : ∀ e, r.1 = .error e → r.2 = s

variable {s : State} {fr : Frealloc} {g g' : Global} {live : Finset Block} {b : Block}

theorem Ok.account (h : Ok g live) (o n c : ℕ) : Ok (Mem.account g o n c) live := by
  obtain ⟨G, hinv, hfull⟩ := h
  exact ⟨G, { hinv with
    pages := fun q hq =>
      (hinv.pages q hq).congr rfl rfl rfl rfl rfl (fun _ _ _ => rfl) rfl rfl rfl rfl
    lists := hinv.lists.congr rfl rfl rfl rfl }, hfull⟩

theorem Good.same (h : Good s) (e : MemError) : Stepped s (.error e, s) :=
  ⟨h, fun _ hb hp => h.ok.large_page hb hp, fun _ _ => rfl⟩

/-- A new block. -/
theorem Good.alloc (h : Good s) (ha : Alloc s.g s.live b g')
    (hsize : b.kind = .gco → kGCOLinkOffset + 8 ≤ b.size) (r : Option ℕ) :
    Stepped s (.ok r, ⟨Mem.account g' 0 b.size b.memcat, insert b s.live⟩) := by
  have hb : b ∉ s.live := fun hm => ha.fresh b hm rfl
  refine ⟨⟨ha.ok.account _ _ _, (h.counted.congr ha.counters).insert hb, fun b' hb' hk => ?_⟩,
    fun b' hb' hp b'' hb'' => ha.ok.large_page hb' hp b'' (Finset.mem_insert_of_mem hb''), ?_⟩
  · rcases Finset.mem_insert.mp hb' with rfl | hb'
    · exact hsize hk
    · exact h.gco_size b' hb' hk
  · intro e he
    exact absurd he (by simp)

/-- A block is freed. -/
theorem Good.dealloc (h : Good s) (hb : b ∈ s.live) (hok : Ok g' (s.live.erase b))
    (hc : SameCounters s.g g') (r : Option ℕ) :
    Stepped s (.ok r, ⟨Mem.account g' b.size 0 b.memcat, s.live.erase b⟩) := by
  refine ⟨⟨hok.account _ _ _, (h.counted.congr hc).erase hb, fun b' hb' =>
    h.gco_size b' (Finset.mem_of_mem_erase hb')⟩, fun b' hb' hp =>
    h.ok.large_page (Finset.mem_of_mem_erase hb') hp, ?_⟩
  intro e he
  exact absurd he (by simp)

/-- Nothing is allocated or freed. -/
theorem Good.keep (h : Good s) (hok : Ok g' s.live) (hc : SameCounters s.g g') (c : ℕ)
    (r : Option ℕ) : Stepped s (.ok r, ⟨Mem.account g' 0 0 c, s.live⟩) := by
  have hcounted := h.counted.congr hc
  refine ⟨⟨hok.account _ _ _, ⟨hcounted.total, fun c' => ?_⟩, h.gco_size⟩,
    fun b' hb' hp => h.ok.large_page hb' hp, ?_⟩
  · rw [← hcounted.memcat c']
    simp [Mem.account]
  · intro e he
    exact absurd he (by simp)

/-- A block gets a new size. -/
theorem Good.realloc (h : Good s) {o : Option Block} (ho : ∀ b', o = some b' → b' ∈ s.live ∧
      b'.memcat = b.memcat) (hr : Realloc s.g s.live o b g')
    (hk : b.kind = .plain) (r : Option ℕ) : Stepped s (.ok r,
      ⟨Mem.account g' (sizeOf o) b.size b.memcat, insert b (dropBlock s.live o)⟩) := by
  have hb : b ∉ dropBlock s.live o := fun hm => hr.fresh b hm rfl
  have hsub : ∀ b' ∈ dropBlock s.live o, b' ∈ s.live := by
    cases o with
    | none => exact fun _ h => h
    | some o => exact fun _ h => Finset.mem_of_mem_erase h
  refine ⟨⟨hr.ok.account _ _ _, ?_, fun b' hb' hk' => ?_⟩, fun b' hb' hp => ?_, ?_⟩
  · have hcounted := h.counted.congr hr.counters
    cases o with
    | none => exact hcounted.insert hb
    | some o =>
      obtain ⟨ho, hcat⟩ := ho o rfl
      have hle := (hcounted.le ho).2
      have he := hcounted.erase ho
      rw [hcat] at hle he
      show Counted (Mem.account g' o.size b.size b.memcat) _
      rw [account_account hle]
      exact he.insert hb
  · rcases Finset.mem_insert.mp hb' with rfl | hb'
    · exact absurd (hk.symm.trans hk') (by simp)
    · exact h.gco_size b' (hsub b' hb') hk'
  · rcases Finset.mem_insert.mp hb' with rfl | hb'
    · exact hr.large hp
    · exact h.ok.large_page (hsub b' hb') hp
  · intro e he
    exact absurd he (by simp)

/-- **One call keeps the invariant.** -/
theorem Good.step (h : Good s) (op : Op) (hv : op.Valid s fr) : Stepped s (Mem.step fr s op) := by
  cases op with
  | new nsize memcat =>
    rw [Mem.step, luaM_new_]
    rcases h.ok.rawnew (n := nsize) hv.2 memcat with h1 | ⟨a, g', hn, h1, -, h3⟩
    · rw [h1]
      rcases Nat.eq_zero_or_pos nsize with rfl | hn
      · simpa [keepBlock] using h.keep h.ok ⟨rfl, rfl⟩ memcat none
      · simpa [hn] using h.same .errmem
    · rw [h1]
      simp only [reduceCtorEq, false_and, if_false]
      exact h.alloc h3 (by simp [newBlock]) (some a)
  | newgco nsize memcat =>
    obtain ⟨hsize, -, hfresh⟩ := hv
    rw [Mem.step]
    rcases h.ok.newgco hfresh hsize memcat with h1 | ⟨a, g', h1, -, h3⟩
    · rw [h1]
      exact h.same .errmem
    · rw [h1]
      exact h.alloc h3 (fun _ => hsize) (some a)
  | realloc block nsize memcat =>
    obtain ⟨-, hfresh, hblock⟩ := hv
    rw [Mem.step]
    rcases h.ok.realloc (n := nsize) hfresh (fun b hb => ⟨(hblock b hb).1, (hblock b hb).2.1,
      (hblock b hb).2.2.2⟩) memcat with h1 | ⟨rfl, g', h1, h2, h3⟩ | ⟨a, g', h1, -, h3⟩
    · rw [h1]
      exact h.same .errmem
    · rw [h1]
      cases block with
      | none => exact h.keep h2 h3 memcat none
      | some b =>
        obtain ⟨hb, -, rfl, -⟩ := hblock b rfl
        exact h.dealloc hb h2 h3 none
    · rw [h1]
      exact h.realloc (fun b hb => ⟨(hblock b hb).1, (hblock b hb).2.2.1⟩) h3 rfl (some a)
  | free block memcat =>
    rw [Mem.step, luaM_free_]
    cases block with
    | none => exact h.keep h.ok ⟨rfl, rfl⟩ memcat none
    | some b =>
      obtain ⟨hb, hk, rfl⟩ := hv b rfl
      have hd := h.ok.rawfree hb hk
      exact h.dealloc hb hd.ok hd.counters none
  | freegco b =>
    obtain ⟨hb, hk⟩ := hv
    have hsize := h.gco_size b hb hk
    obtain ⟨g', h1, h2⟩ := h.ok.freegco hb hk (by omega) b.memcat
    rw [Mem.step, h1]
    exact h.dealloc hb h2.ok h2.counters none
  | write b i v =>
    obtain ⟨hb, hi⟩ := hv
    refine ⟨⟨h.ok.write hb _ fun x hx => Function.update_of_ne (by omega) _ _,
      ⟨h.counted.total, h.counted.memcat⟩, h.gco_size⟩, fun b' hb' hp => h.ok.large_page hb' hp, ?_⟩
    intro e he
    exact absurd he (by simp [Mem.step])

/-! ### Runs -/

/-- The first state has one large block and no pages. -/
theorem Good.init {lg n : ℕ} (hn : kMaxSmallSizeUsed < n) : Good (initial lg n) := by
  have hcls : sizeclass n = none := by
    rw [sizeclass, if_neg (by omega)]
  refine ⟨⟨⟨∅, fun _ => .plain, fun _ => none, fun _ => 0, fun _ => [], fun _ _ => [], [],
    fun _ => []⟩, ?_, by simp⟩, ⟨by simp [initial], fun c => ?_⟩, by simp [initial]⟩
  · refine ⟨by simp, ⟨fun _ _ => Doubly.nil, by simp, by simp, fun _ => rfl, by simp⟩, Doubly.nil,
      by simp, by simp [initial], by simp, by simp [initial], by simp [initial], ?_, ?_,
      by simp [initial], by simp [initial], by simp, rfl⟩
    · simp only [initial, Finset.mem_singleton, forall_eq]
      omega
    · simp [initial, hcls]
  · by_cases hc : c = 0
    · simp [initial, hc, Finset.filter_singleton]
    · simp [initial, hc, Finset.filter_singleton, Ne.symm hc]

theorem Reachable.good (h : Reachable s) : Good s := by
  induction h with
  | init lg n hn => exact Good.init hn
  | step fr op _ hv ih => exact (ih.step op hv).good

/-- A page has a live block of a kind and class. -/
def Paged (live : Finset Block) (k : Kind) (c p : ℕ) : Prop :=
  ∃ b ∈ live, b.page = some p ∧ b.kind = k ∧ sizeclass b.size = some c

def InPool (g : Global) (k : Pool) (p : ℕ) : Prop :=
  ∃ l, Chain g.next (g.pagepool k) l ∧ p ∈ l

/-- What is promised about a state. -/
structure Correct (g : Global) (live : Finset Block) : Prop where
  apart : ∀ b ∈ live, ∀ b' ∈ live, b ≠ b' → Apart b.addr b.size b'.addr b'.size
  /-- A live block is inside its page, or is an allocation of `frealloc`. -/
  inside : ∀ b ∈ live, (∀ p, b.page = some p → (p, g.pageSize p) ∈ g.sys ∧
    p + dataOffset ≤ b.addr ∧ b.addr + b.size ≤ p + g.pageSize p) ∧
    (b.page = none → (b.addr, b.size) ∈ g.sys)
  /-- The blocks of a page have one kind and class. -/
  same : ∀ b ∈ live, ∀ b' ∈ live, b.page.isSome → b.page = b'.page →
    b.kind = b'.kind ∧ sizeclass b.size = sizeclass b'.size
  /-- The list of a kind and class has exactly the pages with free blocks, once. -/
  freepages : ∀ k c, ∃ l, Doubly g.next g.prev (g.freepages k c) l ∧ l.Nodup ∧
    ∀ p, p ∈ l ↔ Paged live k c p ∧ (blocksOf live p).card < blockCount g p
  /-- The list of all pages of collectable objects. -/
  allgcopages : ∃ l, Doubly g.listnext g.listprev g.allgcopages l ∧ l.Nodup ∧
    ∀ p, p ∈ l ↔ ∃ b ∈ live, b.page = some p ∧ b.kind = .gco
  /-- A pool has pages of its size without live blocks, once. -/
  pools : ∀ k, ∃ l, Chain g.next (g.pagepool k) l ∧ l.Nodup ∧ l.length = g.pagepool_size k ∧
    g.pagepool_size k ≤ k.max ∧
    ∀ p ∈ l, g.pageSize p = k.pageSize ∧ ∀ b ∈ live, b.page ≠ some p
  /-- What `frealloc` has given out is in use: nothing is lost. -/
  sys : ∀ x, x ∈ g.sys ↔ (∃ b ∈ live, ∃ p, b.page = some p ∧ x = (p, g.pageSize p)) ∨
    (∃ k p, InPool g k p ∧ x = (p, k.pageSize)) ∨
    ∃ b ∈ live, b.page = none ∧ x = (b.addr, b.size)
  sys_apart : ∀ x ∈ g.sys, ∀ y ∈ g.sys, x ≠ y → Apart x.1 x.2 y.1 y.2
  /-- `frealloc` was only asked to free what it had given out, so nothing twice. -/
  no_fault : g.fault = false
  counted : Counted g live

theorem Ok.inPool_iff {G : Ghost} (h : Inv g G live none) (k : Pool) (p : ℕ) :
    InPool g k p ↔ p ∈ G.pool k := by
  constructor
  · rintro ⟨l, hl, hp⟩
    rwa [(h.lists.pool k).unique hl]
  · exact fun hp => ⟨_, h.lists.pool k, hp⟩

/-- A page has a free block exactly if not all of its blocks are live. -/
theorem PageOk.avail_iff {G : Ghost} {busy : Finset Block} {p : ℕ} (h : PageOk g G busy p) :
    G.Avail p ↔ busy.card < blockCount g p := by
  have hcount := h.count
  rw [Ghost.Avail, ← List.length_pos_iff]
  omega

/-- The invariant gives what is promised. -/
theorem Good.correct (h : Good s) : Correct s.g s.live := by
  obtain ⟨G, hinv, hfull⟩ := h.ok
  have hpage : ∀ p, p ∈ G.pages ↔ ∃ b ∈ s.live, b.page = some p := by
    intro p
    constructor
    · intro hp
      obtain ⟨b, hb⟩ := hfull p hp
      exact ⟨b, mem_blocksOf.mp hb⟩
    · rintro ⟨b, hb, hp⟩
      exact hinv.page_mem b hb p hp
  have hcls : ∀ b ∈ s.live, ∀ p, b.page = some p → b.kind = G.kind p ∧
      sizeclass b.size = G.cls p := by
    intro b hb p hp
    obtain ⟨hok, hmem⟩ := hinv.busy hb hp
    obtain ⟨h1, h2, -⟩ := hok.busy_cls b hmem
    exact ⟨h1, h2⟩
  refine ⟨fun b hb b' hb' hne => ?_, fun b hb => ⟨fun p hp => ?_, fun hp => ?_⟩,
    fun b hb b' hb' hsome e => ?_, fun k c => ⟨G.lists k c, hinv.lists.lists k c,
      (hinv.lists.lists k c).chain.nodup, fun p => ?_⟩,
    ⟨G.all, hinv.all, hinv.all.chain.nodup, fun p => ?_⟩,
    fun k => ⟨G.pool k, hinv.lists.pool k, (hinv.lists.pool k).nodup, (hinv.pool_size k).1.symm,
      (hinv.pool_size k).2, fun p hp => ⟨hinv.pool_pageSize k p hp, fun b hb e => ?_⟩⟩,
    fun x => ?_, hinv.sys_apart, hinv.no_fault, h.counted⟩
  · have h1 := hinv.apart hb hb' hne
    have h2 := hinv.addr_le hb
    have h3 := hinv.addr_le hb'
    rw [Apart] at h1 ⊢
    omega
  · have h1 := hinv.block_le hb hp
    have h2 := hinv.addr_le hb
    exact ⟨hinv.page_sys (hinv.page_mem b hb p hp), by omega, by omega⟩
  · simpa [Block.addr, hp] using hinv.large_sys hb hp
  · obtain ⟨p, hp⟩ := Option.isSome_iff_exists.mp hsome
    obtain ⟨h1, h2⟩ := hcls b hb p hp
    obtain ⟨h3, h4⟩ := hcls b' hb' p (e ▸ hp)
    exact ⟨h1.trans h3.symm, h2.trans h4.symm⟩
  · rw [hinv.lists.mem_lists]
    constructor
    · rintro ⟨h1, h2, h3, h4⟩
      obtain ⟨b, hb, hp⟩ := (hpage p).mp h1
      obtain ⟨h5, h6⟩ := hcls b hb p hp
      exact ⟨⟨b, hb, hp, h5.trans h2, h6.trans h3⟩, (hinv.pages p h1).avail_iff.mp h4⟩
    · rintro ⟨⟨b, hb, hp, rfl, hc⟩, hlt⟩
      obtain ⟨h5, h6⟩ := hcls b hb p hp
      have h1 := (hpage p).mpr ⟨b, hb, hp⟩
      exact ⟨h1, h5.symm, h6.symm.trans hc, (hinv.pages p h1).avail_iff.mpr hlt⟩
  · rw [hinv.mem_all]
    constructor
    · rintro ⟨h1, h2⟩
      obtain ⟨b, hb, hp⟩ := (hpage p).mp h1
      exact ⟨b, hb, hp, (hcls b hb p hp).1.trans h2⟩
    · rintro ⟨b, hb, hp, hk⟩
      exact ⟨(hpage p).mpr ⟨b, hb, hp⟩, (hcls b hb p hp).1.symm.trans hk⟩
  · exact hinv.lists.pool_pages k p hp (hinv.page_mem b hb p e)
  · rw [hinv.sys x]
    refine or_congr ⟨?_, ?_⟩ (or_congr ⟨?_, ?_⟩ ?_)
    · rintro ⟨p, hp, rfl⟩
      obtain ⟨b, hb, hbp⟩ := (hpage p).mp hp
      exact ⟨b, hb, p, hbp, rfl⟩
    · rintro ⟨b, hb, p, hp, rfl⟩
      exact ⟨p, (hpage p).mpr ⟨b, hb, hp⟩, rfl⟩
    · rintro ⟨k, p, hp, rfl⟩
      exact ⟨k, p, (Ok.inPool_iff hinv k p).mpr hp, rfl⟩
    · rintro ⟨k, p, hp, rfl⟩
      exact ⟨k, p, (Ok.inPool_iff hinv k p).mp hp, rfl⟩
    · simp only [reduceCtorEq, or_false]
      refine exists_congr fun b => and_congr_right fun _ => and_congr_right fun hp => ?_
      simp [Block.addr, hp]

/-- A page that was given up: it is in the pool of its size, or `frealloc` has it back. -/
def GivenUp (g g' : Global) (p : ℕ) : Prop :=
  (∃ k, g.pageSize p = k.pageSize ∧ InPool g' k p) ∨ (p, g.pageSize p) ∉ g'.sys

/-- **The page allocator is correct.**  In every state that can be reached, live blocks are
disjoint and inside of their pages or allocations, the lists have exactly the pages with free
blocks, all that `frealloc` has given out is in use, and the counters are right.  A call that fails
changes nothing, a new size keeps the bytes, and a page that loses its last block is given up. -/
theorem luaM_correct (h : Reachable s) : Correct s.g s.live ∧
    ∀ fr op, op.Valid s fr →
      (∀ e, (step fr s op).1 = .error e → (step fr s op).2 = s) ∧
      (∀ b n c a, op = .realloc (some b) n c → (step fr s op).1 = .ok (some a) →
        ∀ i < min b.size n, (step fr s op).2.g.mem (a + i) = s.g.mem (b.addr + i)) ∧
      ∀ p, (∃ b ∈ s.live, b.page = some p) →
        (∀ b ∈ (step fr s op).2.live, b.page ≠ some p) →
        GivenUp s.g (step fr s op).2.g p := by
  have hgood := h.good
  refine ⟨hgood.correct, fun fr op hv => ?_⟩
  have hstep := hgood.step op hv
  refine ⟨hstep.error, ?_, ?_⟩
  · rintro b n c a rfl hok i hi
    obtain ⟨-, hfresh, hblock⟩ := hv
    rw [step] at hok ⊢
    rcases hgood.ok.realloc (n := n) hfresh (fun b hb => ⟨(hblock b hb).1, (hblock b hb).2.1,
      (hblock b hb).2.2.2⟩) c with h1 | ⟨-, g', h1, -, -⟩ | ⟨a', g', h1, h2, h3⟩
    · rw [h1] at hok
      exact absurd hok (by simp)
    · rw [h1] at hok
      exact absurd hok (by simp)
    · rw [h1] at hok ⊢
      obtain rfl : a' = a := by simpa using hok
      have := h3.bytes b rfl i hi
      rw [h2] at this
      exact this
  · rintro p ⟨b, hb, hp⟩ hnone
    rw [GivenUp, or_iff_not_imp_right, not_not]
    intro hsys
    rcases (hstep.good.correct.sys _).mp hsys with
      ⟨b', hb', q, hq, e⟩ | ⟨k, q, hq, e⟩ | ⟨b', hb', hq, e⟩
    · exact absurd ((Prod.mk.inj e).1 ▸ hq) (hnone b' hb')
    · obtain ⟨rfl, hk⟩ := Prod.mk.inj e
      exact ⟨k, hk, hq⟩
    · have haddr : b'.addr = b'.start := by simp [Block.addr, hq]
      rw [haddr] at e
      exact absurd ((Prod.mk.inj e).1 ▸ hp) (hstep.large b' hb' hq b hb)

/-- `frealloc` answers with one address. -/
def sampleFrealloc : Frealloc where
  new _ := some 100000
  resize _ := none

theorem luaM_correct_sample :
    (step sampleFrealloc (initial 1000 5000) (.new 100 0)).1 = .ok (some 116152) ∧
      Correct (step sampleFrealloc (initial 1000 5000) (.new 100 0)).2.g
        (step sampleFrealloc (initial 1000 5000) (.new 100 0)).2.live := by
  have hvalid : (Op.new 100 0).Valid (initial 1000 5000) sampleFrealloc := by
    refine ⟨by decide, fun n p _ hp x hx => .inr ?_⟩
    obtain rfl : 100000 = p := Option.some.inj hp
    rw [Finset.mem_singleton.mp hx]
    decide
  exact ⟨rfl, (luaM_correct (.step _ _ (.init 1000 5000 (by decide)) hvalid)).1⟩

end Mem

end Jaci
