import Jaci.Mem.Blocks

/-!
# The calls of the allocator

What each call does to the live blocks, to the memory and to the counters.

* `Ok` : the invariant between calls, where every page has a live block;
* `Ok.rawnew`, `Ok.newgco` : a new block, or nothing has changed;
* `Ok.rawfree`, `Ok.freegco` : a block is freed.
-/

namespace Jaci

namespace Mem

open Linked

/-- The invariant between calls. -/
def Ok (g : Global) (live : Finset Block) : Prop :=
  ∃ G, Inv g G live none ∧ ∀ p ∈ G.pages, (blocksOf live p).Nonempty

/-- The memory of a block with its metadata. -/
def Block.Within (g : Global) (b : Block) (x : ℕ) : Prop :=
  b.start ≤ x ∧ x < b.start + b.extent g

/-- A new live block; only its memory has changed. -/
structure Alloc (g : Global) (live : Finset Block) (b : Block) (g' : Global) : Prop where
  fresh : ∀ b' ∈ live, b'.start ≠ b.start
  ok : Ok g' (insert b live)
  mem : ∀ x, ¬b.Within g' x → g'.mem x = g.mem x
  counters : SameCounters g g'

/-- A block is not live any more; only its memory has changed. -/
structure Dealloc (g : Global) (live : Finset Block) (b : Block) (g' : Global) : Prop where
  ok : Ok g' (live.erase b)
  mem : ∀ x, ¬b.Within g x → g'.mem x = g.mem x
  counters : SameCounters g g'

variable {fr : Frealloc} {g g' : Global} {G : Ghost} {live : Finset Block} {b : Block} {k : Kind}
  {c n p memcat : ℕ}

/-! ### New blocks -/

theorem unlinkfull_eq (g : Global) (k : Kind) (c p : ℕ) : ∃ next prev freepages,
    unlinkfull g k c p = { g with next := next, prev := prev, freepages := freepages } := by
  rw [unlinkfull]
  split_ifs
  · exact ⟨_, _, _, rfl⟩
  · exact ⟨_, _, _, rfl⟩

theorem takeblock_eq (g : Global) (k : Kind) (p : ℕ) : ∃ freeNext freeList busyBlocks,
    (takeblock g k p).2 = { g with
      freeNext := freeNext, freeList := freeList, busyBlocks := busyBlocks } := by
  rw [takeblock]
  split_ifs
  · exact ⟨_, _, _, rfl⟩
  · exact ⟨_, _, _, rfl⟩

/-- The page for a new block. -/
theorem Ok.pageforblock (h : Ok g live) (hfresh : Fresh g.sys fr.new) (hn : sizeclass n = some c)
    (hk : k = .gco → kGCOLinkOffset + 8 ≤ n) :
    Mem.pageforblock fr g k c = (none, g) ∨
      ∃ p G g₁, Mem.pageforblock fr g k c = (some p, g₁) ∧ Inv g₁ G live none ∧
        (∀ q ∈ G.pages, q ≠ p → (blocksOf live q).Nonempty) ∧ g₁.freepages k c = some p ∧
        g₁.mem = g.mem ∧ SameCounters g g₁ := by
  obtain ⟨G, hinv, hfull⟩ := h
  rw [Mem.pageforblock]
  cases hp : g.freepages k c with
  | some p => exact .inr ⟨p, G, g, rfl, hinv, fun q hq _ => hfull q hq, hp, rfl, rfl, rfl⟩
  | none =>
    rcases hinv.newclasspage hfresh hp (shape_of_sizeclass hn hk) with
      h1 | ⟨p, G', g', h1, h2, h3, h4, h5, h6⟩
    · exact .inl h1
    · refine .inr ⟨p, G', g', h1, h2, fun q hq hqp => ?_, h4, h5, h6⟩
      rw [h3] at hq
      exact hfull q ((Finset.mem_insert.mp hq).resolve_left hqp)

/-- A block is taken out of the page. -/
theorem Inv.alloc {g₁ : Global} (h : Inv g₁ G live none)
    (hfull : ∀ q ∈ G.pages, q ≠ p → (blocksOf live q).Nonempty) (hp : g₁.freepages k c = some p)
    (hmem₁ : g₁.mem = g.mem) (hcount : SameCounters g g₁) (hn : sizeclass n = some c) (memcat : ℕ)
    (mem : ℕ → Cell) (hmem : ∀ x, Outside g₁ p (Mem.takeblock g₁ k p).1 x → mem x = g₁.mem x)
    (hmeta : k = .plain → mem (Mem.takeblock g₁ k p).1 = .ptr (some p)) :
    Alloc g live ⟨(Mem.takeblock g₁ k p).1, k, some p, n, memcat⟩
      (unlinkfull { (Mem.takeblock g₁ k p).2 with mem := mem } k c p) := by
  obtain ⟨hfresh, G', hinv, hpages⟩ := h.takeblock hp hn memcat hmem hmeta
  obtain ⟨next, prev, freepages, hul⟩ :=
    unlinkfull_eq { (Mem.takeblock g₁ k p).2 with mem := mem } k c p
  obtain ⟨freeNext, freeList, busyBlocks, htake⟩ := takeblock_eq g₁ k p
  refine ⟨hfresh, ⟨G', hinv, fun q hq => ?_⟩, fun x hx => ?_, ?_⟩
  · by_cases hqp : q = p
    · exact ⟨_, mem_blocksOf.mpr ⟨Finset.mem_insert_self _ _, by rw [hqp]⟩⟩
    · obtain ⟨b, hb⟩ := hfull q (hpages ▸ hq) hqp
      obtain ⟨hb1, hb2⟩ := mem_blocksOf.mp hb
      exact ⟨b, mem_blocksOf.mpr ⟨Finset.mem_insert_of_mem hb1, hb2⟩⟩
  · rw [hul] at hx ⊢
    rw [Block.Within] at hx
    simp only [Block.extent, htake] at hx
    rw [← hmem₁]
    refine hmem x ?_
    rw [Outside]
    omega
  · rw [hul, htake]
    exact hcount

theorem Ok.newblock (h : Ok g live) (hfresh : Fresh g.sys fr.new) (hn : sizeclass n = some c)
    (memcat : ℕ) : Mem.newblock fr g c = (none, g) ∨
      ∃ p a g', Mem.newblock fr g c = (some (a + kBlockHeader), g') ∧
        (Mem.pageforblock fr g .plain c).1 = some p ∧
        Alloc g live ⟨a, .plain, some p, n, memcat⟩ g' := by
  rw [Mem.newblock]
  rcases h.pageforblock (k := .plain) hfresh hn (by simp) with
    h1 | ⟨p, G, g₁, h1, hinv, hfull, hp, hmem, hcount⟩
  · rw [h1]
    exact .inl rfl
  · rw [h1]
    obtain ⟨freeNext, freeList, busyBlocks, htake⟩ := takeblock_eq g₁ .plain p
    obtain ⟨⟨hpages, -, -, -⟩, -⟩ := hinv.lists.head hp
    refine .inr ⟨p, (Mem.takeblock g₁ .plain p).1, _, rfl, rfl,
      hinv.alloc hfull hp hmem hcount hn memcat
        (writePtr (Mem.takeblock g₁ .plain p).2.mem (Mem.takeblock g₁ .plain p).1 (some p))
        (fun x hx => ?_) ?_⟩
    · have hlink := (hinv.pages p hpages).shape.link_le
      rw [Outside] at hx
      rw [writePtr_of_outside (by omega), htake]
    · intro _
      simp [writePtr]

theorem Ok.newgcoblock (h : Ok g live) (hfresh : Fresh g.sys fr.new) (hn : sizeclass n = some c)
    (hsize : kGCOLinkOffset + 8 ≤ n) (memcat : ℕ) : Mem.newgcoblock fr g c = (none, g) ∨
      ∃ p a g', Mem.newgcoblock fr g c = (some a, g') ∧
        (Mem.pageforblock fr g .gco c).1 = some p ∧
        Alloc g live ⟨a, .gco, some p, n, memcat⟩ g' := by
  rw [Mem.newgcoblock]
  rcases h.pageforblock (k := .gco) hfresh hn (fun _ => hsize) with
    h1 | ⟨p, G, g₁, h1, hinv, hfull, hp, hmem, hcount⟩
  · rw [h1]
    exact .inl rfl
  · rw [h1]
    obtain ⟨freeNext, freeList, busyBlocks, htake⟩ := takeblock_eq g₁ .gco p
    refine .inr ⟨p, _, _, rfl, rfl,
      hinv.alloc hfull hp hmem hcount hn memcat (Mem.takeblock g₁ .gco p).2.mem
        (fun x hx => ?_) (by simp)⟩
    rw [htake]

/-- The page that a new block is taken from. -/
def blockPage (fr : Frealloc) (g : Global) (k : Kind) (n : ℕ) : Option ℕ :=
  match sizeclass n, k with
  | some c, k => (pageforblock fr g k c).1
  | none, .plain => none
  | none, .gco => (newpage fr g true (dataOffset + n) n 1).1

/-- The live block for a new block at an address. -/
def newBlock (fr : Frealloc) (g : Global) (k : Kind) (n memcat a : ℕ) : Block :=
  ⟨if (sizeclass n).isSome then a - k.header else a, k, blockPage fr g k n, n, memcat⟩

theorem Block.addr_page {start size : ℕ} : (⟨start, k, some p, size, memcat⟩ : Block).addr =
    start + k.header := rfl

/-- A large block. -/
theorem Ok.adopt (h : Ok g live) (hn : 0 < n) (hcls : sizeclass n = none)
    (hfresh : ∀ x ∈ g.sys, Apart p n x.1 x.2) (memcat : ℕ) :
    Alloc g live ⟨p, .plain, none, n, memcat⟩ { g with sys := insert (p, n) g.sys } := by
  obtain ⟨G, hinv, hfull⟩ := h
  have hstart : ∀ b ∈ live, b.start ≠ p := by
    intro b hb e
    obtain ⟨x, hx, hx1, hx2, -⟩ := hinv.block_sys hb
    have h1 := hfresh x hx
    have h2 := hinv.extent_pos hb
    rw [Apart] at h1
    omega
  refine ⟨hstart, ⟨G, (hinv.sys_insert hn hfresh).adopt hcls memcat hstart, fun q hq => ?_⟩,
    fun _ _ => rfl, rfl, rfl⟩
  obtain ⟨b, hb⟩ := hfull q hq
  obtain ⟨hb1, hb2⟩ := mem_blocksOf.mp hb
  exact ⟨b, mem_blocksOf.mpr ⟨Finset.mem_insert_of_mem hb1, hb2⟩⟩

/-- A new block of any size. -/
theorem Ok.rawnew (h : Ok g live) (hfresh : Fresh g.sys fr.new) (memcat : ℕ) :
    Mem.rawnew fr g n = (none, g) ∨ ∃ a g', 0 < n ∧ Mem.rawnew fr g n = (some a, g') ∧
      (newBlock fr g .plain n memcat a).addr = a ∧
      Alloc g live (newBlock fr g .plain n memcat a) g' := by
  rw [Mem.rawnew]
  cases hn : sizeclass n with
  | some c =>
    rcases h.newblock hfresh hn memcat with h1 | ⟨p, a, g', h1, h2, h3⟩
    · exact .inl h1
    · have hb : newBlock fr g .plain n memcat (a + kBlockHeader) = ⟨a, .plain, some p, n, memcat⟩ := by
        simp [newBlock, blockPage, hn, h2, Kind.header]
      refine .inr ⟨_, g', (sizeclass_spec hn).1, h1, ?_, ?_⟩
      · rw [hb, Block.addr_page]
        rfl
      · rw [hb]
        exact h3
  | none =>
    simp only [sysnew]
    split_ifs with hz
    · exact .inl rfl
    · cases hp : fr.new n with
      | none => exact .inl rfl
      | some a =>
        have hb : newBlock fr g .plain n memcat a = ⟨a, .plain, none, n, memcat⟩ := by
          simp [newBlock, blockPage, hn]
        have hpos : 0 < n := by omega
        refine .inr ⟨a, _, hpos, rfl, ?_, ?_⟩
        · rw [hb]
          rfl
        · rw [hb]
          exact h.adopt hpos hn (hfresh n a hpos hp) memcat

/-- The page of a new large object. -/
theorem Ok.newgcopage (h : Ok g live) (hfresh : Fresh g.sys fr.new) (hn : kMaxSmallSizeUsed < n)
    (hcls : sizeclass n = none) (memcat : ℕ) :
    newpage fr g true (dataOffset + n) n 1 = (none, g) ∨
      ∃ p g₁, newpage fr g true (dataOffset + n) n 1 = (some p, g₁) ∧
        Alloc g live ⟨p + dataOffset, .gco, some p, n, memcat⟩ { g₁ with
          freeNext := Function.update g₁.freeNext p (g₁.freeNext p - g₁.blockSize p)
          busyBlocks := Function.update g₁.busyBlocks p (g₁.busyBlocks p + 1) } := by
  obtain ⟨G, hinv, hfull⟩ := h
  rcases hinv.newlargepage hfresh hn with
    h1 | ⟨p, G', g₁, h1, hinv', hpages, hkind, hnone, hbump, hfree, hbs, hprev, hmem, hcount⟩
  · exact .inl h1
  · have hp : p ∈ G'.pages := hpages ▸ Finset.mem_insert_self _ _
    have hzero : g₁.freeNext p = 0 := by
      rw [(hinv'.pages p hp).freeNext, hbump]
      simp
    -- the only block of the page is taken as any other one
    have htake : takeblock g₁ .gco p = (p + dataOffset, { g₁ with
        freeNext := Function.update g₁.freeNext p (g₁.freeNext p - g₁.blockSize p)
        busyBlocks := Function.update g₁.busyBlocks p (g₁.busyBlocks p + 1) }) := by
      simp [takeblock, hzero]
    obtain ⟨bump, free, hstart, -, hlist⟩ := hinv'.take hp (.inl (by omega)) hkind
      (n := n) ⟨hcls.trans hnone.symm, by rw [hbs]; exact le_rfl⟩ memcat (fun _ _ => rfl) (by simp)
    rw [htake] at hstart hlist
    refine .inr ⟨p, g₁, h1, hstart, ⟨_, hlist _ ⟨_, _, _, rfl⟩ G'.lists
      ((hinv'.lists.keep_large hnone hprev).congr rfl rfl rfl rfl), fun q hq => ?_⟩,
      fun _ _ => by rw [hmem], hcount⟩
    by_cases hqp : q = p
    · exact ⟨_, mem_blocksOf.mpr ⟨Finset.mem_insert_self _ _, by rw [hqp]⟩⟩
    · have hq' : q ∈ G'.pages := hq
      rw [hpages] at hq'
      obtain ⟨b, hb⟩ := hfull q ((Finset.mem_insert.mp hq').resolve_left hqp)
      obtain ⟨hb1, hb2⟩ := mem_blocksOf.mp hb
      exact ⟨b, mem_blocksOf.mpr ⟨Finset.mem_insert_of_mem hb1, hb2⟩⟩

/-- `luaM_newgco_`. -/
theorem Ok.newgco (h : Ok g live) (hfresh : Fresh g.sys fr.new) (hsize : kGCOLinkOffset + 8 ≤ n)
    (memcat : ℕ) : luaM_newgco_ fr g n memcat = (.error .errmem, g) ∨
      ∃ a g', luaM_newgco_ fr g n memcat = (.ok (some a), account g' 0 n memcat) ∧
        (newBlock fr g .gco n memcat a).addr = a ∧
        Alloc g live (newBlock fr g .gco n memcat a) g' := by
  rw [luaM_newgco_]
  cases hn : sizeclass n with
  | some c =>
    rcases h.newgcoblock hfresh hn hsize memcat with h1 | ⟨p, a, g', h1, h2, h3⟩
    · left
      simp only [h1]
      rw [if_pos ⟨trivial, by omega⟩]
    · have hb : newBlock fr g .gco n memcat a = ⟨a, .gco, some p, n, memcat⟩ := by
        simp [newBlock, blockPage, hn, h2, Kind.header]
      refine .inr ⟨a, g', by simp [h1], ?_, ?_⟩
      · rw [hb, Block.addr_page]
        rfl
      · rw [hb]
        exact h3
  | none =>
    have hlarge : kMaxSmallSizeUsed < n := (sizeclass_eq_none hn).resolve_left (by omega)
    rcases h.newgcopage hfresh hlarge hn memcat with h1 | ⟨p, g₁, h1, h2⟩
    · left
      simp only [h1]
      rw [if_pos ⟨trivial, by omega⟩]
    · have hb : newBlock fr g .gco n memcat (p + dataOffset) =
          ⟨p + dataOffset, .gco, some p, n, memcat⟩ := by
        simp [newBlock, blockPage, hn, h1]
      refine .inr ⟨p + dataOffset, _, ?_, ?_, hb ▸ h2⟩
      · simp only [h1]
        rw [if_neg (by simp)]
      · rw [hb]
        rfl

/-! ### Freed blocks -/

theorem sysfree_frame (g : Global) (p : Option ℕ) (n : ℕ) :
    (sysfree g p n).mem = g.mem ∧ SameCounters g (sysfree g p n) := by
  cases p with
  | none => exact ⟨rfl, rfl, rfl⟩
  | some p =>
    rw [sysfree]
    split_ifs
    · exact ⟨rfl, rfl, rfl⟩
    · exact ⟨rfl, rfl, rfl⟩

theorem freepage_frame (g : Global) (pageset : Bool) (p : ℕ) :
    (freepage g pageset p).mem = g.mem ∧ SameCounters g (freepage g pageset p) := by
  have hset : (if pageset then removepage g p else g).mem = g.mem ∧
      SameCounters g (if pageset then removepage g p else g) := by
    split_ifs
    · exact ⟨rfl, rfl, rfl⟩
    · exact ⟨rfl, rfl, rfl⟩
  rw [freepage]
  generalize (if pageset then removepage g p else g) = g' at hset
  have hfree := sysfree_frame g' (some p) (g'.pageSize p)
  rw [retirepage]
  split
  · split_ifs
    · exact hset
    · exact ⟨hfree.1.trans hset.1, hfree.2.1.trans hset.2.1, hfree.2.2.trans hset.2.2⟩
  · exact ⟨hfree.1.trans hset.1, hfree.2.1.trans hset.2.1, hfree.2.2.trans hset.2.2⟩

/-- `giveblock` writes only the link. -/
theorem giveblock_frame (g : Global) (k : Kind) (c a p : ℕ) :
    (giveblock g k c a p).mem = writePtr g.mem (a + k.linkOffset) (g.freeList p) ∧
      SameCounters g (giveblock g k c a p) := by
  obtain ⟨next, prev, freepages, hlink⟩ := linkpage_eq g k c p
  rw [giveblock, hlink]
  split_ifs
  · exact freepage_frame (unlinkpage (putblock { g with
      next := next, prev := prev, freepages := freepages } k a p) k p c) _ p
  · exact ⟨rfl, rfl, rfl⟩

/-- The pages that are left have live blocks. -/
theorem Ok.giveblock (h : Ok g live) (hb : b ∈ live) (hp : b.page = some p)
    (hc : sizeclass b.size = some c) :
    Dealloc g live b (Mem.giveblock g b.kind c b.start p) := by
  obtain ⟨G, hinv, hfull⟩ := h
  obtain ⟨G', hinv', hpages⟩ := hinv.giveblock hb hp hc
  obtain ⟨hmem, hcount⟩ := giveblock_frame g b.kind c b.start p
  refine ⟨⟨G', hinv', fun q hq => ?_⟩, fun x hx => ?_, hcount⟩
  · obtain ⟨h1, h2⟩ := hpages q hq
    by_cases hqp : q = p
    · exact h2 hqp
    · obtain ⟨b', hb'⟩ := hfull q h1
      obtain ⟨h3, h4⟩ := mem_blocksOf.mp hb'
      refine ⟨b', mem_blocksOf.mpr ⟨Finset.mem_erase.mpr ⟨?_, h3⟩, h4⟩⟩
      rintro rfl
      exact hqp (Option.some.inj (h4.symm.trans hp))
  · obtain ⟨hok, hmemb⟩ := hinv.busy hb hp
    have hlink := hok.shape.link_le
    rw [← (hok.busy_cls b hmemb).1] at hlink
    rw [Block.Within] at hx
    simp only [Block.extent, hp] at hx
    rw [hmem]
    exact writePtr_of_outside (by omega) _

theorem Ok.page_of_class (h : Ok g live) (hb : b ∈ live) (hc : sizeclass b.size = some c) :
    ∃ p, b.page = some p := by
  obtain ⟨G, hinv, -⟩ := h
  cases hp : b.page with
  | none => exact absurd ((hinv.large b hb hp).2.1.symm.trans hc) (by simp)
  | some p => exact ⟨p, rfl⟩

theorem Ok.page_of_large (h : Ok g live) (hb : b ∈ live) (hk : b.kind = .plain)
    (hc : sizeclass b.size = none) : b.page = none := by
  obtain ⟨G, hinv, -⟩ := h
  cases hp : b.page with
  | none => rfl
  | some p =>
    obtain ⟨hok, hmemb⟩ := hinv.busy hb hp
    obtain ⟨h1, h2, -⟩ := hok.busy_cls b hmemb
    -- only collectable objects have pages without a class
    have hshape := hok.shape
    rw [← h2, hc, ← h1, hk] at hshape
    exact absurd hshape.1 (by simp)

/-- A block of any size is freed. -/
theorem Ok.rawfree (h : Ok g live) (hb : b ∈ live) (hk : b.kind = .plain) :
    Dealloc g live b (Mem.rawfree g (some b.addr) b.size) := by
  rw [Mem.rawfree]
  cases hc : sizeclass b.size with
  | some c =>
    obtain ⟨p, hp⟩ := h.page_of_class hb hc
    have hstart : b.addr - kBlockHeader = b.start := by
      simp [Block.addr, hp, hk, Kind.header]
    have hmeta : readPtr g.mem b.start = some p := by
      obtain ⟨G, hinv, -⟩ := h
      obtain ⟨hok, hmemb⟩ := hinv.busy hb hp
      rw [readPtr, hok.busy_meta b hmemb hk]
    have := h.giveblock hb hp hc
    rw [hk] at this
    simp only [freeblock, Option.getD_some, hstart, hmeta]
    exact this
  | none =>
    have hp := h.page_of_large hb hk hc
    obtain ⟨G, hinv, hfull⟩ := h
    have haddr : b.addr = b.start := by simp [Block.addr, hp]
    obtain ⟨hmem, hcount⟩ := sysfree_frame g (some b.start) b.size
    rw [haddr]
    refine ⟨⟨G, (hinv.drop hb hp).sysfree, fun q hq => ?_⟩, fun x _ => by rw [hmem], hcount⟩
    obtain ⟨b', hb'⟩ := hfull q hq
    obtain ⟨h1, h2⟩ := mem_blocksOf.mp hb'
    refine ⟨b', mem_blocksOf.mpr ⟨Finset.mem_erase.mpr ⟨?_, h1⟩, h2⟩⟩
    rintro rfl
    exact absurd (h2.symm.trans hp) (by simp)

/-- The caller writes to a live block. -/
theorem Ok.write (h : Ok g live) (hb : b ∈ live) (mem : ℕ → Cell)
    (hmem : ∀ x, ¬(b.addr ≤ x ∧ x < b.addr + b.size) → mem x = g.mem x) :
    Ok { g with mem := mem } live := by
  obtain ⟨G, hinv, hfull⟩ := h
  exact ⟨G, hinv.write hb hmem, hfull⟩

/-- `luaM_freegco_`. -/
theorem Ok.freegco (h : Ok g live) (hb : b ∈ live) (hk : b.kind = .gco) (hsize : 0 < b.size)
    (memcat : ℕ) :
    ∃ g', luaM_freegco_ g b.addr b.size memcat (b.page.getD 0) = account g' b.size 0 memcat ∧
      Dealloc g live b g' := by
  have haddr : b.addr = b.start := by simp [Block.addr, hk, Kind.header]
  rw [luaM_freegco_, haddr]
  cases hc : sizeclass b.size with
  | some c =>
    obtain ⟨p, hp⟩ := h.page_of_class hb hc
    -- the type of the object is in its memory
    have hout : ∀ x, ¬(b.addr ≤ x ∧ x < b.addr + b.size) →
        Function.update g.mem b.start (.byte 0) x = g.mem x := by
      intro x hx
      exact Function.update_of_ne (by omega) _ _
    have hd := (h.write hb _ hout).giveblock hb hp hc
    rw [hk] at hd
    refine ⟨_, by rw [hp]; rfl, hd.ok, fun x hx => (hd.mem x hx).trans ?_, hd.counters⟩
    obtain ⟨G, hinv, -⟩ := h
    have := hinv.addr_le hb
    refine hout x ?_
    rw [Block.Within] at hx
    omega
  | none =>
    obtain ⟨G, hinv, hfull⟩ := h
    cases hp : b.page with
    | none => exact absurd ((hinv.large b hb hp).1.symm.trans hk) (by simp)
    | some p =>
      obtain ⟨hok, hmemb⟩ := hinv.busy hb hp
      obtain ⟨h1, h2, -⟩ := hok.busy_cls b hmemb
      obtain ⟨G', hinv', hpages⟩ := hinv.freelargepage hb hp (h1.symm.trans hk) (h2.symm.trans hc)
      obtain ⟨hmem, hcount⟩ := freepage_frame g true p
      refine ⟨_, rfl, ⟨G', hinv', fun q hq => ?_⟩, fun x _ => by rw [← hmem]; rfl, hcount⟩
      rw [hpages, Finset.mem_erase] at hq
      obtain ⟨b', hb'⟩ := hfull q hq.2
      obtain ⟨h3, h4⟩ := mem_blocksOf.mp hb'
      refine ⟨b', mem_blocksOf.mpr ⟨Finset.mem_erase.mpr ⟨?_, h3⟩, h4⟩⟩
      rintro rfl
      exact hq.1 (Option.some.inj (h4.symm.trans hp))

/-! ### Blocks of a new size -/

/-- The live blocks without one; the null pointer is no block. -/
def dropBlock (live : Finset Block) : Option Block → Finset Block
  | some b => live.erase b
  | none => live

/-- The result of `luaM_realloc_` without its counters: a new live block in place of the old one,
with the same bytes up to the smaller of the two sizes. -/
structure Realloc (g : Global) (live : Finset Block) (block : Option Block) (b : Block)
    (g' : Global) : Prop where
  fresh : ∀ b' ∈ dropBlock live block, b'.start ≠ b.start
  ok : Ok g' (insert b (dropBlock live block))
  bytes : ∀ o, block = some o → ∀ i < min o.size b.size, g'.mem (b.addr + i) = g.mem (o.addr + i)
  large : b.page = none → ∀ b' ∈ live, b'.page ≠ some b.start
  counters : SameCounters g g'

theorem memcpy_of_outside {mem : ℕ → Cell} {dst src x : ℕ} (h : ¬(dst ≤ x ∧ x < dst + n)) :
    memcpy mem dst src n x = mem x := if_neg h

theorem memcpy_apply {mem : ℕ → Cell} {dst src i : ℕ} (h : i < n) :
    memcpy mem dst src n (dst + i) = mem (src + i) := by
  rw [memcpy, if_pos (by omega), Nat.add_sub_cancel_left]

theorem Ok.large_page (h : Ok g live) (hb : b ∈ live) (hp : b.page = none) :
    ∀ b' ∈ live, b'.page ≠ some b.start := by
  obtain ⟨G, hinv, -⟩ := h
  exact fun b' hb' e => (hinv.large b hb hp).2.2.1 (hinv.page_mem b' hb' _ e)

theorem Ok.within (h : Ok g live) (hb : b ∈ live) {i : ℕ} (hi : i < b.size) :
    b.Within g (b.addr + i) := by
  obtain ⟨G, hinv, -⟩ := h
  have := hinv.addr_le hb
  rw [Block.Within]
  omega

theorem Ok.not_within (h : Ok g live) (hb : b ∈ live) {b' : Block} (hb' : b' ∈ live) (hne : b ≠ b')
    {x : ℕ} (hx : b.Within g x) : ¬b'.Within g x := by
  obtain ⟨G, hinv, -⟩ := h
  have := hinv.apart hb hb' hne
  rw [Apart] at this
  rw [Block.Within] at hx ⊢
  omega

/-- A new block is taken, the bytes are copied, and the old block is freed. -/
theorem Alloc.realloc (h : Alloc g live b g') {o : Block} (ho : o ∈ live) (hk : o.kind = .plain) :
    Realloc g live (some o) b (Mem.rawfree
      { g' with mem := memcpy g'.mem b.addr o.addr (min o.size b.size) } (some o.addr) o.size) := by
  have hne : o ≠ b := fun e => h.fresh o ho (by rw [e])
  have hb : b ∈ insert b live := Finset.mem_insert_self _ _
  have ho' : o ∈ insert b live := Finset.mem_insert_of_mem ho
  have hok : Ok { g' with mem := memcpy g'.mem b.addr o.addr (min o.size b.size) }
      (insert b live) := h.ok.write hb _ fun x hx => memcpy_of_outside (by omega)
  have hd := hok.rawfree ho' hk
  refine ⟨fun b' hb' => h.fresh b' (Finset.mem_of_mem_erase hb'), ?_, ?_, ?_, ?_⟩
  · rw [dropBlock, ← Finset.erase_insert_of_ne hne.symm]
    exact hd.ok
  · rintro o' ho'' i hi
    obtain rfl := Option.some.inj ho''
    have h1 : b.Within g' (b.addr + i) := h.ok.within hb (by omega)
    have h2 : o.Within g' (o.addr + i) := h.ok.within ho' (by omega)
    rw [hd.mem _ (h.ok.not_within hb ho' hne.symm h1)]
    simp only [memcpy_apply hi]
    exact h.mem _ (h.ok.not_within ho' hb hne h2)
  · exact fun hp b' hb' => h.ok.large_page hb hp b' (Finset.mem_insert_of_mem hb')
  · exact ⟨hd.counters.1.trans h.counters.1, hd.counters.2.trans h.counters.2⟩

/-- `frealloc` moves a large block. -/
theorem Ok.sysrealloc (h : Ok g live) {o : Block} (ho : o ∈ live) (hk : o.kind = .plain)
    (hc : sizeclass o.size = none) {q : ℕ} (hn : 0 < n) (hcn : sizeclass n = none)
    (hfresh : ∀ x ∈ g.sys.erase (o.addr, o.size), Apart q n x.1 x.2) (memcat : ℕ) :
    Realloc g live (some o) ⟨q, .plain, none, n, memcat⟩ { g with
      mem := memcpy g.mem q o.addr (min o.size n)
      sys := insert (q, n) (g.sys.erase (o.addr, o.size)) } := by
  have hd := h.rawfree ho hk
  simp only [Mem.rawfree, hc] at hd
  have hp := h.page_of_large ho hk hc
  have hsys : (o.addr, o.size) ∈ g.sys := by
    obtain ⟨G, hinv, -⟩ := h
    have := hinv.large_sys ho hp
    simpa [Block.addr, hp] using this
  simp only [sysfree, if_pos hsys] at hd
  have ha := hd.ok.adopt hn hcn hfresh memcat
  have hb : (⟨q, .plain, none, n, memcat⟩ : Block) ∈
      insert (⟨q, .plain, none, n, memcat⟩ : Block) (live.erase o) := Finset.mem_insert_self _ _
  have haddr : (⟨q, .plain, none, n, memcat⟩ : Block).addr = q := rfl
  have hok := ha.ok.write hb (memcpy g.mem q o.addr (min o.size n)) fun x hx =>
    memcpy_of_outside (by rw [haddr] at hx; dsimp only at hx; omega)
  refine ⟨ha.fresh, hok, ?_, fun _ b' hb' e => ?_, rfl, rfl⟩
  · rintro o' ho' i hi
    obtain rfl := Option.some.inj ho'
    exact memcpy_apply hi
  · have hne : b' ≠ o := by
      rintro rfl
      exact absurd (e.symm.trans hp) (by simp)
    exact hok.large_page hb rfl b' (Finset.mem_insert_of_mem (Finset.mem_erase.mpr ⟨hne, hb'⟩)) e

/-- The size of a block, 0 for the null pointer. -/
def sizeOf (block : Option Block) : ℕ := (block.map Block.size).getD 0

/-- `luaM_realloc_`. -/
theorem Ok.realloc (h : Ok g live) (hfresh : Fresh g.sys fr.new) {block : Option Block}
    (hblock : ∀ o, block = some o → o ∈ live ∧ o.kind = .plain ∧
      Fresh (g.sys.erase (o.addr, o.size)) fr.resize) (memcat : ℕ) :
    luaM_realloc_ fr g (block.map Block.addr) (sizeOf block) n memcat = (.error .errmem, g) ∨
      (n = 0 ∧ ∃ g', luaM_realloc_ fr g (block.map Block.addr) (sizeOf block) n memcat =
          (.ok none, account g' (sizeOf block) n memcat) ∧
        Ok g' (dropBlock live block) ∧ SameCounters g g') ∨
      ∃ a g', luaM_realloc_ fr g (block.map Block.addr) (sizeOf block) n memcat =
          (.ok (some a), account g' (sizeOf block) n memcat) ∧
        (newBlock fr g .plain n memcat a).addr = a ∧
        Realloc g live block (newBlock fr g .plain n memcat a) g' := by
  have hzero : sizeclass 0 = none := rfl
  cases block with
  | none =>
    -- as `luaM_new_`
    have hsize : sizeOf none = 0 := rfl
    have hraw : luaM_realloc_ fr g none 0 n memcat =
        if (Mem.rawnew fr g n).1 = none ∧ n > 0 then (.error .errmem, (Mem.rawnew fr g n).2)
        else (.ok (Mem.rawnew fr g n).1, account (Mem.rawnew fr g n).2 0 n memcat) := by
      rw [luaM_realloc_]
      by_cases hc : (sizeclass n).isSome
      · rw [if_pos (.inl hc)]
        simp only [Mem.rawfree, hzero, Mem.sysfree]
      · rw [if_neg (by simpa [hzero] using hc)]
        have hc' : sizeclass n = none := by simpa using hc
        simp only [Mem.sysrealloc, Mem.rawnew, hc']
        rfl
    rw [hsize, Option.map_none, hraw]
    rcases h.rawnew (n := n) hfresh memcat with h1 | ⟨a, g', hn, h1, h2, h3⟩
    · rw [h1]
      rcases Nat.eq_zero_or_pos n with rfl | hn
      · exact .inr (.inl ⟨rfl, g, by simp, h, rfl, rfl⟩)
      · exact .inl (by simp [hn])
    · rw [h1]
      refine .inr (.inr ⟨a, g', by simp, h2, h3.fresh, h3.ok, by simp, fun hp b' hb' => ?_,
        h3.counters⟩)
      exact h3.ok.large_page (Finset.mem_insert_self _ _) hp b' (Finset.mem_insert_of_mem hb')
  | some o =>
    obtain ⟨ho, hk, hresize⟩ := hblock o rfl
    have hsize : sizeOf (some o) = o.size := rfl
    rw [hsize, Option.map_some, luaM_realloc_]
    by_cases hc : (sizeclass n).isSome ∨ (sizeclass o.size).isSome
    · rw [if_pos hc]
      rcases h.rawnew (n := n) hfresh memcat with h1 | ⟨a, g', hn, h1, h2, h3⟩
      · rw [h1]
        rcases Nat.eq_zero_or_pos n with rfl | hn
        · have hd := h.rawfree ho hk
          exact .inr (.inl ⟨rfl, _, by simp, hd.ok, hd.counters⟩)
        · exact .inl (by simp [hn])
      · rw [h1]
        have hr := h3.realloc ho hk
        rw [h2] at hr
        exact .inr (.inr ⟨a, _, by simp; rfl, h2, hr⟩)
    · rw [if_neg hc]
      simp only [not_or, Bool.not_eq_true, Option.isSome_eq_false_iff, Option.isNone_iff_eq_none]
        at hc
      rw [Mem.sysrealloc]
      rcases Nat.eq_zero_or_pos n with rfl | hn
      · have hd := h.rawfree ho hk
        simp only [Mem.rawfree, hc.2] at hd
        exact .inr (.inl ⟨rfl, _, by simp, hd.ok, hd.counters⟩)
      · rw [if_neg hn.ne']
        cases hq : fr.resize n with
        | none => exact .inl (by simp [hn])
        | some q =>
          have hr := h.sysrealloc ho hk hc.2 hn hc.1 (hresize n q hn hq) memcat
          have hb : newBlock fr g .plain n memcat q = ⟨q, .plain, none, n, memcat⟩ := by
            simp [newBlock, blockPage, hc.1]
          have hp := h.page_of_large ho hk hc.2
          have hsys : (o.addr, o.size) ∈ g.sys := by
            obtain ⟨G, hinv, -⟩ := h
            simpa [Block.addr, hp] using hinv.large_sys ho hp
          refine .inr (.inr ⟨q, _, by simp; rfl, by rw [hb]; rfl, ?_⟩)
          rw [hb]
          simpa only [sysfree, if_pos hsys] using hr

end Mem

end Jaci
