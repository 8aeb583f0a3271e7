import Jaci.Mem.Basic
import Mathlib.Algebra.BigOperators.Group.Finset.Basic
import Mathlib.Algebra.Order.BigOperators.Group.Finset

/-!
# The invariant of the allocator

`Inv` relates the state to the set of live blocks and to a ghost state, which says for each page
which of its blocks were never used (`bump`), which were freed (`free`), and which pages are in the
lists and pools.

* `PageOk` : one page;
* `Inv` : the whole state;
* `PageOk.congr` : what the invariant of a page depends on;
* `Inv.apart` : live blocks are disjoint.
-/

namespace Jaci

namespace Mem

open Linked

/-! ### Live blocks -/

/-- A live block. -/
structure Block where
  /-- Where the block starts, including its metadata. -/
  start : ℕ
  kind : Kind
  /-- The page of the block; none if it comes directly from `frealloc`. -/
  page : Option ℕ
  size : ℕ
  memcat : ℕ
deriving DecidableEq

/-- The address that the caller gets. -/
def Block.addr (b : Block) : ℕ := if b.page.isSome then b.start + b.kind.header else b.start

def blocksOf (live : Finset Block) (p : ℕ) : Finset Block := live.filter fun b => b.page = some p

/-- Two regions, given by their starts and sizes, are disjoint. -/
def Apart (a n b m : ℕ) : Prop := a + n ≤ b ∨ b + m ≤ a

/-! ### Pages -/

/-- The ghost state. -/
structure Ghost where
  pages : Finset ℕ
  kind : ℕ → Kind
  /-- The class of a page; none for the page of one large object. -/
  cls : ℕ → Option ℕ
  bump : ℕ → ℕ
  free : ℕ → List ℕ
  lists : Kind → ℕ → List ℕ
  all : List ℕ
  pool : Pool → List ℕ

/-- A page has a free block. -/
def Ghost.Avail (G : Ghost) (p : ℕ) : Prop := 0 < G.bump p ∨ G.free p ≠ []

/-- The sizes of a page of a kind and class. -/
def Shape (k : Kind) (cls : Option ℕ) (pageSize blockSize : ℕ) : Prop :=
  match cls with
  | some c => blockSize = sizeOfClass.getD c 0 + k.header ∧ pageSize = pageSizeOfClass c ∧
      k.linkOffset + 8 ≤ blockSize ∧ dataOffset + blockSize ≤ pageSize
  | none => k = .gco ∧ pageSize = dataOffset + blockSize ∧ kMaxSmallSizeUsed < blockSize

/-- The `i`th block of a page. -/
def blockAt (g : Global) (p i : ℕ) : ℕ := p + dataOffset + i * g.blockSize p

/-- The number of blocks of a page. -/
def blockCount (g : Global) (p : ℕ) : ℕ := (g.pageSize p - dataOffset) / g.blockSize p

/-- The links of freed blocks. -/
def links (mem : ℕ → Cell) (k : Kind) (a : ℕ) : Option ℕ := readPtr mem (a + k.linkOffset)

/-- The invariant of a page with these live blocks. -/
structure PageOk (g : Global) (G : Ghost) (busy : Finset Block) (p : ℕ) : Prop where
  shape : Shape (G.kind p) (G.cls p) (g.pageSize p) (g.blockSize p)
  freeNext : g.freeNext p = ((G.bump p : ℤ) - 1) * g.blockSize p
  freeList : Chain (links g.mem (G.kind p)) (g.freeList p) (G.free p)
  free_at : ∀ a ∈ G.free p, ∃ i, G.bump p ≤ i ∧ i < blockCount g p ∧ a = blockAt g p i
  busy_at : ∀ b ∈ busy, ∃ i, G.bump p ≤ i ∧ i < blockCount g p ∧ b.start = blockAt g p i
  busy_free : ∀ b ∈ busy, b.start ∉ G.free p
  busy_cls : ∀ b ∈ busy, b.kind = G.kind p ∧ sizeclass b.size = G.cls p ∧
    b.size + b.kind.header ≤ g.blockSize p
  busy_meta : ∀ b ∈ busy, b.kind = .plain → g.mem b.start = .ptr (some p)
  count : G.bump p + (G.free p).length + busy.card = blockCount g p
  busyBlocks : g.busyBlocks p = busy.card

section PageOk

variable {g g' : Global} {G G' : Ghost} {busy : Finset Block} {p : ℕ}

theorem Shape.pos {k : Kind} {cls : Option ℕ} {ps bs : ℕ} (h : Shape k cls ps bs) : 0 < bs := by
  cases cls with
  | some c =>
    have := h.2.2.1
    omega
  | none =>
    have := h.2.2
    omega

theorem Shape.link_le {k : Kind} {cls : Option ℕ} {ps bs : ℕ} (h : Shape k cls ps bs) :
    k.linkOffset + 8 ≤ bs := by
  cases cls with
  | some c => exact h.2.2.1
  | none =>
    obtain ⟨rfl, -, h⟩ := h
    have : kMaxSmallSizeUsed = 1024 := rfl
    have : Kind.gco.linkOffset = 8 := rfl
    omega

theorem Shape.data_le {k : Kind} {cls : Option ℕ} {ps bs : ℕ} (h : Shape k cls ps bs) :
    dataOffset + bs ≤ ps := by
  cases cls with
  | some c => exact h.2.2.2
  | none => exact h.2.1.ge

/-- The blocks of a page are inside it. -/
theorem PageOk.block_le (h : PageOk g G busy p) {i : ℕ} (hi : i < blockCount g p) :
    p + dataOffset ≤ blockAt g p i ∧ blockAt g p i + g.blockSize p ≤ p + g.pageSize p := by
  have hdata := h.shape.data_le
  have hmul : (i + 1) * g.blockSize p ≤ g.pageSize p - dataOffset :=
    (Nat.mul_le_mul_right _ hi).trans (Nat.div_mul_le_self _ _)
  rw [Nat.add_mul, Nat.one_mul] at hmul
  rw [blockAt]
  omega

/-- Different blocks of a page are disjoint. -/
theorem blockAt_apart (g : Global) (p : ℕ) {i j : ℕ} (hij : i ≠ j) :
    Apart (blockAt g p i) (g.blockSize p) (blockAt g p j) (g.blockSize p) := by
  rw [Apart, blockAt, blockAt]
  rcases Nat.lt_or_gt_of_ne hij with h | h
  · have := Nat.mul_le_mul_right (g.blockSize p) (Nat.succ_le_of_lt h)
    rw [Nat.succ_mul] at this
    omega
  · have := Nat.mul_le_mul_right (g.blockSize p) (Nat.succ_le_of_lt h)
    rw [Nat.succ_mul] at this
    omega

theorem readPtr_congr {mem mem' : ℕ → Cell} {a : ℕ} (h : mem' a = mem a) :
    readPtr mem' a = readPtr mem a := by
  rw [readPtr, readPtr, h]

/-- The invariant of a page depends on its header, its memory, its ghost state and its live
blocks. -/
theorem PageOk.congr (h : PageOk g G busy p) (hps : g'.pageSize p = g.pageSize p)
    (hbs : g'.blockSize p = g.blockSize p) (hfl : g'.freeList p = g.freeList p)
    (hfn : g'.freeNext p = g.freeNext p) (hbb : g'.busyBlocks p = g.busyBlocks p)
    (hmem : ∀ a, p ≤ a → a < p + g.pageSize p → g'.mem a = g.mem a)
    (hk : G'.kind p = G.kind p) (hc : G'.cls p = G.cls p) (hb : G'.bump p = G.bump p)
    (hf : G'.free p = G.free p) : PageOk g' G' busy p := by
  have hcount : blockCount g' p = blockCount g p := by rw [blockCount, blockCount, hps, hbs]
  have hat : ∀ i, blockAt g' p i = blockAt g p i := fun i => by rw [blockAt, blockAt, hbs]
  have hpos := h.shape.pos
  have hlink := h.shape.link_le
  refine ⟨by rw [hk, hc, hps, hbs]; exact h.shape, by rw [hfn, hb, hbs]; exact h.freeNext, ?_, ?_,
    ?_, by rw [hf]; exact h.busy_free, by rw [hk, hc, hbs]; exact h.busy_cls, ?_, by rw [hb, hf, hcount]; exact h.count,
    by rw [hbb]; exact h.busyBlocks⟩
  · rw [hk, hfl, hf]
    refine h.freeList.congr fun a ha => readPtr_congr (hmem _ ?_ ?_)
    · obtain ⟨i, -, hi, rfl⟩ := h.free_at a ha
      have := h.block_le hi
      omega
    · obtain ⟨i, -, hi, rfl⟩ := h.free_at a ha
      have := h.block_le hi
      omega
  · rw [hf, hb, hcount]
    simpa only [hat] using h.free_at
  · rw [hb, hcount]
    simpa only [hat] using h.busy_at
  · intro b hb hkind
    obtain ⟨i, -, hi, hs⟩ := h.busy_at b hb
    have := h.block_le hi
    rw [hmem _ (by omega) (by omega)]
    exact h.busy_meta b hb hkind

end PageOk

/-! ### The whole state -/

/-- The lists of pages. -/
structure ListsOk (g : Global) (G : Ghost) : Prop where
  lists : ∀ k c, Doubly g.next g.prev (g.freepages k c) (G.lists k c)
  /-- These lists have exactly the pages with free blocks. -/
  mem_lists : ∀ k c p, p ∈ G.lists k c ↔
    p ∈ G.pages ∧ G.kind p = k ∧ G.cls p = some c ∧ G.Avail p
  /-- A page that is not in a list has no page before it. -/
  unlisted : ∀ p ∈ G.pages, ¬G.Avail p → g.prev p = none
  pool : ∀ k, Chain g.next (g.pagepool k) (G.pool k)
  pool_pages : ∀ k, ∀ p ∈ G.pool k, p ∉ G.pages

/-- The invariant of the allocator in the middle of a call.  A page may be without live blocks, and
`spare` is memory from `frealloc` that is not in use. -/
structure Inv (g : Global) (G : Ghost) (live : Finset Block) (spare : Option (ℕ × ℕ)) : Prop where
  pages : ∀ p ∈ G.pages, PageOk g G (blocksOf live p) p
  lists : ListsOk g G
  /-- The list of all pages of collectable objects. -/
  all : Doubly g.listnext g.listprev g.allgcopages G.all
  mem_all : ∀ p, p ∈ G.all ↔ p ∈ G.pages ∧ G.kind p = .gco
  pool_size : ∀ k, g.pagepool_size k = (G.pool k).length ∧ g.pagepool_size k ≤ k.max
  pool_pageSize : ∀ k, ∀ p ∈ G.pool k, g.pageSize p = k.pageSize
  /-- What `frealloc` has given out is used for pages, pools and large blocks. -/
  sys : ∀ x, x ∈ g.sys ↔ (∃ p ∈ G.pages, x = (p, g.pageSize p)) ∨
    (∃ k, ∃ p ∈ G.pool k, x = (p, k.pageSize)) ∨
    (∃ b ∈ live, b.page = none ∧ x = (b.start, b.size)) ∨ spare = some x
  sys_apart : ∀ x ∈ g.sys, ∀ y ∈ g.sys, x ≠ y → Apart x.1 x.2 y.1 y.2
  sys_pos : ∀ x ∈ g.sys, 0 < x.2
  large : ∀ b ∈ live, b.page = none → b.kind = .plain ∧ sizeclass b.size = none ∧
    b.start ∉ G.pages ∧ ∀ k, b.start ∉ G.pool k
  page_mem : ∀ b ∈ live, ∀ p, b.page = some p → p ∈ G.pages
  start_inj : ∀ b ∈ live, ∀ b' ∈ live, b.start = b'.start → b = b'
  spare_pages : ∀ x, spare = some x → x.1 ∉ G.pages ∧ (∀ k, x.1 ∉ G.pool k) ∧
    ∀ b ∈ live, b.page = none → b.start ≠ x.1
  /-- `frealloc` was only asked to free what it had given out. -/
  no_fault : g.fault = false

/-- The counters are the sums of the sizes of the live blocks. -/
structure Counted (g : Global) (live : Finset Block) : Prop where
  total : g.totalbytes = ∑ b ∈ live, b.size
  memcat : ∀ c, g.memcatbytes c = ∑ b ∈ live.filter (fun b => b.memcat = c), b.size

theorem ListsOk.congr {g g' : Global} {G : Ghost} (h : ListsOk g G) (hn : g'.next = g.next)
    (hp : g'.prev = g.prev) (hf : g'.freepages = g.freepages) (hpool : g'.pagepool = g.pagepool) :
    ListsOk g' G :=
  ⟨by rw [hn, hp, hf]; exact h.lists, h.mem_lists, by rw [hp]; exact h.unlisted,
    by rw [hn, hpool]; exact h.pool, h.pool_pages⟩

section Inv

variable {g : Global} {G : Ghost} {live : Finset Block} {spare : Option (ℕ × ℕ)} {p q : ℕ}
  {b b' : Block}

theorem mem_blocksOf : b ∈ blocksOf live p ↔ b ∈ live ∧ b.page = some p := Finset.mem_filter

theorem Inv.page_sys (h : Inv g G live spare) (hp : p ∈ G.pages) : (p, g.pageSize p) ∈ g.sys :=
  (h.sys _).mpr (.inl ⟨p, hp, rfl⟩)

theorem Inv.pool_sys (h : Inv g G live spare) {k : Pool} (hp : p ∈ G.pool k) :
    (p, k.pageSize) ∈ g.sys :=
  (h.sys _).mpr (.inr (.inl ⟨k, p, hp, rfl⟩))

theorem Inv.large_sys (h : Inv g G live spare) (hb : b ∈ live) (hp : b.page = none) :
    (b.start, b.size) ∈ g.sys :=
  (h.sys _).mpr (.inr (.inr (.inl ⟨b, hb, hp, rfl⟩)))

theorem Inv.spare_sys {x : ℕ × ℕ} (h : Inv g G live (some x)) : x ∈ g.sys :=
  (h.sys _).mpr (.inr (.inr (.inr rfl)))

theorem Inv.page_apart (h : Inv g G live spare) (hp : p ∈ G.pages) (hq : q ∈ G.pages)
    (hpq : p ≠ q) : Apart p (g.pageSize p) q (g.pageSize q) :=
  h.sys_apart _ (h.page_sys hp) _ (h.page_sys hq) fun e => hpq (Prod.mk.inj e).1

/-- The size of a block, including its metadata. -/
def Block.extent (g : Global) (b : Block) : ℕ :=
  match b.page with
  | some p => g.blockSize p
  | none => b.size

theorem Inv.busy (h : Inv g G live spare) (hb : b ∈ live) (hp : b.page = some p) :
    PageOk g G (blocksOf live p) p ∧ b ∈ blocksOf live p :=
  ⟨h.pages p (h.page_mem b hb p hp), mem_blocksOf.mpr ⟨hb, hp⟩⟩

/-- What the caller may use is inside the block. -/
theorem Inv.addr_le (h : Inv g G live spare) (hb : b ∈ live) :
    b.start ≤ b.addr ∧ b.addr + b.size ≤ b.start + b.extent g := by
  cases hp : b.page with
  | none => simp [Block.addr, Block.extent, hp]
  | some p =>
    obtain ⟨hok, hmem⟩ := h.busy hb hp
    have := (hok.busy_cls b hmem).2.2
    simp only [Block.addr, Block.extent, hp, Option.isSome_some, if_true]
    omega

/-- A block in a page is inside the page. -/
theorem Inv.block_le (h : Inv g G live spare) (hb : b ∈ live) (hp : b.page = some p) :
    p + dataOffset ≤ b.start ∧ b.start + b.extent g ≤ p + g.pageSize p := by
  obtain ⟨hok, hmem⟩ := h.busy hb hp
  obtain ⟨i, -, hi, hs⟩ := hok.busy_at b hmem
  have := hok.block_le hi
  simp only [Block.extent, hp]
  omega

/-- Every block is inside of an allocation. -/
theorem Inv.block_sys (h : Inv g G live spare) (hb : b ∈ live) :
    ∃ x ∈ g.sys, x.1 ≤ b.start ∧ b.start + b.extent g ≤ x.1 + x.2 ∧
      (b.page = none → x = (b.start, b.size)) ∧ ∀ p, b.page = some p → x = (p, g.pageSize p) := by
  cases hp : b.page with
  | none =>
    refine ⟨_, h.large_sys hb hp, le_rfl, ?_, fun _ => rfl, by simp⟩
    simp [Block.extent, hp]
  | some p =>
    obtain ⟨h1, h2⟩ := h.block_le hb hp
    refine ⟨_, h.page_sys (h.page_mem b hb p hp), by simp; omega, h2, by simp, fun q hq => ?_⟩
    obtain rfl : p = q := Option.some.inj hq
    rfl

/-- Live blocks are disjoint. -/
theorem Inv.apart (h : Inv g G live spare) (hb : b ∈ live) (hb' : b' ∈ live) (hne : b ≠ b') :
    Apart b.start (b.extent g) b'.start (b'.extent g) := by
  obtain ⟨x, hx, hx1, hx2, hx3, hx4⟩ := h.block_sys hb
  obtain ⟨y, hy, hy1, hy2, hy3, hy4⟩ := h.block_sys hb'
  by_cases hxy : x = y
  · -- both are in one allocation, so in one page
    subst hxy
    have hsame : ∃ p, b.page = some p ∧ b'.page = some p := by
      cases hp : b.page with
      | none =>
        obtain ⟨-, -, hpages, -⟩ := h.large b hb hp
        cases hp' : b'.page with
        | none =>
          have := (hx3 hp).symm.trans (hy3 hp')
          exact absurd (h.start_inj b hb b' hb' (Prod.mk.inj this).1) hne
        | some p' =>
          have := (hx3 hp).symm.trans (hy4 p' hp')
          exact absurd ((Prod.mk.inj this).1 ▸ h.page_mem b' hb' p' hp') hpages
      | some p =>
        cases hp' : b'.page with
        | none =>
          obtain ⟨-, -, hpages, -⟩ := h.large b' hb' hp'
          have := (hy3 hp').symm.trans (hx4 p hp)
          exact absurd ((Prod.mk.inj this).1 ▸ h.page_mem b hb p hp) hpages
        | some p' =>
          have := (hx4 p hp).symm.trans (hy4 p' hp')
          exact ⟨p, rfl, by rw [(Prod.mk.inj this).1]⟩
    obtain ⟨p, hp, hp'⟩ := hsame
    obtain ⟨hok, hmem⟩ := h.busy hb hp
    obtain ⟨-, hmem'⟩ := h.busy hb' hp'
    obtain ⟨i, -, -, hi⟩ := hok.busy_at b hmem
    obtain ⟨j, -, -, hj⟩ := hok.busy_at b' hmem'
    have hij : i ≠ j := by
      rintro rfl
      exact hne (h.start_inj b hb b' hb' (hi.trans hj.symm))
    simp only [Block.extent, hp, hp', hi, hj]
    exact blockAt_apart g p hij
  · have := h.sys_apart x hx y hy hxy
    rw [Apart] at this ⊢
    omega

end Inv

end Mem

end Jaci
