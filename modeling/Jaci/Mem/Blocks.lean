import Jaci.Mem.Pages

/-!
# Blocks

A block is taken out of a page that has a free one, or given back to its page.  Only the header of
this page and the memory of this block change.

* `PageOk.take`, `PageOk.give` : the page itself;
* `Inv.of_page` : everything else;
* `Inv.takeblock`, `Inv.giveblock` : the two operations, with the lists.
-/

namespace Jaci

namespace Mem

open Linked

/-! ### Size classes -/

theorem getD_of_idxOf? {α : Type} [DecidableEq α] {l : List α} {a d : α} {i : ℕ}
    (h : l.idxOf? a = some i) : i < l.length ∧ l.getD i d = a := by
  rw [List.idxOf?, List.findIdx?_eq_some_iff_getElem] at h
  obtain ⟨hi, ha, -⟩ := h
  refine ⟨hi, ?_⟩
  rw [List.getD_eq_getElem?_getD, List.getElem?_eq_getElem hi]
  simpa using ha

theorem classForSize_spec {n size c : ℕ} (h : classForSize n size = some c) :
    c < sizeOfClass.length ∧ size ≤ sizeOfClass.getD c 0 := by
  induction n generalizing size with
  | zero => exact absurd h (by simp [classForSize])
  | succ n ih =>
    rw [classForSize] at h
    cases hi : sizeOfClass.idxOf? size with
    | some i =>
      rw [hi] at h
      obtain rfl := Option.some.inj h
      obtain ⟨h1, h2⟩ := getD_of_idxOf? (d := 0) hi
      exact ⟨h1, h2.ge⟩
    | none =>
      rw [hi] at h
      obtain ⟨h1, h2⟩ := ih h
      exact ⟨h1, by omega⟩

theorem classForSize_ne_none {n size : ℕ} (hs : size ≤ kMaxSmallSizeUsed)
    (hn : kMaxSmallSizeUsed < size + n) : classForSize n size ≠ none := by
  induction n generalizing size with
  | zero => omega
  | succ n ih =>
    rw [classForSize]
    cases hi : sizeOfClass.idxOf? size with
    | some i => simp
    | none =>
      refine ih ?_ (by omega)
      -- the largest size has a class
      have hmax : sizeOfClass.idxOf? kMaxSmallSizeUsed ≠ none := by decide
      have hne : size ≠ kMaxSmallSizeUsed := fun e => hmax (e ▸ hi)
      omega

/-- The class of a size is large enough. -/
theorem sizeclass_spec {sz c : ℕ} (h : sizeclass sz = some c) :
    0 < sz ∧ c < sizeOfClass.length ∧ sz ≤ sizeOfClass.getD c 0 := by
  rw [sizeclass] at h
  split_ifs at h with hs
  exact ⟨hs.1, classForSize_spec h⟩

theorem sizeclass_eq_none {sz : ℕ} (h : sizeclass sz = none) : sz = 0 ∨ kMaxSmallSizeUsed < sz := by
  rw [sizeclass] at h
  by_contra hc
  have hs : 0 < sz ∧ sz ≤ kMaxSmallSizeUsed := by omega
  rw [if_pos hs] at h
  exact classForSize_ne_none hs.2 (by omega) h

theorem pageSizeOfClass_le : ∀ c < sizeOfClass.length,
    dataOffset + (sizeOfClass.getD c 0 + kBlockHeader) ≤ pageSizeOfClass c := by
  decide

/-- The pages of a class have room for blocks; a collectable object has room for its link. -/
theorem shape_of_sizeclass {sz c : ℕ} {k : Kind} (h : sizeclass sz = some c)
    (hk : k = .gco → kGCOLinkOffset + 8 ≤ sz) :
    Shape k (some c) (pageSizeOfClass c) (sizeOfClass.getD c 0 + k.header) := by
  obtain ⟨-, hc, hsz⟩ := sizeclass_spec h
  have hdata := pageSizeOfClass_le c hc
  cases k with
  | plain => exact ⟨rfl, rfl, by simp [Kind.linkOffset, Kind.header, kBlockHeader], hdata⟩
  | gco =>
    refine ⟨rfl, rfl, ?_, ?_⟩
    · have := hk rfl
      simp only [Kind.linkOffset, Kind.header]
      omega
    · simp only [Kind.header]
      omega

/-! ### One page -/

variable {g g' : Global} {G G' : Ghost} {live live' : Finset Block} {spare : Option (ℕ × ℕ)}
  {p a : ℕ} {b : Block}

section PageOk

variable {busy : Finset Block}

/-- Memory outside of a block. -/
def Outside (g : Global) (p a x : ℕ) : Prop := x < a ∨ a + g.blockSize p ≤ x

/-- A block is taken out of a page. -/
theorem PageOk.take (h : PageOk g G busy p) {i : ℕ} (ha : a = blockAt g p i)
    (hi : G'.bump p ≤ i ∧ i < blockCount g p) (hbusy : ∀ b ∈ busy, b.start ≠ a)
    (hsizes : g'.pageSize p = g.pageSize p ∧ g'.blockSize p = g.blockSize p)
    (hkind : G'.kind p = G.kind p ∧ G'.cls p = G.cls p)
    (hbump : G'.bump p ≤ G.bump p)
    (hfree : ∀ x ∈ G'.free p, x ∈ G.free p ∧ x ≠ a)
    (hnext : g'.freeNext p = ((G'.bump p : ℤ) - 1) * g.blockSize p)
    (hlist : Chain (links g.mem (G.kind p)) (g'.freeList p) (G'.free p))
    (hcount : G'.bump p + (G'.free p).length + 1 = G.bump p + (G.free p).length)
    (hbb : g'.busyBlocks p = g.busyBlocks p + 1)
    (hmem : ∀ x, Outside g p a x → g'.mem x = g.mem x)
    (hmeta : b.kind = .plain → g'.mem a = .ptr (some p))
    (hb : b.start = a ∧ b.kind = G.kind p ∧ sizeclass b.size = G.cls p ∧
      b.size + b.kind.header ≤ g.blockSize p) :
    PageOk g' G' (insert b busy) p := by
  obtain ⟨hps, hbs⟩ := hsizes
  obtain ⟨hk, hc⟩ := hkind
  have hbc : blockCount g' p = blockCount g p := by rw [blockCount, blockCount, hps, hbs]
  have hat : ∀ i, blockAt g' p i = blockAt g p i := fun i => by rw [blockAt, blockAt, hbs]
  have hlink := h.shape.link_le
  -- memory of other blocks is not changed
  have hother : ∀ j, j ≠ i → ∀ o, o < g.blockSize p →
      g'.mem (blockAt g p j + o) = g.mem (blockAt g p j + o) := by
    intro j hj o ho
    refine hmem _ ?_
    have := blockAt_apart g p hj
    rw [Apart] at this
    rw [Outside, ha]
    omega
  have hnb : b ∉ busy := fun hm => hbusy b hm hb.1
  refine ⟨by rw [hk, hc, hps, hbs]; exact h.shape, by rw [hnext, hbs], ?_, ?_, ?_, ?_, ?_, ?_, ?_,
    ?_⟩
  · rw [hk]
    refine hlist.congr fun x hx => readPtr_congr ?_
    obtain ⟨hx, hxa⟩ := hfree x hx
    obtain ⟨j, -, -, rfl⟩ := h.free_at x hx
    exact hother j (fun e => hxa (by rw [ha, e])) _ (by omega)
  · intro x hx
    obtain ⟨j, h1, h2, h3⟩ := h.free_at x (hfree x hx).1
    exact ⟨j, hbump.trans h1, hbc ▸ h2, by rw [hat, h3]⟩
  · intro b' hb'
    rcases Finset.mem_insert.mp hb' with rfl | hb'
    · exact ⟨i, hi.1, hbc ▸ hi.2, by rw [hat, hb.1, ha]⟩
    · obtain ⟨j, h1, h2, h3⟩ := h.busy_at b' hb'
      exact ⟨j, hbump.trans h1, hbc ▸ h2, by rw [hat, h3]⟩
  · intro b' hb' hm
    rcases Finset.mem_insert.mp hb' with rfl | hb'
    · exact (hfree _ hm).2 hb.1
    · exact h.busy_free b' hb' (hfree _ hm).1
  · intro b' hb'
    rw [hk, hc, hbs]
    rcases Finset.mem_insert.mp hb' with rfl | hb'
    · exact hb.2
    · exact h.busy_cls b' hb'
  · intro b' hb' hplain
    rcases Finset.mem_insert.mp hb' with rfl | hb'
    · rw [hb.1]
      exact hmeta hplain
    · obtain ⟨j, -, -, h3⟩ := h.busy_at b' hb'
      have hj : j ≠ i := fun e => hbusy b' hb' (by rw [h3, ha, e])
      have := hother j hj 0 h.shape.pos
      rw [Nat.add_zero] at this
      rw [h3, this, ← h3]
      exact h.busy_meta b' hb' hplain
  · rw [Finset.card_insert_of_notMem hnb, hbc, ← h.count]
    omega
  · rw [hbb, h.busyBlocks, Finset.card_insert_of_notMem hnb]
    push_cast
    rfl

/-- A block is given back to its page. -/
theorem PageOk.give (h : PageOk g G busy p) (hb : b ∈ busy)
    (hsizes : g'.pageSize p = g.pageSize p ∧ g'.blockSize p = g.blockSize p)
    (hkind : G'.kind p = G.kind p ∧ G'.cls p = G.cls p)
    (hbump : G'.bump p = G.bump p) (hfree : G'.free p = b.start :: G.free p)
    (hnext : g'.freeNext p = g.freeNext p) (hlist : g'.freeList p = some b.start)
    (hlink : readPtr g'.mem (b.start + (G.kind p).linkOffset) = g.freeList p)
    (hbb : g'.busyBlocks p = g.busyBlocks p - 1)
    (hmem : ∀ x, Outside g p b.start x → g'.mem x = g.mem x)
    (hstart : ∀ b' ∈ busy, b'.start = b.start → b' = b) :
    PageOk g' G' (busy.erase b) p := by
  obtain ⟨hps, hbs⟩ := hsizes
  obtain ⟨hk, hc⟩ := hkind
  have hbc : blockCount g' p = blockCount g p := by rw [blockCount, blockCount, hps, hbs]
  have hat : ∀ i, blockAt g' p i = blockAt g p i := fun i => by rw [blockAt, blockAt, hbs]
  have hll := h.shape.link_le
  obtain ⟨i, hi1, hi2, hi3⟩ := h.busy_at b hb
  have hother : ∀ j, j ≠ i → ∀ o, o < g.blockSize p →
      g'.mem (blockAt g p j + o) = g.mem (blockAt g p j + o) := by
    intro j hj o ho
    refine hmem _ ?_
    have := blockAt_apart g p hj
    rw [Apart] at this
    rw [Outside, hi3]
    omega
  have hnot := h.busy_free b hb
  refine ⟨by rw [hk, hc, hps, hbs]; exact h.shape, by rw [hnext, hbs, hbump]; exact h.freeNext, ?_,
    ?_, ?_, ?_, ?_, ?_, ?_, ?_⟩
  · rw [hk, hfree, hlist]
    refine ⟨rfl, ?_⟩
    rw [links, hlink]
    refine h.freeList.congr fun x hx => readPtr_congr ?_
    obtain ⟨j, -, -, rfl⟩ := h.free_at x hx
    exact hother j (fun e => hnot (by rw [hi3, ← e]; exact hx)) _ (by omega)
  · intro x hx
    rw [hfree] at hx
    rw [hbump, hbc]
    rcases List.mem_cons.mp hx with rfl | hx
    · exact ⟨i, hi1, hi2, by rw [hat, hi3]⟩
    · simpa only [hat] using h.free_at x hx
  · intro b' hb'
    rw [hbump, hbc]
    simpa only [hat] using h.busy_at b' (Finset.mem_of_mem_erase hb')
  · intro b' hb'
    obtain ⟨hne, hb''⟩ := Finset.mem_erase.mp hb'
    rw [hfree]
    intro hm
    rcases List.mem_cons.mp hm with e | hm
    · exact hne (hstart b' hb'' e)
    · exact h.busy_free b' hb'' hm
  · intro b' hb'
    rw [hk, hc, hbs]
    exact h.busy_cls b' (Finset.mem_of_mem_erase hb')
  · intro b' hb' hplain
    obtain ⟨hne, hb''⟩ := Finset.mem_erase.mp hb'
    obtain ⟨j, -, -, h3⟩ := h.busy_at b' hb''
    have hj : j ≠ i := fun e => hne (hstart b' hb'' (by rw [h3, hi3, e]))
    have := hother j hj 0 h.shape.pos
    rw [Nat.add_zero] at this
    rw [h3, this, ← h3]
    exact h.busy_meta b' hb'' hplain
  · have hcard := Finset.card_erase_add_one hb
    rw [hbump, hfree, hbc, ← h.count, List.length_cons]
    omega
  · have hcard := Finset.card_erase_add_one hb
    rw [hbb, h.busyBlocks]
    omega

end PageOk

/-! ### Everything else -/

/-- What is outside of a page does not depend on its blocks. -/
theorem Inv.of_page (h : Inv g G live none) (hp : p ∈ G.pages)
    (hpage : PageOk g' G' (blocksOf live' p) p) (hlists : ListsOk g' G')
    (hsizes : g'.pageSize = g.pageSize ∧ g'.blockSize = g.blockSize)
    (hheader : ∀ q, q ≠ p → g'.freeList q = g.freeList q ∧ g'.freeNext q = g.freeNext q ∧
      g'.busyBlocks q = g.busyBlocks q)
    (hmem : ∀ x, ¬(p ≤ x ∧ x < p + g.pageSize p) → g'.mem x = g.mem x)
    (hall : g'.listnext = g.listnext ∧ g'.listprev = g.listprev ∧
      g'.allgcopages = g.allgcopages)
    (hrest : g'.pagepool_size = g.pagepool_size ∧ g'.sys = g.sys ∧ g'.fault = g.fault)
    (hghost : G'.pages = G.pages ∧ G'.kind = G.kind ∧ G'.cls = G.cls ∧ G'.all = G.all ∧
      G'.pool = G.pool)
    (hblocks : ∀ q, q ≠ p → G'.bump q = G.bump q ∧ G'.free q = G.free q)
    (hlive : ∀ b, b.page ≠ some p → (b ∈ live' ↔ b ∈ live))
    (hstart : ∀ b ∈ live', ∀ b' ∈ live', b.start = b'.start → b = b') :
    Inv g' G' live' none := by
  obtain ⟨h1, h2, h3, h4, h5⟩ := hghost
  have hof : ∀ q, q ≠ p → blocksOf live' q = blocksOf live q := by
    intro q hq
    ext b
    rw [mem_blocksOf, mem_blocksOf]
    refine and_congr_left fun hb => hlive b fun e => hq (Option.some.inj (hb.symm.trans e))
  have hnone : ∀ b, b.page = none → (b ∈ live' ↔ b ∈ live) := fun b hb =>
    hlive b (by simp [hb])
  refine ⟨fun q hq => ?_, hlists, ?_, ?_, ?_, ?_, fun x => ?_, ?_, ?_, fun b hb hb' => ?_,
    fun b hb q hq => ?_, hstart, by simp, ?_⟩
  · by_cases hqp : q = p
    · subst hqp
      exact hpage
    · obtain ⟨h6, h7, h8⟩ := hheader q hqp
      rw [h1] at hq
      have hapart := h.page_apart hq hp hqp
      rw [hof q hqp]
      refine (h.pages q hq).congr (by rw [hsizes.1]) (by rw [hsizes.2]) h6 h7 h8
        (fun x hx1 hx2 => hmem x ?_) (by rw [h2]) (by rw [h3]) (hblocks q hqp).1 (hblocks q hqp).2
      rw [Apart] at hapart
      omega
  · rw [hall.1, hall.2.1, hall.2.2, h4]
    exact h.all
  · rw [h1, h2, h4]
    exact h.mem_all
  · rw [hrest.1, h5]
    exact h.pool_size
  · rw [hsizes.1, h5]
    exact h.pool_pageSize
  · rw [hrest.2.1, h.sys x, hsizes.1, h1, h5]
    refine or_congr_right (or_congr_right (or_congr_left ?_))
    exact exists_congr fun b => ⟨fun hb => ⟨(hnone b hb.2.1).mpr hb.1, hb.2⟩,
      fun hb => ⟨(hnone b hb.2.1).mp hb.1, hb.2⟩⟩
  · rw [hrest.2.1]
    exact h.sys_apart
  · rw [hrest.2.1]
    exact h.sys_pos
  · rw [h1, h5]
    exact h.large b ((hnone b hb').mp hb) hb'
  · rw [h1]
    by_cases hqp : q = p
    · exact hqp ▸ hp
    · exact h.page_mem b ((hlive b (by rw [hq]; simpa using hqp)).mp hb) q hq
  · rw [hrest.2.2]
    exact h.no_fault

theorem Inv.extent_pos (h : Inv g G live spare) (hb : b ∈ live) : 0 < b.extent g := by
  cases hbp : b.page with
  | none =>
    have := h.sys_pos _ (h.large_sys hb hbp)
    simpa [Block.extent, hbp] using this
  | some q =>
    have := (h.pages q (h.page_mem b hb q hbp)).shape.pos
    simpa [Block.extent, hbp] using this

/-- A block of a page that is not live does not start where another live block starts. -/
theorem Inv.start_ne (h : Inv g G live none) (hp : p ∈ G.pages) {i : ℕ}
    (hi : i < blockCount g p) (hbusy : ∀ b ∈ blocksOf live p, b.start ≠ blockAt g p i) :
    ∀ b ∈ live, b.start ≠ blockAt g p i := by
  intro b hb e
  have hok := h.pages p hp
  obtain ⟨h1, h2⟩ := hok.block_le hi
  have hpos := hok.shape.pos
  obtain ⟨x, hx, hx1, hx2, hx3, hx4⟩ := h.block_sys hb
  -- the block is in the allocation of the page
  have hext := h.extent_pos hb
  have hxp : x = (p, g.pageSize p) := by
    by_contra hne
    have := h.sys_apart x hx _ (h.page_sys hp) hne
    rw [Apart] at this
    simp only at this
    omega
  cases hbp : b.page with
  | none =>
    obtain ⟨-, -, hpages, -⟩ := h.large b hb hbp
    exact hpages ((Prod.mk.inj ((hx3 hbp).symm.trans hxp)).1 ▸ hp)
  | some q =>
    obtain rfl : q = p := (Prod.mk.inj ((hx4 q hbp).symm.trans hxp)).1
    exact hbusy b (mem_blocksOf.mpr ⟨hb, hbp⟩) e

/-! ### Taking a block -/

/-- The header of a page shows whether it has a free block. -/
theorem PageOk.full_iff {busy : Finset Block} (h : PageOk g G busy p) :
    g.freeList p = none ∧ g.freeNext p < 0 ↔ ¬G.Avail p := by
  have hpos : (0 : ℤ) < g.blockSize p := by exact_mod_cast h.shape.pos
  have hnext : g.freeNext p < 0 ↔ G.bump p = 0 := by
    rw [h.freeNext]
    constructor
    · intro hlt
      by_contra hne
      have : (0 : ℤ) ≤ (G.bump p : ℤ) - 1 := by omega
      exact absurd hlt (not_lt.mpr (Int.mul_nonneg this hpos.le))
    · intro e
      rw [e]
      simpa using hpos
  have hlist : g.freeList p = none ↔ G.free p = [] := by
    have hchain := h.freeList
    cases hf : G.free p with
    | nil =>
      rw [hf] at hchain
      simpa using hchain
    | cons a l =>
      rw [hf] at hchain
      simp [hchain.1]
  rw [hnext, hlist, Ghost.Avail]
  simp only [not_or, not_lt, Nat.le_zero, ne_eq, not_not]
  exact and_comm

/-- What `takeblock` does: the last block that was never used is taken, or else the last one that
was freed. -/
theorem PageOk.takeblock_cases {busy : Finset Block} (h : PageOk g G busy p) (hav : G.Avail p) :
    ∃ i bump free freeNext freeList, Mem.takeblock g (G.kind p) p = (blockAt g p i, { g with
        freeNext := Function.update g.freeNext p freeNext
        freeList := Function.update g.freeList p freeList
        busyBlocks := Function.update g.busyBlocks p (g.busyBlocks p + 1) }) ∧
      (bump ≤ i ∧ i < blockCount g p) ∧ (∀ b ∈ busy, b.start ≠ blockAt g p i) ∧
      bump ≤ G.bump p ∧ (∀ x ∈ free, x ∈ G.free p ∧ x ≠ blockAt g p i) ∧
      freeNext = ((bump : ℤ) - 1) * g.blockSize p ∧
      Chain (links g.mem (G.kind p)) freeList free ∧
      bump + free.length + 1 = G.bump p + (G.free p).length := by
  have hcount := h.count
  rw [Mem.takeblock]
  by_cases hb : 0 < G.bump p
  · have hcast : ((G.bump p : ℤ) - 1) = ((G.bump p - 1 : ℕ) : ℤ) := by omega
    have hnext : g.freeNext p = (((G.bump p - 1) * g.blockSize p : ℕ) : ℤ) := by
      rw [h.freeNext, hcast]
      push_cast
      rfl
    rw [if_pos (by rw [hnext]; exact Int.natCast_nonneg _)]
    refine ⟨G.bump p - 1, G.bump p - 1, G.free p, g.freeNext p - g.blockSize p, g.freeList p, ?_,
      ⟨le_rfl, by omega⟩, fun b hbb e => ?_, by omega, fun x hx => ⟨hx, ?_⟩, ?_, h.freeList,
      by omega⟩
    · simp only [hnext, Int.toNat_natCast, Function.update_eq_self]
      rfl
    · obtain ⟨j, hj, -, hs⟩ := h.busy_at b hbb
      have hne : j ≠ G.bump p - 1 := by omega
      have := blockAt_apart g p hne
      have hpos := h.shape.pos
      rw [Apart, ← hs, e] at this
      omega
    · rintro rfl
      obtain ⟨j, hj, -, hs⟩ := h.free_at _ hx
      have hne : j ≠ G.bump p - 1 := by omega
      have := blockAt_apart g p hne
      have hpos := h.shape.pos
      rw [Apart, ← hs] at this
      omega
    · rw [h.freeNext, hcast, Int.sub_mul _ 1, Int.one_mul]
  · have hzero : G.bump p = 0 := by omega
    have hpos : (0 : ℤ) < g.blockSize p := by exact_mod_cast h.shape.pos
    have hnext : g.freeNext p < 0 := by
      rw [h.freeNext, hzero]
      simpa using hpos
    rw [if_neg (by omega)]
    have hchain := h.freeList
    cases hf : G.free p with
    | nil => exact absurd (hav.resolve_left hb) (by simp [hf])
    | cons a l =>
      rw [hf] at hchain
      obtain ⟨i, hi1, hi2, rfl⟩ := h.free_at a (by rw [hf]; exact List.mem_cons_self)
      refine ⟨i, 0, l, g.freeNext p, links g.mem (G.kind p) (blockAt g p i), ?_,
        ⟨Nat.zero_le _, hi2⟩, fun b hbb e => ?_, Nat.zero_le _, fun x hx => ⟨?_, ?_⟩, ?_, hchain.2,
        ?_⟩
      · simp only [hchain.1, Option.getD_some, Function.update_eq_self]
        rfl
      · exact h.busy_free b hbb (by rw [hf, e]; exact List.mem_cons_self)
      · exact List.mem_cons_of_mem _ hx
      · rintro rfl
        exact (List.nodup_cons.mp hchain.nodup).1 hx
      · rw [h.freeNext, hzero]
      · rw [hzero, List.length_cons]
        omega

variable {k : Kind} {c : ℕ}

/-- A block is taken out of a page; its memory may change. -/
theorem Inv.take (h : Inv g G live none) (hp : p ∈ G.pages) (hav : G.Avail p)
    (hkind : G.kind p = k) {n : ℕ} (hn : sizeclass n = G.cls p ∧ n + k.header ≤ g.blockSize p)
    (memcat : ℕ) {mem : ℕ → Cell}
    (hmem : ∀ x, Outside g p (Mem.takeblock g k p).1 x → mem x = g.mem x)
    (hmeta : k = .plain → mem (Mem.takeblock g k p).1 = .ptr (some p)) :
    ∃ bump free, (∀ b ∈ live, b.start ≠ (Mem.takeblock g k p).1) ∧
      PageOk { (Mem.takeblock g k p).2 with mem := mem } (G.setPage p bump free)
        (insert ⟨(Mem.takeblock g k p).1, k, some p, n, memcat⟩ (blocksOf live p)) p ∧
      ∀ g', (∃ next prev freepages, g' = { (Mem.takeblock g k p).2 with
          mem := mem, next := next, prev := prev, freepages := freepages }) →
        ∀ lists, ListsOk g' { G.setPage p bump free with lists := lists } →
          Inv g' { G.setPage p bump free with lists := lists }
            (insert ⟨(Mem.takeblock g k p).1, k, some p, n, memcat⟩ live) none := by
  subst hkind
  have hok := h.pages p hp
  obtain ⟨i, bump, free, freeNext, freeList, htake, hi, hbusy, hbump, hfree, hnext, hlist, hcount⟩ :=
    hok.takeblock_cases hav
  rw [htake] at hmem hmeta ⊢
  have hstart := h.start_ne hp hi.2 hbusy
  have hpage : ∀ next prev freepages lists, PageOk { g with
        freeNext := Function.update g.freeNext p freeNext
        freeList := Function.update g.freeList p freeList
        busyBlocks := Function.update g.busyBlocks p (g.busyBlocks p + 1)
        mem := mem, next := next, prev := prev, freepages := freepages }
      { G.setPage p bump free with lists := lists }
      (insert ⟨blockAt g p i, G.kind p, some p, n, memcat⟩ (blocksOf live p)) p := by
    intro next prev freepages lists
    refine hok.take (i := i) rfl ?_ hbusy ⟨rfl, rfl⟩ ⟨rfl, rfl⟩ ?_ ?_ ?_ ?_ ?_ ?_ hmem hmeta
      ⟨rfl, rfl, hn⟩
    · simpa [Ghost.setPage] using hi
    · simpa [Ghost.setPage] using hbump
    · simpa [Ghost.setPage] using hfree
    · simpa [Ghost.setPage] using hnext
    · simpa [Ghost.setPage] using hlist
    · simpa [Ghost.setPage] using hcount
    · simp
  refine ⟨bump, free, hstart, hpage g.next g.prev g.freepages G.lists, ?_⟩
  rintro g' ⟨next, prev, freepages, rfl⟩ lists hlists
  have hblocks : blocksOf (insert ⟨blockAt g p i, G.kind p, some p, n, memcat⟩ live) p =
      insert ⟨blockAt g p i, G.kind p, some p, n, memcat⟩ (blocksOf live p) := by
    rw [blocksOf, Finset.filter_insert, if_pos rfl, blocksOf]
  obtain ⟨hle1, hle2⟩ := hok.block_le hi.2
  refine h.of_page hp (hblocks ▸ hpage next prev freepages lists) hlists ⟨rfl, rfl⟩
    (fun q hq => by simp [hq]) (fun x hx => hmem x ?_) ⟨rfl, rfl, rfl⟩ ⟨rfl, rfl, rfl⟩
    ⟨rfl, rfl, rfl, rfl, rfl⟩ (fun q hq => by simp [Ghost.setPage, hq]) (fun b hb => ?_) ?_
  · rw [Outside]
    omega
  · rw [Finset.mem_insert, or_iff_right]
    rintro rfl
    exact hb rfl
  · intro b hb b' hb' e
    rcases Finset.mem_insert.mp hb with rfl | hb <;> rcases Finset.mem_insert.mp hb' with rfl | hb'
    · rfl
    · exact absurd e.symm (hstart b' hb')
    · exact absurd e (hstart b hb)
    · exact h.start_inj b hb b' hb' e

/-- `takeblock` and `unlinkfull` for the first page of a list. -/
theorem Inv.takeblock (h : Inv g G live none) (hp : g.freepages k c = some p) {n : ℕ}
    (hn : sizeclass n = some c) (memcat : ℕ) {mem : ℕ → Cell}
    (hmem : ∀ x, Outside g p (Mem.takeblock g k p).1 x → mem x = g.mem x)
    (hmeta : k = .plain → mem (Mem.takeblock g k p).1 = .ptr (some p)) :
    (∀ b ∈ live, b.start ≠ (Mem.takeblock g k p).1) ∧
      ∃ G', Inv (unlinkfull { (Mem.takeblock g k p).2 with mem := mem } k c p) G'
        (insert ⟨(Mem.takeblock g k p).1, k, some p, n, memcat⟩ live) none ∧
        G'.pages = G.pages := by
  obtain ⟨⟨hpages, hkind, hcls, hav⟩, l, hl⟩ := h.lists.head hp
  have hshape := (h.pages p hpages).shape
  rw [hkind, hcls] at hshape
  have hsize : n + k.header ≤ g.blockSize p := by
    rw [hshape.1]
    have := (sizeclass_spec hn).2.2
    omega
  obtain ⟨bump, free, hstart, hpage, hinv⟩ :=
    h.take hpages hav hkind ⟨hn.trans hcls.symm, hsize⟩ memcat hmem hmeta
  have hsame : (Mem.takeblock g k p).2.next = g.next ∧ (Mem.takeblock g k p).2.prev = g.prev ∧
      (Mem.takeblock g k p).2.freepages = g.freepages ∧
      (Mem.takeblock g k p).2.pagepool = g.pagepool := by
    rw [Mem.takeblock]
    split_ifs
    · exact ⟨rfl, rfl, rfl, rfl⟩
    · exact ⟨rfl, rfl, rfl, rfl⟩
  have hfull := hpage.full_iff
  refine ⟨hstart, ?_⟩
  rw [unlinkfull]
  split_ifs with hf
  · -- no free block is left
    have hna := hfull.mp hf
    rw [Ghost.setPage_avail] at hna
    obtain ⟨rfl, rfl⟩ : bump = 0 ∧ free = [] := by
      constructor
      · by_contra hne
        exact hna (.inl (by omega))
      · by_contra hne
        exact hna (.inr hne)
    refine ⟨_, hinv _ ⟨_, _, _, rfl⟩ (G.setList k c l) ?_, rfl⟩
    refine (h.lists.pop hp hl).congr ?_ ?_ ?_ hsame.2.2.2
    · simp only [hsame.1]
    · simp only [hsame.1, hsame.2.1]
    · simp only [hsame.1, hsame.2.2.1]
  · have ha : (G.setPage p bump free).Avail p := by
      by_contra hna
      exact hf (hfull.mpr hna)
    refine ⟨_, hinv _ ⟨_, _, _, rfl⟩ G.lists ?_, rfl⟩
    exact (h.lists.keep (iff_of_true (Ghost.setPage_avail.mp ha) hav)).congr hsame.1 hsame.2.1
      hsame.2.2.1 hsame.2.2.2

/-! ### Giving a block back -/

theorem readPtr_writePtr (mem : ℕ → Cell) (x : ℕ) (v : Option ℕ) :
    readPtr (writePtr mem x v) x = v := by
  simp [readPtr, writePtr]

theorem writePtr_of_outside {mem : ℕ → Cell} {x y : ℕ} (h : y < x ∨ x + 8 ≤ y) (v : Option ℕ) :
    writePtr mem x v y = mem y := by
  rw [writePtr, if_neg (by omega), if_neg (by omega)]

/-- `linkpage` changes the list of the page. -/
theorem linkpage_eq (g : Global) (k : Kind) (c p : ℕ) : ∃ next prev freepages,
    linkpage g k c p = { g with next := next, prev := prev, freepages := freepages } := by
  rw [linkpage]
  split_ifs
  · exact ⟨_, _, _, rfl⟩
  · exact ⟨_, _, _, rfl⟩

/-- The lists after `linkpage`. -/
theorem Inv.linkpage (h : Inv g G live spare) (hp : p ∈ G.pages) (hkind : G.kind p = k)
    (hcls : G.cls p = some c) (bump : ℕ) (free : List ℕ) (hfree : free ≠ []) :
    ∃ lists, ListsOk (Mem.linkpage g k c p) { G.setPage p bump free with lists := lists } := by
  have hfull := (h.pages p hp).full_iff
  rw [Mem.linkpage]
  split_ifs with hf
  · exact ⟨_, h.lists.push hp hkind hcls (hfull.mp hf) (.inr hfree)⟩
  · have hav : G.Avail p := by
      by_contra hna
      exact hf (hfull.mpr hna)
    exact ⟨G.lists, h.lists.keep (iff_of_true (.inr hfree) hav)⟩

theorem blocksOf_erase (live : Finset Block) (b : Block) (p : ℕ) :
    blocksOf (live.erase b) p = (blocksOf live p).erase b := by
  rw [blocksOf, blocksOf, Finset.filter_erase]

theorem Inv.giveblock (h : Inv g G live none) (hb : b ∈ live) (hp : b.page = some p)
    (hc : sizeclass b.size = some c) :
    ∃ G', Inv (Mem.giveblock g b.kind c b.start p) G' (live.erase b) none ∧
      ∀ q ∈ G'.pages, q ∈ G.pages ∧ (q = p → (blocksOf (live.erase b) q).Nonempty) := by
  obtain ⟨hok, hmem⟩ := h.busy hb hp
  have hpages := h.page_mem b hb p hp
  obtain ⟨hkind, hcls, -⟩ := hok.busy_cls b hmem
  rw [hc] at hcls
  obtain ⟨lists, hlists⟩ := h.linkpage hpages hkind.symm hcls.symm (G.bump p)
    (b.start :: G.free p) (by simp)
  obtain ⟨next, prev, freepages, hlink⟩ := linkpage_eq g b.kind c p
  have hll := hok.shape.link_le
  rw [← hkind] at hll
  rw [Mem.giveblock]
  rw [hlink] at hlists ⊢
  generalize hg' : putblock { g with next := next, prev := prev, freepages := freepages }
    b.kind b.start p = g'
  have hinv : Inv g' { G.setPage p (G.bump p) (b.start :: G.free p) with lists := lists }
      (live.erase b) none := by
    subst hg'
    have hout : ∀ x, Outside g p b.start x →
        writePtr g.mem (b.start + b.kind.linkOffset) (g.freeList p) x = g.mem x := by
      intro x hx
      rw [Outside] at hx
      exact writePtr_of_outside (by omega) _
    obtain ⟨hle1, hle2⟩ := h.block_le hb hp
    refine h.of_page hpages ?_ (hlists.congr rfl rfl rfl rfl) ⟨rfl, rfl⟩
      (fun q hq => by simp [putblock, hq]) (fun x hx => hout x ?_) ⟨rfl, rfl, rfl⟩ ⟨rfl, rfl, rfl⟩
      ⟨rfl, rfl, rfl, rfl, rfl⟩ (fun q hq => by simp [Ghost.setPage, hq]) (fun b' hb' => ?_) ?_
    · rw [blocksOf_erase]
      refine hok.give hmem ⟨rfl, rfl⟩ ⟨rfl, rfl⟩ ?_ ?_ rfl ?_ ?_ ?_ hout ?_
      · simp [Ghost.setPage]
      · simp [Ghost.setPage]
      · simp [putblock]
      · rw [← hkind]
        exact readPtr_writePtr _ _ _
      · simp [putblock]
      · intro b' hb' e
        exact h.start_inj b' (mem_blocksOf.mp hb').1 b hb e
    · simp only [Block.extent, hp] at hle2
      rw [Outside]
      omega
    · rw [Finset.mem_erase, and_iff_right]
      rintro rfl
      exact hb' hp
    · intro b' hb' b'' hb'' e
      exact h.start_inj b' (Finset.mem_of_mem_erase hb') b'' (Finset.mem_of_mem_erase hb'') e
  have hcard := (hinv.pages p hpages).busyBlocks
  split_ifs with hzero
  · -- it was the last block of the page
    rw [hzero] at hcard
    have hempty : blocksOf (live.erase b) p = ∅ :=
      Finset.card_eq_zero.mp (by exact_mod_cast hcard.symm)
    obtain ⟨G', hinv', hG'⟩ := hinv.freeclasspage
      ((hinv.lists.mem_lists _ _ _).mpr ⟨hpages, hkind.symm, hcls.symm,
        Ghost.setPage_avail.mpr (.inr (by simp))⟩)
      fun b' hb' e => Finset.notMem_empty b' (hempty ▸ mem_blocksOf.mpr ⟨hb', e⟩)
    refine ⟨G', hinv', fun q hq => ?_⟩
    rw [hG', Finset.mem_erase] at hq
    exact ⟨hq.2, fun e => absurd e hq.1⟩
  · refine ⟨_, hinv, fun q hq => ⟨hq, ?_⟩⟩
    rintro rfl
    rw [← Finset.card_pos]
    omega

/-! ### Memory of the caller -/

/-- The caller writes to a live block. -/
theorem Inv.write (h : Inv g G live spare) (hb : b ∈ live) {mem : ℕ → Cell}
    (hmem : ∀ x, ¬(b.addr ≤ x ∧ x < b.addr + b.size) → mem x = g.mem x) :
    Inv { g with mem := mem } G live spare := by
  obtain ⟨haddr1, haddr2⟩ := h.addr_le hb
  refine { h with
    pages := fun p hp => ?_
    lists := h.lists.congr rfl rfl rfl rfl }
  have hok := h.pages p hp
  have hlink := hok.shape.link_le
  by_cases hbp : b.page = some p
  · -- only the memory behind the metadata of this block changes
    have hmemb := mem_blocksOf.mpr ⟨hb, hbp⟩
    obtain ⟨i, -, hi, hs⟩ := hok.busy_at b hmemb
    obtain ⟨hkind, -, hsize⟩ := hok.busy_cls b hmemb
    have hother : ∀ j, j ≠ i → ∀ o, o < g.blockSize p →
        mem (blockAt g p j + o) = g.mem (blockAt g p j + o) := by
      intro j hj o ho
      refine hmem _ ?_
      have := blockAt_apart g p hj
      rw [Apart] at this
      simp only [Block.extent, hbp] at haddr2
      omega
    refine { hok with freeList := ?_, busy_meta := ?_ }
    · refine hok.freeList.congr fun x hx => readPtr_congr ?_
      obtain ⟨j, -, -, rfl⟩ := hok.free_at x hx
      refine hother j (fun e => hok.busy_free b hmemb ?_) _ (by omega)
      rw [hs, ← e]
      exact hx
    · intro b' hb' hplain
      obtain ⟨j, -, -, hj⟩ := hok.busy_at b' hb'
      refine Eq.trans ?_ (hok.busy_meta b' hb' hplain)
      by_cases hji : j = i
      · obtain rfl : b' = b := h.start_inj b' (mem_blocksOf.mp hb').1 b hb (by rw [hj, hs, hji])
        refine hmem _ ?_
        have : b'.addr = b'.start + 8 := by
          simp [Block.addr, hbp, hplain, Kind.header, kBlockHeader]
        omega
      · have := hother j hji 0 hok.shape.pos
        rwa [Nat.add_zero, ← hj] at this
  · -- the page does not change
    refine hok.congr rfl rfl rfl rfl rfl (fun x hx1 hx2 => hmem x fun hx => ?_) rfl rfl rfl rfl
    obtain ⟨y, hy, hy1, hy2, hy3, hy4⟩ := h.block_sys hb
    have hne : y ≠ (p, g.pageSize p) := by
      intro e
      cases hq : b.page with
      | none =>
        exact (h.large b hb hq).2.2.1 ((Prod.mk.inj ((hy3 hq).symm.trans e)).1 ▸ hp)
      | some q =>
        have := (Prod.mk.inj ((hy4 q hq).symm.trans e)).1
        exact hbp (by rw [hq, this])
    have := h.sys_apart y hy _ (h.page_sys hp) hne
    rw [Apart] at this
    simp only at this
    omega

end Mem

end Jaci
