import Jaci.Mem.Lists

/-!
# Pages and large blocks

Memory that `frealloc` has given out, or that was taken from a pool, is first spare; then it
becomes a page or a large block.  Memory that is given back goes the other way.

* `Inv.sys_insert`, `Inv.sysfree` : between `frealloc` and spare memory;
* `Inv.pool_take`, `Inv.pool_put` : between a pool and spare memory;
* `Inv.adopt`, `Inv.drop` : between spare memory and large blocks;
* `Inv.open_page`, `Inv.close_page` : between spare memory and pages.
-/

namespace Jaci

namespace Mem

open Linked

/-- The answers of `frealloc` are disjoint from what it has given out. -/
def Fresh (sys : Finset (ℕ × ℕ)) (f : ℕ → Option ℕ) : Prop :=
  ∀ n p, 0 < n → f n = some p → ∀ x ∈ sys, Apart p n x.1 x.2

variable {g : Global} {G : Ghost} {live : Finset Block} {spare : Option (ℕ × ℕ)} {p n : ℕ}

/-! ### Spare memory -/

/-- `frealloc` gives out new memory. -/
theorem Inv.sys_insert (h : Inv g G live none) (hn : 0 < n)
    (hfresh : ∀ x ∈ g.sys, Apart p n x.1 x.2) :
    Inv { g with sys := insert (p, n) g.sys } G live (some (p, n)) := by
  have hstart : ∀ x ∈ g.sys, x.1 ≠ p := by
    rintro x hx rfl
    have h1 := hfresh x hx
    have h2 := h.sys_pos x hx
    rw [Apart] at h1
    omega
  refine { h with
    pages := fun q hq => (h.pages q hq).congr rfl rfl rfl rfl rfl (fun _ _ _ => rfl) rfl rfl rfl rfl
    lists := h.lists.congr rfl rfl rfl rfl
    sys := fun x => ?_
    sys_apart := ?_
    sys_pos := ?_
    spare_pages := ?_ }
  · rw [Finset.mem_insert, h.sys x, Option.some.injEq, eq_comm (a := (p, n)) (b := x)]
    simp only [reduceCtorEq, or_false]
    rw [or_comm, or_assoc, or_assoc]
  · intro x hx y hy hne
    rcases Finset.mem_insert.mp hx with rfl | hx <;> rcases Finset.mem_insert.mp hy with rfl | hy
    · exact absurd rfl hne
    · exact hfresh y hy
    · exact (hfresh x hx).symm
    · exact h.sys_apart x hx y hy hne
  · intro x hx
    rcases Finset.mem_insert.mp hx with rfl | hx
    · exact hn
    · exact h.sys_pos x hx
  · rintro x hx
    obtain rfl := Option.some.inj hx
    exact ⟨fun hp => hstart _ (h.page_sys hp) rfl, fun k hk => hstart _ (h.pool_sys hk) rfl,
      fun b hb hb' => hstart _ (h.large_sys hb hb')⟩

/-- `frealloc` gets spare memory back. -/
theorem Inv.sysfree (h : Inv g G live (some (p, n))) : Inv (sysfree g (some p) n) G live none := by
  have hmem : (p, n) ∈ g.sys := h.spare_sys
  obtain ⟨hpages, hpools, hlarge⟩ := h.spare_pages _ rfl
  simp only [Mem.sysfree, if_pos hmem]
  refine { h with
    pages := fun q hq => (h.pages q hq).congr rfl rfl rfl rfl rfl (fun _ _ _ => rfl) rfl rfl rfl rfl
    lists := h.lists.congr rfl rfl rfl rfl
    sys := fun x => ?_
    sys_apart := fun x hx y hy =>
      h.sys_apart x (Finset.mem_of_mem_erase hx) y (Finset.mem_of_mem_erase hy)
    sys_pos := fun x hx => h.sys_pos x (Finset.mem_of_mem_erase hx)
    spare_pages := by simp }
  rw [Finset.mem_erase, h.sys x]
  constructor
  · rintro ⟨hne, hx | hx | hx | hx⟩
    · exact .inl hx
    · exact .inr (.inl hx)
    · exact .inr (.inr (.inl hx))
    · exact absurd (Option.some.inj hx).symm hne
  · rintro (hx | hx | hx | hx)
    · refine ⟨?_, .inl hx⟩
      obtain ⟨q, hq, rfl⟩ := hx
      exact fun e => hpages ((Prod.mk.inj e).1 ▸ hq)
    · refine ⟨?_, .inr (.inl hx)⟩
      obtain ⟨k, q, hq, rfl⟩ := hx
      exact fun e => hpools k ((Prod.mk.inj e).1 ▸ hq)
    · refine ⟨?_, .inr (.inr (.inl hx))⟩
      obtain ⟨b, hb, hb', rfl⟩ := hx
      exact fun e => hlarge b hb hb' (Prod.mk.inj e).1
    · exact absurd hx (by simp)

/-- Spare memory becomes a large block. -/
theorem Inv.adopt (h : Inv g G live (some (p, n))) (hn : sizeclass n = none) (memcat : ℕ)
    (hstart : ∀ b ∈ live, b.start ≠ p) :
    Inv g G (insert ⟨p, .plain, none, n, memcat⟩ live) none := by
  obtain ⟨hpages, hpools, hlarge⟩ := h.spare_pages _ rfl
  have hblocks : ∀ q, blocksOf (insert ⟨p, .plain, none, n, memcat⟩ live) q = blocksOf live q := by
    intro q
    rw [blocksOf, Finset.filter_insert, if_neg (by simp), blocksOf]
  refine { h with
    pages := fun q hq => by rw [hblocks]; exact h.pages q hq
    sys := fun x => ?_
    large := ?_
    page_mem := ?_
    start_inj := ?_
    spare_pages := by simp }
  · rw [h.sys x]
    simp only [Finset.mem_insert, exists_eq_or_imp, true_and, Option.some.injEq, reduceCtorEq,
      or_false]
    rw [eq_comm (a := (p, n)) (b := x), or_comm (a := x = (p, n))]
  · intro b hb hb'
    rcases Finset.mem_insert.mp hb with rfl | hb
    · exact ⟨rfl, hn, hpages, hpools⟩
    · exact h.large b hb hb'
  · intro b hb q hq
    rcases Finset.mem_insert.mp hb with rfl | hb
    · exact absurd hq (by simp)
    · exact h.page_mem b hb q hq
  · intro b hb b' hb' e
    rcases Finset.mem_insert.mp hb with rfl | hb <;> rcases Finset.mem_insert.mp hb' with rfl | hb'
    · rfl
    · exact absurd e.symm (hstart b' hb')
    · exact absurd e (hstart b hb)
    · exact h.start_inj b hb b' hb' e

/-- A large block becomes spare memory. -/
theorem Inv.drop (h : Inv g G live none) {b : Block} (hb : b ∈ live) (hp : b.page = none) :
    Inv g G (live.erase b) (some (b.start, b.size)) := by
  obtain ⟨-, -, hpages, hpools⟩ := h.large b hb hp
  have hblocks : ∀ q, blocksOf (live.erase b) q = blocksOf live q := by
    intro q
    rw [blocksOf, Finset.filter_erase, Finset.erase_eq_of_notMem, blocksOf]
    simp [hp]
  refine { h with
    pages := fun q hq => by rw [hblocks]; exact h.pages q hq
    sys := fun x => ?_
    large := fun b' hb' => h.large b' (Finset.mem_of_mem_erase hb')
    page_mem := fun b' hb' => h.page_mem b' (Finset.mem_of_mem_erase hb')
    start_inj := fun b' hb' b'' hb'' =>
      h.start_inj b' (Finset.mem_of_mem_erase hb') b'' (Finset.mem_of_mem_erase hb'')
    spare_pages := ?_ }
  · rw [h.sys x]
    constructor
    · rintro (hx | hx | ⟨b', hb', hp', rfl⟩ | hx)
      · exact .inl hx
      · exact .inr (.inl hx)
      · by_cases e : b' = b
        · rw [e]
          exact .inr (.inr (.inr rfl))
        · exact .inr (.inr (.inl ⟨b', Finset.mem_erase.mpr ⟨e, hb'⟩, hp', rfl⟩))
      · exact absurd hx (by simp)
    · rintro (hx | hx | ⟨b', hb', hp', rfl⟩ | hx)
      · exact .inl hx
      · exact .inr (.inl hx)
      · exact .inr (.inr (.inl ⟨b', Finset.mem_of_mem_erase hb', hp', rfl⟩))
      · exact .inr (.inr (.inl ⟨b, hb, hp, (Option.some.inj hx).symm⟩))
  · rintro x hx
    obtain rfl := Option.some.inj hx
    refine ⟨hpages, hpools, fun b' hb' _ e => ?_⟩
    obtain ⟨hne, hb''⟩ := Finset.mem_erase.mp hb'
    exact hne (h.start_inj b' hb'' b hb e)

/-! ### The header of spare memory -/

variable {g' : Global}

/-- The header of memory that is no page and in no pool does not matter. -/
theorem Inv.of_header (h : Inv g G live spare) (hpages : p ∉ G.pages) (hpools : ∀ k, p ∉ G.pool k)
    (hlinks : ∀ q, q ≠ p → g'.next q = g.next q ∧ g'.prev q = g.prev q ∧
      g'.listnext q = g.listnext q ∧ g'.listprev q = g.listprev q)
    (hfields : ∀ q, q ≠ p → g'.pageSize q = g.pageSize q ∧ g'.blockSize q = g.blockSize q ∧
      g'.freeList q = g.freeList q ∧ g'.freeNext q = g.freeNext q ∧
      g'.busyBlocks q = g.busyBlocks q)
    (hmem : g'.mem = g.mem) (hheads : g'.freepages = g.freepages ∧ g'.allgcopages = g.allgcopages ∧
      g'.pagepool = g.pagepool ∧ g'.pagepool_size = g.pagepool_size)
    (hsys : g'.sys = g.sys ∧ g'.fault = g.fault) : Inv g' G live spare := by
  have hpage : ∀ q ∈ G.pages, q ≠ p := fun q hq e => hpages (e ▸ hq)
  have hpool : ∀ k, ∀ q ∈ G.pool k, q ≠ p := fun k q hq e => hpools k (e ▸ hq)
  have hlist : ∀ k c, ∀ q ∈ G.lists k c, q ≠ p := fun k c q hq =>
    hpage q ((h.lists.mem_lists _ _ _).mp hq).1
  have hall : ∀ q ∈ G.all, q ≠ p := fun q hq => hpage q ((h.mem_all q).mp hq).1
  refine { h with
    pages := fun q hq => ?_
    lists := ⟨fun k c => ?_, h.lists.mem_lists, fun q hq hna => ?_, fun k => ?_,
      h.lists.pool_pages⟩
    all := ?_
    pool_size := ?_
    pool_pageSize := fun k q hq => ?_
    sys := fun x => ?_
    sys_apart := by rw [hsys.1]; exact h.sys_apart
    sys_pos := by rw [hsys.1]; exact h.sys_pos
    no_fault := by rw [hsys.2]; exact h.no_fault }
  · obtain ⟨h1, h2, h3, h4, h5⟩ := hfields q (hpage q hq)
    exact (h.pages q hq).congr h1 h2 h3 h4 h5 (fun _ _ _ => by rw [hmem]) rfl rfl rfl rfl
  · rw [hheads.1]
    exact (h.lists.lists k c).congr (fun q hq => (hlinks q (hlist k c q hq)).1)
      fun q hq => (hlinks q (hlist k c q hq)).2.1
  · rw [(hlinks q (hpage q hq)).2.1]
    exact h.lists.unlisted q hq hna
  · rw [hheads.2.2.1]
    exact (h.lists.pool k).congr fun q hq => (hlinks q (hpool k q hq)).1
  · rw [hheads.2.1]
    exact h.all.congr (fun q hq => (hlinks q (hall q hq)).2.2.1)
      fun q hq => (hlinks q (hall q hq)).2.2.2
  · rw [hheads.2.2.2]
    exact h.pool_size
  · rw [(hfields q (hpool k q hq)).1]
    exact h.pool_pageSize k q hq
  · have hsize : ∀ q ∈ G.pages, g'.pageSize q = g.pageSize q := fun q hq =>
      (hfields q (hpage q hq)).1
    rw [hsys.1, h.sys x]
    refine or_congr_left ⟨?_, ?_⟩
    · rintro ⟨q, hq, rfl⟩
      exact ⟨q, hq, by rw [hsize q hq]⟩
    · rintro ⟨q, hq, rfl⟩
      exact ⟨q, hq, by rw [hsize q hq]⟩

/-- The header of a new page. -/
theorem Inv.initpage (h : Inv g G live (some (p, n))) (pageSize blockSize blockCount : ℕ) :
    Inv (initpage g p pageSize blockSize blockCount) G live (some (p, n)) := by
  obtain ⟨hpages, hpools, -⟩ := h.spare_pages _ rfl
  refine h.of_header hpages hpools (fun q hq => ?_) (fun q hq => ?_) rfl ⟨rfl, rfl, rfl, rfl⟩
    ⟨rfl, rfl⟩
  · simp [Mem.initpage, hq]
  · simp [Mem.initpage, hq]

/-! ### Pools -/

theorem Pool.pageSize_inj {k k' : Pool} (h : k.pageSize = k'.pageSize) : k = k' := by
  revert h
  cases k <;> cases k' <;> decide

theorem poolOf_eq_some {k : Pool} : poolOf n = some k ↔ n = k.pageSize := by
  rw [poolOf]
  cases k with
  | small =>
    split_ifs with h1 h2
    · simp [Pool.pageSize, h1]
    · simpa [Pool.pageSize] using h1
    · simpa [Pool.pageSize] using h1
  | large =>
    split_ifs with h1 h2
    · subst h1
      decide
    · simp [Pool.pageSize, h2]
    · simpa [Pool.pageSize] using h2

/-- The first page is taken out of a pool. -/
theorem Inv.pool_take (h : Inv g G live none) {k : Pool} (hp : g.pagepool k = some p) :
    ∃ pool, Inv { g with
      pagepool := Function.update g.pagepool k (g.next p)
      pagepool_size := Function.update g.pagepool_size k (g.pagepool_size k - 1) }
      { G with pool := pool } live (some (p, k.pageSize)) := by
  have hchain := h.lists.pool k
  rw [hp] at hchain
  obtain ⟨l, hl⟩ : ∃ l, G.pool k = p :: l := by
    cases hl : G.pool k with
    | nil =>
      rw [hl] at hchain
      exact absurd (chain_nil.mp hchain) (by simp)
    | cons q l =>
      rw [hl] at hchain
      exact ⟨l, by rw [Option.some.inj hchain.1]⟩
  rw [hl] at hchain
  have hpl : p ∉ l := (List.nodup_cons.mp hchain.nodup).1
  have hmem : p ∈ G.pool k := by rw [hl]; exact List.mem_cons_self
  have hsub : ∀ k', ∀ q ∈ Function.update G.pool k l k', q ∈ G.pool k' ∧ q ≠ p := by
    intro k' q hq
    by_cases hk : k' = k
    · subst hk
      rw [Function.update_self] at hq
      rw [hl]
      exact ⟨List.mem_cons_of_mem p hq, fun e => hpl (e ▸ hq)⟩
    · rw [Function.update_of_ne hk] at hq
      refine ⟨hq, ?_⟩
      rintro rfl
      exact hk (Pool.pageSize_inj ((h.pool_pageSize _ _ hq).symm.trans (h.pool_pageSize _ _ hmem)))
  refine ⟨Function.update G.pool k l, { h with
    pages := fun q hq => (h.pages q hq).congr rfl rfl rfl rfl rfl (fun _ _ _ => rfl) rfl rfl rfl rfl
    lists := ⟨h.lists.lists, h.lists.mem_lists, h.lists.unlisted, fun k' => ?_,
      fun k' q hq => h.lists.pool_pages k' q (hsub k' q hq).1⟩
    pool_size := fun k' => ?_
    pool_pageSize := fun k' q hq => h.pool_pageSize k' q (hsub k' q hq).1
    sys := fun x => ?_
    large := fun b hb hb' => ?_
    spare_pages := ?_ }⟩
  · by_cases hk : k' = k
    · subst hk
      simp only [Function.update_self]
      exact hchain.2
    · simp only [Function.update_of_ne hk]
      exact h.lists.pool k'
  · obtain ⟨h1, h2⟩ := h.pool_size k'
    by_cases hk : k' = k
    · subst hk
      rw [hl, List.length_cons] at h1
      simp only [Function.update_self]
      omega
    · simp only [Function.update_of_ne hk]
      exact ⟨h1, h2⟩
  · rw [h.sys x]
    refine or_congr_right ⟨?_, ?_⟩
    · rintro (⟨k', q, hq, rfl⟩ | hx | hx)
      · by_cases hqp : q = p
        · subst hqp
          have hk : k' = k := Pool.pageSize_inj
            ((h.pool_pageSize _ _ hq).symm.trans (h.pool_pageSize _ _ hmem))
          exact .inr (.inr (by rw [hk]))
        · refine .inl ⟨k', q, ?_, rfl⟩
          by_cases hk : k' = k
          · subst hk
            simp only [Function.update_self]
            exact (List.mem_cons.mp (hl ▸ hq)).resolve_left hqp
          · simp only [Function.update_of_ne hk]
            exact hq
      · exact .inr (.inl hx)
      · exact absurd hx (by simp)
    · rintro (⟨k', q, hq, rfl⟩ | hx | hx)
      · exact .inl ⟨k', q, (hsub k' q hq).1, rfl⟩
      · exact .inr (.inl hx)
      · exact .inl ⟨k, p, hmem, (Option.some.inj hx).symm⟩
  · obtain ⟨h1, h2, h3, h4⟩ := h.large b hb hb'
    exact ⟨h1, h2, h3, fun k' hm => h4 k' (hsub k' _ hm).1⟩
  · rintro x hx
    obtain rfl := Option.some.inj hx
    exact ⟨h.lists.pool_pages k p hmem, fun k' hm => (hsub k' _ hm).2 rfl,
      fun b hb hb' e => (h.large b hb hb').2.2.2 k (e ▸ hmem)⟩

/-- A page is put into a pool. -/
theorem Inv.pool_put (h : Inv g G live (some (p, g.pageSize p))) {k : Pool}
    (hsize : g.pageSize p = k.pageSize) (hmax : g.pagepool_size k < k.max) :
    Inv { g with
      next := Function.update g.next p (g.pagepool k)
      prev := Function.update g.prev p none
      listnext := Function.update g.listnext p none
      listprev := Function.update g.listprev p none
      pagepool := Function.update g.pagepool k (some p)
      pagepool_size := Function.update g.pagepool_size k (g.pagepool_size k + 1) }
      { G with pool := Function.update G.pool k (p :: G.pool k) } live none := by
  obtain ⟨hpages, hpools, hlarge⟩ := h.spare_pages _ rfl
  -- the links of the page do not matter yet
  have hinv : Inv { g with
      next := Function.update g.next p (g.pagepool k)
      prev := Function.update g.prev p none
      listnext := Function.update g.listnext p none
      listprev := Function.update g.listprev p none } G live (some (p, g.pageSize p)) :=
    h.of_header hpages hpools (fun q hq => by simp [hq]) (fun _ _ => ⟨rfl, rfl, rfl, rfl, rfl⟩) rfl
      ⟨rfl, rfl, rfl, rfl⟩ ⟨rfl, rfl⟩
  have hmem : ∀ k' q, q ∈ Function.update G.pool k (p :: G.pool k) k' ↔
      (k' = k ∧ q = p) ∨ q ∈ G.pool k' := by
    intro k' q
    by_cases hk : k' = k
    · subst hk
      simp
    · simp [hk]
  refine { hinv with
    pages := fun q hq =>
      (hinv.pages q hq).congr rfl rfl rfl rfl rfl (fun _ _ _ => rfl) rfl rfl rfl rfl
    lists := ⟨hinv.lists.lists, hinv.lists.mem_lists, hinv.lists.unlisted, fun k' => ?_,
      fun k' q hq => ?_⟩
    pool_size := fun k' => ?_
    pool_pageSize := fun k' q hq => ?_
    sys := fun x => ?_
    large := fun b hb hb' => ?_
    spare_pages := by simp }
  · by_cases hk : k' = k
    · subst hk
      simp only [Function.update_self]
      exact (h.lists.pool k').push (hpools k')
    · simp only [Function.update_of_ne hk]
      exact hinv.lists.pool k'
  · rcases (hmem k' q).mp hq with ⟨-, rfl⟩ | hq
    · exact hpages
    · exact h.lists.pool_pages k' q hq
  · obtain ⟨h1, h2⟩ := h.pool_size k'
    by_cases hk : k' = k
    · subst hk
      simp only [Function.update_self, List.length_cons]
      omega
    · simp only [Function.update_of_ne hk]
      exact ⟨h1, h2⟩
  · rcases (hmem k' q).mp hq with ⟨rfl, rfl⟩ | hq
    · exact hsize
    · exact h.pool_pageSize k' q hq
  · rw [hinv.sys x]
    refine or_congr_right ⟨?_, ?_⟩
    · rintro (⟨k', q, hq, rfl⟩ | hx | hx)
      · exact .inl ⟨k', q, (hmem k' q).mpr (.inr hq), rfl⟩
      · exact .inr (.inl hx)
      · exact .inl ⟨k, p, (hmem k p).mpr (.inl ⟨rfl, rfl⟩), by rw [← Option.some.inj hx, hsize]⟩
    · rintro (⟨k', q, hq, rfl⟩ | hx | hx)
      · rcases (hmem k' q).mp hq with ⟨rfl, rfl⟩ | hq
        · exact .inr (.inr (by rw [hsize]))
        · exact .inl ⟨k', q, hq, rfl⟩
      · exact .inr (.inl hx)
      · exact absurd hx (by simp)
  · obtain ⟨h1, h2, h3, h4⟩ := h.large b hb hb'
    refine ⟨h1, h2, h3, fun k' hm => ?_⟩
    rcases (hmem k' _).mp hm with ⟨-, e⟩ | hm
    · exact hlarge b hb hb' e
    · exact h4 k' hm

/-- A page that is not in use goes to a pool or back to `frealloc`. -/
theorem Inv.retirepage (h : Inv g G live (some (p, g.pageSize p))) :
    ∃ pool, Inv (retirepage g p) { G with pool := pool } live none := by
  rw [Mem.retirepage]
  cases hk : poolOf (g.pageSize p) with
  | none => exact ⟨G.pool, h.sysfree⟩
  | some k =>
    simp only
    split_ifs with hmax
    · exact ⟨_, h.pool_put (poolOf_eq_some.mp hk) hmax⟩
    · exact ⟨G.pool, h.sysfree⟩

/-- The counters are not changed. -/
def SameCounters (g g' : Global) : Prop :=
  g'.totalbytes = g.totalbytes ∧ g'.memcatbytes = g.memcatbytes

/-- `takepage` gives spare memory, or leaves the state as it is. -/
theorem Inv.takepage (h : Inv g G live none) {fr : Frealloc} (hfresh : Fresh g.sys fr.new)
    (hn : 0 < n) : Mem.takepage fr g n = (none, g) ∨
      ∃ p pool g₁, Mem.takepage fr g n = (some p, g₁) ∧
        Inv g₁ { G with pool := pool } live (some (p, n)) ∧ g₁.freepages = g.freepages ∧
        g₁.mem = g.mem ∧ SameCounters g g₁ := by
  rw [Mem.takepage]
  cases hk : (poolOf n).bind fun k => (g.pagepool k).map fun page => (k, page) with
  | none =>
    simp only [sysnew, if_neg hn.ne']
    cases hp : fr.new n with
    | none => exact .inl rfl
    | some p =>
      exact .inr ⟨p, G.pool, _, rfl, h.sys_insert hn (hfresh n p hn hp), rfl, rfl, rfl, rfl⟩
  | some kp =>
    obtain ⟨k, p⟩ := kp
    obtain ⟨k', hk', hp⟩ := Option.bind_eq_some_iff.mp hk
    obtain ⟨q, hq, e⟩ := Option.map_eq_some_iff.mp hp
    obtain ⟨rfl, rfl⟩ := Prod.mk.inj e
    obtain ⟨pool, hinv⟩ := h.pool_take hq
    rw [poolOf_eq_some.mp hk']
    exact .inr ⟨q, pool, _, rfl, hinv, rfl, rfl, rfl, rfl⟩

/-! ### Pages -/

/-- A new page, all blocks of which were never used. -/
theorem PageOk.init {k : Kind} {cls : Option ℕ} {ps bs : ℕ} (count : ℕ)
    (hshape : Shape k cls ps bs) (hcount : count = (ps - dataOffset) / bs) (hg : g.pageSize p = ps ∧ g.blockSize p = bs ∧
      g.freeList p = none ∧ g.freeNext p = ((count : ℤ) - 1) * bs ∧ g.busyBlocks p = 0) {G' : Ghost}
    (hG : G'.kind p = k ∧ G'.cls p = cls ∧ G'.bump p = count ∧ G'.free p = []) :
    PageOk g G' ∅ p := by
  obtain ⟨h1, h2, h3, h4, h5⟩ := hg
  obtain ⟨h6, h7, h8, h9⟩ := hG
  have hc : blockCount g p = count := by rw [blockCount, h1, h2, hcount]
  exact ⟨by rw [h6, h7, h1, h2]; exact hshape, by rw [h4, h8, h2], by rw [h9]; exact h3,
    by rw [h9]; simp, by simp, by simp, by simp, by simp, by rw [h8, h9, hc]; simp,
    by rw [h5]; simp⟩

/-- Spare memory becomes a page. -/
theorem Inv.open_page (h : Inv g G live (some (p, n))) {k : Kind} {G' : Ghost}
    (hG : ∃ cls bump lists all, G' = { G.addPage p k cls bump with lists := lists, all := all })
    (hpage : PageOk g' G' ∅ p) (hsize : g'.pageSize p = n) (hlists : ListsOk g' G')
    (hfields : ∀ q, q ≠ p → g'.pageSize q = g.pageSize q ∧ g'.blockSize q = g.blockSize q ∧
      g'.freeList q = g.freeList q ∧ g'.freeNext q = g.freeNext q ∧
      g'.busyBlocks q = g.busyBlocks q)
    (hmem : g'.mem = g.mem) (hall : Doubly g'.listnext g'.listprev g'.allgcopages G'.all)
    (hmemall : ∀ q, q ∈ G'.all ↔ q ∈ G.all ∨ (k = .gco ∧ q = p))
    (hpool : g'.pagepool_size = g.pagepool_size) (hsys : g'.sys = g.sys ∧ g'.fault = g.fault) :
    Inv g' G' live none := by
  obtain ⟨cls, bump, lists, all, rfl⟩ := hG
  obtain ⟨hpages, hpools, hlarge⟩ := h.spare_pages _ rfl
  have hpage' : ∀ q ∈ G.pages, q ≠ p := fun q hq e => hpages (e ▸ hq)
  have hsame : ∀ q, q ≠ p → Function.update G.kind p k q = G.kind q := fun q hq =>
    Function.update_of_ne hq _ _
  have hblocks : blocksOf live p = ∅ := by
    refine Finset.filter_eq_empty_iff.mpr fun b hb hb' => hpages (h.page_mem b hb p hb')
  refine { h with
    pages := fun q hq => ?_
    lists := hlists
    all := hall
    mem_all := fun q => ?_
    pool_size := fun j => by rw [hpool]; exact h.pool_size j
    pool_pageSize := fun j q hq => ?_
    sys := fun x => ?_
    sys_apart := by rw [hsys.1]; exact h.sys_apart
    sys_pos := by rw [hsys.1]; exact h.sys_pos
    large := fun b hb hb' => ?_
    page_mem := fun b hb q hq => Finset.mem_insert_of_mem (h.page_mem b hb q hq)
    spare_pages := by simp
    no_fault := by rw [hsys.2]; exact h.no_fault }
  · by_cases hqp : q = p
    · subst hqp
      rw [hblocks]
      exact hpage
    · obtain ⟨h1, h2, h3, h4, h5⟩ := hfields q hqp
      exact (h.pages q ((Finset.mem_insert.mp hq).resolve_left hqp)).congr h1 h2 h3 h4 h5
        (fun _ _ _ => by rw [hmem]) (hsame q hqp) (Function.update_of_ne hqp _ _)
        (Function.update_of_ne hqp _ _) (Function.update_of_ne hqp _ _)
  · rw [hmemall, h.mem_all]
    by_cases hqp : q = p
    · subst hqp
      simp [Ghost.addPage, hpages]
    · simp [Ghost.addPage, hqp]
  · rw [(hfields q fun e => hpools j (e ▸ hq)).1]
    exact h.pool_pageSize j q hq
  · rw [hsys.1, h.sys x]
    constructor
    · rintro (⟨q, hq, rfl⟩ | hx | hx | hx)
      · exact .inl ⟨q, Finset.mem_insert_of_mem hq, by rw [(hfields q (hpage' q hq)).1]⟩
      · exact .inr (.inl hx)
      · exact .inr (.inr (.inl hx))
      · exact .inl ⟨p, Finset.mem_insert_self _ _, by rw [hsize, Option.some.inj hx]⟩
    · rintro (⟨q, hq, rfl⟩ | hx | hx | hx)
      · rcases Finset.mem_insert.mp hq with rfl | hq
        · exact .inr (.inr (.inr (by rw [hsize])))
        · exact .inl ⟨q, hq, by rw [(hfields q (hpage' q hq)).1]⟩
      · exact .inr (.inl hx)
      · exact .inr (.inr (.inl hx))
      · exact absurd hx (by simp)
  · obtain ⟨h1, h2, h3, h4⟩ := h.large b hb hb'
    refine ⟨h1, h2, fun hm => ?_, h4⟩
    rcases Finset.mem_insert.mp hm with e | hm
    · exact hlarge b hb hb' e
    · exact h3 hm

/-- A page becomes spare memory, and its blocks are not live any more. -/
theorem Inv.close_page (h : Inv g G live none) (hp : p ∈ G.pages) (g' : Global)
    (live' : Finset Block) (hlive : ∀ b, b ∈ live' ↔ b ∈ live ∧ b.page ≠ some p)
    (lists : Kind → ℕ → List ℕ) (all : List ℕ)
    (hlists : ListsOk g' { G with pages := G.pages.erase p, lists := lists, all := all })
    (hfields : g'.pageSize = g.pageSize ∧ g'.blockSize = g.blockSize ∧ g'.freeList = g.freeList ∧
      g'.freeNext = g.freeNext ∧ g'.busyBlocks = g.busyBlocks ∧ g'.mem = g.mem)
    (hall : Doubly g'.listnext g'.listprev g'.allgcopages all)
    (hmemall : ∀ q, q ∈ all ↔ q ∈ G.all ∧ q ≠ p)
    (hpool : g'.pagepool_size = g.pagepool_size) (hsys : g'.sys = g.sys ∧ g'.fault = g.fault) :
    Inv g' { G with pages := G.pages.erase p, lists := lists, all := all } live'
      (some (p, g'.pageSize p)) := by
  obtain ⟨h1, h2, h3, h4, h5, h6⟩ := hfields
  have hof : ∀ q, q ≠ p → blocksOf live' q = blocksOf live q := by
    intro q hq
    ext b
    rw [mem_blocksOf, mem_blocksOf, hlive b]
    refine and_congr_left fun hb => and_iff_left fun e => hq ?_
    exact Option.some.inj (hb.symm.trans e)
  refine { h with
    pages := fun q hq => ?_
    lists := hlists
    all := hall
    mem_all := fun q => ?_
    pool_size := fun j => by rw [hpool]; exact h.pool_size j
    pool_pageSize := by rw [h1]; exact h.pool_pageSize
    sys := fun x => ?_
    sys_apart := by rw [hsys.1]; exact h.sys_apart
    sys_pos := by rw [hsys.1]; exact h.sys_pos
    large := fun b hb hb' => ?_
    page_mem := fun b hb q hq => ?_
    start_inj := fun b hb b' hb' =>
      h.start_inj b ((hlive b).mp hb).1 b' ((hlive b').mp hb').1
    spare_pages := ?_
    no_fault := by rw [hsys.2]; exact h.no_fault }
  · rw [hof q (Finset.mem_erase.mp hq).1]
    exact (h.pages q (Finset.mem_of_mem_erase hq)).congr (by rw [h1]) (by rw [h2]) (by rw [h3])
      (by rw [h4]) (by rw [h5]) (fun _ _ _ => by rw [h6]) rfl rfl rfl rfl
  · simp only [hmemall, h.mem_all, Finset.mem_erase]
    tauto
  · have hlarge : (∃ b ∈ live', b.page = none ∧ x = (b.start, b.size)) ↔
        ∃ b ∈ live, b.page = none ∧ x = (b.start, b.size) :=
      exists_congr fun b => by
        rw [hlive b]
        constructor
        · rintro ⟨⟨hb, -⟩, hb', rfl⟩
          exact ⟨hb, hb', rfl⟩
        · rintro ⟨hb, hb', rfl⟩
          exact ⟨⟨hb, by simp [hb']⟩, hb', rfl⟩
    rw [hsys.1, h.sys x, h1, hlarge]
    constructor
    · rintro (⟨q, hq, rfl⟩ | hx | hx | hx)
      · by_cases hqp : q = p
        · exact .inr (.inr (.inr (by rw [hqp])))
        · exact .inl ⟨q, Finset.mem_erase.mpr ⟨hqp, hq⟩, rfl⟩
      · exact .inr (.inl hx)
      · exact .inr (.inr (.inl hx))
      · exact absurd hx (by simp)
    · rintro (⟨q, hq, rfl⟩ | hx | hx | hx)
      · exact .inl ⟨q, Finset.mem_of_mem_erase hq, rfl⟩
      · exact .inr (.inl hx)
      · exact .inr (.inr (.inl hx))
      · exact .inl ⟨p, hp, (Option.some.inj hx).symm⟩
  · obtain ⟨h1, h2, h3, h4⟩ := h.large b ((hlive b).mp hb).1 hb'
    exact ⟨h1, h2, fun hm => h3 (Finset.mem_of_mem_erase hm), h4⟩
  · obtain ⟨hb, hbp⟩ := (hlive b).mp hb
    refine Finset.mem_erase.mpr ⟨?_, h.page_mem b hb q hq⟩
    rintro rfl
    exact hbp hq
  · rintro x hx
    obtain rfl := Option.some.inj hx
    exact ⟨by simp, fun j hj => h.lists.pool_pages j p hj hp,
      fun b hb hb' e => (h.large b ((hlive b).mp hb).1 hb').2.2.1 (e ▸ hp)⟩

/-! ### New pages and pages given up -/

variable {k : Kind} {c : ℕ}

/-- A page is added to the list of all pages of collectable objects, or not. -/
theorem Inv.pageset (h : Inv g G live (some (p, n))) (hprev : g.listprev p = none)
    (pageset : Bool) : ∃ listnext listprev allgcopages all,
      (if pageset then addpage g p else g) =
        { g with listnext := listnext, listprev := listprev, allgcopages := allgcopages } ∧
      Doubly listnext listprev allgcopages all ∧
      ∀ q, q ∈ all ↔ q ∈ G.all ∨ (pageset = true ∧ q = p) := by
  cases pageset with
  | false => exact ⟨_, _, _, G.all, rfl, h.all, by simp⟩
  | true =>
    have hp : p ∉ G.all := fun hm => (h.spare_pages _ rfl).1 ((h.mem_all p).mp hm).1
    exact ⟨_, _, _, p :: G.all, rfl, h.all.push hp hprev, by simp [or_comm]⟩

/-- `newclasspage` adds a page to an empty list, or leaves the state as it is. -/
theorem Inv.newclasspage (h : Inv g G live none) {fr : Frealloc} (hfresh : Fresh g.sys fr.new)
    (hnil : g.freepages k c = none)
    (hshape : Shape k (some c) (pageSizeOfClass c) (sizeOfClass.getD c 0 + k.header)) :
    Mem.newclasspage fr g k c = (none, g) ∨
      ∃ p G' g', Mem.newclasspage fr g k c = (some p, g') ∧ Inv g' G' live none ∧
        G'.pages = insert p G.pages ∧ g'.freepages k c = some p ∧ g'.mem = g.mem ∧
        SameCounters g g' := by
  have hdata := hshape.data_le
  have hbs := hshape.pos
  rcases h.takepage hfresh (n := pageSizeOfClass c) (by omega) with
    h1 | ⟨p, pool, g₁, h1, hinv, hfp, hmem, hcount⟩
  · left
    rw [Mem.newclasspage, newpage, h1]
  · right
    generalize hbs' : sizeOfClass.getD c 0 + k.header = bs at hshape hdata hbs
    generalize hcount' : (pageSizeOfClass c - dataOffset) / bs = count
    have hpos : 0 < count := hcount' ▸ Nat.div_pos (by omega) hbs
    have hspare := hinv.initpage (pageSizeOfClass c) bs count
    obtain ⟨hpages, hpools, -⟩ := hspare.spare_pages _ rfl
    obtain ⟨ln, lp, ag, all, hset, hall, hmemall⟩ :=
      hspare.pageset (by simp [Mem.initpage]) (decide (k = .gco))
    rw [Mem.newclasspage, newpage, h1]
    simp only [hbs', hcount', hset]
    refine ⟨p, { G.addPage p k (some c) count with
      lists := G.setList k c [p], all := all, pool := pool }, _, rfl, ?_, rfl, ?_, hmem, hcount⟩
    · refine hspare.open_page (k := k) ⟨_, _, _, _, rfl⟩ ?_ ?_ ?_ ?_ rfl hall ?_ rfl ⟨rfl, rfl⟩
      · refine PageOk.init count hshape hcount'.symm ?_ ?_
        · simp [Mem.initpage]
        · simp [Ghost.addPage]
      · simp [Mem.initpage]
      · have hadd := hspare.lists.add (k := k) (c := c) hpages hpools (hfp ▸ hnil)
          (by simp [Mem.initpage]) (by simp [Mem.initpage]) hpos
        exact ⟨hadd.lists, hadd.mem_lists, hadd.unlisted, hadd.pool, hadd.pool_pages⟩
      · intro q hq
        exact ⟨rfl, rfl, rfl, rfl, rfl⟩
      · simpa using hmemall
    · simp only [freepages_update, and_self, if_true]

/-- `newpage` for one large object, or it leaves the state as it is. -/
theorem Inv.newlargepage (h : Inv g G live none) {fr : Frealloc} (hfresh : Fresh g.sys fr.new)
    (hn : kMaxSmallSizeUsed < n) :
    newpage fr g true (dataOffset + n) n 1 = (none, g) ∨
      ∃ p G' g', newpage fr g true (dataOffset + n) n 1 = (some p, g') ∧ Inv g' G' live none ∧
        G'.pages = insert p G.pages ∧ G'.kind p = .gco ∧ G'.cls p = none ∧ G'.bump p = 1 ∧ G'.free p = [] ∧
        g'.blockSize p = n ∧ g'.prev p = none ∧ g'.mem = g.mem ∧ SameCounters g g' := by
  rcases h.takepage hfresh (n := dataOffset + n) (by omega) with
    h1 | ⟨p, pool, g₁, h1, hinv, hfp, hmem, hcount⟩
  · left
    rw [newpage, h1]
  · right
    have hspare := hinv.initpage (dataOffset + n) n 1
    obtain ⟨hpages, hpools, -⟩ := hspare.spare_pages _ rfl
    obtain ⟨ln, lp, ag, all, hset, hall, hmemall⟩ :=
      hspare.pageset (by simp [Mem.initpage]) true
    rw [newpage, h1]
    dsimp only
    rw [hset]
    refine ⟨p, { G.addPage p .gco none 1 with all := all, pool := pool }, _, rfl, ?_,
      rfl, Function.update_self .., Function.update_self ..,
      Function.update_self .., Function.update_self .., Function.update_self ..,
      Function.update_self .., hmem, hcount⟩
    refine hspare.open_page (k := .gco) ⟨_, _, _, _, rfl⟩ ?_ ?_ ?_ ?_ rfl hall ?_ rfl ⟨rfl, rfl⟩
    · have hshape : Shape .gco none (dataOffset + n) n := ⟨rfl, rfl, hn⟩
      refine PageOk.init 1 hshape ?_ ?_ ?_
      · rw [Nat.add_sub_cancel_left, Nat.div_self (by omega)]
      · simp [Mem.initpage]
      · simp [Ghost.addPage]
    · simp [Mem.initpage]
    · have hadd := hspare.lists.add_large (k := .gco) hpages hpools
        (by simp [Mem.initpage]) 1
      exact ⟨hadd.lists, hadd.mem_lists, hadd.unlisted, hadd.pool, hadd.pool_pages⟩
    · intro q hq
      exact ⟨rfl, rfl, rfl, rfl, rfl⟩
    · simpa using hmemall

/-- A page is taken out of the list of all pages of collectable objects, or was not in it. -/
theorem Inv.unset (h : Inv g G live none) (hp : p ∈ G.pages) (g' : Global)
    (hg : g'.listnext = g.listnext ∧ g'.listprev = g.listprev ∧
      g'.allgcopages = g.allgcopages) (pageset : Bool)
    (hset : pageset = true ↔ G.kind p = .gco) : ∃ listnext listprev allgcopages,
      (if pageset then removepage g' p else g') =
        { g' with listnext := listnext, listprev := listprev, allgcopages := allgcopages } ∧
      Doubly listnext listprev allgcopages (G.all.erase p) := by
  have hall := h.all
  rw [← hg.1, ← hg.2.1, ← hg.2.2] at hall
  cases pageset with
  | false =>
    have hnot : p ∉ G.all := fun hm => absurd (hset.mpr ((h.mem_all p).mp hm).2) (by simp)
    refine ⟨_, _, _, rfl, ?_⟩
    rw [List.erase_of_not_mem hnot]
    exact hall
  | true =>
    have hm : p ∈ G.all := (h.mem_all p).mpr ⟨hp, hset.mp rfl⟩
    exact ⟨_, _, _, rfl, hall.erase hm⟩

theorem Inv.freeclasspage (h : Inv g G live none) (hm : p ∈ G.lists k c)
    (hempty : ∀ b ∈ live, b.page ≠ some p) :
    ∃ G', Inv (Mem.freeclasspage g k p c) G' live none ∧ G'.pages = G.pages.erase p := by
  obtain ⟨hp, hkind, -, -⟩ := (h.lists.mem_lists _ _ _).mp hm
  obtain ⟨ln, lp, ag, hset, hall⟩ := h.unset hp (unlinkpage g k p c) ⟨rfl, rfl, rfl⟩
    (decide (k = .gco)) (by simp [hkind])
  have hnodup := h.all.chain.nodup
  rw [Mem.freeclasspage, freepage, hset]
  have hclose := h.close_page hp { unlinkpage g k p c with
      listnext := ln, listprev := lp, allgcopages := ag } live
    (fun b => (and_iff_left_of_imp (hempty b)).symm)
    (G.setList k c ((G.lists k c).erase p)) (G.all.erase p) ?_
    ⟨rfl, rfl, rfl, rfl, rfl, rfl⟩ hall ?_ rfl ⟨rfl, rfl⟩
  · obtain ⟨pool, hinv⟩ := hclose.retirepage
    exact ⟨_, hinv, rfl⟩
  · have := h.lists.remove hm
    exact ⟨this.lists, this.mem_lists, this.unlisted, this.pool, this.pool_pages⟩
  · intro q
    rw [hnodup.mem_erase_iff, and_comm]

/-- The page of a large object has no other block. -/
theorem PageOk.large {busy : Finset Block} (h : PageOk g G busy p) (hcls : G.cls p = none)
    {b : Block} (hb : b ∈ busy) : busy = {b} := by
  have hshape := h.shape
  rw [hcls] at hshape
  have hcount : blockCount g p = 1 := by
    rw [blockCount, hshape.2.1, Nat.add_sub_cancel_left, Nat.div_self h.shape.pos]
  have hcard := h.count
  have hpos := Finset.card_pos.mpr ⟨b, hb⟩
  obtain ⟨b', rfl⟩ := Finset.card_eq_one.mp (show busy.card = 1 by omega)
  rw [Finset.mem_singleton.mp hb]

/-- `freepage` for the page of a large object. -/
theorem Inv.freelargepage (h : Inv g G live none) {b : Block} (hb : b ∈ live)
    (hbp : b.page = some p) (hkind : G.kind p = .gco) (hcls : G.cls p = none) :
    ∃ G', Inv (freepage g true p) G' (live.erase b) none ∧ G'.pages = G.pages.erase p := by
  have hp := h.page_mem b hb p hbp
  obtain ⟨hok, hmem⟩ := h.busy hb hbp
  have honly := hok.large hcls hmem
  obtain ⟨ln, lp, ag, hset, hall⟩ := h.unset hp g ⟨rfl, rfl, rfl⟩ true (by simp [hkind])
  have hnodup := h.all.chain.nodup
  rw [freepage, hset]
  have hclose := h.close_page hp { g with
      listnext := ln, listprev := lp, allgcopages := ag } (live.erase b) ?_ G.lists
    (G.all.erase p) ?_
    ⟨rfl, rfl, rfl, rfl, rfl, rfl⟩ hall ?_ rfl ⟨rfl, rfl⟩
  · obtain ⟨pool, hinv⟩ := hclose.retirepage
    exact ⟨_, hinv, rfl⟩
  · intro b'
    rw [Finset.mem_erase, and_comm]
    refine and_congr_right fun hb' => not_congr ⟨fun e => e ▸ hbp, fun e => ?_⟩
    exact Finset.mem_singleton.mp (honly ▸ mem_blocksOf.mpr ⟨hb', e⟩)
  · have := h.lists.remove_large hcls
    exact ⟨this.lists, this.mem_lists, this.unlisted, this.pool, this.pool_pages⟩
  · intro q
    rw [hnodup.mem_erase_iff, and_comm]

end Mem

end Jaci
