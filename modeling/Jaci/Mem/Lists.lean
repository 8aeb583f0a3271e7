import Jaci.Mem.Invariant

/-!
# The lists of pages

A page moves into the list of its kind and class when it gets a free block, and out of it when it
has none left or is given up; the other lists and the pools stay as they are.

* `ListsOk.of_list` : a change of one list;
* `ListsOk.pop`, `ListsOk.push`, `ListsOk.add`, `ListsOk.remove` : the changes that the allocator
  makes.
-/

namespace Jaci

namespace Mem

open Linked

variable {g g' : Global} {G G' : Ghost} {k : Kind} {c p : ℕ}

theorem ListsOk.disjoint (h : ListsOk g G) {k' : Kind} {c' q : ℕ} (hkc : ¬(k' = k ∧ c' = c))
    (hq : q ∈ G.lists k' c') : q ∉ G.lists k c := by
  obtain ⟨-, rfl, h1, -⟩ := (h.mem_lists _ _ _).mp hq
  intro hq'
  obtain ⟨-, rfl, h2, -⟩ := (h.mem_lists _ _ _).mp hq'
  exact hkc ⟨rfl, Option.some.inj (h1.symm.trans h2)⟩

/-- A change of the list of one kind and class, by one page. -/
theorem ListsOk.of_list (h : ListsOk g G)
    (hsame : ∀ q, q ∉ G.lists k c → q ≠ p → g'.next q = g.next q ∧ g'.prev q = g.prev q)
    (hfp : ∀ k' c', ¬(k' = k ∧ c' = c) → g'.freepages k' c' = g.freepages k' c')
    (hlists : ∀ k' c', ¬(k' = k ∧ c' = c) → G'.lists k' c' = G.lists k' c')
    (hpool : g'.pagepool = g.pagepool ∧ G'.pool = G.pool) (hp : ∀ j, p ∉ G.pool j)
    (hold : p ∈ G.pages → G.kind p = k ∧ G.cls p = some c)
    (hnew : p ∈ G'.pages → G'.kind p = k ∧ G'.cls p = some c)
    (hother : ∀ q, q ≠ p → ((q ∈ G'.pages ↔ q ∈ G.pages) ∧ G'.kind q = G.kind q ∧
      G'.cls q = G.cls q ∧ (G'.Avail q ↔ G.Avail q)))
    (hlist : Doubly g'.next g'.prev (g'.freepages k c) (G'.lists k c))
    (hmem : ∀ q, q ≠ p → (q ∈ G'.lists k c ↔ q ∈ G.lists k c))
    (hmemp : p ∈ G'.lists k c ↔ p ∈ G'.pages ∧ G'.Avail p)
    (hun : ∀ q ∈ G'.pages, ¬G'.Avail q → g'.prev q = none) : ListsOk g' G' := by
  have hpl : ∀ k' c', ¬(k' = k ∧ c' = c) → p ∉ G.lists k' c' := by
    intro k' c' hkc hmem
    obtain ⟨h1, h2, h3, -⟩ := (h.mem_lists _ _ _).mp hmem
    obtain ⟨h4, h5⟩ := hold h1
    exact hkc ⟨h2.symm.trans h4, Option.some.inj (h3.symm.trans h5)⟩
  refine ⟨fun k' c' => ?_, fun k' c' q => ?_, hun, fun j => ?_, fun j q hq => ?_⟩
  · by_cases hkc : k' = k ∧ c' = c
    · obtain ⟨rfl, rfl⟩ := hkc
      exact hlist
    · rw [hfp k' c' hkc, hlists k' c' hkc]
      have hq : ∀ q ∈ G.lists k' c', q ∉ G.lists k c ∧ q ≠ p := fun q hq =>
        ⟨h.disjoint hkc hq, fun e => hpl k' c' hkc (e ▸ hq)⟩
      exact (h.lists k' c').congr (fun q hm => (hsame q (hq q hm).1 (hq q hm).2).1)
        fun q hm => (hsame q (hq q hm).1 (hq q hm).2).2
  · by_cases hqp : q = p
    · subst hqp
      by_cases hkc : k' = k ∧ c' = c
      · obtain ⟨rfl, rfl⟩ := hkc
        rw [hmemp]
        exact ⟨fun h => ⟨h.1, (hnew h.1).1, (hnew h.1).2, h.2⟩, fun h => ⟨h.1, h.2.2.2⟩⟩
      · rw [hlists k' c' hkc]
        refine iff_of_false (hpl k' c' hkc) ?_
        rintro ⟨h1, h2, h3, -⟩
        obtain ⟨h4, h5⟩ := hnew h1
        exact hkc ⟨h2.symm.trans h4, Option.some.inj (h3.symm.trans h5)⟩
    · obtain ⟨h1, h2, h3, h4⟩ := hother q hqp
      rw [h1, h2, h3, h4, ← h.mem_lists]
      by_cases hkc : k' = k ∧ c' = c
      · obtain ⟨rfl, rfl⟩ := hkc
        exact hmem q hqp
      · rw [hlists k' c' hkc]
  · rw [hpool.1, hpool.2]
    refine (h.pool j).congr fun q hq => (hsame q ?_ fun e => hp j (e ▸ hq)).1
    intro hl
    exact h.pool_pages j q hq ((h.mem_lists _ _ _).mp hl).1
  · rw [hpool.2] at hq
    have hqp : q ≠ p := fun e => hp j (e ▸ hq)
    rw [(hother q hqp).1]
    exact h.pool_pages j q hq

/-- A page with a free block comes first in its list. -/
theorem ListsOk.head (h : ListsOk g G) (hp : g.freepages k c = some p) :
    (p ∈ G.pages ∧ G.kind p = k ∧ G.cls p = some c ∧ G.Avail p) ∧
      ∃ l, G.lists k c = p :: l := by
  have hchain := (h.lists k c).chain
  cases hl : G.lists k c with
  | nil =>
    rw [hl, hp] at hchain
    exact absurd (chain_nil.mp hchain) (by simp)
  | cons a l =>
    rw [hl, hp] at hchain
    obtain rfl : p = a := Option.some.inj hchain.1
    exact ⟨(h.mem_lists k c p).mp (by rw [hl]; exact List.mem_cons_self), l, rfl⟩

/-- Set the first page of a list. -/
theorem freepages_update (f : Kind → ℕ → Option ℕ) (k : Kind) (c : ℕ) (v : Option ℕ) (k' : Kind)
    (c' : ℕ) : Function.update f k (Function.update (f k) c v) k' c' =
      if k' = k ∧ c' = c then v else f k' c' := by
  by_cases hk : k' = k
  · subst hk
    by_cases hc : c' = c
    · simp [hc]
    · simp [hc]
  · simp [hk]

/-- Change a list of the ghost state. -/
def Ghost.setList (G : Ghost) (k : Kind) (c : ℕ) (l : List ℕ) : Kind → ℕ → List ℕ := fun k' c' =>
  if k' = k ∧ c' = c then l else G.lists k' c'

/-- Change the blocks of a page in the ghost state. -/
def Ghost.setPage (G : Ghost) (p bump : ℕ) (free : List ℕ) : Ghost :=
  { G with bump := Function.update G.bump p bump, free := Function.update G.free p free }

theorem Ghost.setPage_avail {bump : ℕ} {free : List ℕ} :
    (G.setPage p bump free).Avail p ↔ 0 < bump ∨ free ≠ [] := by
  simp [Ghost.Avail, Ghost.setPage]

theorem Ghost.setPage_avail_of_ne {bump q : ℕ} {free : List ℕ} (h : q ≠ p) :
    (G.setPage p bump free).Avail q ↔ G.Avail q := by
  simp [Ghost.Avail, Ghost.setPage, h]

/-- The blocks of a page change, and it still has a free block, or still has none. -/
theorem ListsOk.keep (h : ListsOk g G) {bump : ℕ} {free : List ℕ}
    (ha : (0 < bump ∨ free ≠ []) ↔ G.Avail p) : ListsOk g (G.setPage p bump free) := by
  have havail : ∀ q, (G.setPage p bump free).Avail q ↔ G.Avail q := by
    intro q
    by_cases hq : q = p
    · rw [hq, Ghost.setPage_avail, ha]
    · exact Ghost.setPage_avail_of_ne hq
  exact ⟨h.lists, fun k c q => by rw [havail]; exact h.mem_lists k c q,
    fun q hq hna => h.unlisted q hq (by rwa [havail] at hna), h.pool, h.pool_pages⟩

/-- The first page of a list has no free block any more. -/
theorem ListsOk.pop (h : ListsOk g G) (hp : g.freepages k c = some p) {l : List ℕ}
    (hl : G.lists k c = p :: l) :
    ListsOk { g with
      freepages := Function.update g.freepages k (Function.update (g.freepages k) c (g.next p))
      prev := setAt (g.next p) none g.prev
      next := Function.update g.next p none }
      { G.setPage p 0 [] with lists := G.setList k c l } := by
  obtain ⟨⟨hpages, hkind, hcls, -⟩, -⟩ := h.head hp
  have hd := h.lists k c
  rw [hp, hl] at hd
  have hnodup := List.nodup_cons.mp hd.chain.nodup
  have hprevp : g.prev p = none := hd.first p rfl
  have hnot : ¬(G.setPage p 0 []).Avail p := by
    rw [Ghost.setPage_avail]
    simp
  have hprev : ∀ q, g.prev q = none → setAt (g.next p) none g.prev q = none := by
    intro q hq
    by_cases e : g.next p = some q
    · rw [e, setAt_some, Function.update_self]
    · rw [setAt_of_ne e, hq]
  refine h.of_list (k := k) (c := c) (p := p) ?_ ?_ ?_ ⟨rfl, rfl⟩
    (fun j hj => h.pool_pages j p hj hpages) (fun _ => ⟨hkind, hcls⟩) (fun _ => ⟨hkind, hcls⟩) ?_ ?_
    ?_ ?_ ?_
  · intro q hq hqp
    refine ⟨Function.update_of_ne hqp _ _, setAt_of_ne (fun e => hq ?_) _ _⟩
    rw [hl]
    cases l with
    | nil => exact absurd (e.symm.trans hd.chain.2) (by simp)
    | cons d l =>
      obtain rfl : q = d := Option.some.inj (e.symm.trans hd.chain.2.1)
      simp
  · intro k' c' hkc
    exact (freepages_update _ _ _ _ _ _).trans (if_neg hkc)
  · intro k' c' hkc
    exact if_neg hkc
  · intro q hqp
    exact ⟨Iff.rfl, rfl, rfl, Ghost.setPage_avail_of_ne hqp⟩
  · have hlist : G.setList k c l k c = l := if_pos ⟨rfl, rfl⟩
    simp only [freepages_update, and_self, if_true, hlist]
    exact hd.pop none
  · intro q hqp
    have hlist : G.setList k c l k c = l := if_pos ⟨rfl, rfl⟩
    simp only [hlist, hl, List.mem_cons, hqp, false_or]
  · have hlist : G.setList k c l k c = l := if_pos ⟨rfl, rfl⟩
    refine iff_of_false (by simp only [hlist]; exact hnodup.1) fun hx => hnot hx.2
  · intro q hq hna
    by_cases hqp : q = p
    · exact hprev q (hqp ▸ hprevp)
    · exact hprev q (h.unlisted q hq fun ha => hna ((Ghost.setPage_avail_of_ne hqp).mpr ha))

/-- A page gets its first free block. -/
theorem ListsOk.push (h : ListsOk g G) (hp : p ∈ G.pages) (hkind : G.kind p = k)
    (hcls : G.cls p = some c) (hna : ¬G.Avail p) {bump : ℕ} {free : List ℕ}
    (ha : 0 < bump ∨ free ≠ []) :
    ListsOk { g with
      next := Function.update g.next p (g.freepages k c)
      prev := setAt (g.freepages k c) (some p) g.prev
      freepages := Function.update g.freepages k (Function.update (g.freepages k) c (some p)) }
      { G.setPage p bump free with lists := G.setList k c (p :: G.lists k c) } := by
  have hd := h.lists k c
  have hpl : p ∉ G.lists k c := fun hm => hna ((h.mem_lists _ _ _).mp hm).2.2.2
  have hlist : G.setList k c (p :: G.lists k c) k c = p :: G.lists k c := if_pos ⟨rfl, rfl⟩
  have havail : (G.setPage p bump free).Avail p := Ghost.setPage_avail.mpr ha
  have hhead : ∀ q, g.freepages k c = some q → q ∈ G.lists k c := by
    intro q hq
    obtain ⟨-, l, hl⟩ := h.head hq
    rw [hl]
    exact List.mem_cons_self
  refine h.of_list (k := k) (c := c) (p := p) ?_ ?_ ?_ ⟨rfl, rfl⟩
    (fun j hj => h.pool_pages j p hj hp) (fun _ => ⟨hkind, hcls⟩) (fun _ => ⟨hkind, hcls⟩) ?_ ?_
    ?_ ?_ ?_
  · intro q hq hqp
    exact ⟨Function.update_of_ne hqp _ _, setAt_of_ne (fun e => hq (hhead q e)) _ _⟩
  · intro k' c' hkc
    exact (freepages_update _ _ _ _ _ _).trans (if_neg hkc)
  · intro k' c' hkc
    exact if_neg hkc
  · intro q hqp
    exact ⟨Iff.rfl, rfl, rfl, Ghost.setPage_avail_of_ne hqp⟩
  · simp only [freepages_update, and_self, if_true, hlist]
    exact hd.push hpl (h.unlisted p hp hna)
  · intro q hqp
    simp only [hlist, List.mem_cons, hqp, false_or]
  · simp only [hlist]
    exact iff_of_true List.mem_cons_self ⟨hp, havail⟩
  · intro q hq hnq
    have hqp : q ≠ p := by
      rintro rfl
      exact hnq havail
    have hnq' : ¬G.Avail q := fun ha => hnq ((Ghost.setPage_avail_of_ne hqp).mpr ha)
    have hne : g.freepages k c ≠ some q := fun e =>
      hnq' ((h.mem_lists _ _ _).mp (hhead q e)).2.2.2
    show setAt (g.freepages k c) (some p) g.prev q = none
    rw [setAt_of_ne hne]
    exact h.unlisted q hq hnq'

/-- The ghost state with one more page. -/
def Ghost.addPage (G : Ghost) (p : ℕ) (k : Kind) (cls : Option ℕ) (bump : ℕ) : Ghost :=
  { G with
    pages := insert p G.pages
    kind := Function.update G.kind p k
    cls := Function.update G.cls p cls
    bump := Function.update G.bump p bump
    free := Function.update G.free p [] }

theorem Ghost.addPage_of_ne (G : Ghost) (k : Kind) (cls : Option ℕ) (bump : ℕ) {q : ℕ} (h : q ≠ p) :
    (q ∈ (G.addPage p k cls bump).pages ↔ q ∈ G.pages) ∧
      (G.addPage p k cls bump).kind q = G.kind q ∧ (G.addPage p k cls bump).cls q = G.cls q ∧
      ((G.addPage p k cls bump).Avail q ↔ G.Avail q) := by
  simp [Ghost.addPage, Ghost.Avail, h]

/-- A new page goes to an empty list. -/
theorem ListsOk.add (h : ListsOk g G) (hp : p ∉ G.pages) (hpool : ∀ j, p ∉ G.pool j)
    (hnil : g.freepages k c = none) (hnext : g.next p = none) (hprev : g.prev p = none) {bump : ℕ}
    (hb : 0 < bump) :
    ListsOk { g with
      freepages := Function.update g.freepages k (Function.update (g.freepages k) c (some p)) }
      { G.addPage p k (some c) bump with lists := G.setList k c [p] } := by
  have hempty : G.lists k c = [] := by
    cases hl : G.lists k c with
    | nil => rfl
    | cons q l =>
      have := (h.lists k c).chain
      rw [hl, hnil] at this
      exact absurd this.1 (by simp)
  have hlist : G.setList k c [p] k c = [p] := if_pos ⟨rfl, rfl⟩
  have havail : (G.addPage p k (some c) bump).Avail p := by
    simp [Ghost.addPage, Ghost.Avail, hb]
  refine h.of_list (k := k) (c := c) (p := p) (fun _ _ _ => ⟨rfl, rfl⟩) ?_ ?_ ⟨rfl, rfl⟩ hpool
    (fun hp' => absurd hp' hp) (fun _ => ?_) (fun q hq => G.addPage_of_ne k (some c) bump hq) ?_ ?_ ?_ ?_
  · intro k' c' hkc
    exact (freepages_update _ _ _ _ _ _).trans (if_neg hkc)
  · intro k' c' hkc
    exact if_neg hkc
  · simp [Ghost.addPage]
  · simp only [freepages_update, and_self, if_true, hlist]
    exact ⟨⟨rfl, hnext⟩, fun b hb => by rw [← Option.some.inj hb, hprev], fun b hb q hq => by
      rw [List.mem_singleton.mp hb, hnext] at hq
      exact absurd hq (by simp)⟩
  · intro q hqp
    simp only [hlist, hempty, List.mem_singleton, hqp, List.not_mem_nil]
  · simp only [hlist]
    exact iff_of_true List.mem_cons_self ⟨Finset.mem_insert_self _ _, havail⟩
  · intro q hq hnq
    by_cases hqp : q = p
    · exact hqp ▸ hprev
    · obtain ⟨h1, -, -, h2⟩ := G.addPage_of_ne k (some c) bump hqp
      exact h.unlisted q (h1.mp hq) fun ha => hnq (h2.mpr ha)

/-- A new page without a class is in no list. -/
theorem ListsOk.add_large (h : ListsOk g G) (hp : p ∉ G.pages) (hpool : ∀ j, p ∉ G.pool j)
    (hprev : g.prev p = none) (bump : ℕ) : ListsOk g (G.addPage p k none bump) := by
  refine ⟨h.lists, fun k' c' q => ?_, fun q hq hnq => ?_, h.pool, fun j q hq => ?_⟩
  · by_cases hqp : q = p
    · subst hqp
      refine iff_of_false (fun hm => hp ((h.mem_lists _ _ _).mp hm).1) ?_
      simp [Ghost.addPage]
    · obtain ⟨h1, h2, h3, h4⟩ := G.addPage_of_ne k none bump hqp
      rw [h1, h2, h3, h4]
      exact h.mem_lists k' c' q
  · by_cases hqp : q = p
    · exact hqp ▸ hprev
    · obtain ⟨h1, -, -, h2⟩ := G.addPage_of_ne k none bump hqp
      exact h.unlisted q (h1.mp hq) fun ha => hnq (h2.mpr ha)
  · have hqp : q ≠ p := fun e => hpool j (e ▸ hq)
    exact fun hm => h.pool_pages j q hq ((Finset.mem_insert.mp hm).resolve_left hqp)

/-- The blocks of a page without a class change. -/
theorem ListsOk.keep_large (h : ListsOk g G) (hcls : G.cls p = none) (hprev : g.prev p = none)
    {bump : ℕ} {free : List ℕ} : ListsOk g (G.setPage p bump free) := by
  refine ⟨h.lists, fun k c q => ?_, fun q hq hnq => ?_, h.pool, h.pool_pages⟩
  · by_cases hqp : q = p
    · subst hqp
      refine (h.mem_lists k c q).trans (iff_of_false ?_ ?_)
      · simp [hcls]
      · simp [Ghost.setPage, hcls]
    · rw [Ghost.setPage_avail_of_ne hqp]
      exact h.mem_lists k c q
  · by_cases hqp : q = p
    · exact hqp ▸ hprev
    · exact h.unlisted q hq fun ha => hnq ((Ghost.setPage_avail_of_ne hqp).mpr ha)

/-- A page is given up. -/
theorem ListsOk.remove (h : ListsOk g G) (hm : p ∈ G.lists k c) :
    ListsOk (unlinkpage g k p c)
      { G with pages := G.pages.erase p, lists := G.setList k c ((G.lists k c).erase p) } := by
  obtain ⟨hp, hkind, hcls, -⟩ := (h.mem_lists _ _ _).mp hm
  have hd := h.lists k c
  have hlist : G.setList k c ((G.lists k c).erase p) k c = (G.lists k c).erase p :=
    if_pos ⟨rfl, rfl⟩
  have hprevp := Doubly.setAt_prev_self g.next g.prev p
  have hhead : (unlinkpage g k p c).freepages k c =
      if setAt (g.next p) (g.prev p) g.prev p = none ∧ g.freepages k c = some p then g.next p
      else g.freepages k c := by
    simp only [unlinkpage]
    split_ifs
    · rw [freepages_update, if_pos ⟨rfl, rfl⟩]
    · rfl
  refine h.of_list (k := k) (c := c) (p := p) ?_ ?_ ?_ ⟨rfl, rfl⟩
    (fun j hj => h.pool_pages j p hj hp) (fun _ => ⟨hkind, hcls⟩)
    (fun hx => absurd rfl (Finset.mem_erase.mp hx).1) ?_ ?_ ?_ ?_ ?_
  · intro q hq hqp
    simp only [unlinkpage, hprevp]
    exact ⟨setAt_of_ne (fun e => hq (hd.prev_mem hm e)) _ _,
      setAt_of_ne (fun e => hq (hd.next_mem hm e)) _ _⟩
  · intro k' c' hkc
    simp only [unlinkpage]
    split_ifs
    · rw [freepages_update, if_neg hkc]
    · rfl
  · intro k' c' hkc
    exact if_neg hkc
  · intro q hqp
    exact ⟨by simp [hqp], rfl, rfl, Iff.rfl⟩
  · simp only [hlist]
    rw [hhead]
    exact hd.erase hm
  · intro q hqp
    simp only [hlist]
    exact List.mem_erase_of_ne hqp
  · simp only [hlist]
    exact iff_of_false hd.chain.nodup.not_mem_erase fun hx => (Finset.mem_erase.mp hx.1).1 rfl
  · intro q hq hnq
    obtain ⟨hqp, hq'⟩ := Finset.mem_erase.mp hq
    show setAt (g.next p) (g.prev p) g.prev q = none
    have hne : g.next p ≠ some q := fun e =>
      hnq ((h.mem_lists _ _ _).mp (hd.next_mem hm e)).2.2.2
    rw [setAt_of_ne hne]
    exact h.unlisted q hq' hnq

/-- A page without a class is given up. -/
theorem ListsOk.remove_large (h : ListsOk g G) (hcls : G.cls p = none) :
    ListsOk g { G with pages := G.pages.erase p } := by
  refine ⟨h.lists, fun k c q => ?_, fun q hq => h.unlisted q (Finset.mem_of_mem_erase hq), h.pool,
    fun j q hq hm => h.pool_pages j q hq (Finset.mem_of_mem_erase hm)⟩
  rw [h.mem_lists]
  by_cases hqp : q = p
  · subst hqp
    simp [hcls]
  · simp only [Finset.mem_erase, ne_eq, hqp, not_false_eq_true, true_and]
    exact Iff.rfl

end Mem

end Jaci
