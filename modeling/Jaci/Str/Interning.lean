import Jaci.Str.StringTable
import Mathlib.Data.Finset.Union

/-!
# Interning

The invariant of the string table, and what it means for the strings that the operations return.

* `Buckets` : every chain visits exactly the strings of its hash;
* `Table` : the table holds one string for every content, and counts them;
* `World.Inv` : the invariant of a run, together with the buffers in progress;
* `World.interning` : what holds in every reachable state.
-/

namespace Jaci

namespace Str

open Wire Linked

variable {g : GlobalState} {I : Finset Addr} {heap : Addr → TString} {hash : ℕ → Option Addr}

/-! ### Chains -/

theorem lmod_lt {size : ℕ} (h : UInt32) (hs : ∃ k, size = 2 ^ k) : lmod h size < size := by
  obtain ⟨k, rfl⟩ := hs
  rw [lmod, Nat.and_two_pow_sub_one_eq_mod]
  exact Nat.mod_lt _ (by positivity)

/-- Every chain visits exactly the strings of `I` with its hash. -/
def Buckets (heap : Addr → TString) (hash : ℕ → Option Addr) (size : ℕ) (I : Finset Addr) : Prop :=
  ∀ i < size, ∃ l, Chain (fun a => (heap a).next) (hash i) l ∧
    ∀ a, a ∈ l ↔ a ∈ I ∧ lmod (heap a).hash size = i

theorem Buckets.empty (heap : Addr → TString) (size : ℕ) :
    Buckets heap (fun _ => none) size ∅ :=
  fun _ _ => ⟨[], rfl, by simp⟩

/-- The links and hashes of the strings decide. -/
theorem Buckets.congr {size : ℕ} (h : Buckets heap hash size I) {heap' : Addr → TString}
    (hn : ∀ a ∈ I, (heap' a).next = (heap a).next) (hh : ∀ a ∈ I, (heap' a).hash = (heap a).hash) :
    Buckets heap' hash size I := by
  intro i hi
  obtain ⟨l, hl, hmem⟩ := h i hi
  refine ⟨l, hl.congr fun a ha => hn a ((hmem a).mp ha).1, fun a => ?_⟩
  rw [hmem]
  refine and_congr_right fun ha => ?_
  rw [hh a ha]

theorem next_update (heap : Addr → TString) (p : Addr) (v : Option Addr) :
    (fun a => (Function.update heap p { heap p with next := v } a).next) =
      Function.update (fun a => (heap a).next) p v := by
  funext a
  by_cases h : a = p
  · subst h
    simp
  · simp [Function.update_of_ne h]

theorem hash_update (heap : Addr → TString) (p : Addr) (v : Option Addr) (a : Addr) :
    (Function.update heap p { heap p with next := v } a).hash = (heap a).hash := by
  by_cases h : a = p
  · subst h
    simp
  · simp [Function.update_of_ne h]

/-- A new string in front of its chain. -/
theorem Buckets.push {size : ℕ} (h : Buckets heap hash size I) {p : Addr} (hp : p ∉ I) {b : ℕ}
    (hb : lmod (heap p).hash size = b) :
    Buckets (Function.update heap p { heap p with next := hash b })
      (Function.update hash b (some p)) size (insert p I) := by
  intro i hi
  obtain ⟨l, hl, hmem⟩ := h i hi
  have hpl : p ∉ l := fun hpl => hp ((hmem p).mp hpl).1
  simp only [next_update, hash_update, Finset.mem_insert]
  by_cases hib : i = b
  · subst hib
    refine ⟨p :: l, ?_, fun a => ?_⟩
    · rw [Function.update_self]
      exact hl.push hpl
    · rw [List.mem_cons, hmem]
      constructor
      · rintro (rfl | ⟨ha, hai⟩)
        · exact ⟨.inl rfl, hb⟩
        · exact ⟨.inr ha, hai⟩
      · rintro ⟨rfl | ha, hai⟩
        · exact .inl rfl
        · exact .inr ⟨ha, hai⟩
  · refine ⟨l, ?_, fun a => ?_⟩
    · rw [Function.update_of_ne hib]
      exact hl.update hpl _
    · rw [hmem]
      constructor
      · exact fun ⟨ha, hai⟩ => ⟨.inr ha, hai⟩
      · rintro ⟨rfl | ha, hai⟩
        · exact absurd (hai.symm.trans hb) hib
        · exact ⟨ha, hai⟩

/-! ### Resizing -/

/-- The two heaps differ at most in the links. -/
def SameStrings (heap heap' : Addr → TString) : Prop :=
  ∀ a, (heap' a).hash = (heap a).hash ∧ (heap' a).data = (heap a).data ∧
    (heap' a).marked = (heap a).marked

theorem SameStrings.refl (heap : Addr → TString) : SameStrings heap heap :=
  fun _ => ⟨rfl, rfl, rfl⟩

theorem SameStrings.trans {heap heap' heap'' : Addr → TString} (h : SameStrings heap heap')
    (h' : SameStrings heap' heap'') : SameStrings heap heap'' :=
  fun a => ⟨(h' a).1.trans (h a).1, (h' a).2.1.trans (h a).2.1, (h' a).2.2.trans (h a).2.2⟩

theorem sameStrings_update (heap : Addr → TString) (p : Addr) (v : Option Addr) :
    SameStrings heap (Function.update heap p { heap p with next := v }) := by
  intro a
  by_cases h : a = p
  · subst h
    simp
  · simp [Function.update_of_ne h]

/-- The inner loop moves one chain to the new table. -/
theorem relinkChain_spec {newsize turns : ℕ} {l : List Addr} {p : Option Addr}
    {newhash : ℕ → Option Addr} (hl : Chain (fun a => (heap a).next) p l)
    (hturns : l.length ≤ turns) (hI : Buckets heap newhash newsize I) (hdisj : ∀ a ∈ l, a ∉ I) :
    let r := relinkChain newsize turns p heap newhash
    Buckets r.1 r.2 newsize (I ∪ l.toFinset) ∧ SameStrings heap r.1 ∧
      ∀ a ∉ l, (r.1 a).next = (heap a).next := by
  induction l generalizing turns p heap newhash I with
  | nil =>
    obtain rfl : p = none := hl
    have hr : relinkChain newsize turns none heap newhash = (heap, newhash) := by
      cases turns <;> rfl
    simp only [hr]
    refine ⟨by simpa using hI, SameStrings.refl heap, fun _ _ => by trivial⟩
  | cons a l ih =>
    have hnd : a ∉ l := (List.nodup_cons.mp hl.nodup).1
    obtain ⟨rfl, htail⟩ := chain_cons.mp hl
    obtain ⟨turns, rfl⟩ : ∃ k, turns = k + 1 := ⟨turns - 1, by simp at hturns; omega⟩
    have hpush := hI.push (hdisj a List.mem_cons_self) rfl
    have hl' := htail.update hnd (newhash (lmod (heap a).hash newsize))
    rw [← next_update] at hl'
    obtain ⟨h1, h2, h3⟩ := ih (p := (heap a).next) hl' (by simpa using hturns) hpush (by
      intro b hb hmem
      rcases Finset.mem_insert.mp hmem with rfl | hmem
      · exact hnd hb
      · exact hdisj b (List.mem_cons_of_mem _ hb) hmem)
    simp only [relinkChain]
    refine ⟨?_, (sameStrings_update heap a _).trans h2, fun b hb => ?_⟩
    · rw [List.toFinset_cons, Finset.union_insert, ← Finset.insert_union]
      exact h1
    · have hba : b ≠ a := fun e => hb (e ▸ List.mem_cons_self)
      rw [h3 b fun h => hb (List.mem_cons_of_mem _ h), Function.update_of_ne hba]

/-- The outer loop moves the chains `i, …, i + n - 1` to the new table. -/
theorem relinkChains_spec {turns n i : ℕ} (newsize : ℕ) (bucket : Addr → ℕ)
    {newhash : ℕ → Option Addr} (hcard : I.card ≤ turns)
    (hchains : ∀ j, i ≤ j → j < i + n → ∃ l, Chain (fun a => (heap a).next) (hash j) l ∧
      ∀ a, a ∈ l ↔ a ∈ I ∧ bucket a = j)
    (hI : Buckets heap newhash newsize (I.filter fun a => bucket a < i)) :
    let r := relinkChains turns newsize hash n i heap newhash
    Buckets r.1 r.2 newsize (I.filter fun a => bucket a < i + n) ∧ SameStrings heap r.1 := by
  induction n generalizing i heap newhash with
  | zero => exact ⟨hI, SameStrings.refl heap⟩
  | succ n ih =>
    obtain ⟨l, hl, hmem⟩ := hchains i le_rfl (by omega)
    have hlen : l.length ≤ turns :=
      (hl.length_le_card fun a ha => ((hmem a).mp ha).1).trans hcard
    obtain ⟨h1, h2, h3⟩ := relinkChain_spec hl hlen hI (by
      intro a ha hmem'
      have := ((hmem a).mp ha).2
      have := (Finset.mem_filter.mp hmem').2
      omega)
    have hset : (I.filter fun a => bucket a < i) ∪ l.toFinset =
        I.filter fun a => bucket a < i + 1 := by
      ext a
      simp only [Finset.mem_union, Finset.mem_filter, List.mem_toFinset, hmem]
      constructor
      · rintro (⟨ha, hlt⟩ | ⟨ha, rfl⟩)
        · exact ⟨ha, by omega⟩
        · exact ⟨ha, by omega⟩
      · rintro ⟨ha, hlt⟩
        rcases Nat.lt_succ_iff_lt_or_eq.mp hlt with h | h
        · exact .inl ⟨ha, h⟩
        · exact .inr ⟨ha, h⟩
    rw [hset] at h1
    obtain ⟨h4, h5⟩ := ih (i := i + 1) (by
      intro j hj hj'
      obtain ⟨l', hl', hmem'⟩ := hchains j (by omega) (by omega)
      refine ⟨l', hl'.congr fun a ha => h3 a fun ha' => ?_, hmem'⟩
      have := ((hmem' a).mp ha).2
      have := ((hmem a).mp ha').2
      omega) h1
    simp only [relinkChains]
    refine ⟨?_, h2.trans h5⟩
    rw [show i + (n + 1) = i + 1 + n by omega]
    exact h4

/-! ### The table -/

/-- The table holds the strings of `I`: each in the chain of its hash, one for every content. -/
structure Table (g : GlobalState) (I : Finset Addr) : Prop where
  size_pow : ∃ k, g.strt.size = 2 ^ k
  /-- Every chain visits exactly the strings with its hash. -/
  buckets : Buckets g.heap g.strt.hash g.strt.size I
  hash_eq : ∀ a ∈ I, (g.heap a).hash = luaS_hash (g.heap a).data
  /-- The strings are counted, by a 32-bit counter. -/
  nuse_eq : g.strt.nuse = UInt32.ofNat I.card
  unique : ∀ a ∈ I, ∀ b ∈ I, (g.heap a).data = (g.heap b).data → a = b
  subset : I ⊆ g.live

/-- The table only depends on the links, hashes and contents of its strings. -/
theorem Table.congr (h : Table g I) {g' : GlobalState} (hs : g'.strt = g.strt)
    (hn : ∀ a ∈ I, (g'.heap a).next = (g.heap a).next)
    (hh : ∀ a ∈ I, (g'.heap a).hash = (g.heap a).hash)
    (hd : ∀ a ∈ I, (g'.heap a).data = (g.heap a).data) (hl : I ⊆ g'.live) : Table g' I where
  size_pow := hs ▸ h.size_pow
  buckets := hs ▸ h.buckets.congr hn hh
  hash_eq := fun a ha => by rw [hh a ha, hd a ha, h.hash_eq a ha]
  nuse_eq := hs ▸ h.nuse_eq
  unique := fun a ha b hb e => h.unique a ha b hb (by rw [← hd a ha, ← hd b hb, e])
  subset := hl

/-- The table does not depend on a string outside it. -/
theorem Table.frame (h : Table g I) {ts : Addr} (hts : ts ∉ I) {g' : GlobalState}
    (hs : g'.strt = g.strt) (ho : ∀ a ≠ ts, g'.heap a = g.heap a) (hl : g.live ⊆ g'.live) :
    Table g' I := by
  have hne : ∀ a ∈ I, g'.heap a = g.heap a := fun a ha => ho a fun e => hts (e ▸ ha)
  exact h.congr hs (fun a ha => by rw [hne a ha]) (fun a ha => by rw [hne a ha])
    (fun a ha => by rw [hne a ha]) (h.subset.trans hl)

theorem Table.init : Table .init ∅ where
  size_pow := ⟨5, rfl⟩
  buckets := Buckets.empty _ _
  hash_eq := by simp
  nuse_eq := rfl
  unique := by simp
  subset := by simp

/-- `luaS_resize` keeps the table; if the new array cannot be allocated, nothing changes. -/
theorem Table.resize (h : Table g I) (arrayOk : Bool) (newsize : ℕ)
    (hpow : ∃ k, newsize = 2 ^ k) :
    Table (luaS_resize arrayOk newsize g).2 I ∧
      SameStrings g.heap (luaS_resize arrayOk newsize g).2.heap ∧
      (luaS_resize arrayOk newsize g).2.live = g.live ∧
      (luaS_resize arrayOk newsize g).2.currentwhite = g.currentwhite := by
  cases arrayOk with
  | false => exact ⟨h, SameStrings.refl _, rfl, rfl⟩
  | true =>
    have hcard : I.card ≤ g.live.card := Finset.card_le_card h.subset
    obtain ⟨h1, h2⟩ := relinkChains_spec (i := 0) (n := g.strt.size) newsize
      (fun a => lmod (g.heap a).hash g.strt.size) hcard
      (fun j _ hj => h.buckets j (by omega))
      (by simpa using Buckets.empty g.heap newsize)
    have hall : (I.filter fun a => lmod (g.heap a).hash g.strt.size < 0 + g.strt.size) = I := by
      refine Finset.filter_true_of_mem fun a _ => ?_
      rw [Nat.zero_add]
      exact lmod_lt _ h.size_pow
    rw [hall] at h1
    refine ⟨⟨hpow, h1, ?_, h.nuse_eq, ?_, h.subset⟩, h2, rfl, rfl⟩
    · intro a ha
      exact (h2 a).1.trans ((h.hash_eq a ha).trans (congrArg luaS_hash (h2 a).2.1.symm))
    · intro a ha b hb e
      exact h.unique a ha b hb ((h2 a).2.1.symm.trans (e.trans (h2 b).2.1))

/-! ### Interning a string -/

theorem findstr_spec {h : UInt32} {str : Bytes} {turns : ℕ} {p : Option Addr} {l : List Addr}
    (hl : Chain (fun a => (heap a).next) p l) (hturns : l.length ≤ turns) :
    findstr heap h str turns p =
      l.find? fun a => decide ((heap a).hash = h ∧ (heap a).data = str) := by
  induction l generalizing turns p with
  | nil =>
    obtain rfl : p = none := hl
    cases turns <;> rfl
  | cons a l ih =>
    obtain ⟨rfl, htail⟩ := chain_cons.mp hl
    obtain ⟨turns, rfl⟩ : ∃ k, turns = k + 1 := ⟨turns - 1, by simp at hturns; omega⟩
    rw [findstr, List.find?_cons]
    split_ifs with hc
    · simp [hc]
    · simp only [hc, decide_false]
      exact ih htail (by simpa using hturns)

/-- A string that is found is the string with these contents. -/
theorem Table.lookup_some (h : Table g I) {str : Bytes} {el : Addr}
    (hf : lookup (luaS_hash str) str g = some el) : el ∈ I ∧ (g.heap el).data = str := by
  obtain ⟨l, hl, hmem⟩ := h.buckets _ (lmod_lt (luaS_hash str) h.size_pow)
  have hlen := (hl.length_le_card fun a ha => ((hmem a).mp ha).1).trans
    (Finset.card_le_card h.subset)
  rw [lookup, findstr_spec hl hlen] at hf
  have hp := List.find?_some hf
  exact ⟨((hmem el).mp (List.mem_of_find?_eq_some hf)).1, (of_decide_eq_true hp).2⟩

/-- If nothing is found, then no string has these contents. -/
theorem Table.lookup_none (h : Table g I) {str : Bytes}
    (hf : lookup (luaS_hash str) str g = none) : ∀ a ∈ I, (g.heap a).data ≠ str := by
  intro a ha hd
  obtain ⟨l, hl, hmem⟩ := h.buckets _ (lmod_lt (luaS_hash str) h.size_pow)
  have hlen := (hl.length_le_card fun a ha => ((hmem a).mp ha).1).trans
    (Finset.card_le_card h.subset)
  rw [lookup, findstr_spec hl hlen, List.find?_eq_none] at hf
  have hhash : (g.heap a).hash = luaS_hash str := by rw [h.hash_eq a ha, hd]
  refine hf a ((hmem a).mpr ⟨ha, by rw [hhash]⟩) (decide_eq_true ⟨hhash, hd⟩)

/-- The string `ts` enters the table, also when the table could not be doubled afterwards. -/
theorem Table.chain_spec (h : Table g I) {ts : Addr} (hts : ts ∉ I) (hlive : ts ∈ g.live)
    (hhash : (g.heap ts).hash = luaS_hash (g.heap ts).data)
    (hnew : ∀ a ∈ I, (g.heap a).data ≠ (g.heap ts).data) (arrayOk : Bool) :
    let r := chainEntry arrayOk ts (g.heap ts).hash g
    Table r.2 (insert ts I) ∧ SameStrings g.heap r.2.heap ∧ r.2.live = g.live ∧
      r.2.currentwhite = g.currentwhite ∧
      (r.1 = .ok ts ∨ r.1 = .error .errmem ∧ arrayOk = false) := by
  set b := lmod (g.heap ts).hash g.strt.size with hb
  set g' : GlobalState := { g.set ts { g.heap ts with next := g.strt.hash b } with
    strt := ⟨Function.update g.strt.hash b (some ts), g.strt.nuse + 1, g.strt.size⟩ } with hg'
  have hsame : SameStrings g.heap g'.heap := sameStrings_update g.heap ts _
  have htable : Table g' (insert ts I) := by
    refine ⟨h.size_pow, h.buckets.push hts hb.symm, ?_, ?_, ?_, ?_⟩
    · intro a ha
      rw [(hsame a).1, (hsame a).2.1]
      rcases Finset.mem_insert.mp ha with rfl | ha
      · exact hhash
      · exact h.hash_eq a ha
    · rw [Finset.card_insert_of_notMem hts, UInt32.ofNat_add, ← h.nuse_eq]
      rfl
    · intro a ha c hc e
      rw [(hsame a).2.1, (hsame c).2.1] at e
      rcases Finset.mem_insert.mp ha with hats | haI <;>
        rcases Finset.mem_insert.mp hc with hcts | hcI
      · rw [hats, hcts]
      · exact absurd (hats ▸ e.symm) (hnew c hcI)
      · exact absurd (hcts ▸ e) (hnew a haI)
      · exact h.unique a haI c hcI e
    · exact Finset.insert_subset hlive h.subset
  have hdef : chainEntry arrayOk ts (g.heap ts).hash g =
      if g'.strt.nuse.toNat > g'.strt.size ∧ g'.strt.size ≤ INT_MAX / 2 then
        ((luaS_resize arrayOk (g'.strt.size * 2) g').1.map fun _ => ts,
          (luaS_resize arrayOk (g'.strt.size * 2) g').2)
      else (.ok ts, g') := rfl
  simp only [hdef]
  split_ifs with hcrowded
  · obtain ⟨k, hk⟩ := h.size_pow
    obtain ⟨h1, h2, h3, h4⟩ := htable.resize arrayOk (g'.strt.size * 2) ⟨k + 1, by rw [pow_succ, ← hk]⟩
    refine ⟨h1, hsame.trans h2, h3, h4, ?_⟩
    cases arrayOk with
    | true => exact .inl rfl
    | false => exact .inr ⟨rfl, rfl⟩
  · exact ⟨htable, hsame, rfl, rfl, .inl rfl⟩

/-! ### Marks -/

/-- The current white is one of the two whites, with the bit of fixed objects. -/
def IsWhite (w : UInt8) : Prop := w = 9 ∨ w = 10

theorem IsWhite.flip {w : UInt8} (h : IsWhite w) : IsWhite (otherwhite w) := by
  rcases h with rfl | rfl
  · exact .inr rfl
  · exact .inl rfl

/-- These marks do not have both whites. -/
def OneWhite (m : UInt8) : Prop := m &&& WHITEBITS ≠ WHITEBITS

instance (m : UInt8) : Decidable (OneWhite m) := inferInstanceAs (Decidable (_ ≠ _))

theorem forall_uint8 {P : UInt8 → Prop} (h : ∀ n < 256, P (UInt8.ofNat n)) (m : UInt8) : P m := by
  have := h m.toNat m.toNat_lt
  rwa [UInt8.ofNat_toNat] at this

/-- New objects are not condemned. -/
theorem new_marks {w : UInt8} (h : IsWhite w) :
    OneWhite (luaC_white w) ∧ isdead w (luaC_white w) = false := by
  rcases h with rfl | rfl <;> decide

/-- What the operations do with the marks, for all marks at once. -/
theorem marks_cases {w : UInt8} (m : UInt8) (h : IsWhite w) :
    (isdead w m = true → OneWhite (m ^^^ WHITEBITS) ∧ isdead w (m ^^^ WHITEBITS) = false) ∧
    (OneWhite (m &&& ~~~WHITEBITS ||| BLACKMASK) ∧
      isdead w (m &&& ~~~WHITEBITS ||| BLACKMASK) = false) ∧
    (m &&& ~~~WHITEBITS ||| BLACKMASK) &&& WHITEBITS = 0 ∧
    (m &&& WHITEBITS = 0 → isdead w m = false) ∧
    (OneWhite m → OneWhite (m ||| FIXEDMASK) ∧ isdead w (m ||| FIXEDMASK) = false) ∧
    (OneWhite (m &&& ~~~(BLACKMASK ||| WHITEBITS) ||| luaC_white w) ∧
      isdead w (m &&& ~~~(BLACKMASK ||| WHITEBITS) ||| luaC_white w) = false) ∧
    (OneWhite m → ((m ^^^ WHITEBITS) &&& otherwhite w ≠ 0 ↔ isdead w m = false)) := by
  rcases h with rfl | rfl <;> revert m <;> exact forall_uint8 (by decide +kernel)

/-- A condemned object gets the current white. -/
theorem changewhite_marks {w : UInt8} (m : UInt8) (h : IsWhite w) (hm : isdead w m = true) :
    OneWhite (m ^^^ WHITEBITS) ∧ isdead w (m ^^^ WHITEBITS) = false := (marks_cases m h).1 hm

/-- Marked objects are not condemned, before and after a flip. -/
theorem stringmark_marks {w : UInt8} (m : UInt8) (h : IsWhite w) :
    OneWhite (m &&& ~~~WHITEBITS ||| BLACKMASK) ∧
      isdead w (m &&& ~~~WHITEBITS ||| BLACKMASK) = false := (marks_cases m h).2.1

theorem stringmark_white (m : UInt8) : (m &&& ~~~WHITEBITS ||| BLACKMASK) &&& WHITEBITS = 0 :=
  (marks_cases m (.inl rfl)).2.2.1

theorem not_dead_of_marked {w : UInt8} (m : UInt8) (h : IsWhite w) (hm : m &&& WHITEBITS = 0) :
    isdead w m = false := (marks_cases m h).2.2.2.1 hm

theorem fix_marks {w : UInt8} (m : UInt8) (h : IsWhite w) (hm : OneWhite m) :
    OneWhite (m ||| FIXEDMASK) ∧ isdead w (m ||| FIXEDMASK) = false := (marks_cases m h).2.2.2.2.1 hm

theorem sweep_marks {w : UInt8} (m : UInt8) (h : IsWhite w) :
    OneWhite (m &&& ~~~(BLACKMASK ||| WHITEBITS) ||| luaC_white w) ∧
      isdead w (m &&& ~~~(BLACKMASK ||| WHITEBITS) ||| luaC_white w) = false :=
  (marks_cases m h).2.2.2.2.2.1

/-- The sweep frees exactly the condemned objects. -/
theorem sweep_test {w : UInt8} (m : UInt8) (h : IsWhite w) (hm : OneWhite m) :
    (m ^^^ WHITEBITS) &&& otherwhite w ≠ 0 ↔ isdead w m = false :=
  (marks_cases m h).2.2.2.2.2.2 hm

theorem setMarked_heap (g : GlobalState) (ts a : Addr) (m : UInt8) :
    ((g.setMarked ts m).heap a).next = (g.heap a).next ∧
      ((g.setMarked ts m).heap a).hash = (g.heap a).hash ∧
      ((g.setMarked ts m).heap a).data = (g.heap a).data ∧
      ((g.setMarked ts m).heap a).marked = if a = ts then m else (g.heap a).marked := by
  by_cases ha : a = ts
  · subst ha
    simp [GlobalState.setMarked, GlobalState.set]
  · simp [GlobalState.setMarked, GlobalState.set, ha]

/-- A string that was found is not condemned afterwards; nothing else changes. -/
theorem resurrect_spec (el : Addr) (hw : IsWhite g.currentwhite) :
    ∃ m, resurrect el g = g.setMarked el m ∧
      isdead g.currentwhite m = false ∧ (OneWhite (g.heap el).marked → OneWhite m) := by
  unfold resurrect
  split_ifs with hd
  · obtain ⟨h1, h2⟩ := changewhite_marks _ hw hd
    exact ⟨_, rfl, h2, fun _ => h1⟩
  · refine ⟨(g.heap el).marked, ?_, by simpa using hd, id⟩
    simp [GlobalState.setMarked, GlobalState.set]

/-! ### Freeing a string -/

/-- `g'` is `g` with the string `ts` taken out of the chain `b`, which visited `l`. -/
structure Unlinked (g g' : GlobalState) (b : ℕ) (l : List Addr) (ts : Addr) : Prop where
  chain : Chain g'.next (g'.strt.hash b) (l.erase ts)
  heads : ∀ i ≠ b, g'.strt.hash i = g.strt.hash i
  links : ∀ a ∉ l, g'.next a = g.next a
  same : SameStrings g.heap g'.heap
  strt : g'.strt = { g.strt with hash := g'.strt.hash }
  live : g'.live = g.live
  white : g'.currentwhite = g.currentwhite

theorem unlinkLoop_spec (ts : Addr) {b turns : ℕ} {prev curr : Option Addr} (l₁ : List Addr)
    {l : List Addr} (hchain : Chain g.next (g.strt.hash b) (l₁ ++ l)) (hcurr : Chain g.next curr l)
    (hprev : prev = l₁.getLast?) (hturns : l.length ≤ turns) :
    (ts ∉ l → unlinkLoop ts b turns prev curr g = (false, g)) ∧
      (ts ∈ l → ∃ g', unlinkLoop ts b turns prev curr g = (true, g') ∧
        Unlinked g g' b (l₁ ++ l) ts) := by
  induction l generalizing l₁ turns prev curr with
  | nil =>
    obtain rfl : curr = none := hcurr
    refine ⟨fun _ => ?_, fun h => absurd h List.not_mem_nil⟩
    cases turns <;> rfl
  | cons a l ih =>
    obtain ⟨rfl, htail⟩ := chain_cons.mp hcurr
    obtain ⟨turns, rfl⟩ : ∃ k, turns = k + 1 := ⟨turns - 1, by simp at hturns; omega⟩
    by_cases ha : a = ts
    · subst ha
      refine ⟨fun h => absurd List.mem_cons_self h, fun _ => ?_⟩
      have hal₁ : a ∉ l₁ := fun h =>
        (List.nodup_append.mp hchain.nodup).2.2 a h a List.mem_cons_self rfl
      have herase : (l₁ ++ a :: l).erase a = l₁ ++ l := by
        rw [List.erase_append_right _ hal₁, List.erase_cons_head]
      rw [unlinkLoop, if_pos rfl]
      rcases List.eq_nil_or_concat l₁ with rfl | ⟨l₀, p, rfl⟩
      · -- the string is the head of its chain
        obtain rfl : prev = none := hprev
        refine ⟨_, rfl, ?_, fun i hi => Function.update_of_ne hi _ _, fun _ _ => rfl,
          SameStrings.refl _, rfl, rfl, rfl⟩
        rw [herase]
        have hhead : Chain g.next (Function.update g.strt.hash b (g.next a) b) l := by
          rwa [Function.update_self]
        exact hhead
      · obtain rfl : prev = some p := by simpa using hprev
        rw [List.concat_eq_append, List.append_assoc, List.singleton_append] at hchain
        refine ⟨_, rfl, ?_, fun _ _ => rfl, fun c hc => ?_, sameStrings_update _ _ _, rfl, rfl, rfl⟩
        · rw [herase, List.concat_eq_append, List.append_assoc, List.singleton_append]
          have hunlink := hchain.unlink
          rw [show g.next = fun c => (g.heap c).next from rfl, ← next_update] at hunlink
          exact hunlink
        · have hcp : c ≠ p := fun e => hc (by simp [e])
          exact congrArg TString.next (Function.update_of_ne hcp _ _)
    · have happ : l₁ ++ a :: l = (l₁ ++ [a]) ++ l := by simp
      rw [happ] at hchain ⊢
      have hlast : some a = (l₁ ++ [a]).getLast? := by simp
      obtain ⟨h1, h2⟩ := ih (l₁ ++ [a]) hchain htail hlast (by simpa using hturns)
      rw [unlinkLoop, if_neg ha]
      refine ⟨fun h => h1 fun h' => h (List.mem_cons_of_mem a h'), fun h => h2 ?_⟩
      exact (List.mem_cons.mp h).resolve_left (Ne.symm ha)

theorem Table.unlinkstr_spec (h : Table g I) (ts : Addr) :
    (ts ∉ I → unlinkstr ts g = (false, g)) ∧
      (ts ∈ I → ∃ g' l, unlinkstr ts g = (true, g') ∧
        (∀ a, a ∈ l ↔ a ∈ I ∧ lmod (g.heap a).hash g.strt.size =
          lmod (g.heap ts).hash g.strt.size) ∧ l.Nodup ∧
        Unlinked g g' (lmod (g.heap ts).hash g.strt.size) l ts) := by
  obtain ⟨l, hl, hmem⟩ := h.buckets _ (lmod_lt (g.heap ts).hash h.size_pow)
  have hlen := (hl.length_le_card fun a ha => ((hmem a).mp ha).1).trans
    (Finset.card_le_card h.subset)
  obtain ⟨h1, h2⟩ := unlinkLoop_spec ts [] hl hl rfl hlen
  refine ⟨fun hts => h1 fun hmem' => hts ((hmem ts).mp hmem').1, fun hts => ?_⟩
  obtain ⟨g', hg', hu⟩ := h2 ((hmem ts).mpr ⟨hts, rfl⟩)
  exact ⟨g', l, hg', hmem, hl.nodup, hu⟩

/-- Freeing a string takes it out of the table; a buffer that is not in the table is just
freed. -/
theorem Table.free (h : Table g I) (ts : Addr) :
    Table (luaS_free ts g) (I.erase ts) ∧ SameStrings g.heap (luaS_free ts g).heap ∧
      (luaS_free ts g).live = g.live.erase ts ∧
      (luaS_free ts g).currentwhite = g.currentwhite := by
  obtain ⟨h1, h2⟩ := h.unlinkstr_spec ts
  by_cases hts : ts ∈ I
  · obtain ⟨g', l, hg', hmem, hnd, hu⟩ := h2 hts
    have hsame := hu.same
    have hdef : luaS_free ts g = { g' with
        strt := { g'.strt with nuse := g'.strt.nuse - 1 }, live := g'.live.erase ts } := by
      simp only [luaS_free, hg', if_true]
    have hsize : g'.strt.size = g.strt.size := by rw [hu.strt]
    have hnuse : g'.strt.nuse = g.strt.nuse := by rw [hu.strt]
    rw [hdef, hu.live, hu.white]
    simp only [hsize, hnuse]
    refine ⟨⟨h.size_pow, ?_, ?_, ?_, ?_, Finset.erase_subset_erase ts h.subset⟩, hsame, ?_⟩
    · intro i hi
      simp only [(hsame _).1, Finset.mem_erase]
      by_cases hib : i = lmod (g.heap ts).hash g.strt.size
      · subst hib
        refine ⟨l.erase ts, hu.chain, fun a => ?_⟩
        rw [hnd.mem_erase_iff, hmem, and_assoc]
      · obtain ⟨l', hl', hmem'⟩ := h.buckets i hi
        refine ⟨l', ?_, fun a => ?_⟩
        · rw [hu.heads i hib]
          refine hl'.congr fun a ha => hu.links a fun ha' => hib ?_
          rw [← ((hmem' a).mp ha).2, ((hmem a).mp ha').2]
        · rw [hmem']
          constructor
          · rintro ⟨ha, hai⟩
            refine ⟨⟨?_, ha⟩, hai⟩
            rintro rfl
            exact hib hai.symm
          · exact fun ⟨⟨_, ha⟩, hai⟩ => ⟨ha, hai⟩
    · intro a ha
      rw [(hsame a).1, (hsame a).2.1]
      exact h.hash_eq a (Finset.mem_of_mem_erase ha)
    · have hcard := Finset.card_erase_add_one hts
      have hn := h.nuse_eq
      rw [← hcard, UInt32.ofNat_add] at hn
      simp only [hn]
      exact UInt32.add_sub_cancel _ _
    · intro a ha c hc e
      rw [(hsame a).2.1, (hsame c).2.1] at e
      exact h.unique a (Finset.mem_of_mem_erase ha) c (Finset.mem_of_mem_erase hc) e
    · exact ⟨trivial, trivial⟩
  · simp only [luaS_free, h1 hts]
    rw [Finset.erase_eq_of_notMem hts]
    refine ⟨h.congr rfl (fun _ _ => rfl) (fun _ _ => rfl) (fun _ _ => rfl) fun a ha => ?_,
      SameStrings.refl _, rfl, rfl⟩
    exact Finset.mem_erase.mpr ⟨fun e => hts (e ▸ ha), h.subset ha⟩

end Str

end Jaci
