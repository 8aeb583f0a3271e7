import Jaci.Lib.Linked

/-!
# Chained scatter tables with Brent's variation

Cells of any type hold keys and are linked into chains.  A key is looked up along the chain that
starts at its main position; a cell that is not in its main position is only there because the
main position of its key holds a key of its own.

* `Scatter` : the invariant;
* `Scatter.overwrite` : a new key in its main position;
* `Scatter.insertAfter` : a new key in a free cell, behind its main position;
* `Scatter.relocate` : a cell moves to a free cell to make room for a new key.
-/

open Linked

variable {ι K : Type}

/-- The first cell with the key `k` on the way from `s` is `i`. -/
def Found (key : ι → Option K) (next : ι → Option ι) (s : ι) (k : K) (i : ι) : Prop :=
  ∃ l, Seg next (some s) l (some i) ∧ key i = some k ∧ ∀ a ∈ l, key a ≠ some k

/-- The cells `S` are a chained scatter table for the main positions `main`. -/
structure Scatter (S : Set ι) (main : K → ι) (key : ι → Option K) (next : ι → Option ι) : Prop where
  home : ∀ k, main k ∈ S
  closed : ∀ i ∈ S, ∀ j, next i = some j → j ∈ S
  chain : ∀ i ∈ S, ∃ l, Chain next (some i) l
  inj : ∀ i ∈ S, ∀ j ∈ S, ∀ n, next i = some n → next j = some n → i = j
  free : ∀ i ∈ S, key i = none → next i = none ∧ ∀ j ∈ S, next j ≠ some i
  found : ∀ i ∈ S, ∀ k, key i = some k → Found key next (main k) k i
  /-- A key is away from its main position only if the key there is at home. -/
  brent : ∀ i ∈ S, ∀ k, key i = some k → main k ≠ i → ∃ k', key (main k) = some k' ∧
    main k' = main k

namespace Scatter

variable {S : Set ι} {main : K → ι} {key : ι → Option K} {next : ι → Option ι} {k : K} {n p : ι}

/-- An empty table. -/
theorem empty (home : ∀ k, main k ∈ S) :
    Scatter S main (fun _ => none) (fun _ => none) where
  home := home
  closed := by simp
  chain := fun i _ => ⟨[i], rfl, rfl⟩
  inj := by simp
  free := by simp
  found := by simp
  brent := by simp

theorem seg_subset (h : Scatter S main key next) {l : List ι} {s : ι} {q : Option ι} (hs : s ∈ S)
    (hl : Seg next (some s) l q) : ∀ a ∈ l, a ∈ S := by
  induction l generalizing s with
  | nil => simp
  | cons a l ih =>
    obtain ⟨ha, hl⟩ := hl
    obtain rfl : s = a := by simpa using ha
    intro b hb
    rcases List.mem_cons.mp hb with rfl | hb
    · exact hs
    · cases l with
      | nil => exact absurd hb List.not_mem_nil
      | cons c l =>
        have hc : next s = some c := hl.1
        exact ih (h.closed s hs c hc) (hc ▸ hl) b hb

/-- A free cell is on no way that starts elsewhere. -/
theorem free_notMem (h : Scatter S main key next) (hn : n ∈ S) (hfree : key n = none) {s : ι}
    (hs : s ∈ S) (hsn : s ≠ n) {l : List ι} {q : Option ι} (hl : Seg next (some s) l q) :
    n ∉ l := by
  intro hmem
  rcases hl.eq_start_or_next hmem with e | ⟨b, hb, e⟩
  · exact hsn (by simpa using e)
  · exact (h.free n hn hfree).2 b (h.seg_subset hs hl b hb) e

/-- The main position of a key in the table is not free. -/
theorem main_ne_free (h : Scatter S main key next) (hn : n ∈ S) (hfree : key n = none) {i : ι}
    (hi : i ∈ S) (hk : key i = some k) : main k ≠ n := by
  rintro rfl
  obtain ⟨l, hl, -, -⟩ := h.found i hi k hk
  cases l with
  | nil =>
    obtain rfl : main k = i := Option.some.inj hl
    rw [hfree] at hk
    exact absurd hk (by simp)
  | cons a l =>
    obtain rfl : main k = a := Option.some.inj hl.1
    have hl' := hl.2
    rw [(h.free _ hn hfree).1] at hl'
    cases l with
    | nil => exact absurd hl' (by simp [Seg])
    | cons c l => exact absurd hl'.1 (by simp)

/-- No cell links to itself. -/
theorem next_ne_self (h : Scatter S main key next) (hp : p ∈ S) : next p ≠ some p := by
  intro e
  obtain ⟨l, hl⟩ := h.chain p hp
  cases l with
  | nil => exact absurd (chain_nil.mp hl) (by simp)
  | cons a l =>
    obtain rfl : p = a := Option.some.inj hl.1
    have hl' : Chain next (some p) l := e ▸ hl.2
    have := congrArg List.length (Chain.unique hl hl')
    simp at this

/-- A key is in at most one cell. -/
theorem key_unique (h : Scatter S main key next) {i j : ι} (hi : i ∈ S) (hj : j ∈ S)
    (hki : key i = some k) (hkj : key j = some k) : i = j := by
  obtain ⟨l, hl, -, hne⟩ := h.found i hi k hki
  obtain ⟨l', hl', -, hne'⟩ := h.found j hj k hkj
  clear hi hj
  generalize some (main k) = s at hl hl'
  induction l generalizing s l' with
  | nil =>
    cases l' with
    | nil => exact Option.some.inj (hl.symm.trans hl')
    | cons b l' =>
      have hbi : b = i := Option.some.inj (hl'.1.symm.trans hl)
      exact absurd hki (hbi ▸ hne' b List.mem_cons_self)
  | cons a l ih =>
    cases l' with
    | nil =>
      have haj : a = j := Option.some.inj (hl.1.symm.trans hl')
      exact absurd hkj (haj ▸ hne a List.mem_cons_self)
    | cons b l' =>
      obtain rfl : a = b := Option.some.inj (hl.1.symm.trans hl'.1)
      exact ih (fun c hc => hne c (List.mem_cons_of_mem a hc)) l'
        (fun c hc => hne' c (List.mem_cons_of_mem a hc)) _ hl.2 hl'.2

/-- A key away from its main position is behind another cell on the way from there. -/
theorem predecessor (h : Scatter S main key next) {i : ι} (hi : i ∈ S) (hk : key i = some k)
    (haway : main k ≠ i) : ∃ b ∈ S, next b = some i ∧
      ∃ l, Seg next (some (main k)) l (some b) ∧ ∀ a ∈ l, next a ≠ some i := by
  obtain ⟨l, hl, -, -⟩ := h.found i hi k hk
  rcases List.eq_nil_or_concat l with rfl | ⟨l, b, rfl⟩
  · exact absurd (Option.some.inj hl) haway
  · rw [List.concat_eq_append] at hl
    have hS := h.seg_subset (h.home k) hl
    have hbS : b ∈ S := hS b (by simp)
    obtain ⟨r, hr, rfl, hb⟩ := seg_append.mp hl
    have hb : next b = some i := hb
    refine ⟨b, hbS, hb, l, hr, fun a ha e => ?_⟩
    -- the only cell that links to `i` is `b`, and a chain visits it once
    obtain rfl := h.inj a (hS a (by simp [ha])) b hbS i e hb
    obtain ⟨l', hl'⟩ := h.chain i hi
    have hchain : Chain next (some (main k)) ((l ++ [a]) ++ l') := seg_append.mpr ⟨_, hl, hl'⟩
    have hnodup := (List.nodup_append.mp hchain.nodup).1
    exact (List.nodup_append.mp hnodup).2.2 a ha a (by simp) rfl

section Update

variable [DecidableEq ι]

/-- The main position of a new key, if it can be given up, takes the key. -/
theorem overwrite (h : Scatter S main key next) (hnew : ∀ i ∈ S, key i ≠ some k) :
    Scatter S main (Function.update key (main k) (some k)) next where
  home := h.home
  closed := h.closed
  chain := h.chain
  inj := h.inj
  free := fun i hi hfree => by
    by_cases e : i = main k
    · rw [e, Function.update_self] at hfree
      exact absurd hfree (by simp)
    · rw [Function.update_of_ne e] at hfree
      exact h.free i hi hfree
  found := fun i hi k' hk' => by
    by_cases e : i = main k
    · subst e
      rw [Function.update_self] at hk'
      obtain rfl : k = k' := Option.some.inj hk'
      exact ⟨[], rfl, Function.update_self _ _ _, by simp⟩
    · rw [Function.update_of_ne e] at hk'
      obtain ⟨l, hl, -, hne⟩ := h.found i hi k' hk'
      refine ⟨l, hl, by rwa [Function.update_of_ne e], fun a ha => ?_⟩
      by_cases ea : a = main k
      · rw [ea, Function.update_self]
        intro e'
        exact hnew i hi (by rw [hk', e'])
      · rw [Function.update_of_ne ea]
        exact hne a ha
  brent := fun i hi k' hk' hne => by
    by_cases e : i = main k
    · subst e
      rw [Function.update_self] at hk'
      obtain rfl : k = k' := Option.some.inj hk'
      exact absurd rfl hne
    · rw [Function.update_of_ne e] at hk'
      by_cases e' : main k' = main k
      · exact ⟨k, by rw [e', Function.update_self], e'.symm⟩
      · obtain ⟨k'', h1, h2⟩ := h.brent i hi k' hk' hne
        exact ⟨k'', by rwa [Function.update_of_ne e'], h2⟩

/-- A new key whose main position holds a key at home goes to a free cell `n` behind it. -/
theorem insertAfter (h : Scatter S main key next) (hnew : ∀ i ∈ S, key i ≠ some k) (hn : n ∈ S)
    (hfree : key n = none) (hhome : ∃ k', key (main k) = some k' ∧ main k' = main k) :
    Scatter S main (Function.update key n (some k))
      (Function.update (Function.update next n (next (main k))) (main k) (some n)) := by
  obtain ⟨k₀, hk₀, hmain⟩ := hhome
  have hk := h.home k
  have hnm : n ≠ main k := by
    rintro rfl
    rw [hfree] at hk₀
    exact absurd hk₀ (by simp)
  obtain ⟨hnext, hpred⟩ := h.free n hn hfree
  set next' := Function.update (Function.update next n (next (main k))) (main k) (some n) with hn'
  have hat : ∀ i, i ≠ n → i ≠ main k → next' i = next i := fun i h1 h2 => by
    rw [hn', Function.update_of_ne h2, Function.update_of_ne h1]
  have hatn : next' n = next (main k) := by
    rw [hn', Function.update_of_ne hnm, Function.update_self]
  have hatm : next' (main k) = some n := by rw [hn', Function.update_self]
  have hseg : ∀ s ∈ S, s ≠ n → ∀ l q, Seg next (some s) l q →
      Seg next' (some s) (l.flatMap fun c => if c = main k then [c, n] else [c]) q :=
    fun s hs hsn l q hl => hl.insertAfter (h.free_notMem hn hfree hs hsn hl)
  have hmem : ∀ (l : List ι), ∀ a ∈ l.flatMap (fun c => if c = main k then [c, n] else [c]),
      a ∈ l ∨ a = n := by
    intro l a ha
    obtain ⟨c, hc, ha⟩ := List.mem_flatMap.mp ha
    split_ifs at ha
    · rcases List.mem_cons.mp ha with rfl | ha
      · exact .inl hc
      · exact .inr (List.mem_singleton.mp ha)
    · exact .inl (List.mem_singleton.mp ha ▸ hc)
  refine ⟨h.home, ?_, ?_, ?_, ?_, ?_, ?_⟩
  · intro i hi j hij
    by_cases e : i = main k
    · rw [e, hatm] at hij
      exact Option.some.inj hij ▸ hn
    · by_cases e' : i = n
      · rw [e', hatn] at hij
        exact h.closed _ hk j hij
      · rw [hat i e' e] at hij
        exact h.closed i hi j hij
  · intro i hi
    by_cases e : i = n
    · -- behind `n` comes what came behind the main position
      obtain ⟨l, hl⟩ := h.chain _ hk
      cases l with
      | nil => exact absurd (chain_nil.mp hl) (by simp)
      | cons a l =>
        have ha : a = main k := Option.some.inj hl.1.symm
        have hl' := hseg _ hk (Ne.symm hnm) _ _ hl
        rw [List.flatMap_cons, if_pos ha] at hl'
        obtain ⟨-, -, hrest⟩ := hl'
        exact ⟨n :: _, by rw [e], hrest⟩
    · obtain ⟨l, hl⟩ := h.chain i hi
      exact ⟨_, hseg i hi e _ _ hl⟩
  · intro i hi j hj m him hjm
    by_cases ei : i = main k <;> by_cases ej : j = main k
    · rw [ei, ej]
    · rw [ei, hatm] at him
      obtain rfl : n = m := Option.some.inj him
      by_cases ejn : j = n
      · rw [ejn, hatn] at hjm
        exact absurd hjm (hpred _ hk)
      · rw [hat j ejn ej] at hjm
        exact absurd hjm (hpred j hj)
    · rw [ej, hatm] at hjm
      obtain rfl : n = m := Option.some.inj hjm
      by_cases ein : i = n
      · rw [ein, hatn] at him
        exact absurd him (hpred _ hk)
      · rw [hat i ein ei] at him
        exact absurd him (hpred i hi)
    · by_cases ein : i = n <;> by_cases ejn : j = n
      · rw [ein, ejn]
      · rw [ein, hatn] at him
        rw [hat j ejn ej] at hjm
        exact absurd (h.inj _ hk j hj m him hjm).symm ej
      · rw [ejn, hatn] at hjm
        rw [hat i ein ei] at him
        exact absurd (h.inj _ hk i hi m hjm him).symm ei
      · rw [hat i ein ei] at him
        rw [hat j ejn ej] at hjm
        exact h.inj i hi j hj m him hjm
  · intro i hi hi'
    by_cases e : i = n
    · rw [e, Function.update_self] at hi'
      exact absurd hi' (by simp)
    · rw [Function.update_of_ne e] at hi'
      have em : i ≠ main k := by
        rintro rfl
        rw [hi'] at hk₀
        exact absurd hk₀ (by simp)
      obtain ⟨h1, h2⟩ := h.free i hi hi'
      refine ⟨by rw [hat i e em, h1], fun j hj hji => ?_⟩
      by_cases ejm : j = main k
      · rw [ejm, hatm] at hji
        exact e (Option.some.inj hji).symm
      · by_cases ejn : j = n
        · rw [ejn, hatn] at hji
          exact h2 _ hk hji
        · rw [hat j ejn ejm] at hji
          exact h2 j hj hji
  · intro i hi k' hk'
    by_cases e : i = n
    · subst e
      rw [Function.update_self] at hk'
      obtain rfl : k = k' := Option.some.inj hk'
      refine ⟨[main k], ⟨rfl, hatm⟩, Function.update_self _ _ _, fun a ha => ?_⟩
      rw [List.mem_singleton.mp ha, Function.update_of_ne (Ne.symm hnm)]
      exact hnew _ hk
    · rw [Function.update_of_ne e] at hk'
      obtain ⟨l, hl, -, hne⟩ := h.found i hi k' hk'
      have hs := h.main_ne_free hn hfree hi hk'
      refine ⟨_, hseg _ (h.home k') hs l _ hl, by rwa [Function.update_of_ne e], fun a ha => ?_⟩
      rcases hmem l a ha with ha | rfl
      · have han : a ≠ n := fun han => h.free_notMem hn hfree (h.home k') hs hl (han ▸ ha)
        rw [Function.update_of_ne han]
        exact hne a ha
      · rw [Function.update_self]
        intro e'
        exact hnew i hi (by rw [hk', e'])
  · intro i hi k' hk' hne
    by_cases e : i = n
    · subst e
      rw [Function.update_self] at hk'
      obtain rfl : k = k' := Option.some.inj hk'
      exact ⟨k₀, by rwa [Function.update_of_ne (Ne.symm hnm)], hmain⟩
    · rw [Function.update_of_ne e] at hk'
      obtain ⟨k'', h1, h2⟩ := h.brent i hi k' hk' hne
      refine ⟨k'', ?_, h2⟩
      rw [Function.update_of_ne]
      · exact h1
      · rintro e'
        rw [e', hfree] at h1
        exact absurd h1 (by simp)

/-- A cell that is not in its main position makes room for a new key: it moves to a free cell `n`,
and the cell `b` before it links there. -/
theorem relocate (h : Scatter S main key next) (hn : n ∈ S) (hfree : key n = none) {k₁ : K}
    (hk₁ : key (main k) = some k₁) (haway : main k₁ ≠ main k) {b : ι} (hb : b ∈ S) (hbp : next b = some (main k)) :
    Scatter S main (Function.update (Function.update key n (key (main k))) (main k) (some k))
      (Function.update (Function.update (Function.update next b (some n)) n (next (main k)))
        (main k) none) := by
  set p := main k with hp
  have hpS : p ∈ S := h.home k
  obtain ⟨hnext, hpred⟩ := h.free n hn hfree
  have hnp : n ≠ p := by
    rintro rfl
    rw [hfree] at hk₁
    exact absurd hk₁ (by simp)
  have hbn : b ≠ n := by
    rintro rfl
    rw [hnext] at hbp
    exact absurd hbp (by simp)
  have hbp' : b ≠ p := by
    rintro rfl
    exact h.next_ne_self hpS hbp
  set next' := Function.update (Function.update (Function.update next b (some n)) n (next p)) p none
    with hn'
  set key' := Function.update (Function.update key n (key p)) p (some k) with hk'
  have hatp : next' p = none := by rw [hn', Function.update_self]
  have hatn : next' n = next p := by rw [hn', Function.update_of_ne hnp, Function.update_self]
  have hatb : next' b = some n := by
    rw [hn', Function.update_of_ne hbp', Function.update_of_ne hbn, Function.update_self]
  have hat : ∀ i, i ≠ p → i ≠ n → i ≠ b → next' i = next i := fun i h1 h2 h3 => by
    rw [hn', Function.update_of_ne h1, Function.update_of_ne h2, Function.update_of_ne h3]
  have hkp : key' p = some k := by rw [hk', Function.update_self]
  have hkn : key' n = key p := by rw [hk', Function.update_of_ne hnp, Function.update_self]
  have hki : ∀ i, i ≠ p → i ≠ n → key' i = key i := fun i h1 h2 => by
    rw [hk', Function.update_of_ne h1, Function.update_of_ne h2]
  -- the new table is the old one with `p` renamed to `n`
  set r : ι → ι := fun a => if a = p then n else a with hr
  have hrp : r p = n := if_pos rfl
  have hra : ∀ a, a ≠ p → r a = a := fun a ha => if_neg ha
  have hlink : ∀ a ∈ S, a ≠ n → next' (r a) = (next a).map r := by
    intro a ha han
    by_cases hap : a = p
    · rw [hap, hrp, hatn]
      cases hx : next p with
      | none => rfl
      | some x =>
        have hxp : x ≠ p := fun e => h.next_ne_self hpS (e ▸ hx)
        rw [Option.map_some, hra x hxp]
    · rw [hra a hap]
      by_cases hab : a = b
      · rw [hab, hatb, hbp, Option.map_some, hrp]
      · rw [hat a hap han hab]
        cases hx : next a with
        | none => rfl
        | some x =>
          have hxp : x ≠ p := fun e => hab (h.inj a ha b hb p (e ▸ hx) hbp)
          rw [Option.map_some, hra x hxp]
  have hseg : ∀ s ∈ S, s ≠ n → ∀ l q, Seg next (some s) l q →
      Seg next' (some (r s)) (l.map r) (q.map r) := by
    intro s hs hsn l q hl
    refine hl.map fun a ha => hlink a (h.seg_subset hs hl a ha) fun e => ?_
    exact h.free_notMem hn hfree hs hsn hl (e ▸ ha)
  have hpre : ∀ i ∈ S, i ≠ p → ∃ a ∈ S, a ≠ n ∧ r a = i := by
    intro i hi hip
    by_cases e : i = n
    · exact ⟨p, hpS, Ne.symm hnp, e ▸ hrp⟩
    · exact ⟨i, hi, e, hra i hip⟩
  have hrinj : ∀ x y, x ≠ n → y ≠ n → r x = r y → x = y := by
    intro x y hx hy e
    by_cases hxp : x = p <;> by_cases hyp : y = p
    · rw [hxp, hyp]
    · rw [hxp, hrp, hra y hyp] at e
      exact absurd e.symm hy
    · rw [hyp, hrp, hra x hxp] at e
      exact absurd e hx
    · rwa [hra x hxp, hra y hyp] at e
  have hhome : ∀ i ∈ S, i ≠ p → ∀ k', key i = some k' → main k' ≠ p := by
    intro i hi hip k' hk' e
    obtain ⟨k'', h1, h2⟩ := h.brent i hi k' hk' (by rw [e]; exact Ne.symm hip)
    rw [e, hk₁] at h1
    exact haway (by rw [Option.some.inj h1, h2, e])
  refine ⟨h.home, ?_, ?_, ?_, ?_, ?_, ?_⟩
  · intro i hi j hij
    have hip : i ≠ p := by
      rintro rfl
      rw [hatp] at hij
      exact absurd hij (by simp)
    obtain ⟨a, ha, han, rfl⟩ := hpre i hi hip
    rw [hlink a ha han] at hij
    obtain ⟨x, hx, rfl⟩ := Option.map_eq_some_iff.mp hij
    by_cases hxp : x = p
    · rw [hxp, hrp]
      exact hn
    · rw [hra x hxp]
      exact h.closed a ha x hx
  · intro i hi
    by_cases hip : i = p
    · exact ⟨[i], rfl, by rw [hip, hatp]; rfl⟩
    · obtain ⟨a, ha, han, rfl⟩ := hpre i hi hip
      obtain ⟨l, hl⟩ := h.chain a ha
      exact ⟨_, hseg a ha han l none hl⟩
  · intro i hi j hj m him hjm
    have hip : i ≠ p := by
      rintro rfl
      rw [hatp] at him
      exact absurd him (by simp)
    have hjp : j ≠ p := by
      rintro rfl
      rw [hatp] at hjm
      exact absurd hjm (by simp)
    obtain ⟨a, ha, han, rfl⟩ := hpre i hi hip
    obtain ⟨c, hc, hcn, rfl⟩ := hpre j hj hjp
    rw [hlink a ha han] at him
    rw [hlink c hc hcn] at hjm
    obtain ⟨x, hx, rfl⟩ := Option.map_eq_some_iff.mp him
    obtain ⟨y, hy, hyx⟩ := Option.map_eq_some_iff.mp hjm
    have hxy : y = x := hrinj y x (fun e => hpred c hc (e ▸ hy)) (fun e => hpred a ha (e ▸ hx)) hyx
    rw [h.inj a ha c hc x hx (hxy ▸ hy)]
  · intro i hi hi'
    have hip : i ≠ p := by
      rintro rfl
      rw [hkp] at hi'
      exact absurd hi' (by simp)
    have hin : i ≠ n := by
      rintro rfl
      rw [hkn, hk₁] at hi'
      exact absurd hi' (by simp)
    rw [hki i hip hin] at hi'
    obtain ⟨h1, h2⟩ := h.free i hi hi'
    have hib : i ≠ b := by
      rintro rfl
      rw [h1] at hbp
      exact absurd hbp (by simp)
    refine ⟨by rw [hat i hip hin hib, h1], fun j hj hji => ?_⟩
    have hjp : j ≠ p := by
      rintro rfl
      rw [hatp] at hji
      exact absurd hji (by simp)
    obtain ⟨a, ha, han, rfl⟩ := hpre j hj hjp
    rw [hlink a ha han] at hji
    obtain ⟨x, hx, hxi⟩ := Option.map_eq_some_iff.mp hji
    by_cases hxp : x = p
    · rw [hxp, hrp] at hxi
      exact hin hxi.symm
    · rw [hra x hxp] at hxi
      exact h2 a ha (hxi ▸ hx)
  · intro i hi k' hki'
    by_cases hip : i = p
    · subst hip
      rw [hkp] at hki'
      obtain rfl : k = k' := Option.some.inj hki'
      exact ⟨[], rfl, hkp, by simp⟩
    -- `i` was found at `a` from a main position that is neither `p` nor free
    obtain ⟨a, ha, han, rfl⟩ := hpre i hi hip
    have hka : key a = some k' := by
      by_cases hap : a = p
      · rw [hap, hrp, hkn] at hki'
        rw [hap, hki']
      · rwa [hra a hap, hki a hap han] at hki'
    have hmp : main k' ≠ p := by
      by_cases hap : a = p
      · rw [hap, hk₁] at hka
        rw [← Option.some.inj hka]
        exact haway
      · exact hhome a ha hap k' hka
    obtain ⟨l, hl, -, hne⟩ := h.found a ha k' hka
    have hmn := h.main_ne_free hn hfree ha hka
    have hl' := hseg _ (h.home k') hmn l _ hl
    rw [hra _ hmp] at hl'
    refine ⟨_, hl', hki', fun c hc => ?_⟩
    obtain ⟨d, hd, rfl⟩ := List.mem_map.mp hc
    have hdn : d ≠ n := fun e => h.free_notMem hn hfree (h.home k') hmn hl (e ▸ hd)
    by_cases hdp : d = p
    · rw [hdp, hrp, hkn]
      exact hdp ▸ hne d hd
    · rw [hra d hdp, hki d hdp hdn]
      exact hne d hd
  · intro i hi k' hki' hne
    have hip : i ≠ p := by
      rintro rfl
      rw [hkp] at hki'
      exact hne (by rw [← Option.some.inj hki'])
    obtain ⟨a, ha, han, rfl⟩ := hpre i hi hip
    have hka : key a = some k' ∧ main k' ≠ p ∧ main k' ≠ a := by
      by_cases hap : a = p
      · rw [hap, hrp, hkn] at hki'
        have hkk : k₁ = k' := Option.some.inj (hk₁.symm.trans hki')
        exact ⟨by rw [hap, hki'], hkk ▸ haway, by rw [hap]; exact hkk ▸ haway⟩
      · rw [hra a hap, hki a hap han] at hki'
        rw [hra a hap] at hne
        exact ⟨hki', hhome a ha hap k' hki', hne⟩
    obtain ⟨hka, hmp, hma⟩ := hka
    obtain ⟨k'', h1, h2⟩ := h.brent a ha k' hka hma
    exact ⟨k'', by rw [hki _ hmp (h.main_ne_free hn hfree ha hka), h1], h2⟩

end Update

end Scatter
