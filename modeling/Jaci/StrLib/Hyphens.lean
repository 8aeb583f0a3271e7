import Jaci.StrLib.Match
import Mathlib.Data.List.Infix
import Mathlib.Logic.Relation

/-!
# Hyphens between words

A hyphen between two letters or digits stands for itself.

* `Literal` : words with hyphens between them, and `init_literal`, which finds them as they are;
* `findLoop_first`, `lmemfind_spec` : both searches find the first occurrence;
* `afterItem` : the items of a pattern, and `match_item_congr`;
* `word_hyphen_literal` : **hyphens between words are literal, and nothing else changes**.
-/

namespace Jaci

namespace StrLib

open Wire

/-! ### Literal patterns -/

def IsWord (w : Bytes) : Prop := w ≠ [] ∧ ∀ c ∈ w, isalnum c = true

/-- Two or more words with hyphens between them. -/
def IsHyphenated (p : Bytes) : Prop :=
  ∃ ws : List Bytes, 2 ≤ ws.length ∧ (∀ w ∈ ws, IsWord w) ∧ p = [chr '-'].intercalate ws

/-- Words with hyphens between them, from a letter or digit on. -/
inductive Literal : Bytes → Prop where
  | last {c : UInt8} : isalnum c = true → Literal [c]
  | letter {c d : UInt8} {p : Bytes} : isalnum c = true → isalnum d = true → Literal (d :: p) →
      Literal (c :: d :: p)
  | hyphen {c d : UInt8} {p : Bytes} : isalnum c = true → isalnum d = true → Literal (d :: p) →
      Literal (c :: chr '-' :: d :: p)

theorem Literal.head {p : Bytes} (h : Literal p) : ∃ c q, p = c :: q ∧ isalnum c = true := by
  cases h with
  | last hc => exact ⟨_, _, rfl, hc⟩
  | letter hc _ _ => exact ⟨_, _, rfl, hc⟩
  | hyphen hc _ _ => exact ⟨_, _, rfl, hc⟩

theorem Literal.of_word {w : Bytes} (h : IsWord w) : Literal w := by
  obtain ⟨hne, hw⟩ := h
  induction w with
  | nil => exact absurd rfl hne
  | cons c w ih =>
    obtain ⟨hc, hrest⟩ := List.forall_mem_cons.mp hw
    cases w with
    | nil => exact .last hc
    | cons d w => exact .letter hc (hrest d List.mem_cons_self) (ih (List.cons_ne_nil d w) hrest)

/-- A word before. -/
theorem Literal.word_append {w p : Bytes} (h : IsWord w) (hp : Literal p) :
    Literal (w ++ chr '-' :: p) := by
  obtain ⟨hne, hw⟩ := h
  obtain ⟨d, q, rfl, hd⟩ := hp.head
  induction w with
  | nil => exact absurd rfl hne
  | cons c w ih =>
    obtain ⟨hc, hrest⟩ := List.forall_mem_cons.mp hw
    cases w with
    | nil => exact .hyphen hc hd hp
    | cons e w => exact .letter hc (hrest e List.mem_cons_self) (ih (List.cons_ne_nil e w) hrest)

theorem Literal.intercalate {ws : List Bytes} (hne : ws ≠ []) (h : ∀ w ∈ ws, IsWord w) :
    Literal ([chr '-'].intercalate ws) := by
  induction ws with
  | nil => exact absurd rfl hne
  | cons w ws ih =>
    obtain ⟨hw, hrest⟩ := List.forall_mem_cons.mp h
    cases ws with
    | nil => simpa using Literal.of_word hw
    | cons v ws =>
      have := Literal.word_append hw (ih (List.cons_ne_nil v ws) hrest)
      simpa [List.intercalate, List.intersperse] using this

section Match

variable {hyphen : Bytes → Bytes → Bool} {src : Bytes}

theorem classend_eq {c : UInt8} {p : Bytes} (hesc : c ≠ L_ESC) (hset : c ≠ chr '[') :
    classend (c :: p) = .ok p := by
  simp [classend, hesc, hset]

/-- A character that stands for itself. -/
def Plain (c : UInt8) : Prop := isalnum c = true ∨ c = chr '-'

theorem ne_of_isalnum {c d : UInt8} (h : isalnum c = true) (hd : isalnum d = false) : c ≠ d := by
  rintro rfl
  rw [h] at hd
  cases hd

theorem Plain.ne {c d : UInt8} (h : Plain c) (hd : isalnum d = false) (hne : chr '-' ≠ d) :
    c ≠ d := by
  rcases h with h | rfl
  · exact ne_of_isalnum h hd
  · exact hne

theorem singlematch_plain {c : UInt8} {p ep : Bytes} (hc : Plain c) (s : ℕ) :
    singlematch src (c :: p) ep s = decide (s < src.length ∧ peek (src.drop s) = c) := by
  have hdot : c ≠ chr '.' := hc.ne rfl (by decide)
  have hesc : c ≠ L_ESC := hc.ne rfl (by decide)
  have hset : c ≠ chr '[' := hc.ne rfl (by decide)
  have hpeek : peek (c :: p) = c := rfl
  rw [singlematch, hpeek, if_neg hdot, if_neg hesc, if_neg hset]
  split_ifs with hs
  · simp [Nat.not_lt.mpr hs]
  · rw [Bool.beq_eq_decide_eq]
    exact decide_eq_decide.mpr ⟨fun h => ⟨Nat.lt_of_not_le hs, h.symm⟩, fun h => h.2.symm⟩

theorem match_single_ok {p ep : Bytes} {hp : p ≠ []} (h : classend p = .ok ep)
    (hep : ep.length < p.length) (htail : ep.tail.length < p.length)
    (call next : ∀ q : Bytes, q.length < p.length → Matcher) :
    match_single hyphen src p hp call next =
      match_suffix hyphen src p ep (call ep.tail htail) (next ep.tail htail) (next ep hep) := by
  unfold match_single
  split
  · rename_i e he
    cases h.symm.trans he
  · rename_i ep' hep'
    obtain rfl := Except.ok.inj (h.symm.trans hep')
    rfl

/-- A character that stands for itself is matched as it is, without a suffix. -/
theorem match_item_plain {c : UInt8} {p : Bytes} (hc : Plain c)
    (hsuffix : peek p ∉ [chr '*', chr '?', chr '+'])
    (hhyphen : peek p = chr '-' → hyphen (c :: p) p = true)
    (call next : ∀ q : Bytes, q.length < (c :: p).length → Matcher) (s : ℕ)
    (capture : List Capture) :
    match_item hyphen src c p call next s capture =
      if s < src.length ∧ peek (src.drop s) = c then
        next p (Nat.lt_succ_self p.length) (s + 1) capture
      else .ok (none, capture) := by
  have hparen : c ≠ chr '(' := hc.ne rfl (by decide)
  have hclose : c ≠ chr ')' := hc.ne rfl (by decide)
  have hend : ¬ (c = chr '$' ∧ p = []) := fun h => hc.ne rfl (by decide) h.1
  have hesc : c ≠ L_ESC := hc.ne rfl (by decide)
  have hclass : classend (c :: p) = .ok p := classend_eq hesc (hc.ne rfl (by decide))
  simp only [List.mem_cons, List.not_mem_nil, or_false, not_or] at hsuffix
  obtain ⟨hstar, hopt, hplus⟩ := hsuffix
  rw [match_item, if_neg hparen, if_neg hclose, if_neg hend, if_neg hesc,
    match_single_ok hclass (Nat.lt_succ_self p.length)
      (by rw [List.length_tail, List.length_cons]; omega), match_suffix,
    singlematch_plain hc]
  -- Without a suffix, or with a literal hyphen, the byte matches itself or fails.
  by_cases hs : s < src.length ∧ peek (src.drop s) = c
  · rw [if_pos hs, decide_eq_true hs, if_neg (by simp), if_neg hopt, if_neg hplus, if_neg hstar]
    split_ifs with hdash hrule
    · rfl
    · exact absurd (hhyphen hdash) hrule
    · rfl
  · rw [if_neg hs, decide_eq_false hs, if_pos (by simp)]
    refine if_neg ?_
    rintro (h | h | ⟨h, hrule⟩)
    · exact hstar h
    · exact hopt h
    · rw [hhyphen h] at hrule
      cases hrule

theorem init_cons (depth : ℕ) (c : UInt8) (p : Bytes) :
    init hyphen src depth (c :: p) = match_item hyphen src c p
      (fun q _ => do_match hyphen src depth q) (fun q _ => init hyphen src depth q) := by
  rw [init]
  rfl

theorem init_nil (depth s : ℕ) (capture : List Capture) :
    init hyphen src depth [] s capture = .ok (some s, capture) := by
  rw [init]

theorem cons_prefix_drop_iff {c : UInt8} {p : Bytes} {s : ℕ} :
    c :: p <+: src.drop s ↔
      (s < src.length ∧ peek (src.drop s) = c) ∧ p <+: src.drop (s + 1) := by
  by_cases hs : s < src.length
  · rw [List.drop_eq_getElem_cons hs, List.cons_prefix_cons]
    exact ⟨fun h => ⟨⟨hs, h.1.symm⟩, h.2⟩, fun h => ⟨h.1.2.symm, h.2⟩⟩
  · rw [List.drop_eq_nil_of_le (Nat.le_of_not_lt hs)]
    simp [hs]

/-- One character of a literal pattern. -/
theorem init_plain {c : UInt8} {p : Bytes} (hc : Plain c)
    (hsuffix : peek p ∉ [chr '*', chr '?', chr '+'])
    (hhyphen : peek p = chr '-' → hyphen (c :: p) p = true) {depth : ℕ} {capture : List Capture}
    (hrest : ∀ s, init hyphen src depth p s capture =
      .ok (if p <+: src.drop s then some (s + p.length) else none, capture)) (s : ℕ) :
    init hyphen src depth (c :: p) s capture =
      .ok (if c :: p <+: src.drop s then some (s + (c :: p).length) else none, capture) := by
  rw [init_cons, match_item_plain hc hsuffix hhyphen, hrest]
  split_ifs with hhead hp hall hall hall
  · rw [List.length_cons]
    congr 3
    omega
  · exact absurd (cons_prefix_drop_iff.mpr ⟨hhead, hp⟩) hall
  · exact absurd (cons_prefix_drop_iff.mp hall).2 hp
  · rfl
  · exact absurd (cons_prefix_drop_iff.mp hall).1 hhead
  · rfl

end Match

section Literal

variable {src : Bytes} {p : Bytes}

/-- **Words with hyphens between them** are found as they are. -/
theorem init_literal (h : Literal p) (depth : ℕ) (capture : List Capture) (s : ℕ) :
    init is_literal_word_hyphen src depth p s capture =
      .ok (if p <+: src.drop s then some (s + p.length) else none, capture) := by
  have hnil (s : ℕ) : init is_literal_word_hyphen src depth [] s capture =
      .ok (if [] <+: src.drop s then some (s + ([] : Bytes).length) else none, capture) := by
    rw [init_nil, if_pos List.nil_prefix, List.length_nil, Nat.add_zero]
  have hword {d : UInt8} (hd : isalnum d = true) (q : Bytes) :
      peek (d :: q) ∉ [chr '*', chr '?', chr '+'] ∧ peek (d :: q) ≠ chr '-' := by
    refine ⟨?_, ne_of_isalnum hd rfl⟩
    simp only [List.mem_cons, List.not_mem_nil, or_false, not_or]
    exact ⟨ne_of_isalnum hd rfl, ne_of_isalnum hd rfl, ne_of_isalnum hd rfl⟩
  have hdash (q : Bytes) : peek (chr '-' :: q) ∉ [chr '*', chr '?', chr '+'] := by
    show chr '-' ∉ _
    decide
  induction h generalizing s with
  | last hc =>
    exact init_plain (.inl hc) (by decide) (fun h => absurd h (by decide)) hnil s
  | letter hc hd _ ih =>
    exact init_plain (.inl hc) (hword hd _).1 (fun h => absurd h (hword hd _).2) ih s
  | @hyphen c d p hc hd _ ih =>
    -- The hyphen is an item of its own, as it is between letters or digits.
    have hitem : is_literal_word_hyphen (c :: chr '-' :: d :: p) (chr '-' :: d :: p) = true := by
      simp [is_literal_word_hyphen, peek, hc, hd]
    have hhyphen := init_plain (.inr rfl) (hword hd p).1 (fun h => absurd h (hword hd p).2) ih
    exact init_plain (.inl hc) (hdash _) (fun _ => hitem) hhyphen s

/-! ### The first occurrence -/

/-- The pattern occurs at an offset, the first one from `start` on. -/
def FirstAt (src p : Bytes) (start i : ℕ) : Prop :=
  start ≤ i ∧ p <+: src.drop i ∧ ∀ j, start ≤ j → j < i → ¬ p <+: src.drop j

/-- The search with the matcher. -/
theorem findLoop_first {rest : Matcher}
    (hrest : ∀ s, rest s [] = .ok (if p <+: src.drop s then some (s + p.length) else none, []))
    {start i k : ℕ} (h : FirstAt src p start i) (hk : i ≤ start + k) :
    findLoop rest false k start = .ok (some (i, i + p.length, [])) := by
  obtain ⟨hle, hocc, hfirst⟩ := h
  induction k generalizing start with
  | zero =>
    obtain rfl : i = start := by omega
    rw [findLoop, hrest, if_pos hocc]
    rfl
  | succ k ih =>
    rw [findLoop, hrest]
    by_cases hi : i = start
    · subst hi
      rw [if_pos hocc]
      rfl
    · rw [if_neg (hfirst start le_rfl (by omega))]
      exact ih (by omega) (by omega) fun j hj => hfirst j (by omega)

theorem findLoop_none {rest : Matcher}
    (hrest : ∀ s, rest s [] = .ok (if p <+: src.drop s then some (s + p.length) else none, []))
    {start k : ℕ} (h : ∀ j, start ≤ j → j ≤ start + k → ¬ p <+: src.drop j) :
    findLoop rest false k start = .ok none := by
  induction k generalizing start with
  | zero =>
    rw [findLoop, hrest, if_neg (h start le_rfl le_rfl)]
    rfl
  | succ k ih =>
    rw [findLoop, hrest, if_neg (h start le_rfl (by omega))]
    exact ih fun j hj hle => h j (by omega) (by omega)

theorem getElem?_of_prefix_drop {c : UInt8} {s2 s1 : Bytes} {j : ℕ} (h : c :: s2 <+: s1.drop j) :
    s1[j]? = some c := by
  obtain ⟨t, ht⟩ := h
  have hhead : (s1.drop j)[0]? = some c := by
    rw [← ht]
    rfl
  simpa using hhead

theorem prefix_drop_iff {c : UInt8} {s2 s1 : Bytes} {k : ℕ} (h : s1[k]? = some c) :
    c :: s2 <+: s1.drop k ↔ (s1.drop (k + 1)).take s2.length = s2 := by
  obtain ⟨hk, hc⟩ := List.getElem?_eq_some_iff.mp h
  rw [List.drop_eq_getElem_cons hk, hc, List.cons_prefix_cons, List.prefix_iff_eq_take]
  exact ⟨fun h => h.2.symm, fun h => ⟨rfl, h.symm⟩⟩

theorem memchr_spec {c : UInt8} {s : Bytes} {l k : ℕ} (h : memchr c (s.take l) = some k) :
    k < l ∧ s[k]? = some c ∧ ∀ j < k, s[j]? ≠ some c := by
  obtain ⟨hk, hc, hbefore⟩ := List.findIdx?_eq_some_iff_getElem.mp h
  have hkl : k < l := Nat.lt_of_lt_of_le hk (List.length_take_le l s)
  have hks : k < s.length := Nat.lt_of_lt_of_le hk (List.length_take_le' l s)
  refine ⟨hkl, ?_, fun j hj hocc => hbefore j hj ?_⟩
  · rw [List.getElem?_eq_getElem hks]
    simpa using hc
  · obtain ⟨hjs, hjc⟩ := List.getElem?_eq_some_iff.mp hocc
    simpa using hjc

/-- The search for bytes: it looks at the first `l1` offsets. -/
theorem memfindLoop_spec (c : UInt8) (s2 : Bytes) (l1 : ℕ) (s1 : Bytes) (offset : ℕ) :
    (memfindLoop c s2 l1 s1 offset = none ∧ ∀ j < l1, ¬ c :: s2 <+: s1.drop j) ∨
    ∃ i < l1, memfindLoop c s2 l1 s1 offset = some (offset + i) ∧ FirstAt s1 (c :: s2) 0 i := by
  fun_induction memfindLoop c s2 l1 s1 offset with
  | case1 l1 s1 offset hnone =>
    refine .inl ⟨rfl, fun j hj hocc => ?_⟩
    have hmem : c ∈ s1.take l1 := List.mem_of_getElem? (i := j) (by
      rw [List.getElem?_take_of_lt hj, getElem?_of_prefix_drop hocc])
    simpa using List.findIdx?_eq_none_iff.mp hnone c hmem
  | case2 l1 s1 offset k hk hrest =>
    obtain ⟨hlt, hc, hbefore⟩ := memchr_spec hk
    refine .inr ⟨k, hlt, rfl, Nat.zero_le k, (prefix_drop_iff hc).mpr hrest, fun j _ hj hocc => ?_⟩
    exact hbefore j hj (getElem?_of_prefix_drop hocc)
  | case3 l1 s1 offset k hk hrest ih =>
    obtain ⟨hlt, hc, hbefore⟩ := memchr_spec hk
    -- There is no occurrence up to `k`.
    have hnot : ∀ j ≤ k, ¬ c :: s2 <+: s1.drop j := by
      intro j hj hocc
      rcases Nat.lt_or_eq_of_le hj with hj | rfl
      · exact hbefore j hj (getElem?_of_prefix_drop hocc)
      · exact hrest ((prefix_drop_iff hc).mp hocc)
    have hdrop (j : ℕ) : (s1.drop (k + 1)).drop j = s1.drop (k + 1 + j) := List.drop_drop ..
    rcases ih with ⟨hnone, hall⟩ | ⟨i, hi, hsome, -, hocc, hfirst⟩
    · refine .inl ⟨hnone, fun j hj => ?_⟩
      by_cases hjk : j ≤ k
      · exact hnot j hjk
      · have := hall (j - (k + 1)) (by omega)
        rwa [hdrop, Nat.add_sub_cancel' (by omega)] at this
    · refine .inr ⟨k + 1 + i, by omega, by rw [hsome, Nat.add_assoc], Nat.zero_le _,
        by rwa [hdrop] at hocc, fun j _ hj => ?_⟩
      by_cases hjk : j ≤ k
      · exact hnot j hjk
      · have := hfirst (j - (k + 1)) (Nat.zero_le _) (by omega)
        rwa [hdrop, Nat.add_sub_cancel' (by omega)] at this

/-- `lmemfind` finds the first occurrence. -/
theorem lmemfind_spec (hp : p ≠ []) (s : Bytes) :
    (lmemfind s p = none ∧ ∀ j, ¬ p <+: s.drop j) ∨
    ∃ i ≤ s.length, lmemfind s p = some i ∧ FirstAt s p 0 i := by
  obtain ⟨c, s2, rfl⟩ := List.exists_cons_of_ne_nil hp
  -- What is left of the subject after the last offset is too short.
  have hlen {j : ℕ} (hocc : c :: s2 <+: s.drop j) : j + (s2.length + 1) ≤ s.length := by
    have := hocc.length_le
    rw [List.length_cons, List.length_drop] at this
    omega
  rw [lmemfind, List.length_cons]
  split_ifs with hshort
  · exact .inl ⟨rfl, fun j hocc => by have := hlen hocc; omega⟩
  · rcases memfindLoop_spec c s2 (s.length - s2.length) s 0 with
      ⟨hnone, hall⟩ | ⟨i, hi, hsome, hfirst⟩
    · refine .inl ⟨hnone, fun j hocc => hall j ?_ hocc⟩
      have := hlen hocc
      omega
    · exact .inr ⟨i, by omega, by rw [hsome, Nat.zero_add], hfirst⟩

theorem IsHyphenated.literal (h : IsHyphenated p) : Literal p ∧ chr '-' ∈ p := by
  obtain ⟨ws, hlen, hws, rfl⟩ := h
  match ws, hlen with
  | w :: v :: ws, _ =>
    refine ⟨Literal.intercalate (List.cons_ne_nil _ _) hws, ?_⟩
    simp [List.intercalate, List.intersperse]

/-- **Both searches agree** for words with hyphens between them. -/
theorem str_find_hyphenated (hp : IsHyphenated p) (init : Int32) :
    str_find src p init false = str_find src p init true := by
  obtain ⟨hliteral, hhyphen⟩ := hp.literal
  obtain ⟨c, q, rfl, hc⟩ := hliteral.head
  have hspecials : nospecials (c :: q) = false := by
    rw [nospecials, List.all_eq_false]
    exact ⟨chr '-', hhyphen, by decide⟩
  have hanchor : (peek (c :: q) == chr '^') = false := beq_false_of_ne (ne_of_isalnum hc rfl)
  -- The matcher is a comparison with the whole pattern, at any offset.
  have hrest (s : ℕ) : do_match is_literal_word_hyphen src LUAI_MAXCCALLS (c :: q) s [] =
      .ok (if c :: q <+: src.drop s then some (s + (c :: q).length) else none, []) :=
    init_literal hliteral _ [] s
  unfold str_find str_find_aux
  simp only [hspecials, hanchor, Bool.or_false, Bool.and_false, Bool.false_eq_true, if_false,
    Bool.and_true, if_true]
  generalize max 1 (posrelat init src.length) = first
  by_cases hout : (src.length + 1 : ℤ) < first
  · rw [if_pos hout, if_pos hout]
  rw [if_neg hout, if_neg hout]
  have hstart : (first - 1).toNat ≤ src.length := by omega
  generalize (first - 1).toNat = start at hstart ⊢
  have hdrop (j : ℕ) : (src.drop start).drop j = src.drop (start + j) := List.drop_drop ..
  rcases lmemfind_spec (List.cons_ne_nil c q) (src.drop start) with
    ⟨hnone, hall⟩ | ⟨i, hi, hsome, -, hocc, hfirst⟩
  · rw [hnone, findLoop_none hrest]
    intro j hj _ hocc
    refine hall (j - start) ?_
    rwa [hdrop, Nat.add_sub_cancel' hj]
  · -- The first occurrence is where both searches stop.
    have hfirst' : FirstAt src (c :: q) start (start + i) := by
      refine ⟨Nat.le_add_right start i, by rwa [hdrop] at hocc, fun j hj hlt hocc' => ?_⟩
      refine hfirst (j - start) (Nat.zero_le _) (by omega) ?_
      rwa [hdrop, Nat.add_sub_cancel' hj]
    rw [List.length_drop] at hi
    rw [hsome, findLoop_first hrest hfirst' (by omega)]
    rfl

end Literal

/-! ### Items -/

/-- What is left of a pattern after an item that may have a suffix. -/
def afterSingle (p : Bytes) : Option Bytes :=
  match classend p with
  | .error _ => none
  | .ok ep => if peek ep ∈ [chr '*', chr '?', chr '+', chr '-'] then some ep.tail else some ep

/-- What is left of a pattern after an item that starts with the escape character. -/
def afterEscape (c : UInt8) (p : Bytes) : Option Bytes :=
  if peek p = chr 'b' then some (p.drop 3)
  else if peek p = chr 'f' then
    if peek p.tail = chr '[' then (classend p.tail).toOption else none
  else if isdigit (peek p) then some p.tail
  else afterSingle (c :: p)

/-- What is left of a pattern after its first item. -/
def afterItem : Bytes → Option Bytes
  | [] => none
  | c :: p =>
    if c = chr '(' then some (if peek p = chr ')' then p.tail else p)
    else if c = chr ')' then some p
    else if c = chr '$' ∧ p = [] then none
    else if c = L_ESC then afterEscape c p
    else afterSingle (c :: p)

/-- An item of the pattern starts at `q`. -/
def ItemAt (p q : Bytes) : Prop := Relation.ReflTransGen (fun p q => afterItem p = some q) p q

/-- The pattern starts with a hyphen between two letters or digits, which are items as they are. -/
def startsWithWordHyphen : Bytes → Bool
  | c :: h :: d :: _ => isalnum c && h == chr '-' && isalnum d
  | _ => false

/-- No hyphen of the pattern is between two letters or digits that are items as they are. -/
def NoWordHyphen (p : Bytes) : Prop := ∀ q, ItemAt p q → startsWithWordHyphen q = false

section Items

variable {src : Bytes}

/-- The rule for literal hyphens does not apply. -/
theorem is_literal_word_hyphen_eq_false {p ep : Bytes} (hep : classend p = .ok ep)
    (h : startsWithWordHyphen p = false) : is_literal_word_hyphen p ep = false := by
  by_contra hrule
  simp only [is_literal_word_hyphen, Bool.not_eq_false, Bool.and_eq_true, beq_iff_eq,
    Bool.not_eq_true', List.isEmpty_eq_false_iff] at hrule
  obtain ⟨⟨⟨⟨hdash, -⟩, htail⟩, hc⟩, hd⟩ := hrule
  match p, hep, hc with
  | [], _, hc => cases hc
  | c :: p, hep, hc =>
    rw [classend_eq (c := c) (ne_of_isalnum hc rfl) (ne_of_isalnum hc rfl)] at hep
    obtain rfl := Except.ok.inj hep
    match p, hdash, htail, hd with
    | [_], _, htail, _ => exact htail rfl
    | b :: d :: p, hdash, _, hd =>
      have hb : b = chr '-' := hdash
      rw [startsWithWordHyphen, hb, beq_self_eq_true, Bool.and_true, Bool.and_eq_false_iff] at h
      rcases h with h | h
      · cases h.symm.trans hc
      · cases h.symm.trans hd

variable {hyphen : Bytes → Bytes → Bool}

theorem match_single_congr {p : Bytes} {hp : p ≠ []}
    {call next call' next' : ∀ q : Bytes, q.length < p.length → Matcher}
    (hhyphen : ∀ ep, classend p = .ok ep → hyphen p ep = false)
    (hcall : ∀ q hq, afterSingle p = some q → call q hq = call' q hq)
    (hnext : ∀ q hq, afterSingle p = some q → next q hq = next' q hq) :
    match_single hyphen src p hp call next =
      match_single (fun _ _ => false) src p hp call' next' := by
  cases hep : classend p with
  | error e =>
    unfold match_single
    split
    · rfl
    · rename_i he
      cases hep.symm.trans he
  | ok ep =>
    have hlt : ep.length < p.length := classend_length hp hep
    have htail : ep.tail.length < p.length := by rw [List.length_tail]; omega
    rw [match_single_ok hep hlt htail, match_single_ok hep hlt htail]
    funext s capture
    rw [match_suffix, match_suffix, hhyphen ep hep]
    by_cases hsuffix : peek ep ∈ [chr '*', chr '?', chr '+', chr '-']
    · have hafter : afterSingle p = some ep.tail := by rw [afterSingle, hep]; exact if_pos hsuffix
      rw [hcall _ htail hafter, hnext _ htail hafter]
      simp only [Bool.false_eq_true, if_false]
      split_ifs with hsingle hskip hopt hplus hstar hdash
      · rfl
      · rfl
      · rfl
      · rfl
      · rfl
      · rfl
      · -- One of the suffixes is there.
        simp [hopt, hplus, hstar, hdash] at hsuffix
    · have hafter : afterSingle p = some ep := by rw [afterSingle, hep]; exact if_neg hsuffix
      rw [hnext _ hlt hafter]
      simp only [List.mem_cons, List.not_mem_nil, or_false, not_or] at hsuffix
      obtain ⟨hstar, hopt, hplus, hdash⟩ := hsuffix
      simp only [hstar, hopt, hplus, hdash, false_and, or_self, if_false]

theorem match_escape_congr {c : UInt8} {p : Bytes}
    {call next call' next' : ∀ q : Bytes, q.length < (c :: p).length → Matcher}
    (hhyphen : ∀ ep, classend (c :: p) = .ok ep → hyphen (c :: p) ep = false)
    (hcall : ∀ q hq, afterEscape c p = some q → call q hq = call' q hq)
    (hnext : ∀ q hq, afterEscape c p = some q → next q hq = next' q hq) :
    match_escape hyphen src c p call next =
      match_escape (fun _ _ => false) src c p call' next' := by
  funext s capture
  unfold afterEscape at hcall hnext
  unfold match_escape
  -- The cases of the escape: a balance, a frontier, a capture, a class.
  by_cases hb : peek p = chr 'b'
  · simp only [if_pos hb] at hnext ⊢
    rw [hnext _ _ rfl]
  simp only [if_neg hb] at hcall hnext ⊢
  by_cases hf : peek p = chr 'f'
  · simp only [if_pos hf] at hnext ⊢
    by_cases hset : peek p.tail = chr '['
    · rw [dif_pos hset, dif_pos hset]
      split
      · rfl
      · rename_i ep hep
        rw [hnext ep _ (by rw [if_pos hset, hep]; rfl)]
    · rw [dif_neg hset, dif_neg hset]
  simp only [if_neg hf] at hcall hnext ⊢
  by_cases hdigit : isdigit (peek p) = true
  · simp only [if_pos hdigit] at hnext ⊢
    rw [hnext _ _ rfl]
  simp only [if_neg hdigit] at hcall hnext ⊢
  rw [match_single_congr hhyphen hcall hnext]

/-- **The rule is only there for hyphens between letters or digits.** -/
theorem match_item_congr {c : UInt8} {p : Bytes}
    {call next call' next' : ∀ q : Bytes, q.length < (c :: p).length → Matcher}
    (hhyphen : ∀ ep, classend (c :: p) = .ok ep → hyphen (c :: p) ep = false)
    (hcall : ∀ q hq, afterItem (c :: p) = some q → call q hq = call' q hq)
    (hnext : ∀ q hq, afterItem (c :: p) = some q → next q hq = next' q hq) :
    match_item hyphen src c p call next =
      match_item (fun _ _ => false) src c p call' next' := by
  funext s capture
  unfold afterItem at hcall hnext
  unfold match_item
  by_cases hopen : c = chr '('
  · simp only [if_pos hopen, Option.some.injEq] at hcall ⊢
    split_ifs with hposition
    · rw [hcall p.tail _ (if_pos hposition)]
    · rw [hcall p _ (if_neg hposition)]
  simp only [if_neg hopen] at hcall hnext ⊢
  by_cases hclose : c = chr ')'
  · simp only [if_pos hclose] at hcall ⊢
    rw [hcall _ _ rfl]
  simp only [if_neg hclose] at hcall hnext ⊢
  by_cases hend : c = chr '$' ∧ p = []
  · rw [if_pos hend, if_pos hend]
  simp only [if_neg hend] at hcall hnext ⊢
  by_cases hesc : c = L_ESC
  · simp only [if_pos hesc] at hcall hnext ⊢
    rw [match_escape_congr hhyphen hcall hnext]
  · simp only [if_neg hesc] at hcall hnext ⊢
    rw [match_single_congr hhyphen hcall hnext]

theorem do_match_congr {p : Bytes}
    (h : ∀ depth, init hyphen src depth p = init (fun _ _ => false) src depth p) (depth : ℕ) :
    do_match hyphen src depth p = do_match (fun _ _ => false) src depth p := by
  unfold do_match
  rw [funext h]

theorem init_congr {p : Bytes} (h : NoWordHyphen p) (depth : ℕ) :
    init is_literal_word_hyphen src depth p = init (fun _ _ => false) src depth p := by
  induction hn : p.length using Nat.strong_induction_on generalizing p depth with
  | _ n ih =>
    cases p with
    | nil => funext s capture; rw [init_nil, init_nil]
    | cons c p =>
      have hafter (q : Bytes) (hq : afterItem (c :: p) = some q) : NoWordHyphen q :=
        fun r hr => h r (.head hq hr)
      rw [init_cons, init_cons]
      refine match_item_congr (fun ep hep => is_literal_word_hyphen_eq_false hep (h _ .refl))
        (fun q hq hitem => do_match_congr (fun depth => ?_) depth) fun q hq hitem => ?_
      · exact ih q.length (hn ▸ hq) (hafter q hitem) depth rfl
      · exact ih q.length (hn ▸ hq) (hafter q hitem) depth rfl

end Items

/-! ### The rule -/

/-- **Hyphens between words are literal**: the search for words with hyphens between them is the
plain search, from every position.  **Nothing else changes**: patterns without a hyphen between two
letters or digits match as they do without the rule. -/
theorem word_hyphen_literal :
    (∀ (s p : Bytes) (init : Int32), IsHyphenated p →
      str_find s p init false = str_find s p init true) ∧
    ∀ (src p : Bytes), NoWordHyphen p → ∀ (matchdepth s : ℕ) (capture : List Capture),
      do_match is_literal_word_hyphen src matchdepth p s capture =
        do_match (fun _ _ => false) src matchdepth p s capture := by
  refine ⟨fun s p init hp => str_find_hyphenated hp init, fun src p hp matchdepth s capture => ?_⟩
  rw [do_match_congr (init_congr hp)]

/-- The pattern `a-b`. -/
theorem word_hyphen_literal_a_b (s : Bytes) (init : Int32) :
    str_find s [0x61, 0x2d, 0x62] init false = str_find s [0x61, 0x2d, 0x62] init true :=
  word_hyphen_literal.1 s _ init ⟨[[0x61], [0x62]], le_rfl, by simp [IsWord]; decide, rfl⟩

end StrLib

end Jaci
