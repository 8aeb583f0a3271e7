import Jaci.StrLib.Singles

/-!
# The matcher finds the first outcome

* `Computes` : a matcher returns the first outcome;
* `match_item_first` : an item does, with the rest of the pattern;
* `init_first` : a pattern does.
-/

namespace Jaci

namespace StrLib

open Wire

variable {src : Bytes} {bad : Outcome → List Outcome}

/-! ### The first outcome -/

/-- The first outcome, and the captures from before if there is none. -/
def first (capture : List Capture) : List Outcome → Option ℕ × List Capture
  | [] => (none, capture)
  | (e, capture) :: _ => (some e, capture)

/-- The matcher returns the first outcome. -/
def Computes (m : Matcher) (o : Outcome → List Outcome) : Prop :=
  ∀ s capture r, m s capture = .ok r → r = first capture (o (s, capture))

theorem first_append {capture : List Capture} {l l' : List Outcome} {e : ℕ} {c : List Capture}
    (h : (some e, c) = first capture l) : (some e, c) = first capture (l ++ l') := by
  cases l with
  | nil => cases h
  | cons o l => exact h

theorem eq_nil_of_first {capture c : List Capture} {l : List Outcome}
    (h : (none, c) = first capture l) : l = [] ∧ c = capture := by
  cases l with
  | nil => exact ⟨rfl, (Prod.mk.inj h).2⟩
  | cons o l => cases h

/-- A matcher is tried, and a second one if the first one fails: its captures are those from before. -/
theorem Computes.orElse {m : Matcher} {o : Outcome → List Outcome} (hm : Computes m o)
    {s : ℕ} {capture : List Capture} {later : List Capture → Result}
    {l : List Outcome} {r : Option ℕ × List Capture}
    (h : (do
      match (← m s capture) with
      | (some res, capture) => return (some res, capture)
      | (none, capture) => later capture) = .ok r)
    (hlater : later capture = .ok r → r = first capture l) :
    r = first capture (o (s, capture) ++ l) := by
  cases hres : m s capture with
  | error e =>
    rw [hres] at h
    cases h
  | ok q =>
    have hq := hm _ _ _ hres
    rw [hres] at h
    obtain ⟨_ | e, c⟩ := q
    · obtain ⟨hnil, rfl⟩ := eq_nil_of_first hq
      rw [hnil, List.nil_append]
      exact hlater h
    · obtain rfl := Except.ok.inj h
      exact first_append hq

/-! ### Suffixes -/

theorem reps_of_any {x : Single} {s : ℕ} (h : (src[s]?).any x.has = true) :
    x.reps src s = x.reps src (s + 1) + 1 := by
  cases hd : src[s]? with
  | none => rw [hd] at h; cases h
  | some d =>
    obtain ⟨hs, hget⟩ := List.getElem?_eq_some_iff.1 hd
    rw [hd, Option.any_some] at h
    rw [Single.reps, List.drop_eq_getElem_cons hs, hget, List.takeWhile_cons_of_pos h,
      List.length_cons, Single.reps]

theorem reps_of_not {x : Single} {s : ℕ} (h : (src[s]?).any x.has = false) : x.reps src s = 0 := by
  cases hd : src[s]? with
  | none => rw [Single.reps, List.drop_eq_nil_of_le (List.getElem?_eq_none_iff.1 hd)]; rfl
  | some d =>
    obtain ⟨hs, hget⟩ := List.getElem?_eq_some_iff.1 hd
    rw [hd, Option.any_some] at h
    rw [Single.reps, List.drop_eq_getElem_cons hs, hget,
      List.takeWhile_cons_of_neg (by rw [h]; exact Bool.false_ne_true)]
    rfl

theorem reps_le (x : Single) (s : ℕ) : x.reps src s ≤ src.length - s := by
  rw [← List.length_drop]
  exact (List.takeWhile_prefix _).length_le

theorem countMatches_reps {x : Single} {single : ℕ → Bool} (hx : ∀ s, single s = (src[s]?).any x.has)
    {k s : ℕ} (hk : src.length - s ≤ k) : countMatches single k s = x.reps src s := by
  induction k generalizing s with
  | zero => rw [countMatches, Nat.le_zero.1 (Nat.le_trans (reps_le x s) hk)]
  | succ k ih =>
    rw [countMatches, hx]
    cases hs : (src[s]?).any x.has with
    | true => rw [if_pos rfl, ih (by omega), reps_of_any hs]
    | false => exact (reps_of_not hs).symm

section

variable {rest : Matcher} {o : Outcome → List Outcome} (hrest : Computes rest o)
include hrest

/-- The longest repetition is tried first. -/
theorem shrink_first {i s : ℕ} {capture : List Capture} {r : Option ℕ × List Capture}
    (h : shrink rest i s capture = .ok r) :
    r = first capture ((List.range (i + 1)).reverse.flatMap fun n => o (s + n, capture)) := by
  induction i with
  | zero =>
    have := hrest _ _ _ h
    simpa using this
  | succ i ih =>
    rw [List.range_succ, List.reverse_append, List.reverse_singleton, List.singleton_append,
      List.flatMap_cons]
    exact hrest.orElse h ih

/-- The shortest repetition is tried first. -/
theorem minLoop_first {x : Single} {single : ℕ → Bool} (hx : ∀ s, single s = (src[s]?).any x.has)
    {k s : ℕ} {capture : List Capture} {r : Option ℕ × List Capture} (hk : src.length - s ≤ k)
    (h : minLoop single rest k s capture = .ok r) :
    r = first capture ((List.range (x.reps src s + 1)).flatMap fun n => o (s + n, capture)) := by
  induction k generalizing s with
  | zero =>
    have hzero : x.reps src s = 0 := Nat.le_zero.1 (Nat.le_trans (reps_le x s) hk)
    have := hrest _ _ _ h
    rw [hzero]
    simpa using this
  | succ k ih =>
    rw [List.range_succ_eq_map, List.flatMap_cons]
    refine hrest.orElse h fun hlater => ?_
    rw [hx] at hlater
    cases hs : (src[s]?).any x.has with
    | true =>
      rw [hs, if_pos rfl] at hlater
      rw [ih (by omega) hlater, reps_of_any hs, List.flatMap_map]
      simp only [Nat.succ_eq_add_one, Nat.add_assoc, Nat.add_comm 1]
    | false =>
      rw [hs] at hlater
      rw [reps_of_not hs]
      exact (Except.ok.inj hlater).symm

end

theorem max_expand_first {rest : Matcher} {o : Outcome → List Outcome} (hrest : Computes rest o)
    {x : Single} {single : ℕ → Bool} (hx : ∀ s, single s = (src[s]?).any x.has)
    {s : ℕ} {capture : List Capture} {r : Option ℕ × List Capture}
    (h : max_expand src single rest s capture = .ok r) :
    r = first capture
      ((List.range (x.reps src s + 1)).reverse.flatMap fun n => o (s + n, capture)) := by
  rw [max_expand, countMatches_reps hx le_rfl] at h
  exact shrink_first hrest h

/-- How a suffix is read. -/
theorem parseSuffix_cases (x : Single) (ep : Bytes) :
    parseSuffix x ep = (.star, ep.tail) ∧ peek ep = chr '*' ∨
    parseSuffix x ep = (.plus, ep.tail) ∧ peek ep = chr '+' ∨
    parseSuffix x ep = (.optional, ep.tail) ∧ peek ep = chr '?' ∨
    (parseSuffix x ep = (.minus, ep.tail) ∧ peek ep = chr '-' ∧
      ∃ q, ep = chr '-' :: q ∧ x.inWord q = false) ∨
    (parseSuffix x ep = (.one, ep) ∧ peek ep ≠ chr '*' ∧ peek ep ≠ chr '+' ∧ peek ep ≠ chr '?' ∧
      (peek ep = chr '-' → ∃ q, ep = chr '-' :: q ∧ x.inWord q = true)) := by
  cases ep with
  | nil => exact .inr (.inr (.inr (.inr ⟨rfl, by decide, by decide, by decide,
      fun h => absurd h (by decide)⟩)))
  | cons c q =>
    rw [parseSuffix]
    split_ifs with h1 h2 h3 h4
    · exact .inl ⟨rfl, h1⟩
    · exact .inr (.inl ⟨rfl, h2⟩)
    · exact .inr (.inr (.inl ⟨rfl, h3⟩))
    · exact .inr (.inr (.inr (.inl ⟨rfl, h4.1, q, by rw [h4.1], by simpa using h4.2⟩)))
    · refine .inr (.inr (.inr (.inr ⟨rfl, h1, h2, h3, fun hc => ⟨q, ?_, ?_⟩⟩)))
      · rw [show c = chr '-' from hc]
      · simpa [show c = chr '-' from hc] using h4

/-- An item with its suffix. -/
theorem match_suffix_first {p ep : Bytes} {x : Single} {call skip next : Matcher}
    (hparse : parseSingle p = some (x, ep))
    (hx : ∀ s, singlematch src p ep s = (src[s]?).any x.has)
    (hcall : Computes call (outcomesWith src bad (parse ep.tail)))
    (hskip : Computes skip (outcomesWith src bad (parse ep.tail)))
    (hnext : Computes next (outcomesWith src bad (parse ep))) :
    Computes (match_suffix is_literal_word_hyphen src p ep call skip next) fun out =>
      ((Item.single x (parseSuffix x ep).1).step src out).flatMap
        (outcomesWith src bad (parse (parseSuffix x ep).2)) := by
  intro s capture r h
  rw [match_suffix, hx] at h
  dsimp only [Item.step]
  rw [List.flatMap_map]
  obtain ⟨hsuffix, hpeek⟩ | ⟨hsuffix, hpeek⟩ | ⟨hsuffix, hpeek⟩ | ⟨hsuffix, hpeek, q, rfl, hq⟩ |
    ⟨hsuffix, hstar, hplus, hoptional, hword⟩ := parseSuffix_cases x ep
  all_goals
    rw [hsuffix]
    dsimp only
  -- `*`.
  · rw [hpeek] at h
    cases hs : (src[s]?).any x.has with
    | true =>
      rw [hs, if_neg (by decide), if_neg (by decide), if_neg (by decide), if_pos rfl] at h
      exact max_expand_first hcall hx h
    | false =>
      rw [hs, if_pos Bool.not_false, if_pos (.inl rfl)] at h
      rw [reps_of_not hs]
      simpa [Suffix.counts] using hskip _ _ _ h
  -- `+`: it matched once.
  · rw [hpeek] at h
    cases hs : (src[s]?).any x.has with
    | true =>
      rw [hs, if_neg (by decide), if_neg (by decide), if_pos rfl] at h
      rw [max_expand_first hcall hx h, reps_of_any hs, Suffix.counts, List.range'_eq_map_range,
        ← List.map_reverse, List.flatMap_map]
      simp only [Nat.add_assoc]
    | false =>
      rw [hs, if_pos Bool.not_false, if_neg (by simp [show chr '+' ≠ chr '*' by decide,
        show chr '+' ≠ chr '?' by decide, show chr '+' ≠ chr '-' by decide])] at h
      rw [reps_of_not hs]
      exact (Except.ok.inj h).symm
  -- `?`.
  · rw [hpeek] at h
    cases hs : (src[s]?).any x.has with
    | true =>
      rw [hs, if_neg (by decide), if_pos rfl] at h
      rw [reps_of_any hs, Suffix.counts, if_pos (Nat.le_add_left 1 _), List.flatMap_cons]
      refine hcall.orElse h fun hlater => ?_
      simpa using hskip _ _ _ hlater
    | false =>
      rw [hs, if_pos Bool.not_false, if_pos (.inr (.inl rfl))] at h
      rw [reps_of_not hs]
      simpa [Suffix.counts] using hskip _ _ _ h
  -- `-`, not in a word.
  · rw [hpeek, is_literal_word_hyphen_inWord hparse, hq] at h
    cases hs : (src[s]?).any x.has with
    | true =>
      rw [hs, if_neg (by decide), if_neg (by decide), if_neg (by decide), if_neg (by decide),
        if_pos rfl, if_neg (by decide)] at h
      exact minLoop_first hcall hx le_rfl h
    | false =>
      rw [hs, if_pos Bool.not_false, if_pos (.inr (.inr ⟨rfl, rfl⟩))] at h
      rw [reps_of_not hs]
      simpa [Suffix.counts] using hskip _ _ _ h
  -- No suffix, or a hyphen in a word.
  · rw [if_neg hoptional, if_neg hplus, if_neg hstar] at h
    have hdash : peek ep = chr '-' → is_literal_word_hyphen p ep = true := by
      intro hpeek
      obtain ⟨q, rfl, hq⟩ := hword hpeek
      rw [is_literal_word_hyphen_inWord hparse, hq]
    cases hs : (src[s]?).any x.has with
    | true =>
      have hgoes : next (s + 1) capture = .ok r := by
        rw [hs, if_neg (by decide)] at h
        by_cases hpeek : peek ep = chr '-'
        · rwa [if_pos hpeek, if_pos (hdash hpeek)] at h
        · rwa [if_neg hpeek] at h
      rw [reps_of_any hs, Suffix.counts, if_pos (Nat.le_add_left 1 _), List.flatMap_singleton]
      exact hnext _ _ _ hgoes
    | false =>
      have hno : ¬ (peek ep = chr '*' ∨ peek ep = chr '?' ∨
          peek ep = chr '-' ∧ (!is_literal_word_hyphen p ep) = true) := by
        rintro (h | h | ⟨hpeek, hnot⟩)
        · exact hstar h
        · exact hoptional h
        · rw [hdash hpeek] at hnot
          cases hnot
      rw [hs, if_pos Bool.not_false, if_neg hno] at h
      rw [reps_of_not hs]
      exact (Except.ok.inj h).symm

/-! ### Items -/

theorem match_single_error {p : Bytes} {hp : p ≠ []} {e : String} (h : classend p = .error e)
    {call next : ∀ q : Bytes, q.length < p.length → Matcher} :
    match_single is_literal_word_hyphen src p hp call next = fun _ _ => .error e := by
  unfold match_single
  split
  · rename_i e' h'
    rw [h] at h'
    cases h'
    rfl
  · rename_i ep h'
    rw [h] at h'
    cases h'

theorem match_single_first {p : Bytes} {hp : p ≠ []}
    {call next : ∀ q : Bytes, q.length < p.length → Matcher}
    (hcall : ∀ q h, Computes (call q h) (outcomesWith src bad (parse q)))
    (hnext : ∀ q h, Computes (next q h) (outcomesWith src bad (parse q))) :
    match parseRepeat p with
    | some (i, q) => Computes (match_single is_literal_word_hyphen src p hp call next) fun out =>
        (i.step src out).flatMap (outcomesWith src bad (parse q))
    | none => ∀ s capture, ∃ e,
        match_single is_literal_word_hyphen src p hp call next s capture = .error e := by
  have hend := parseSingle_classend hp
  rw [parseRepeat]
  cases hparse : parseSingle p with
  | none =>
    rw [hparse] at hend
    obtain ⟨e, he⟩ := hend
    exact fun s capture => ⟨e, by rw [match_single_error he]⟩
  | some r =>
    obtain ⟨x, ep⟩ := r
    rw [hparse] at hend
    have hep : ep.length < p.length := parseSingle_length hparse
    have htail : ep.tail.length < p.length := by rw [List.length_tail]; omega
    rw [match_single_ok hend.1 hep htail]
    exact match_suffix_first hparse (hend.2 src) (hcall _ _) (hnext _ _) (hnext _ _)

theorem start_capture_first {rest : Matcher} {o : Outcome → List Outcome} (hrest : Computes rest o)
    {what : CaptureLen} {s : ℕ} {capture : List Capture} {r : Option ℕ × List Capture}
    (h : start_capture rest what s capture = .ok r) :
    r = first capture (o (s, capture ++ [⟨s, what⟩])) := by
  unfold start_capture at h
  split_ifs at h
  · cases h
  cases hres : rest s (capture ++ [⟨s, what⟩]) with
  | error e => rw [hres] at h; cases h
  | ok q =>
    have hq := hrest _ _ _ hres
    rw [hres] at h
    obtain ⟨_ | e, c⟩ := q
    · obtain ⟨hnil, rfl⟩ := eq_nil_of_first hq
      rw [hnil]
      obtain rfl := Except.ok.inj h
      simp [first]
    · obtain rfl := Except.ok.inj h
      generalize o (s, capture ++ [⟨s, what⟩]) = l at hq ⊢
      cases l with
      | nil => cases hq
      | cons o l => exact hq

theorem capture_to_close_eq (capture : List Capture) : capture_to_close capture =
    match lastOpen capture with
    | some l => .ok l
    | none => .error "invalid pattern capture" := rfl

theorem lastOpen_spec {capture : List Capture} {l : ℕ} (h : lastOpen capture = some l) :
    ∃ c, capture[l]? = some c ∧ c.len = .unfinished := by
  have := List.find?_some h
  rw [decide_eq_true_eq] at this
  exact Option.map_eq_some_iff.1 this

/-- What `end_capture` undoes. -/
theorem modify_undo {capture : List Capture} {l : ℕ} (h : lastOpen capture = some l) (s : ℕ) :
    (capture.modify l fun c => { c with len := .len (s - c.init) }).modify l
      (fun c => { c with len := .unfinished }) = capture := by
  obtain ⟨c, hc, hopen⟩ := lastOpen_spec h
  refine List.ext_getElem? fun j => ?_
  rw [List.getElem?_modify, List.getElem?_modify]
  by_cases hj : l = j
  · subst hj
    obtain ⟨start, len⟩ := c
    obtain rfl : len = .unfinished := hopen
    simp [hc]
  · simp [hj]

theorem end_capture_first {rest : Matcher} {o : Outcome → List Outcome} (hrest : Computes rest o)
    {s : ℕ} {capture : List Capture} {r : Option ℕ × List Capture}
    (h : end_capture rest s capture = .ok r) :
    r = first capture ((Item.close.step src (s, capture)).flatMap o) := by
  unfold end_capture at h
  rw [capture_to_close_eq] at h
  dsimp only [Item.step]
  cases hl : lastOpen capture with
  | none => rw [hl] at h; cases h
  | some l =>
    rw [hl] at h
    dsimp only
    rw [List.flatMap_singleton]
    dsimp only [bind, Except.bind] at h
    cases hres : rest s (capture.modify l fun c => { c with len := .len (s - c.init) }) with
    | error e => rw [hres] at h; cases h
    | ok q =>
      have hq := hrest _ _ _ hres
      rw [hres] at h
      obtain ⟨_ | e, c⟩ := q
      · obtain ⟨hnil, rfl⟩ := eq_nil_of_first hq
        rw [hnil]
        obtain rfl := Except.ok.inj h
        rw [if_pos rfl, modify_undo hl]
        rfl
      · obtain rfl := Except.ok.inj h
        generalize o (s, capture.modify l fun c => { c with len := .len (s - c.init) }) = out at hq ⊢
        cases out with
        | nil => cases hq
        | cons o l => exact hq

/-! ### Characters of the subject -/

theorem peek_drop_eq (s : ℕ) : peek (src.drop s) = src.getD s 0 := by
  rw [peek, List.headD_eq_head?_getD, List.head?_drop, List.getD_eq_getElem?_getD]

/-- The loop looks for the first end of the balanced text. -/
theorem balanceLoop_eq (b e : UInt8) {cont : ℕ} (hcont : 1 ≤ cont) (s : ℕ) (w : Bytes) :
    balanceLoop b e cont s w =
      ((List.range (w.length + 1)).find? fun n => cont + balanceOf b e (w.take n) = 0).map
        (s + ·) := by
  induction w generalizing cont s with
  | nil =>
    rw [balanceLoop, eq_comm, Option.map_eq_none_iff, List.find?_eq_none]
    intro n _
    rw [List.take_nil]
    simp only [balanceOf, List.map_nil, List.sum_nil, decide_eq_true_eq]
    omega
  | cons c w ih =>
    -- Nothing is balanced before the first character.
    rw [balanceLoop, List.length_cons, List.range_succ_eq_map, List.find?_cons_of_neg (by
      rw [List.take_zero]
      simp only [balanceOf, List.map_nil, List.sum_nil, decide_eq_true_eq]
      omega), List.find?_map, Option.map_map]
    have hsum (n : ℕ) : balanceOf b e ((c :: w).take (n + 1)) =
        (if c = e then -1 else if c = b then 1 else 0) + balanceOf b e (w.take n) := by
      rw [List.take_succ_cons, balanceOf, List.map_cons, List.sum_cons, balanceOf]
    have hstep (cont' : ℕ) (hcont' : (cont' : ℤ) =
        cont + (if c = e then -1 else if c = b then 1 else 0)) :
        ((List.range (w.length + 1)).find? fun n => (cont : ℤ) +
          balanceOf b e ((c :: w).take (n + 1)) = 0) =
        (List.range (w.length + 1)).find? fun n => (cont' : ℤ) + balanceOf b e (w.take n) = 0 := by
      congr 1
      funext n
      rw [hsum, hcont', add_assoc]
    have hmap : (fun n => s + n) ∘ Nat.succ = fun n => s + 1 + n := by
      funext n
      simp only [Function.comp_apply]
      omega
    rw [hmap]
    by_cases hc : c = e
    · rw [if_pos hc]
      by_cases hone : cont = 1
      · subst hone
        rw [if_pos rfl, List.range_succ_eq_map, List.find?_cons_of_pos (by
          rw [Function.comp_apply, hsum, if_pos hc]
          simp [balanceOf])]
        rfl
      · rw [if_neg hone, ih (by omega)]
        refine congrArg _ (hstep (cont - 1) ?_).symm
        rw [if_pos hc]
        omega
    · rw [if_neg hc, ih (by split_ifs <;> omega)]
      refine congrArg _ (hstep _ ?_).symm
      rw [if_neg hc]
      split_ifs <;> omega

theorem matchbalance_eq (s : ℕ) (b e : UInt8) (q : Bytes) :
    matchbalance src s (b :: e :: q) = .ok (balancedEnd src b e s) := by
  have hb : peek (b :: e :: q) = b := rfl
  have he : peek (b :: e :: q).tail = e := rfl
  rw [matchbalance, if_neg (by simp), hb, he, balancedEnd]
  cases hd : src[s]? with
  | none =>
    -- At the end of the subject, `b` may be a zero.
    rw [List.drop_eq_nil_of_le (List.getElem?_eq_none_iff.1 hd |>.trans (Nat.le_succ s)),
      if_neg (show ¬ (none : Option UInt8) = some b from Option.some_ne_none b |>.symm)]
    split_ifs <;> rfl
  | some d =>
    rw [peek_drop hd]
    by_cases hdb : d = b
    · subst hdb
      have hs : s < src.length := (List.getElem?_eq_some_iff.1 hd).1
      rw [if_neg (by simp), if_pos rfl, balanceLoop_eq d e le_rfl, List.length_drop,
        show src.length - (s + 1) + 1 = src.length - s by omega]
      rfl
    · rw [if_pos hdb, if_neg (by simpa using hdb)]

theorem captured_prefix_iff {start n s : ℕ} :
    n ≤ src.length - s ∧ (src.drop start).take n = (src.drop s).take n ↔
      ((src.drop start).take n).length = n ∧ (src.drop start).take n <+: src.drop s := by
  constructor
  · rintro ⟨hn, heq⟩
    rw [heq]
    refine ⟨?_, List.take_prefix _ _⟩
    rw [List.length_take, List.length_drop]
    omega
  · rintro ⟨hlen, hprefix⟩
    have hle := hprefix.length_le
    rw [hlen, List.length_drop] at hle
    have heq := List.prefix_iff_eq_take.1 hprefix
    rw [hlen] at heq
    exact ⟨hle, heq⟩

/-- What a back-reference matches. -/
theorem match_capture_first {capture : List Capture} {s : ℕ} {d : UInt8} {r : Option ℕ}
    (h : match_capture src capture s d = .ok r) :
    d ≠ chr '0' ∧ r = match captured src capture (d.toNat - 0x31) with
      | some w => if w <+: src.drop s then some (s + w.length) else none
      | none => none := by
  unfold match_capture check_capture at h
  cases hc : capture[d.toNat - 0x31]? with
  | none => rw [hc] at h; cases h
  | some c =>
    rw [hc] at h
    dsimp only at h
    split_ifs at h with hbad
    · cases h
    · rw [not_or] at hbad
      refine ⟨?_, ?_⟩
      · rintro rfl
        exact hbad.1 (by decide)
      · rw [captured, hc]
        obtain ⟨start, len⟩ := c
        cases len with
        | unfinished => exact absurd rfl hbad.2
        | position => exact (Except.ok.inj h).symm
        | len n =>
          dsimp only [bind, Except.bind] at h ⊢
          by_cases hmatch : n ≤ src.length - s ∧ (src.drop start).take n = (src.drop s).take n
          · obtain ⟨hlen, hprefix⟩ := captured_prefix_iff.1 hmatch
            rw [if_pos hmatch] at h
            rw [if_pos hlen]
            dsimp only
            rw [if_pos hprefix, hlen]
            exact (Except.ok.inj h).symm
          · rw [if_neg hmatch] at h
            obtain rfl := Except.ok.inj h
            by_cases hlen : ((src.drop start).take n).length = n
            · rw [if_pos hlen]
              dsimp only
              rw [if_neg fun hprefix => hmatch (captured_prefix_iff.2 ⟨hlen, hprefix⟩)]
            · rw [if_neg hlen]

/-- A set has the characters that the loop over it finds. -/
theorem matchbracketclass_has {p ep : Bytes} {x : Single} (hp : peek p = chr '[')
    (h : parseSingle p = some (x, ep)) (d : UInt8) :
    matchbracketclass d p (ep.length + 1) = x.has d := by
  have hne : p ≠ [] := by
    rintro rfl
    exact absurd hp (by decide)
  have hend := parseSingle_classend hne
  rw [h] at hend
  have hd := hend.2 [d] 0
  rw [singlematch, hp] at hd
  exact hd

theorem charBefore_eq (s : ℕ) :
    (if s = 0 then 0 else peek (src.drop (s - 1))) = charBefore src s := by
  rw [charBefore, peek_drop_eq]

section Frontier

variable {c : UInt8} {q : Bytes}
  {call next : ∀ p : Bytes, p.length < (c :: chr 'f' :: q).length → Matcher}

theorem match_escape_frontier_error {e : String} (hset : peek q = chr '[')
    (h : classend q = .error e) (s : ℕ) (capture : List Capture) :
    match_escape is_literal_word_hyphen src c (chr 'f' :: q) call next s capture = .error e := by
  have hf : peek (chr 'f' :: q) = chr 'f' := rfl
  rw [match_escape, hf, if_neg (show chr 'f' ≠ chr 'b' by decide), if_pos rfl,
    dif_pos (show peek (chr 'f' :: q).tail = _ from hset)]
  split
  · rename_i e' h'
    exact congrArg Except.error (Except.error.inj (h'.symm.trans h))
  · rename_i ep h'
    cases h'.symm.trans h

theorem match_escape_frontier {ep : Bytes} {x : Single} (hset : peek q = chr '[')
    (hparse : parseSingle q = some (x, ep)) (hend : classend q = .ok ep)
    (hlen : ep.length < (c :: chr 'f' :: q).length) (s : ℕ) (capture : List Capture) :
    match_escape is_literal_word_hyphen src c (chr 'f' :: q) call next s capture =
      if !x.has (charBefore src s) && x.has (src.getD s 0) then next ep hlen s capture
      else .ok (none, capture) := by
  have hf : peek (chr 'f' :: q) = chr 'f' := rfl
  rw [match_escape, hf, if_neg (show chr 'f' ≠ chr 'b' by decide), if_pos rfl,
    dif_pos (show peek (chr 'f' :: q).tail = _ from hset)]
  split
  · rename_i e' h'
    cases h'.symm.trans hend
  · rename_i ep' h'
    obtain rfl := Except.ok.inj (h'.symm.trans hend)
    refine if_congr ?_ rfl rfl
    rw [← charBefore_eq, ← peek_drop_eq, ← matchbracketclass_has hset hparse,
      ← matchbracketclass_has hset hparse]
    rfl

end Frontier

section Items

variable {c : UInt8} {p : Bytes} {call next : ∀ q : Bytes, q.length < (c :: p).length → Matcher}
  (hcall : ∀ q h, Computes (call q h) (outcomesWith src bad (parse q)))
  (hnext : ∀ q h, Computes (next q h) (outcomesWith src bad (parse q)))
include hcall hnext

/-- An item after the escape character. -/
theorem match_escape_first (hp : c = L_ESC) :
    match parseItem c p with
    | some (i, q) => Computes (match_escape is_literal_word_hyphen src c p call next) fun out =>
        (i.step src out).flatMap (outcomesWith src bad (parse q))
    | none => ∀ s capture, ∃ e,
        match_escape is_literal_word_hyphen src c p call next s capture = .error e := by
  subst hp
  have hsingle := @match_single_first _ _ _ (List.cons_ne_nil L_ESC p) _ _ hcall hnext
  unfold parseItem
  rw [if_neg (by decide), if_neg (by decide), if_neg (fun h => absurd h.1 (by decide)), if_pos rfl]
  cases p with
  | nil => exact hsingle
  | cons d q =>
    have hd : peek (d :: q) = d := rfl
    dsimp only
    by_cases hb : d = chr 'b'
    · subst hb
      rw [if_pos rfl]
      match q with
      | [] | [_] => exact fun s capture => ⟨_, rfl⟩
      | b :: e :: q =>
        intro s capture r h
        rw [match_escape, if_pos hd, List.tail_cons, matchbalance_eq] at h
        dsimp only [Item.step]
        cases hend : balancedEnd src b e s with
        | none =>
          rw [hend] at h
          exact (Except.ok.inj h).symm
        | some s' =>
          rw [hend] at h
          rw [Option.toList_some, List.map_singleton, List.flatMap_singleton]
          exact hnext q _ _ _ _ h
    rw [if_neg hb]
    by_cases hf : d = chr 'f'
    · subst hf
      rw [if_pos rfl]
      by_cases hset : peek q = chr '['
      · rw [if_pos hset]
        have hne : q ≠ [] := by
          rintro rfl
          exact absurd hset (by decide)
        have hend := parseSingle_classend hne
        cases hparse : parseSingle q with
        | none =>
          rw [hparse] at hend
          obtain ⟨e, he⟩ := hend
          exact fun s capture => ⟨e, match_escape_frontier_error hset he s capture⟩
        | some r =>
          obtain ⟨x, ep⟩ := r
          rw [hparse] at hend
          have hlen : ep.length < (L_ESC :: chr 'f' :: q).length := by
            have := parseSingle_length hparse
            simp only [List.length_cons]
            omega
          intro s capture r h
          rw [match_escape_frontier hset hparse hend.1 hlen] at h
          dsimp only [Item.step]
          split_ifs at h ⊢
          · rw [List.flatMap_singleton]
            exact hnext _ _ _ _ _ h
          · exact (Except.ok.inj h).symm
      · rw [if_neg hset]
        refine fun s capture => ⟨"missing '[' after '%f' in pattern", ?_⟩
        rw [match_escape, hd, if_neg hb, if_pos rfl,
          dif_neg (show ¬ peek (chr 'f' :: q).tail = _ from hset)]
    rw [if_neg hf]
    by_cases hdigit : isdigit d = true
    · rw [if_pos hdigit]
      have hescape (s : ℕ) (capture : List Capture) :
          match_escape is_literal_word_hyphen src L_ESC (d :: q) call next s capture = (do
            match (← match_capture src capture s d) with
            | some s => next q (by simp only [List.length_cons]; omega) s capture
            | none => return (none, capture)) := by
        rw [match_escape, hd, if_neg hb, if_neg hf, if_pos hdigit]
        rfl
      by_cases hzero : d = chr '0'
      · rw [if_pos hzero]
        intro s capture
        rw [hescape]
        cases hback : match_capture src capture s d with
        | error e => exact ⟨e, rfl⟩
        | ok r => exact absurd hzero (match_capture_first hback).1
      · rw [if_neg hzero]
        intro s capture r h
        rw [hescape] at h
        dsimp only [Item.step]
        cases hback : match_capture src capture s d with
        | error e => rw [hback] at h; cases h
        | ok res =>
          rw [hback] at h
          obtain ⟨-, hres⟩ := match_capture_first hback
          cases hw : captured src capture (d.toNat - 0x31) with
          | none =>
            rw [hw] at hres
            subst hres
            exact (Except.ok.inj h).symm
          | some w =>
            rw [hw] at hres
            dsimp only at hres ⊢
            split_ifs at hres ⊢
            · subst hres
              rw [List.flatMap_singleton]
              exact hnext _ _ _ _ _ h
            · subst hres
              exact (Except.ok.inj h).symm
    · rw [if_neg hdigit]
      have hescape : match_escape is_literal_word_hyphen src L_ESC (d :: q) call next =
          match_single is_literal_word_hyphen src (L_ESC :: d :: q) (List.cons_ne_nil _ _) call next := by
        funext s capture
        rw [match_escape, hd, if_neg hb, if_neg hf, if_neg hdigit]
      rw [hescape]
      exact hsingle

/-- **An item of the matcher** has the outcomes of the item that is parsed.  If that is malformed, it
is an error. -/
theorem match_item_first :
    match parseItem c p with
    | some (i, q) => Computes (match_item is_literal_word_hyphen src c p call next) fun out =>
        (i.step src out).flatMap (outcomesWith src bad (parse q))
    | none => ∀ s capture, ∃ e,
        match_item is_literal_word_hyphen src c p call next s capture = .error e := by
  by_cases hopen : c = chr '('
  · subst hopen
    unfold parseItem
    rw [if_pos rfl]
    by_cases hpos : peek p = chr ')'
    · rw [if_pos hpos]
      intro s capture r h
      rw [match_item, if_pos rfl, if_pos hpos] at h
      dsimp only [Item.step]
      rw [List.flatMap_singleton]
      exact start_capture_first (hcall _ _) h
    · rw [if_neg hpos]
      intro s capture r h
      rw [match_item, if_pos rfl, if_neg hpos] at h
      dsimp only [Item.step]
      rw [List.flatMap_singleton]
      exact start_capture_first (hcall _ _) h
  by_cases hclose : c = chr ')'
  · subst hclose
    unfold parseItem
    rw [if_neg hopen, if_pos rfl]
    intro s capture r h
    rw [match_item, if_neg hopen, if_pos rfl] at h
    exact end_capture_first (hcall _ _) h
  by_cases hstop : c = chr '$' ∧ p = []
  · unfold parseItem
    rw [if_neg hopen, if_neg hclose, if_pos hstop]
    intro s capture r h
    rw [match_item, if_neg hopen, if_neg hclose, if_pos hstop] at h
    obtain rfl := Except.ok.inj h
    rw [parse]
    dsimp only [Item.step]
    split_ifs <;> rfl
  by_cases hesc : c = L_ESC
  · have hitem : match_item is_literal_word_hyphen src c p call next =
        match_escape is_literal_word_hyphen src c p call next := by
      funext s capture
      rw [match_item, if_neg hopen, if_neg hclose, if_neg hstop, if_pos hesc]
    rw [hitem]
    exact match_escape_first hcall hnext hesc
  · have hitem : match_item is_literal_word_hyphen src c p call next =
        match_single is_literal_word_hyphen src (c :: p) (List.cons_ne_nil c p) call next := by
      funext s capture
      rw [match_item, if_neg hopen, if_neg hclose, if_neg hstop, if_neg hesc]
    have hparse : parseItem c p = parseRepeat (c :: p) := by
      unfold parseItem
      rw [if_neg hopen, if_neg hclose, if_neg hstop, if_neg hesc]
    rw [hitem, hparse]
    exact match_single_first hcall hnext

end Items

/-! ### Patterns -/

theorem Computes.within {init : ℕ → Matcher} {o : Outcome → List Outcome}
    (h : ∀ depth, Computes (init depth) o) (depth : ℕ) : Computes (within init depth) o := by
  intro s capture r hr
  unfold StrLib.within at hr
  split_ifs at hr
  exact h _ _ _ _ hr

/-- **The matcher returns the first outcome** of the pattern, and its captures; without one, those that
it was called with. -/
theorem init_first (depth : ℕ) (p : Bytes) :
    Computes (init is_literal_word_hyphen src depth p) (outcomesWith src bad (parse p)) := by
  induction hn : p.length using Nat.strong_induction_on generalizing p depth with
  | _ n ih =>
    subst hn
    cases p with
    | nil =>
      intro s capture r h
      rw [init_nil] at h
      obtain rfl := Except.ok.inj h
      rw [parse]
      rfl
    | cons c p =>
      have hitem := @match_item_first src _ c p
        (fun q _ => do_match is_literal_word_hyphen src depth q)
        (fun q _ => init is_literal_word_hyphen src depth q)
        (fun q h => Computes.within (fun depth => ih _ h depth q rfl) depth)
        (fun q h => ih _ h depth q rfl)
      intro s capture r h
      rw [init_cons] at h
      rw [parse]
      split
      · rename_i i q hparse
        rw [hparse] at hitem
        rw [outcomesWith_cons src (parseItem_ne_malformed hparse)]
        exact hitem _ _ _ h
      · rename_i hparse
        rw [hparse] at hitem
        obtain ⟨e, he⟩ := hitem s capture
        rw [he] at h
        cases h

/-- Whatever comes of what is malformed: that is an error. -/
theorem do_match_computes (depth : ℕ) (p : Bytes) :
    Computes (do_match is_literal_word_hyphen src depth p) (outcomesWith src bad (parse p)) :=
  Computes.within (fun depth => init_first depth p) depth

theorem do_match_first (depth : ℕ) (p : Bytes) :
    Computes (do_match is_literal_word_hyphen src depth p) (outcomes src (parse p)) :=
  do_match_computes depth p

end StrLib

end Jaci
