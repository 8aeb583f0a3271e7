import Jaci.StrLib.Backtrack
import Jaci.StrLib.Pointers

/-!
# The matcher stays in its strings

* `Follows` : the matcher with its pointers does what the one without them does;
* `match_in_bounds` : it never reads outside of a string, and `matchdepth` is restored.
-/

namespace Jaci

namespace StrLib

namespace Pointers

open Wire

variable {src pat : Bytes}

theorem ok_bind {α β : Type} (x : α) (f : α → Except Stop β) : (Except.ok x >>= f) = f x := rfl

theorem error_bind {α β : Type} (e : Stop) (f : α → Except Stop β) :
    (Except.error e >>= f) = .error e := rfl

theorem byteAt_eq {w : Bytes} {i : ℕ} (h : i ≤ w.length) : byteAt w i = .ok (peek (w.drop i)) := by
  rw [byteAt, peek, List.headD_eq_head?_getD, List.head?_drop]
  rcases Nat.lt_or_eq_of_le h with h | rfl
  · rw [List.getElem?_append_left h, List.getElem?_eq_getElem h]
    rfl
  · rw [List.getElem?_append_right le_rfl, Nat.sub_self, List.getElem?_eq_none le_rfl]
    rfl

/-- What is at an index inside of a string. -/
theorem drop_eq_cons {w r : Bytes} {i : ℕ} {c : UInt8} (h : w.drop i = c :: r) :
    i < w.length ∧ r = w.drop (i + 1) ∧ byteAt w i = .ok c := by
  have hlt : i < w.length := by
    by_contra hge
    rw [List.drop_eq_nil_of_le (Nat.le_of_not_lt hge)] at h
    cases h
  refine ⟨hlt, ?_, ?_⟩
  · rw [← List.tail_drop, h]
    rfl
  · rw [byteAt_eq (Nat.le_of_lt hlt), h]
    rfl

theorem lt_of_peek_ne_zero {w : Bytes} {i : ℕ} {c : UInt8} (h : peek (w.drop i) = c) (hc : c ≠ 0) :
    i < w.length := by
  by_contra hge
  rw [List.drop_eq_nil_of_le (Nat.le_of_not_lt hge)] at h
  exact hc h.symm

/-! ### The scanners of the pattern -/

/-- A scanner of the pattern returns a pointer into it. -/
def Scans (pat : Bytes) (p : ℕ) (r : Except Stop ℕ) : Except String Bytes → Prop
  | .ok ep => ∃ k, r = .ok k ∧ p < k ∧ k ≤ pat.length ∧ ep = pat.drop k
  | .error e => r = luaL_error e

theorem Scans.mono {p p' : ℕ} {r : Except Stop ℕ} {h : Except String Bytes} (hp : p' ≤ p)
    (hs : Scans pat p r h) : Scans pat p' r h := by
  cases h with
  | error e => exact hs
  | ok ep =>
    obtain ⟨k, hr, hlt, hle, hep⟩ := hs
    exact ⟨k, hr, Nat.lt_of_le_of_lt hp hlt, hle, hep⟩

theorem setend_scans {p : ℕ} (hp : p ≤ pat.length) :
    Scans pat p (setend pat p) (StrLib.setend (pat.drop p)) := by
  have hend : setend pat pat.length = luaL_error "malformed pattern (missing ']')" := by
    rw [setend, if_pos rfl]
  -- One round of the loop.
  have hround {p : ℕ} {c : UInt8} (hlt : p < pat.length) (hc : byteAt pat p = .ok c)
      (hnext : setnext pat p c ≤ pat.length) : setend pat p =
        if peek (pat.drop (setnext pat p c)) = chr ']' then .ok (setnext pat p c + 1)
        else setend pat (setnext pat p c) := by
    rw [setend, if_neg (Nat.ne_of_lt hlt)]
    split
    · rename_i e he
      cases he.symm.trans hc
    · rename_i c' hc'
      obtain rfl := Except.ok.inj (hc.symm.trans hc')
      rw [byteAt_eq hnext]
  generalize hq : pat.drop p = q
  fun_induction StrLib.setend q generalizing p with
  | case1 =>
    obtain rfl : p = pat.length := Nat.le_antisymm hp (List.drop_eq_nil_iff.1 hq)
    exact hend
  | case2 =>
    obtain ⟨hlt, hr, hc⟩ := drop_eq_cons hq
    have hlen : p + 1 = pat.length := Nat.le_antisymm hlt (List.drop_eq_nil_iff.1 hr.symm)
    have hnext : setnext pat p L_ESC = p + 1 := if_neg fun h => by omega
    rw [hround hlt hc (by omega), hnext, if_neg (by rw [← hr]; decide), hlen]
    exact hend
  | case3 d r hr =>
    obtain ⟨hlt, hdrop, hc⟩ := drop_eq_cons hq
    obtain ⟨hlt', hr', -⟩ := drop_eq_cons hdrop.symm
    have hnext : setnext pat p L_ESC = p + 2 := if_pos ⟨rfl, hlt'⟩
    rw [hr'] at hr ⊢
    refine ⟨p + 3, ?_, by omega, lt_of_peek_ne_zero hr (by decide), List.tail_drop⟩
    rw [hround hlt hc (by omega), hnext, if_pos hr]
  | case4 d r hr ih =>
    obtain ⟨hlt, hdrop, hc⟩ := drop_eq_cons hq
    obtain ⟨hlt', hr', -⟩ := drop_eq_cons hdrop.symm
    have hnext : setnext pat p L_ESC = p + 2 := if_pos ⟨rfl, hlt'⟩
    rw [hround hlt hc (by omega), hnext, if_neg (by rwa [← hr'])]
    exact (ih hlt' hr'.symm).mono (by omega)
  | case5 c r hc hr =>
    obtain ⟨hlt, hdrop, hread⟩ := drop_eq_cons hq
    have hnext : setnext pat p c = p + 1 := if_neg fun h => hc h.1
    rw [hdrop] at hr ⊢
    refine ⟨p + 2, ?_, by omega, lt_of_peek_ne_zero hr (by decide), List.tail_drop⟩
    rw [hround hlt hread (by omega), hnext, if_pos hr]
  | case6 c r hc hr ih =>
    obtain ⟨hlt, hdrop, hread⟩ := drop_eq_cons hq
    have hnext : setnext pat p c = p + 1 := if_neg fun h => hc h.1
    rw [hround hlt hread (by omega), hnext, if_neg (by rwa [← hdrop])]
    exact (ih hlt hdrop.symm).mono (by omega)

theorem classend_scans {p : ℕ} (hp : p < pat.length) :
    Scans pat p (classend pat p) (StrLib.classend (pat.drop p)) := by
  obtain ⟨c, r, hq⟩ : ∃ c r, pat.drop p = c :: r := ⟨_, _, List.drop_eq_getElem_cons hp⟩
  obtain ⟨-, hr, hc⟩ := drop_eq_cons hq
  rw [classend, hc, ok_bind, hq]
  by_cases hesc : c = L_ESC
  · subst hesc
    rw [if_pos rfl]
    cases r with
    | nil =>
      have hlen : p + 1 = pat.length := Nat.le_antisymm hp (List.drop_eq_nil_iff.1 hr.symm)
      rw [if_pos hlen]
      rfl
    | cons d r =>
      obtain ⟨hlt, hr', -⟩ := drop_eq_cons hr.symm
      rw [if_neg (by omega)]
      exact ⟨p + 2, rfl, by omega, hlt, hr'⟩
  · rw [if_neg hesc]
    by_cases hset : c = chr '['
    · subst hset
      rw [if_pos rfl, byteAt_eq hp, ok_bind, ← hr]
      have hend : StrLib.classend (chr '[' :: r) =
          StrLib.setend (if peek r = chr '^' then r.tail else r) := rfl
      rw [hend]
      by_cases hneg : peek r = chr '^'
      · rw [if_pos hneg, if_pos hneg]
        rw [hr] at hneg ⊢
        rw [List.tail_drop]
        exact (setend_scans (lt_of_peek_ne_zero hneg (by decide))).mono (by omega)
      · rw [if_neg hneg, if_neg hneg, hr]
        exact (setend_scans hp).mono (by omega)
    · rw [if_neg hset]
      have hend : StrLib.classend (c :: r) = .ok r := by
        simp only [StrLib.classend, if_neg hesc, if_neg hset]
      rw [hend]
      exact ⟨p + 1, rfl, Nat.lt_succ_self p, hp, hr⟩

theorem bracketLoop_eq (c : UInt8) (sig : Bool) {ec p : ℕ} (hec : ec < pat.length) :
    bracketLoop pat c sig ec p =
      .ok (StrLib.bracketLoop c sig (pat.length - ec) (pat.drop (p + 1))) := by
  induction hn : ec - p using Nat.strong_induction_on generalizing p with
  | _ n ih =>
    subst hn
    rw [bracketLoop]
    by_cases hp : p + 1 < ec
    · rw [dif_pos hp]
      obtain ⟨q, r, hq⟩ : ∃ q r, pat.drop (p + 1) = q :: r :=
        ⟨_, _, List.drop_eq_getElem_cons (by omega)⟩
      obtain ⟨hlt, hr, hc⟩ := drop_eq_cons hq
      have hlen : r.length = pat.length - (p + 2) := by rw [hr, List.length_drop]
      rw [hc, ok_bind, hq, StrLib.bracketLoop, if_neg (show ¬ r.length < pat.length - ec by omega)]
      by_cases hesc : q = L_ESC
      · rw [if_pos hesc, if_pos hesc, byteAt_eq hlt, ok_bind, ih _ (by omega) rfl, ← hr, hr,
          List.tail_drop]
        split_ifs <;> rfl
      · rw [if_neg hesc, if_neg hesc, byteAt_eq hlt, ok_bind, ← hr]
        by_cases hrange : peek r = chr '-' ∧ p + 3 < ec
        · rw [if_pos hrange, if_pos ⟨hrange.1, by omega⟩, byteAt_eq (by omega), ok_bind,
            ih _ (by omega) rfl, hr, List.tail_drop, List.drop_drop]
          split_ifs <;> rfl
        · have hrange' : ¬ (peek r = chr '-' ∧ pat.length - ec + 1 < r.length) :=
            fun h => hrange ⟨h.1, by omega⟩
          rw [if_neg hrange, if_neg hrange', ih _ (by omega) rfl, hr]
          split_ifs <;> rfl
    · rw [dif_neg hp, bracketLoop_stop]
      · rfl
      · rw [List.length_drop]
        omega

theorem matchbracketclass_eq (c : UInt8) {p ec : ℕ} (hec : ec < pat.length) (hp : p < pat.length) :
    matchbracketclass pat c p ec =
      .ok (StrLib.matchbracketclass c (pat.drop p) (pat.length - ec)) := by
  rw [matchbracketclass, byteAt_eq hp, ok_bind, StrLib.matchbracketclass, List.tail_drop]
  split_ifs
  · rw [bracketLoop_eq c false hec, List.tail_drop]
  · rw [bracketLoop_eq c true hec]

theorem singlematch_eq {p ep : ℕ} (hep : ep ≤ pat.length) (hlt : p < ep) (s : ℕ) :
    singlematch src pat s p ep = .ok (StrLib.singlematch src (pat.drop p) (pat.drop ep) s) := by
  rw [singlematch, StrLib.singlematch]
  by_cases hs : src.length ≤ s
  · rw [if_pos hs, if_pos hs]
    rfl
  · have hlen : (pat.drop ep).length + 1 = pat.length - (ep - 1) := by
      rw [List.length_drop]
      omega
    rw [if_neg hs, if_neg hs, byteAt_eq (by omega), ok_bind, byteAt_eq (by omega), ok_bind,
      byteAt_eq (by omega), ok_bind, matchbracketclass_eq _ (by omega) (by omega), hlen,
      List.tail_drop]
    split_ifs <;> rfl

theorem is_literal_word_hyphen_eq {p ep : ℕ} (hep : ep ≤ pat.length) :
    is_literal_word_hyphen pat p ep =
      .ok (StrLib.is_literal_word_hyphen (pat.drop p) (pat.drop ep)) := by
  have hlen : (pat.drop ep).length + 1 = (pat.drop p).length ↔ ep = p + 1 := by
    rw [List.length_drop, List.length_drop]
    omega
  have hroom : (pat.drop (ep + 1)).isEmpty = false ↔ ep + 1 < pat.length := by
    rw [List.isEmpty_eq_false_iff, Ne, List.drop_eq_nil_iff, Nat.not_le]
  rw [is_literal_word_hyphen, byteAt_eq hep, ok_bind, StrLib.is_literal_word_hyphen, List.tail_drop]
  by_cases hdash : peek (pat.drop ep) = chr '-'
  · rw [if_neg (not_not.2 hdash), hdash, beq_self_eq_true, Bool.true_and]
    by_cases hword : ep = p + 1 ∧ ep + 1 < pat.length
    · rw [if_neg (not_not.2 hword), byteAt_eq (by omega), ok_bind, byteAt_eq (by omega), ok_bind,
        hroom.2 hword.2, beq_iff_eq.2 (hlen.2 hword.1)]
      cases isalnum (peek (pat.drop p)) <;> rfl
    · rw [if_pos hword]
      rcases not_and_or.1 hword with hword | hword
      · rw [beq_false_of_ne fun h => hword (hlen.1 h)]
        rfl
      · rw [Bool.eq_true_of_not_eq_false fun h => hword (hroom.1 h), Bool.not_true, Bool.and_false]
        rfl
  · rw [if_pos hdash, beq_false_of_ne hdash]
    rfl

/-! ### The subject -/

theorem balanceLoop_eq (b e : UInt8) (cont s : ℕ) :
    balanceLoop src b e cont s = .ok (StrLib.balanceLoop b e cont (s + 1) (src.drop (s + 1))) := by
  induction hn : src.length - s using Nat.strong_induction_on generalizing s cont with
  | _ n ih =>
    subst hn
    rw [balanceLoop]
    by_cases hs : s + 1 < src.length
    · obtain ⟨c, r, hq⟩ : ∃ c r, src.drop (s + 1) = c :: r := ⟨_, _, List.drop_eq_getElem_cons hs⟩
      obtain ⟨-, hr, hc⟩ := drop_eq_cons hq
      rw [dif_pos hs, hc, ok_bind, hq, StrLib.balanceLoop, ih _ (by omega) _ _ rfl,
        ih _ (by omega) _ _ rfl, ← hr]
      split_ifs <;> rfl
    · rw [dif_neg hs, List.drop_eq_nil_of_le (Nat.le_of_not_lt hs)]
      rfl

theorem matchbalance_eq {s p : ℕ} (hs : s ≤ src.length) :
    matchbalance src pat s p = lift (StrLib.matchbalance src s (pat.drop p)) := by
  rw [matchbalance, StrLib.matchbalance, List.length_drop]
  by_cases hp : pat.length ≤ p + 1
  · rw [if_pos hp, if_pos (by omega)]
    rfl
  · rw [if_neg hp, if_neg (by omega), byteAt_eq hs, ok_bind, byteAt_eq (by omega), ok_bind]
    split_ifs with hne
    · rfl
    · rw [ok_bind, byteAt_eq (by omega), ok_bind, balanceLoop_eq, List.tail_drop]
      rfl

theorem balanceLoop_bounds {b e : UInt8} {cont s k : ℕ} {w : Bytes}
    (h : StrLib.balanceLoop b e cont s w = some k) : s ≤ k ∧ k ≤ s + w.length := by
  induction w generalizing cont s with
  | nil => cases h
  | cons c w ih =>
    rw [StrLib.balanceLoop] at h
    rw [List.length_cons]
    split_ifs at h
    · obtain rfl := Option.some.inj h
      omega
    all_goals
      have := ih h
      omega

theorem matchbalance_bounds {s k : ℕ} {p : Bytes} (hs : s ≤ src.length)
    (h : StrLib.matchbalance src s p = .ok (some k)) : 1 < p.length ∧ s ≤ k ∧ k ≤ src.length := by
  unfold StrLib.matchbalance at h
  split_ifs at h with hlen
  · cases h
  · have := balanceLoop_bounds (Except.ok.inj h)
    rw [List.length_drop] at this
    by_cases hend : s < src.length
    · exact ⟨by omega, by omega, by omega⟩
    · -- There is nothing after the end.
      have hnil : src.drop (s + 1) = [] := List.drop_eq_nil_of_le (by omega)
      rw [hnil] at h
      cases h

theorem match_capture_bounds {capture : List Capture} {s k : ℕ} {l : UInt8} (hs : s ≤ src.length)
    (h : StrLib.match_capture src capture s l = .ok (some k)) : s ≤ k ∧ k ≤ src.length := by
  unfold StrLib.match_capture at h
  cases hc : check_capture capture l with
  | error e => rw [hc] at h; cases h
  | ok c =>
    rw [hc] at h
    obtain ⟨start, len⟩ := c
    cases len with
    | len n =>
      dsimp only [bind, Except.bind] at h
      split_ifs at h with hn
      · obtain rfl := Option.some.inj (Except.ok.inj h)
        omega
      · cases h
    | _ => cases h

theorem previous_eq {s : ℕ} (hs : s ≤ src.length) :
    previous src s = .ok (if s = 0 then 0 else peek (src.drop (s - 1))) := by
  rw [previous]
  cases s with
  | zero => rfl
  | succ s =>
    rw [if_neg (Nat.succ_ne_zero s), if_neg (Nat.succ_ne_zero s), byteBefore, byteAt_eq (by omega)]
    rfl

/-- The bytes that `memcmp` reads. -/
theorem bytes_eq {start n : ℕ} (h : start + n ≤ src.length) :
    (List.range n).mapM (fun i => byteAt src (start + i)) = .ok ((src.drop start).take n) := by
  have hmap (l : List ℕ) (hl : ∀ i ∈ l, start + i < src.length) :
      l.mapM (fun i => byteAt src (start + i)) =
        .ok (l.map fun i => peek (src.drop (start + i))) := by
    induction l with
    | nil => rfl
    | cons i l ih =>
      rw [List.mapM_cons, byteAt_eq (Nat.le_of_lt (hl i List.mem_cons_self)), ok_bind,
        ih fun j hj => hl j (List.mem_cons_of_mem i hj)]
      rfl
  rw [hmap _ fun i hi => by have := List.mem_range.1 hi; omega]
  refine congrArg Except.ok (List.ext_getElem? fun i => ?_)
  rw [List.getElem?_map]
  by_cases hi : i < n
  · rw [List.getElem?_range hi, List.getElem?_take_of_lt hi, List.getElem?_drop,
      List.getElem?_eq_getElem (show start + i < src.length by omega), Option.map_some,
      List.drop_eq_getElem_cons (show start + i < src.length by omega)]
    rfl
  · rw [List.getElem?_eq_none (by rw [List.length_range]; omega), List.getElem?_eq_none (by
      rw [List.length_take]; omega)]
    rfl

/-- The captures are inside of the subject, and start before the offset. -/
structure Inside (src : Bytes) (s : ℕ) (capture : List Capture) : Prop where
  offset : s ≤ src.length
  starts : ∀ c ∈ capture, c.init ≤ s
  ends : ∀ c ∈ capture, ∀ n, c.len = .len n → c.init + n ≤ src.length

theorem match_capture_eq {s : ℕ} {capture : List Capture} (h : Inside src s capture) (l : UInt8) :
    match_capture src capture s l = lift (StrLib.match_capture src capture s l) := by
  rw [match_capture, StrLib.match_capture]
  cases hc : check_capture capture l with
  | error e => rfl
  | ok c =>
    obtain ⟨start, len⟩ := c
    cases len with
    | len n =>
      have hmem : ⟨start, .len n⟩ ∈ capture := by
        unfold check_capture at hc
        split at hc
        · rename_i c hget
          split_ifs at hc
          obtain rfl := Except.ok.inj hc
          exact List.mem_of_getElem? hget
        · cases hc
      rw [lift, ok_bind]
      dsimp only [bind, Except.bind]
      by_cases hn : n ≤ src.length - s
      · have hs := h.offset
        rw [if_pos hn, memcmp, bytes_eq (h.ends _ hmem n rfl), ok_bind, bytes_eq (by omega), ok_bind]
        by_cases htext : (src.drop start).take n = (src.drop s).take n
        · rw [if_pos ⟨hn, htext⟩, beq_iff_eq.2 htext]
          rfl
        · rw [if_neg fun h => htext h.2, beq_false_of_ne htext]
          rfl
      · rw [if_neg hn, if_neg fun h => hn h.1]
        rfl
    | _ => rfl

/-! ### The matcher -/

/-- A result with the fields of the state. -/
def follow (ms : MatchState) : Result → Except Stop (Option ℕ × MatchState)
  | .ok (res, capture) => .ok (res, { ms with capture := capture })
  | .error e => luaL_error e

/-- The matcher `m` does what `n` does, whose argument is `matchdepth`, and `n` leaves the captures as
they were when it fails. -/
structure Follows (src : Bytes) (m : Matcher) (n : ℕ → StrLib.Matcher) : Prop where
  eq : ∀ s ms, Inside src s ms.capture → m s ms = follow ms (n ms.matchdepth s ms.capture)
  undo : ∀ depth s capture c, n depth s capture = .ok (none, c) → c = capture

theorem Inside.mono {s s' : ℕ} {capture : List Capture} (h : Inside src s capture) (hle : s ≤ s')
    (hs : s' ≤ src.length) : Inside src s' capture :=
  ⟨hs, fun c hc => Nat.le_trans (h.starts c hc) hle, h.ends⟩

/-- A second matcher is tried when the first one fails. -/
theorem Follows.orElse {m : Matcher} {n : ℕ → StrLib.Matcher} (hm : Follows src m n) {s : ℕ}
    {ms : MatchState} (h : Inside src s ms.capture)
    {later : MatchState → Except Stop (Option ℕ × MatchState)} {later' : List Capture → Result}
    (hlater : later ms = follow ms (later' ms.capture)) :
    (do
      match (← m s ms) with
      | (some res, ms) => return (some res, ms)
      | (none, ms) => later ms) =
    follow ms (do
      match (← n ms.matchdepth s ms.capture) with
      | (some res, capture) => return (some res, capture)
      | (none, capture) => later' capture) := by
  rw [hm.eq s ms h]
  cases hres : n ms.matchdepth s ms.capture with
  | error e => rfl
  | ok q =>
    obtain ⟨_ | e, c⟩ := q
    · obtain rfl := hm.undo _ _ _ _ hres
      exact hlater
    · rfl

section Repeat

variable {p ep : ℕ} (hep : ep ≤ pat.length) (hlt : p < ep)
include hep hlt

theorem countMatches_eq (s i : ℕ) : countMatches src pat s p ep i =
    .ok (i + StrLib.countMatches (StrLib.singlematch src (pat.drop p) (pat.drop ep))
      (src.length - (s + i)) (s + i)) := by
  induction hn : src.length - (s + i) using Nat.strong_induction_on generalizing i with
  | _ n ih =>
    have hsingle := @singlematch_eq src _ _ _ hep hlt (s + i)
    rw [countMatches]
    split
    · rename_i e he
      cases he.symm.trans hsingle
    · rename_i hfalse
      have hstop := Except.ok.inj (hsingle.symm.trans hfalse)
      cases n with
      | zero => rfl
      | succ k => rw [StrLib.countMatches, hstop]; rfl
    · rename_i htrue
      have hgo := Except.ok.inj (hsingle.symm.trans htrue)
      have hs := singlematch_lt src pat htrue
      obtain ⟨k, rfl⟩ : ∃ k, n = k + 1 := ⟨n - 1, by omega⟩
      have hk : src.length - (s + (i + 1)) = k := by omega
      rw [ih _ (by omega) (i + 1) rfl, StrLib.countMatches, hgo, if_pos rfl, hk]
      exact congrArg Except.ok (by rw [← Nat.add_assoc]; omega)

variable {rest : Matcher} {rest' : ℕ → StrLib.Matcher} (hrest : Follows src rest rest')
include hrest

omit hep hlt in
theorem shrink_eq {s i : ℕ} {ms : MatchState} (h : Inside src s ms.capture)
    (hi : s + i ≤ src.length) :
    shrink rest i s ms = follow ms (StrLib.shrink (rest' ms.matchdepth) i s ms.capture) := by
  induction i with
  | zero => exact hrest.eq s ms h
  | succ i ih => exact hrest.orElse (h.mono (Nat.le_add_right s _) hi) (ih (by omega))

theorem max_expand_eq {s : ℕ} {ms : MatchState} (h : Inside src s ms.capture) :
    max_expand src pat p ep rest s ms = follow ms (StrLib.max_expand src
      (StrLib.singlematch src (pat.drop p) (pat.drop ep)) (rest' ms.matchdepth) s ms.capture) := by
  have hcount (single : ℕ → Bool) (k s : ℕ) : StrLib.countMatches single k s ≤ k := by
    induction k generalizing s with
    | zero => exact le_rfl
    | succ k ih =>
      rw [StrLib.countMatches]
      split_ifs
      · exact Nat.succ_le_succ (ih _)
      · exact Nat.zero_le _
  rw [max_expand, countMatches_eq hep hlt, ok_bind, StrLib.max_expand, Nat.zero_add, Nat.add_zero]
  refine shrink_eq hrest h ?_
  have := hcount (StrLib.singlematch src (pat.drop p) (pat.drop ep)) (src.length - s) s
  have := h.offset
  omega

theorem min_expand_eq {s : ℕ} {ms : MatchState} (h : Inside src s ms.capture) :
    min_expand src pat p ep rest s ms = follow ms (StrLib.min_expand src
      (StrLib.singlematch src (pat.drop p) (pat.drop ep)) (rest' ms.matchdepth) s ms.capture) := by
  rw [StrLib.min_expand]
  induction hn : src.length - s using Nat.strong_induction_on generalizing s with
  | _ n ih =>
    have hsingle := @singlematch_eq src _ _ _ hep hlt s
    rw [min_expand, hrest.eq s ms h]
    cases hres : rest' ms.matchdepth s ms.capture with
    | error e =>
      cases n with
      | zero => rw [minLoop, hres]; rfl
      | succ k => rw [minLoop, hres]; rfl
    | ok q =>
      obtain ⟨_ | e, c⟩ := q
      · obtain rfl := hrest.undo _ _ _ _ hres
        dsimp only [follow]
        split
        · rename_i e he
          cases he.symm.trans hsingle
        · rename_i htrue
          have hgo := Except.ok.inj (hsingle.symm.trans htrue)
          have hs := singlematch_lt src pat htrue
          obtain ⟨k, rfl⟩ : ∃ k, n = k + 1 := ⟨n - 1, by omega⟩
          rw [ih k (Nat.lt_succ_self k) (h.mono (Nat.le_succ s) hs) (by omega), minLoop, hres]
          exact (congrArg (follow ms) (if_pos hgo)).symm
        · rename_i hfalse
          have hstop := Except.ok.inj (hsingle.symm.trans hfalse)
          cases n with
          | zero => rw [minLoop, hres]
          | succ k =>
            rw [minLoop, hres]
            dsimp only [bind, Except.bind]
            rw [hstop]
            rfl
      · cases n with
        | zero => rw [minLoop, hres]; rfl
        | succ k => rw [minLoop, hres]; rfl

end Repeat

section Captures

variable {rest : Matcher} {rest' : ℕ → StrLib.Matcher} (hrest : Follows src rest rest')
include hrest

theorem start_capture_eq {what : CaptureLen} (hwhat : ∀ n, what ≠ .len n) {s : ℕ} {ms : MatchState}
    (h : Inside src s ms.capture) :
    start_capture rest what s ms =
      follow ms (StrLib.start_capture (rest' ms.matchdepth) what s ms.capture) := by
  have hinside : Inside src s (ms.capture ++ [⟨s, what⟩]) := by
    refine ⟨h.offset, fun c hc => ?_, fun c hc n hn => ?_⟩
    · rcases List.mem_append.1 hc with hc | hc
      · exact h.starts c hc
      · rw [List.mem_singleton.1 hc]
    · rcases List.mem_append.1 hc with hc | hc
      · exact h.ends c hc n hn
      · rw [List.mem_singleton.1 hc] at hn
        exact absurd hn (hwhat n)
  rw [start_capture, StrLib.start_capture]
  by_cases hmany : LUA_MAXCAPTURES ≤ ms.capture.length
  · rw [if_pos hmany, if_pos hmany]
    rfl
  · rw [if_neg hmany, if_neg hmany, hrest.eq s ⟨ms.matchdepth, _⟩ hinside]
    dsimp only [bind, Except.bind, pure, Except.pure]
    cases rest' ms.matchdepth s (ms.capture ++ [⟨s, what⟩]) with
    | error e => rfl
    | ok q =>
      obtain ⟨_ | e, c⟩ := q
      · rfl
      · rfl

theorem end_capture_eq {s : ℕ} {ms : MatchState} (h : Inside src s ms.capture) :
    end_capture rest s ms =
      follow ms (StrLib.end_capture (rest' ms.matchdepth) s ms.capture) := by
  rw [end_capture, StrLib.end_capture]
  cases hl : capture_to_close ms.capture with
  | error e => rfl
  | ok l =>
    have hinside : Inside src s
        (ms.capture.modify l fun c => { c with len := .len (s - c.init) }) := by
      have hmem {c : Capture}
          (hc : c ∈ ms.capture.modify l fun c => { c with len := .len (s - c.init) }) :
          c ∈ ms.capture ∨ ∃ c' ∈ ms.capture, c = { c' with len := .len (s - c'.init) } := by
        obtain ⟨i, hi⟩ := List.mem_iff_getElem?.1 hc
        rw [List.getElem?_modify] at hi
        obtain ⟨c', hc', heq⟩ := Option.map_eq_some_iff.1 hi
        have hmem := List.mem_of_getElem? hc'
        split_ifs at heq
        · exact .inr ⟨c', hmem, heq.symm⟩
        · exact .inl (heq ▸ hmem)
      refine ⟨h.offset, fun c hc => ?_, fun c hc n hn => ?_⟩
      · rcases hmem hc with hc | ⟨c', hc', rfl⟩
        · exact h.starts c hc
        · exact h.starts c' hc'
      · rcases hmem hc with hc | ⟨c', hc', rfl⟩
        · exact h.ends c hc n hn
        · have := h.starts c' hc'
          have := h.offset
          cases hn
          dsimp only
          omega
    have hcalled := hrest.eq s
      ⟨ms.matchdepth, ms.capture.modify l fun c => { c with len := .len (s - c.init) }⟩ hinside
    rw [lift, ok_bind, hcalled]
    dsimp only [bind, Except.bind, pure, Except.pure]
    cases rest' ms.matchdepth s
      (ms.capture.modify l fun c => { c with len := .len (s - c.init) }) with
    | error e => rfl
    | ok q =>
      obtain ⟨_ | e, c⟩ := q
      · rfl
      · rfl

end Captures

theorem match_suffix_eq {p ep : ℕ} (hep : ep ≤ pat.length) (hlt : p < ep)
    {call skip next : Matcher} {call' skip' next' : ℕ → StrLib.Matcher}
    (hcall : ep < pat.length → Follows src call call')
    (hskip : ep < pat.length → Follows src skip skip') (hnext : Follows src next next') {s : ℕ}
    {ms : MatchState} (h : Inside src s ms.capture) :
    match_suffix src pat p ep call skip next s ms =
      follow ms (StrLib.match_suffix StrLib.is_literal_word_hyphen src (pat.drop p) (pat.drop ep)
        (call' ms.matchdepth) (skip' ms.matchdepth) (next' ms.matchdepth) s ms.capture) := by
  have hhyphen : wordHyphen pat p ep (peek (pat.drop ep)) =
      .ok (decide (peek (pat.drop ep) = chr '-') &&
        StrLib.is_literal_word_hyphen (pat.drop p) (pat.drop ep)) := by
    rw [wordHyphen]
    by_cases hdash : peek (pat.drop ep) = chr '-'
    · rw [if_pos hdash, is_literal_word_hyphen_eq hep, decide_eq_true hdash, Bool.true_and]
    · rw [if_neg hdash, decide_eq_false hdash, Bool.false_and]
  rw [match_suffix, singlematch_eq hep hlt, ok_bind, byteAt_eq hep, ok_bind, hhyphen, ok_bind,
    StrLib.match_suffix]
  -- There is a suffix only before the end.
  have hroom {c : UInt8} (hc : peek (pat.drop ep) = c) (hne : c ≠ 0) : ep < pat.length :=
    lt_of_peek_ne_zero hc hne
  cases hsingle : StrLib.singlematch src (pat.drop p) (pat.drop ep) s with
  | false =>
    rw [if_pos Bool.not_false, if_pos Bool.not_false]
    by_cases hempty : peek (pat.drop ep) = chr '*' ∨ peek (pat.drop ep) = chr '?' ∨
        peek (pat.drop ep) = chr '-' ∧
          (!StrLib.is_literal_word_hyphen (pat.drop p) (pat.drop ep)) = true
    · have hempty' : peek (pat.drop ep) = chr '*' ∨ peek (pat.drop ep) = chr '?' ∨
          peek (pat.drop ep) = chr '-' ∧ (!(decide (peek (pat.drop ep) = chr '-') &&
            StrLib.is_literal_word_hyphen (pat.drop p) (pat.drop ep))) = true := by
        refine hempty.imp_right (Or.imp_right fun h => ⟨h.1, ?_⟩)
        rw [decide_eq_true h.1, Bool.true_and]
        exact h.2
      have hlt : ep < pat.length := by
        rcases hempty with h | h | h
        · exact hroom h (by decide)
        · exact hroom h (by decide)
        · exact hroom h.1 (by decide)
      rw [if_pos hempty, if_pos hempty']
      exact (hskip hlt).eq s ms h
    · have hempty' : ¬ (peek (pat.drop ep) = chr '*' ∨ peek (pat.drop ep) = chr '?' ∨
          peek (pat.drop ep) = chr '-' ∧ (!(decide (peek (pat.drop ep) = chr '-') &&
            StrLib.is_literal_word_hyphen (pat.drop p) (pat.drop ep))) = true) := by
        refine fun hnot => hempty (hnot.imp_right (Or.imp_right fun h => ⟨h.1, ?_⟩))
        have := h.2
        rwa [decide_eq_true h.1, Bool.true_and] at this
      rw [if_neg hempty, if_neg hempty']
      rfl
  | true =>
    have hs : s < src.length := singlematch_lt src pat ((singlematch_eq hep hlt s).trans
      (congrArg Except.ok hsingle))
    have hinside := h.mono (Nat.le_succ s) hs
    rw [if_neg (show ¬ (!true) = true by decide), if_neg (show ¬ (!true) = true by decide)]
    by_cases hoptional : peek (pat.drop ep) = chr '?'
    · rw [if_pos hoptional, if_pos hoptional]
      have hlt := hroom hoptional (by decide)
      exact (hcall hlt).orElse hinside ((hskip hlt).eq s ms h)
    rw [if_neg hoptional, if_neg hoptional]
    by_cases hplus : peek (pat.drop ep) = chr '+'
    · rw [if_pos hplus, if_pos hplus]
      exact max_expand_eq hep hlt (hcall (hroom hplus (by decide))) hinside
    rw [if_neg hplus, if_neg hplus]
    by_cases hstar : peek (pat.drop ep) = chr '*'
    · rw [if_pos hstar, if_pos hstar]
      exact max_expand_eq hep hlt (hcall (hroom hstar (by decide))) h
    rw [if_neg hstar, if_neg hstar]
    by_cases hdash : peek (pat.drop ep) = chr '-'
    · rw [if_pos hdash, if_pos hdash, decide_eq_true hdash, Bool.true_and]
      cases StrLib.is_literal_word_hyphen (pat.drop p) (pat.drop ep) with
      | true => exact hnext.eq (s + 1) ms hinside
      | false => exact min_expand_eq hep hlt (hcall (hroom hdash (by decide))) h
    · rw [if_neg hdash, if_neg hdash]
      exact hnext.eq (s + 1) ms hinside

section Items

variable {p : ℕ} {call next : ℕ → Matcher} {call' next' : Bytes → ℕ → StrLib.Matcher}
  (hp : p < pat.length)
  (hcall : ∀ q, p < q → q ≤ pat.length → Follows src (call q) (call' (pat.drop q)))
  (hnext : ∀ q, p < q → q ≤ pat.length → Follows src (next q) (next' (pat.drop q)))
include hp hcall hnext

theorem match_single_eq {q : Bytes} (hq : pat.drop p = q) (hne : q ≠ []) {s : ℕ} {ms : MatchState}
    (h : Inside src s ms.capture) :
    match_single src pat p (fun q _ => call q) (fun q _ => next q) s ms =
      follow ms (StrLib.match_single StrLib.is_literal_word_hyphen src q hne
        (fun q _ => call' q ms.matchdepth) (fun q _ => next' q ms.matchdepth) s ms.capture) := by
  subst hq
  have hscan := classend_scans hp
  rw [match_single]
  cases hend : StrLib.classend (pat.drop p) with
  | error e =>
    rw [hend] at hscan
    split
    · rename_i e' he
      obtain rfl := Except.error.inj (he.symm.trans hscan)
      rw [match_single_error hend]
      rfl
    · rename_i k hk
      cases hk.symm.trans hscan
  | ok ep =>
    rw [hend] at hscan
    obtain ⟨k, hk, hlt, hle, rfl⟩ := hscan
    split
    · rename_i e' he
      cases he.symm.trans hk
    · rename_i k' hk'
      obtain rfl := Except.ok.inj (hk.symm.trans hk')
      have hlen : (pat.drop k).length < (pat.drop p).length := by
        rw [List.length_drop, List.length_drop]
        omega
      rw [match_single_ok hend hlen (by rw [List.length_tail]; omega), List.tail_drop]
      exact match_suffix_eq hle hlt (hcall (k + 1) (Nat.lt_succ_of_lt hlt))
        (hnext (k + 1) (Nat.lt_succ_of_lt hlt)) (hnext k hlt hle) h

/-- An item after the escape character. -/
theorem match_escape_eq {r : Bytes} (hr : pat.drop p = L_ESC :: r) {s : ℕ} {ms : MatchState}
    (h : Inside src s ms.capture) :
    match_escape src pat p (fun q _ => call q) (fun q _ => next q) s ms =
      follow ms (StrLib.match_escape StrLib.is_literal_word_hyphen src L_ESC r
        (fun q _ => call' q ms.matchdepth) (fun q _ => next' q ms.matchdepth) s ms.capture) := by
  obtain ⟨-, hrest, -⟩ := drop_eq_cons hr
  have hsingle := match_single_eq hp hcall hnext hr (List.cons_ne_nil _ _) h
  rw [match_escape, byteAt_eq hp, ok_bind, StrLib.match_escape, ← hrest]
  by_cases hb : peek r = chr 'b'
  · rw [if_pos hb, if_pos hb]
    rw [hrest] at hb ⊢
    have hlt := lt_of_peek_ne_zero hb (by decide)
    rw [matchbalance_eq h.offset, List.tail_drop]
    cases hbal : StrLib.matchbalance src s (pat.drop (p + 2)) with
    | error e => rfl
    | ok res =>
      rw [lift, ok_bind]
      cases res with
      | none => rfl
      | some k =>
        obtain ⟨hlen, hle, hk⟩ := matchbalance_bounds h.offset hbal
        rw [List.length_drop] at hlen
        have heq := (hnext (p + 4) (by omega) (by omega)).eq k ms (h.mono hle hk)
        rw [show pat.drop (p + 4) = (pat.drop (p + 1)).drop 3 by rw [List.drop_drop]] at heq
        exact heq
  rw [if_neg hb, if_neg hb]
  by_cases hf : peek r = chr 'f'
  · rw [if_pos hf, if_pos hf]
    have hlt : p + 1 < pat.length := by
      rw [hrest] at hf
      exact lt_of_peek_ne_zero hf (by decide)
    have htail : r.tail = pat.drop (p + 2) := by rw [hrest, List.tail_drop]
    rw [byteAt_eq hlt, ok_bind]
    by_cases hset : peek (pat.drop (p + 2)) = chr '['
    · rw [if_pos hset, dif_pos (by rwa [htail])]
      have hlt' := lt_of_peek_ne_zero hset (by decide)
      have hscan := classend_scans hlt'
      rw [← htail] at hscan
      cases hend : StrLib.classend r.tail with
      | error e =>
        rw [hend] at hscan
        split
        · rename_i e' he
          obtain rfl := Except.error.inj (he.symm.trans hscan)
          split
          · rename_i e'' he'
            obtain rfl := Except.error.inj he'
            rfl
          · rename_i ep he'
            cases he'
        · rename_i k hk
          cases hk.symm.trans hscan
      | ok ep =>
        rw [hend] at hscan
        obtain ⟨k, hk, hkp, hle, rfl⟩ := hscan
        have hlen : (pat.drop k).length + 1 = pat.length - (k - 1) := by
          rw [List.length_drop]
          omega
        split
        · rename_i e' he
          cases he.symm.trans hk
        · rename_i k' hk'
          obtain rfl := Except.ok.inj (hk.symm.trans hk')
          split
          · rename_i e'' he'
            cases he'
          · rename_i ep he'
            obtain rfl := Except.ok.inj he'
            have heq := (hnext k (by omega) hle).eq s ms h
            rw [previous_eq h.offset, ok_bind, matchbracketclass_eq _ (by omega) hlt', ok_bind,
              byteAt_eq h.offset, ok_bind, matchbracketclass_eq _ (by omega) hlt', ok_bind, htail,
              hlen]
            dsimp only
            generalize (if s = 0 then 0 else peek (src.drop (s - 1))) = before
            split_ifs
            · exact heq
            · rfl
    · rw [if_neg hset, dif_neg (by rwa [htail])]
      rfl
  rw [if_neg hf, if_neg hf]
  by_cases hdigit : isdigit (peek r) = true
  · rw [if_pos hdigit, if_pos hdigit, match_capture_eq h]
    have hlt : p + 1 < pat.length := by
      rw [hrest] at hdigit
      exact lt_of_peek_ne_zero rfl fun hzero => by rw [hzero] at hdigit; cases hdigit
    cases hback : StrLib.match_capture src ms.capture s (peek r) with
    | error e => rfl
    | ok res =>
      rw [lift, ok_bind]
      cases res with
      | none => rfl
      | some k =>
        obtain ⟨hle, hk⟩ := match_capture_bounds h.offset hback
        have heq := (hnext (p + 2) (by omega) hlt).eq k ms (h.mono hle hk)
        rw [hrest, List.tail_drop]
        exact heq
  · rw [if_neg hdigit, if_neg hdigit]
    exact hsingle

theorem match_item_eq {c : UInt8} {r : Bytes} (hr : pat.drop p = c :: r) {s : ℕ} {ms : MatchState}
    (h : Inside src s ms.capture) :
    match_item src pat c p (fun q _ => call q) (fun q _ => next q) s ms =
      follow ms (StrLib.match_item StrLib.is_literal_word_hyphen src c r
        (fun q _ => call' q ms.matchdepth) (fun q _ => next' q ms.matchdepth) s ms.capture) := by
  obtain ⟨-, hrest, -⟩ := drop_eq_cons hr
  rw [match_item, StrLib.match_item]
  by_cases hopen : c = chr '('
  · rw [if_pos hopen, if_pos hopen, byteAt_eq hp, ok_bind, ← hrest]
    by_cases hpos : peek r = chr ')'
    · have hlt : p + 1 < pat.length := by
        rw [hrest] at hpos
        exact lt_of_peek_ne_zero hpos (by decide)
      rw [if_pos hpos, if_pos hpos, hrest, List.tail_drop]
      exact start_capture_eq (hcall (p + 2) (by omega) hlt) (fun _ => CaptureLen.noConfusion) h
    · rw [if_neg hpos, if_neg hpos, hrest]
      exact start_capture_eq (hcall (p + 1) (by omega) hp) (fun _ => CaptureLen.noConfusion) h
  rw [if_neg hopen, if_neg hopen]
  by_cases hclose : c = chr ')'
  · rw [if_pos hclose, if_pos hclose, hrest]
    exact end_capture_eq (hcall (p + 1) (by omega) hp) h
  rw [if_neg hclose, if_neg hclose]
  have hnil : p + 1 = pat.length ↔ r = [] := by
    rw [hrest, List.drop_eq_nil_iff]
    omega
  by_cases hstop : c = chr '$' ∧ r = []
  · rw [if_pos hstop, if_pos ⟨hstop.1, hnil.2 hstop.2⟩]
    rfl
  rw [if_neg hstop, if_neg fun h => hstop ⟨h.1, hnil.1 h.2⟩]
  by_cases hesc : c = L_ESC
  · subst hesc
    rw [if_pos rfl, if_pos rfl]
    exact match_escape_eq hp hcall hnext hr h
  · rw [if_neg hesc, if_neg hesc]
    exact match_single_eq hp hcall hnext hr (List.cons_ne_nil _ _) h

end Items

theorem Follows.within {init : Matcher} {init' : ℕ → StrLib.Matcher} (h : Follows src init init') :
    Follows src (within init) (StrLib.within init') where
  eq s ms hs := by
    rw [Pointers.within, StrLib.within]
    by_cases hdepth : ms.matchdepth = 0
    · rw [if_pos hdepth, if_pos hdepth]
      rfl
    · rw [if_neg hdepth, if_neg hdepth, h.eq s ⟨ms.matchdepth - 1, ms.capture⟩ hs]
      cases init' (ms.matchdepth - 1) s ms.capture with
      | error e => rfl
      | ok q =>
        -- What was taken at the call is given back.
        rw [show ms = ⟨ms.matchdepth - 1 + 1, ms.capture⟩ by
          rw [Nat.sub_add_cancel (Nat.pos_of_ne_zero hdepth)]]
        rfl
  undo depth s capture c hres := by
    unfold StrLib.within at hres
    split_ifs at hres
    exact h.undo _ _ _ _ hres

theorem init_of_byteAt {p : ℕ} {c : UInt8} (hp : p ≠ pat.length) (hc : byteAt pat p = .ok c) :
    init src pat p = match_item src pat c p (fun q _ => within (init src pat q))
      fun q _ => init src pat q := by
  rw [init, dif_neg hp]
  split
  · rename_i e he
    cases he.symm.trans hc
  · rename_i c' hc'
    obtain rfl := Except.ok.inj (hc.symm.trans hc')
    rfl

/-- **The matcher with its pointers** does what the one without them does. -/
theorem init_follows {p : ℕ} (hp : p ≤ pat.length) : Follows src (init src pat p) fun depth =>
    StrLib.init StrLib.is_literal_word_hyphen src depth (pat.drop p) := by
  induction hn : pat.length - p using Nat.strong_induction_on generalizing p with
  | _ n ih =>
    subst hn
    refine ⟨fun s ms h => ?_, fun depth s capture c hres => ?_⟩
    · by_cases hend : p = pat.length
      · rw [init, dif_pos hend, hend, List.drop_length, init_nil]
        rfl
      · have hlt := Nat.lt_of_le_of_ne hp hend
        obtain ⟨c, r, hr⟩ : ∃ c r, pat.drop p = c :: r := ⟨_, _, List.drop_eq_getElem_cons hlt⟩
        obtain ⟨-, -, hc⟩ := drop_eq_cons hr
        rw [init_of_byteAt hend hc, hr, init_cons]
        refine @match_item_eq _ _ _ (fun q => within (init src pat q)) (init src pat)
          (fun q depth => StrLib.do_match StrLib.is_literal_word_hyphen src depth q)
          (fun q depth => StrLib.init StrLib.is_literal_word_hyphen src depth q)
          hlt ?_ ?_ _ _ hr _ _ h
        · exact fun q hq hle => (ih _ (by omega) hle rfl).within
        · exact fun q hq hle => ih _ (by omega) hle rfl
    · exact (eq_nil_of_first (@init_first _ (fun _ => []) depth (pat.drop p) _ _ _ hres)).2

/-! ### Malformed patterns -/

/-- The outcomes of the items before a malformed one. -/
def reached (src : Bytes) (items : List Item) (o : Outcome) : List Outcome :=
  outcomesWith src (fun o => [o]) items o

theorem outcomes_malformed {items : List Item} (h : .malformed ∈ items) (o : Outcome) :
    outcomes src items o = [] := by
  induction items generalizing o with
  | nil => cases h
  | cons i items ih =>
    by_cases hi : i = .malformed
    · rw [hi]
      rfl
    · rw [outcomes_cons src hi, List.flatMap_eq_nil_iff]
      intro o _
      exact ih ((List.mem_cons.1 h).resolve_left fun h => hi h.symm) o

/-- A pattern that is malformed does not match, and it is an error to get to what is malformed. -/
theorem do_match_malformed {q : Bytes} (h : .malformed ∈ parse q) {depth s : ℕ}
    {capture : List Capture} {r : Option ℕ × List Capture}
    (hr : StrLib.do_match StrLib.is_literal_word_hyphen src depth q s capture = .ok r) :
    r.1 = none ∧ reached src (parse q) (s, capture) = [] := by
  have hfirst := do_match_first depth q _ _ _ hr
  rw [outcomes_malformed h] at hfirst
  subst hfirst
  exact ⟨rfl, (eq_nil_of_first (@do_match_computes _ (fun o => [o]) depth q _ _ _ hr)).1⟩

/-- **The matcher stays in its strings**: it reads no byte outside of the pattern and the subject, with
the zeros after them, and gives back what it takes of `matchdepth`.  A pattern with a malformed item
does not match, and if the matcher gets to that item, it is an error. -/
theorem match_in_bounds {s p : ℕ} {ms : MatchState} (hp : p ≤ pat.length)
    (hs : Inside src s ms.capture) :
    do_match src pat p s ms ≠ .error .fault ∧
    (∀ res ms', do_match src pat p s ms = .ok (res, ms') → ms'.matchdepth = ms.matchdepth) ∧
    (.malformed ∈ parse (pat.drop p) →
      (∀ res ms', do_match src pat p s ms = .ok (res, ms') → res = none) ∧
      (reached src (parse (pat.drop p)) (s, ms.capture) ≠ [] →
        ∃ e, do_match src pat p s ms = .error (.error e))) := by
  have hfollow := (init_follows hp).within.eq s ms hs
  rw [← do_match] at hfollow
  rw [hfollow]
  cases hres : StrLib.within (fun depth => StrLib.init StrLib.is_literal_word_hyphen src depth
    (pat.drop p)) ms.matchdepth s ms.capture with
  | error e =>
    refine ⟨fun h => ?_, fun res ms' h => ?_, fun _ => ⟨fun res ms' h => ?_, fun _ => ⟨e, rfl⟩⟩⟩
    all_goals cases h
  | ok r =>
    obtain ⟨res, capture⟩ := r
    refine ⟨fun h => (by cases h), fun res' ms' h => ?_, fun hbad => ?_⟩
    · obtain ⟨rfl, rfl⟩ := Prod.mk.inj (Except.ok.inj h)
      rfl
    · obtain ⟨hnone, hreached⟩ := do_match_malformed hbad hres
      refine ⟨fun res' ms' h => ?_, fun h => absurd hreached h⟩
      obtain ⟨rfl, rfl⟩ := Prod.mk.inj (Except.ok.inj h)
      exact hnone

theorem inside_nil {s : ℕ} (hs : s ≤ src.length) : Inside src s [] :=
  ⟨hs, fun _ h => (List.not_mem_nil h).elim, fun _ h => (List.not_mem_nil h).elim⟩

/-- A pattern that ends with `%`. -/
theorem parse_escape : parse [chr 'a', L_ESC] = [.single (.char (chr 'a')) .one, .malformed] := by
  have hescape : parse [L_ESC] = [.malformed] := by
    rw [parse]
    split
    · rename_i i q h
      cases h
    · rfl
  rw [parse]
  split
  · rename_i i q h
    obtain ⟨rfl, rfl⟩ := Prod.mk.inj (Option.some.inj h)
    exact congrArg _ hescape
  · rename_i h
    cases h

/-- The matcher does not get to what is malformed. -/
theorem malformed_unreached : .malformed ∈ parse [chr 'a', L_ESC] ∧
    do_match [chr 'b'] [chr 'a', L_ESC] 0 0 ⟨LUAI_MAXCCALLS, []⟩ =
      .ok (none, ⟨LUAI_MAXCCALLS, []⟩) := by
  refine ⟨by rw [parse_escape]; simp, ?_⟩
  have hfollow := (@init_follows [chr 'b'] [chr 'a', L_ESC] _ (Nat.zero_le _)).within.eq
    0 ⟨LUAI_MAXCCALLS, []⟩ (inside_nil (Nat.zero_le _))
  rw [← do_match] at hfollow
  have hplain := @match_item_plain StrLib.is_literal_word_hyphen [chr 'b'] (chr 'a') [L_ESC]
    (.inl (by decide)) (by decide) fun h => absurd h (by decide)
  rw [hfollow, StrLib.within, if_neg (by decide)]
  dsimp only
  rw [List.drop_zero, init_cons, hplain, if_neg (by decide)]
  rfl

theorem match_in_bounds_escape :
    do_match [chr 'a'] [chr 'a', L_ESC] 0 0 ⟨LUAI_MAXCCALLS, []⟩ ≠ .error .fault ∧
    (∀ res ms', do_match [chr 'a'] [chr 'a', L_ESC] 0 0 ⟨LUAI_MAXCCALLS, []⟩ = .ok (res, ms') →
      ms'.matchdepth = LUAI_MAXCCALLS) ∧
    (.malformed ∈ parse [chr 'a', L_ESC] →
      (∀ res ms', do_match [chr 'a'] [chr 'a', L_ESC] 0 0 ⟨LUAI_MAXCCALLS, []⟩ = .ok (res, ms') →
        res = none) ∧
      (reached [chr 'a'] (parse [chr 'a', L_ESC]) (0, []) ≠ [] →
        ∃ e, do_match [chr 'a'] [chr 'a', L_ESC] 0 0 ⟨LUAI_MAXCCALLS, []⟩ = .error (.error e))) :=
  match_in_bounds (Nat.zero_le _) (inside_nil (Nat.zero_le _))

end Pointers

end StrLib

end Jaci
