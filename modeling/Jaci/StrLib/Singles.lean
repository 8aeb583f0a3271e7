import Jaci.StrLib.Hyphens
import Jaci.StrLib.Outcomes

/-!
# What matches one character

* `bracketLoop_append` : the loop over a set looks for its parts;
* `parseSingle_classend` : `classend` and `singlematch` read what matches one character;
* `is_literal_word_hyphen_inWord` : the hyphens in words.
-/

namespace Jaci

namespace StrLib

open Wire

/-! ### Sets -/

theorem bracketLoop_stop (c : UInt8) (sig : Bool) (ep : Bytes) {ec : ℕ} (h : ep.length ≤ ec) :
    bracketLoop c sig ec ep = !sig := by
  cases ep with
  | nil => rw [bracketLoop]
  | cons q p => rw [bracketLoop, if_pos (by rwa [List.length_cons] at h)]

/-- The loop over a set looks for its parts. -/
theorem bracketLoop_append (c : UInt8) (sig : Bool) (body ep : Bytes) :
    bracketLoop c sig (ep.length + 1) (body ++ chr ']' :: ep) =
      if (setItems body).any (·.has c) then sig else !sig := by
  have hlong (p : Bytes) : ¬ (p ++ chr ']' :: ep).length < ep.length + 1 := by
    rw [List.length_append, List.length_cons]
    omega
  have hsplit (b : Bool) (x : Bool) : (if (b || x) = true then sig else !sig) =
      if b then sig else if x then sig else !sig := by cases b <;> rfl
  fun_induction setItems body with
  | case1 => exact bracketLoop_stop c sig _ le_rfl
  | case2 p ih =>
    rw [List.cons_append, bracketLoop, if_neg (hlong p), if_pos rfl, List.any_cons, SetItem.has,
      hsplit]
    cases p with
    | nil =>
      -- The bracket itself is the escaped character.
      rw [List.nil_append, List.tail_cons, bracketLoop_stop c sig ep (Nat.le_succ _)]
      rw [List.tail_nil, setItems]
      rfl
    | cons cl p => exact if_congr Iff.rfl rfl ih
  | case3 q hq hi rest ih =>
    have hroom : ep.length + 1 + 1 < (chr '-' :: hi :: rest ++ chr ']' :: ep).length := by
      simp only [List.length_append, List.length_cons]
      omega
    rw [List.cons_append, bracketLoop, if_neg (hlong _), if_neg hq, if_pos ⟨rfl, hroom⟩,
      List.any_cons, SetItem.has, hsplit]
    refine if_congr ?_ rfl ih
    simp [peek]
  | case4 q hq d hi rest hd ih =>
    rw [List.cons_append, bracketLoop, if_neg (hlong _), if_neg hq, if_neg fun h => hd h.1, ih,
      List.any_cons, SetItem.has, hsplit]
    exact if_congr beq_iff_eq.symm rfl rfl
  | case5 q hq p hp ih =>
    have hrange : ¬ (peek (p ++ chr ']' :: ep) = chr '-' ∧
        ep.length + 1 + 1 < (p ++ chr ']' :: ep).length) := by
      rintro ⟨hd, hroom⟩
      match p with
      | [] => exact absurd (show chr ']' = chr '-' from hd) (by decide)
      | [d] => simp at hroom
      | d :: hi :: rest => exact hp d hi rest rfl
    rw [List.cons_append, bracketLoop, if_neg (hlong _), if_neg hq, if_neg hrange, ih,
      List.any_cons, SetItem.has, hsplit]
    exact if_congr beq_iff_eq.symm rfl rfl

/-- The end of a set is where the set ends. -/
theorem parseSet_setend (p : Bytes) :
    match parseSet p with
    | some (body, ep) => setend p = .ok ep ∧ p = body ++ chr ']' :: ep
    | none => ∃ e, setend p = .error e := by
  have hhead {p : Bytes} (h : peek p = chr ']') : p = chr ']' :: p.tail := by
    cases p with
    | nil => exact absurd h (by decide)
    | cons c p => exact congrArg (· :: p) h
  fun_induction parseSet p with
  | case1 => exact ⟨_, rfl⟩
  | case2 c =>
    by_cases hc : c = L_ESC
    · exact ⟨_, by rw [setend, if_pos hc]⟩
    · exact ⟨_, by rw [setend, if_neg hc, if_neg (by decide), setend]⟩
  | case3 d p hp =>
    refine ⟨by rw [setend, if_pos rfl]; exact if_pos hp, ?_⟩
    rw [List.cons_append, List.cons_append, List.nil_append, ← hhead hp]
  | case4 d p hp ih =>
    have hset : setend (L_ESC :: d :: p) = setend p := by
      rw [setend, if_pos rfl]
      exact if_neg hp
    rw [hset]
    cases hrest : parseSet p with
    | none =>
      rw [hrest] at ih
      exact ih
    | some r =>
      obtain ⟨body, ep⟩ := r
      rw [hrest] at ih
      exact ⟨ih.1, congrArg (L_ESC :: d :: ·) ih.2⟩
  | case5 c p hc => exact ⟨by rw [setend, if_neg hc]; exact if_pos rfl, rfl⟩
  | case6 c d p hc hd ih =>
    have hset : setend (c :: d :: p) = setend (d :: p) := by
      conv_lhs => rw [setend, if_neg hc, if_neg (show peek (d :: p) ≠ chr ']' from hd)]
    rw [hset]
    cases hrest : parseSet (d :: p) with
    | none =>
      rw [hrest] at ih
      exact ih
    | some r =>
      obtain ⟨body, ep⟩ := r
      rw [hrest] at ih
      exact ⟨ih.1, congrArg (c :: ·) ih.2⟩

/-! ### Single characters -/

variable {src : Bytes}

theorem peek_drop {s : ℕ} {c : UInt8} (h : src[s]? = some c) : peek (src.drop s) = c := by
  rw [peek, List.headD_eq_head?_getD, List.head?_drop, h]
  rfl

theorem matchbracketclass_set {q body ep : Bytes} (c : UInt8)
    (hq : (if peek q = chr '^' then q.tail else q) = body ++ chr ']' :: ep) :
    matchbracketclass c (chr '[' :: q) (ep.length + 1) =
      (Single.set (peek q = chr '^') (setItems body)).has c := by
  rw [matchbracketclass, List.tail_cons, Single.has]
  by_cases hneg : peek q = chr '^'
  · rw [if_pos hneg] at hq ⊢
    rw [decide_eq_true hneg, hq, bracketLoop_append]
    cases (setItems body).any (·.has c) <;> rfl
  · rw [if_neg hneg] at hq ⊢
    rw [decide_eq_false hneg, hq, bracketLoop_append]
    cases (setItems body).any (·.has c) <;> rfl

/-- An item ends where what matches one character does, and it matches the characters it has. -/
theorem parseSingle_classend {p : Bytes} (hp : p ≠ []) :
    match parseSingle p with
    | some (x, ep) => classend p = .ok ep ∧
        ∀ (src : Bytes) (s : ℕ), singlematch src p ep s = (src[s]?).any x.has
    | none => ∃ e, classend p = .error e := by
  obtain ⟨c, p, rfl⟩ := List.exists_cons_of_ne_nil hp
  -- At the end of the subject nothing matches; before it, the character is what `peek` reads.
  have hat {x : Single} {ep : Bytes} (h : ∀ (src : Bytes) (s : ℕ) (d : UInt8), s < src.length →
      peek (src.drop s) = d → singlematch src (c :: p) ep s = x.has d) (src : Bytes) (s : ℕ) :
      singlematch src (c :: p) ep s = (src[s]?).any x.has := by
    cases hd : src[s]? with
    | none => rw [singlematch, if_pos (List.getElem?_eq_none_iff.1 hd)]; rfl
    | some d => exact h src s d (List.getElem?_eq_some_iff.1 hd).1 (peek_drop hd)
  by_cases hesc : c = L_ESC
  · subst hesc
    cases p with
    | nil => exact ⟨_, rfl⟩
    | cons cl p =>
      refine ⟨rfl, hat fun src s d hs hd => ?_⟩
      rw [singlematch, if_neg (Nat.not_le.2 hs), hd]
      rfl
  · by_cases hset : c = chr '['
    · subst hset
      have hparse := parseSet_setend (if peek p = chr '^' then p.tail else p)
      have hsingle : parseSingle (chr '[' :: p) =
          (parseSet (if peek p = chr '^' then p.tail else p)).map fun r =>
            (.set (peek p = chr '^') (setItems r.1), r.2) := rfl
      have hend : classend (chr '[' :: p) = setend (if peek p = chr '^' then p.tail else p) := rfl
      rw [hsingle, hend]
      cases hbody : parseSet (if peek p = chr '^' then p.tail else p) with
      | none =>
        rw [hbody] at hparse
        exact hparse
      | some r =>
        obtain ⟨body, ep⟩ := r
        rw [hbody] at hparse
        refine ⟨hparse.1, hat fun src s d hs hd => ?_⟩
        rw [singlematch, if_neg (Nat.not_le.2 hs), hd]
        exact matchbracketclass_set d hparse.2
    · have hend : classend (c :: p) = .ok p := by
        simp only [classend, if_neg hesc, if_neg hset]
      by_cases hany : c = chr '.'
      · subst hany
        refine ⟨hend, hat fun src s d hs hd => ?_⟩
        rw [singlematch, if_neg (Nat.not_le.2 hs)]
        rfl
      · have hsingle : parseSingle (c :: p) = some (.char c, p) := by
          simp only [parseSingle, if_neg hesc, if_neg hset, if_neg hany]
        rw [hsingle]
        refine ⟨hend, hat fun src s d hs hd => ?_⟩
        rw [singlematch, if_neg (Nat.not_le.2 hs), if_neg (show peek (c :: p) ≠ _ from hany),
          if_neg (show peek (c :: p) ≠ _ from hesc), if_neg (show peek (c :: p) ≠ _ from hset), hd]
        rfl

/-- The hyphens in words are those that the matcher takes literally. -/
theorem is_literal_word_hyphen_inWord {p ep : Bytes} {x : Single}
    (h : parseSingle p = some (x, chr '-' :: ep)) :
    is_literal_word_hyphen p (chr '-' :: ep) = x.inWord ep := by
  have hdash : peek (chr '-' :: ep) == chr '-' := by simp [peek]
  rw [is_literal_word_hyphen, hdash, Bool.true_and, List.tail_cons, List.length_cons]
  cases p with
  | nil => cases h
  | cons c p =>
    have hpeek : peek (c :: p) = c := rfl
    rw [hpeek]
    by_cases hc : isalnum c = true
    · -- A letter or a digit matches itself, and the hyphen is right after it.
      have hchar : parseSingle (c :: p) = some (.char c, p) := by
        simp only [parseSingle, if_neg (ne_of_isalnum hc (show isalnum L_ESC = false by decide)),
          if_neg (ne_of_isalnum hc (show isalnum (chr '[') = false by decide)),
          if_neg (ne_of_isalnum hc (show isalnum (chr '.') = false by decide))]
      obtain ⟨rfl, rfl⟩ := Prod.mk.inj (Option.some.inj (hchar.symm.trans h))
      cases ep with
      | nil => simp [Single.inWord]
      | cons d ep => simp [Single.inWord, peek]
    · rw [Bool.eq_false_of_not_eq_true hc, Bool.and_false, Bool.false_and]
      cases x with
      | char d =>
        have hd : d = c := by
          simp only [parseSingle] at h
          split_ifs at h
          · split at h <;> cases h
          · obtain ⟨_, _, hpair⟩ := Option.map_eq_some_iff.1 h
            cases hpair
          · obtain ⟨_, _, hpair⟩ := Option.map_eq_some_iff.1 h
            cases hpair
          · cases h
          · exact (Single.char.inj (Prod.mk.inj (Option.some.inj h)).1).symm
        subst hd
        cases ep with
        | nil => rfl
        | cons e ep => simp [Single.inWord, hc]
      | _ => rfl

end StrLib

end Jaci
