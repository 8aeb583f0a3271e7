import Jaci.StrLib.Backtrack

/-!
# A search finds the leftmost match

* `Leftmost`, `Nowhere` : what a search finds;
* `match_leftmost` : the matcher returns the first outcome, and a search finds the leftmost one.
-/

namespace Jaci

namespace StrLib

open Wire

variable {src p : Bytes}

/-- A search from `start` on finds a match at `i` that ends at `e`. -/
structure Leftmost (o : ℕ → List Outcome) (anchor : Bool) (start stop i e : ℕ)
    (capture : List Capture) : Prop where
  ge : start ≤ i
  le : i ≤ stop
  anchored : anchor = true → i = start
  first : (o i).head? = some (e, capture)
  leftmost : ∀ j, start ≤ j → j < i → o j = []

def Nowhere (o : ℕ → List Outcome) (anchor : Bool) (start stop : ℕ) : Prop :=
  ∀ j, start ≤ j → j ≤ stop → (anchor = true → j = start) → o j = []

theorem head?_of_first {capture c : List Capture} {l : List Outcome} {e : ℕ}
    (h : (some e, c) = first capture l) : l.head? = some (e, c) := by
  cases l with
  | nil => cases h
  | cons o l =>
    obtain ⟨he, rfl⟩ := Prod.mk.inj h
    obtain rfl := Option.some.inj he
    rfl

section

variable {o : ℕ → List Outcome} {anchor : Bool} {start stop i e : ℕ} {capture : List Capture}

theorem Leftmost.here (hle : start ≤ stop) (h : (o start).head? = some (e, capture)) :
    Leftmost o anchor start stop start e capture :=
  ⟨le_rfl, hle, fun _ => rfl, h, fun _ hj hlt => absurd hlt (Nat.not_lt.2 hj)⟩

theorem Leftmost.skip (hnil : o start = []) (h : Leftmost o false (start + 1) stop i e capture) :
    Leftmost o false start stop i e capture := by
  refine ⟨Nat.le_of_succ_le h.ge, h.le, fun h => (by cases h), h.first, fun j hj hlt => ?_⟩
  rcases Nat.eq_or_lt_of_le hj with rfl | hj
  · exact hnil
  · exact h.leftmost j hj hlt

theorem Nowhere.skip (hnil : o start = []) (h : Nowhere o false (start + 1) stop) :
    Nowhere o false start stop := by
  intro j hj hle _
  rcases Nat.eq_or_lt_of_le hj with rfl | hj
  · exact hnil
  · exact h j hj hle (fun h => by cases h)

theorem Nowhere.anchored (hnil : o start = []) : Nowhere o true start stop := by
  intro j _ _ hj
  rw [hj rfl]
  exact hnil

end

/-- The loop over the offsets. -/
theorem findLoop_leftmost {rest : Matcher} {o : Outcome → List Outcome} (hrest : Computes rest o)
    {anchor : Bool} {k start : ℕ} {r : Option (ℕ × ℕ × List Capture)}
    (h : findLoop rest anchor k start = .ok r) :
    match (motive := Option (ℕ × ℕ × List Capture) → Prop) r with
    | some (i, e, capture) => Leftmost (fun j => o (j, [])) anchor start (start + k) i e capture
    | none => Nowhere (fun j => o (j, [])) anchor start (start + k) := by
  induction k generalizing start with
  | zero =>
    rw [findLoop] at h
    cases hres : rest start [] with
    | error e => rw [hres] at h; cases h
    | ok q =>
      rw [hres] at h
      obtain ⟨_ | e, c⟩ := q
      · obtain rfl := Except.ok.inj h
        intro j hj hle _
        obtain rfl : j = start := by omega
        exact (eq_nil_of_first (hrest _ _ _ hres)).1
      · obtain rfl := Except.ok.inj h
        exact .here le_rfl (head?_of_first (hrest _ _ _ hres))
  | succ k ih =>
    rw [findLoop] at h
    cases hres : rest start [] with
    | error e => rw [hres] at h; cases h
    | ok q =>
      rw [hres] at h
      obtain ⟨_ | e, c⟩ := q
      · have hnil := (eq_nil_of_first (hrest _ _ _ hres)).1
        dsimp only [bind, Except.bind] at h
        cases anchor with
        | true =>
          obtain rfl := Except.ok.inj h
          exact .anchored hnil
        | false =>
          have hnext := ih h
          rw [show start + 1 + k = start + (k + 1) by omega] at hnext
          rcases r with _ | ⟨i, e, capture⟩
          · exact hnext.skip hnil
          · exact hnext.skip hnil
      · obtain rfl := Except.ok.inj h
        exact .here (Nat.le_add_right start _) (head?_of_first (hrest _ _ _ hres))

/-! ### Patterns without special characters -/

/-- One of its characters is matched once. -/
theorem step_char (c : UInt8) (s : ℕ) (capture : List Capture) :
    (Item.single (.char c) .one).step src (s, capture) =
      if src[s]? = some c then [(s + 1, capture)] else [] := by
  dsimp only [Item.step]
  cases hs : (src[s]?).any (Single.char c).has with
  | true =>
    obtain ⟨d, hd, hc⟩ := (Option.any_eq_true _ _).1 hs
    rw [reps_of_any hs, Suffix.counts, if_pos (Nat.le_add_left 1 _), if_pos (by
      rw [hd, eq_of_beq hc])]
    rfl
  | false =>
    have hne : src[s]? ≠ some c := by
      intro hd
      rw [hd, Option.any_some, Single.has, beq_self_eq_true] at hs
      cases hs
    rw [reps_of_not hs, if_neg hne]
    rfl

theorem parseItem_plain {c : UInt8} (h : nospecials (c :: p) = true) (hclose : c ≠ chr ')') :
    parseItem c p = some (.single (.char c) .one, p) := by
  have hall : ∀ d ∈ c :: p, d ∉ SPECIALS := by simpa [nospecials] using h
  have hne (d : UInt8) (hd : d ∈ SPECIALS) : c ≠ d := fun hc => hall c (by simp) (hc ▸ hd)
  have hsuffix : parseSuffix (.char c) p = (.one, p) := by
    cases p with
    | nil => rfl
    | cons d q =>
      have hne (d' : UInt8) (hd : d' ∈ SPECIALS) : d ≠ d' := fun hc => hall d (by simp) (hc ▸ hd)
      rw [parseSuffix, if_neg (hne _ (by decide)), if_neg (hne _ (by decide)),
        if_neg (hne _ (by decide)), if_neg fun h => hne _ (by decide) h.1]
  unfold parseItem
  rw [if_neg (hne _ (by decide)), if_neg hclose, if_neg fun h => hne _ (by decide) h.1,
    if_neg (hne _ (by decide)), parseRepeat]
  simp only [parseSingle, if_neg (hne L_ESC (by decide)), if_neg (hne (chr '[') (by decide)),
    if_neg (hne (chr '.') (by decide)), Option.map_some, hsuffix]

/-- Such a pattern stands for itself. -/
theorem outcomes_nospecials (h : nospecials p = true) (s : ℕ) {capture : List Capture}
    (hclosed : lastOpen capture = none) :
    outcomes src (parse p) (s, capture) =
      if p <+: src.drop s then [(s + p.length, capture)] else [] := by
  induction p generalizing s with
  | nil =>
    rw [parse, if_pos List.nil_prefix]
    rfl
  | cons c p ih =>
    have hp : nospecials p = true := by
      rw [nospecials, List.all_cons, Bool.and_eq_true] at h
      exact h.2
    -- A `)` closes nothing.
    have hitem : ∃ i, parseItem c p = some (i, p) ∧ i.step src (s, capture) =
        if src[s]? = some c then [(s + 1, capture)] else [] := by
      by_cases hclose : c = chr ')'
      · subst hclose
        refine ⟨.close, rfl, ?_⟩
        dsimp only [Item.step]
        rw [hclosed]
      · exact ⟨_, parseItem_plain h hclose, step_char c s capture⟩
    obtain ⟨i, hparse, hstep⟩ := hitem
    have hitems : parse (c :: p) = i :: parse p := by
      rw [parse]
      split
      · rename_i i' q hparse'
        obtain ⟨rfl, rfl⟩ := Prod.mk.inj (Option.some.inj (hparse'.symm.trans hparse))
        rfl
      · rename_i hparse'
        cases hparse'.symm.trans hparse
    rw [hitems, outcomes_cons src (parseItem_ne_malformed hparse), hstep]
    by_cases hc : src[s]? = some c
    · rw [if_pos hc, List.flatMap_singleton, ih hp]
      have hs := (List.getElem?_eq_some_iff.1 hc).1
      have hiff : p <+: src.drop (s + 1) ↔ c :: p <+: src.drop s := by
        rw [cons_prefix_drop_iff]
        exact ⟨fun h => ⟨⟨hs, peek_drop hc⟩, h⟩, fun h => h.2⟩
      rw [if_congr hiff rfl rfl, List.length_cons, Nat.add_right_comm, Nat.add_assoc]
    · rw [if_neg hc, if_neg fun h => hc (getElem?_of_prefix_drop h)]
      rfl

/-! ### Searches -/

/-- The outcomes at an offset of the text that a plain search looks for. -/
def literally (src p : Bytes) (s : ℕ) : List Outcome :=
  if p <+: src.drop s then [(s + p.length, [])] else []

/-- The outcomes at an offset of what a search looks for. -/
def searched (plain : Bool) (src p : Bytes) (s : ℕ) : List Outcome :=
  if plain then literally src p s
  else outcomes src (parse (if peek p = chr '^' then p.tail else p)) (s, [])

/-- What a search returns for a match. -/
def found (find : Bool) (src : Bytes) (i e : ℕ) (capture : List Capture) :
    Except String (List FindValue) :=
  if find then do return .integer (i + 1) :: .integer e :: (← push_captures src capture none)
  else push_captures src capture (some (i, e))

theorem literally_nil_iff {s : ℕ} : literally src p s = [] ↔ ¬ p <+: src.drop s := by
  rw [literally]
  split_ifs with h
  · simp [h]
  · simp [h]

/-- The search for bytes. -/
theorem lmemfind_leftmost {start : ℕ} (hstart : start ≤ src.length) :
    match lmemfind (src.drop start) p with
    | some k => Leftmost (literally src p) false start src.length (start + k)
        (start + k + p.length) []
    | none => Nowhere (literally src p) false start src.length := by
  by_cases hp : p = []
  · subst hp
    exact .here hstart rfl
  have hdrop (j : ℕ) : (src.drop start).drop j = src.drop (start + j) := List.drop_drop ..
  rcases lmemfind_spec hp (src.drop start) with ⟨hnone, hall⟩ | ⟨k, hk, hsome, -, hocc, hfirst⟩
  · rw [hnone]
    intro j hj _ _
    have := hall (j - start)
    rwa [hdrop, Nat.add_sub_cancel' hj, ← literally_nil_iff] at this
  · rw [hsome]
    rw [hdrop] at hocc
    rw [List.length_drop] at hk
    refine ⟨Nat.le_add_right start k, by omega, fun h => (by cases h), ?_, fun j hj hlt => ?_⟩
    · rw [literally, if_pos hocc]
      rfl
    · have := hfirst (j - start) (Nat.zero_le _) (by omega)
      rwa [hdrop, Nat.add_sub_cancel' hj, ← literally_nil_iff] at this

/-- Where a pattern has no special characters, it is looked for as it is. -/
theorem searched_nospecials (h : nospecials p = true) :
    searched false src p = literally src p ∧ (peek p == chr '^') = false := by
  have hcaret : peek p ≠ chr '^' := by
    cases p with
    | nil => exact fun h => absurd h (by decide)
    | cons c p =>
      rintro (rfl : c = chr '^')
      rw [nospecials, List.all_cons, Bool.and_eq_true] at h
      exact absurd h.1 (by decide)
  refine ⟨?_, beq_false_of_ne hcaret⟩
  funext s
  rw [searched, if_neg Bool.false_ne_true, if_neg hcaret, outcomes_nospecials h s rfl, literally]

theorem searched_plain {find plain : Bool} (h : (find && (plain || nospecials p)) = true) :
    find = true ∧ searched (find && plain) src p = literally src p ∧
      (!(find && plain) && peek p == chr '^') = false := by
  obtain ⟨rfl, hplain⟩ := Bool.and_eq_true_iff.1 h
  refine ⟨rfl, ?_⟩
  cases plain with
  | true =>
    refine ⟨?_, rfl⟩
    funext s
    exact if_pos rfl
  | false => exact searched_nospecials hplain

/-- **A search finds the leftmost match**, and returns its offsets and its captures. -/
theorem str_find_aux_leftmost {find plain : Bool} {init : Int32} {vs : List FindValue}
    (h : str_find_aux is_literal_word_hyphen find plain src p init = .ok vs) :
    (∃ i e capture, Leftmost (searched (find && plain) src p)
        (!(find && plain) && peek p == chr '^') (max 1 (posrelat init src.length) - 1).toNat
        src.length i e capture ∧ found find src i e capture = .ok vs) ∨
    Nowhere (searched (find && plain) src p) (!(find && plain) && peek p == chr '^')
      (max 1 (posrelat init src.length) - 1).toNat src.length ∧ vs = [.nil] := by
  unfold str_find_aux at h
  generalize max 1 (posrelat init src.length) = first at h ⊢
  dsimp only at h
  by_cases hout : (src.length + 1 : ℤ) < first
  · -- The search would start after the end.
    rw [if_pos hout] at h
    refine .inr ⟨fun j hj hle _ => ?_, (Except.ok.inj h).symm⟩
    omega
  rw [if_neg hout] at h
  have hstart : (first - 1).toNat ≤ src.length := by omega
  generalize (first - 1).toNat = start at h hstart ⊢
  by_cases hplain : (find && (plain || nospecials p)) = true
  · rw [if_pos hplain] at h
    obtain ⟨rfl, hsearched, hanchor⟩ := @searched_plain src _ _ _ hplain
    have hfind := lmemfind_leftmost (p := p) hstart
    rw [hsearched, hanchor]
    cases hmem : lmemfind (src.drop start) p with
    | some k =>
      rw [hmem] at h hfind
      exact .inl ⟨_, _, _, hfind, h⟩
    | none =>
      rw [hmem] at h hfind
      exact .inr ⟨hfind, (Except.ok.inj h).symm⟩
  · rw [if_neg hplain] at h
    have hpattern : (find && plain) = false := by
      cases find <;> cases plain <;> simp_all
    have hsearched : searched (find && plain) src p = fun s =>
        outcomes src (parse (if peek p = chr '^' then p.tail else p)) (s, []) := by
      funext s
      rw [searched, hpattern, if_neg Bool.false_ne_true]
    have hskip : (if (peek p == chr '^') = true then p.tail else p) =
        if peek p = chr '^' then p.tail else p := if_congr beq_iff_eq rfl rfl
    rw [hsearched, hpattern, Bool.not_false, Bool.true_and]
    rw [hskip] at h
    have hloop := fun r => @findLoop_leftmost _ _
      (@do_match_first src LUAI_MAXCCALLS (if peek p = chr '^' then p.tail else p))
      (peek p == chr '^') (src.length - start) start r
    rw [Nat.add_sub_cancel' hstart] at hloop
    split at h
    · cases h
    · rename_i hres
      exact .inr ⟨hloop _ hres, (Except.ok.inj h).symm⟩
    · rename_i hres
      exact .inl ⟨_, _, _, hloop _ hres, h⟩

/-- **The matcher returns the first outcome** of a pattern at an offset, with its captures, and without
one it leaves the captures as they were.  A search finds the leftmost offset with an outcome. -/
theorem match_leftmost :
    (∀ (src p : Bytes) (depth s : ℕ) (capture : List Capture) (r : Option ℕ × List Capture),
      do_match is_literal_word_hyphen src depth p s capture = .ok r →
      r = first capture (outcomes src (parse p) (s, capture))) ∧
    ∀ (src p : Bytes) (find plain : Bool) (init : Int32) (vs : List FindValue),
      str_find_aux is_literal_word_hyphen find plain src p init = .ok vs →
      (∃ i e capture, Leftmost (searched (find && plain) src p)
          (!(find && plain) && peek p == chr '^') (max 1 (posrelat init src.length) - 1).toNat
          src.length i e capture ∧ found find src i e capture = .ok vs) ∨
      Nowhere (searched (find && plain) src p) (!(find && plain) && peek p == chr '^')
        (max 1 (posrelat init src.length) - 1).toNat src.length ∧ vs = [.nil] :=
  ⟨fun _ p depth _ _ _ h => do_match_first depth p _ _ _ h,
    fun _ _ _ _ _ _ h => str_find_aux_leftmost h⟩

/-- A position capture. -/
theorem do_match_position :
    do_match is_literal_word_hyphen [chr 'a'] LUAI_MAXCCALLS [chr '(', chr ')'] 0 [] =
      .ok (some 0, [⟨0, .position⟩]) := by
  rw [do_match, within, if_neg (by decide), init_cons, match_item, if_pos rfl,
    if_pos (show peek [chr ')'] = chr ')' from rfl)]
  simp only [start_capture, do_match, within, List.tail_cons, init_nil]
  rfl

theorem str_find_position :
    str_find_aux is_literal_word_hyphen true false [chr 'a'] [chr '(', chr ')'] 1 =
      .ok [.integer 1, .integer 0, .integer 1] := by
  have hstart : (max 1 (posrelat 1 [chr 'a'].length) - 1).toNat = 0 := by decide
  have hcaret : (peek [chr '(', chr ')'] == chr '^') = false := by decide
  unfold str_find_aux
  dsimp only
  rw [if_neg (by decide), if_neg (by decide), hstart, hcaret, if_neg Bool.false_ne_true,
    show [chr 'a'].length - 0 = 0 + 1 from rfl, findLoop, do_match_position]
  rfl

theorem match_leftmost_position :
    (some 0, [⟨0, .position⟩]) = first [] (outcomes [chr 'a'] (parse [chr '(', chr ')']) (0, [])) ∧
    ((∃ i e capture, Leftmost (searched false [chr 'a'] [chr '(', chr ')']) false 0 1 i e capture ∧
      found true [chr 'a'] i e capture = .ok [.integer 1, .integer 0, .integer 1]) ∨
    Nowhere (searched false [chr 'a'] [chr '(', chr ')']) false 0 1 ∧
      [FindValue.integer 1, .integer 0, .integer 1] = [.nil]) :=
  ⟨match_leftmost.1 _ _ _ _ _ _ do_match_position, match_leftmost.2 _ _ true false 1 _ str_find_position⟩

end StrLib

end Jaci
