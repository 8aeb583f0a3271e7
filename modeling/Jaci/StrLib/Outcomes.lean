import Jaci.StrLib.Match

/-!
# What a pattern matches

A pattern is a list of items.  At an offset, and with the captures up to there, an item has outcomes,
in the order in which they are tried; those of a pattern are the outcomes of the rest after each
outcome of the first item.

* `Item`, `parse` : the items of a pattern;
* `Item.step` : the outcomes of an item;
* `outcomesWith`, `outcomes` : the outcomes of a pattern.
-/

namespace Jaci

namespace StrLib

open Wire

/-! ### Items -/

/-- A part of a set. -/
inductive SetItem where
  | cls (cl : UInt8)
  | range (lo hi : UInt8)
  | char (c : UInt8)

/-- The parts of a set, from what is between the brackets.  The character after `%` may be the
bracket, when a range took the `%` before. -/
def setItems : Bytes → List SetItem
  | [] => []
  | q :: p =>
    if q = L_ESC then .cls (p.headD (chr ']')) :: setItems p.tail
    else
      match p with
      | d :: hi :: rest =>
        if d = chr '-' then .range q hi :: setItems rest else .char q :: setItems (d :: hi :: rest)
      | p => .char q :: setItems p
termination_by p => p.length
decreasing_by all_goals simp only [List.length_tail, List.length_cons]; omega

/-- What matches one character. -/
inductive Single where
  | any
  | cls (cl : UInt8)
  | set (negated : Bool) (items : List SetItem)
  | char (c : UInt8)

/-- How often it does. -/
inductive Suffix where
  | one
  | optional
  | plus
  | star
  | minus

/-- An item of a pattern. -/
inductive Item where
  | start
  | position
  | close
  /-- A `$` at the end. -/
  | stop
  /-- `%b`. -/
  | balance (b e : UInt8)
  /-- `%f`. -/
  | frontier (x : Single)
  /-- `%1` to `%9`, counted from zero. -/
  | back (l : ℕ)
  | single (x : Single) (suffix : Suffix)
  | malformed

/-! ### The items of a pattern -/

/-- What is between the brackets of a set, and what is after it. -/
def parseSet : Bytes → Option (Bytes × Bytes)
  | [] => none
  | [_] => none
  | c :: d :: p =>
    if c = L_ESC then
      if peek p = chr ']' then some ([c, d], p.tail)
      else (parseSet p).map fun (body, p) => (c :: d :: body, p)
    else if d = chr ']' then some ([c], p)
    else (parseSet (d :: p)).map fun (body, p) => (c :: body, p)

/-- What matches one character, and what is after it. -/
def parseSingle : Bytes → Option (Single × Bytes)
  | [] => none
  | c :: p =>
    if c = L_ESC then
      match p with
      | [] => none
      | cl :: p => some (.cls cl, p)
    else if c = chr '[' then
      (parseSet (if peek p = chr '^' then p.tail else p)).map fun (body, ep) =>
        (.set (peek p = chr '^') (setItems body), ep)
    else if c = chr '.' then some (.any, p)
    else some (.char c, p)

/-- A hyphen after `x` and before `p` is one in a word. -/
def Single.inWord (x : Single) (p : Bytes) : Bool :=
  match x, p with
  | .char c, d :: _ => isalnum c && isalnum d
  | _, _ => false

/-- The suffix of `x`, and what is after it. -/
def parseSuffix (x : Single) : Bytes → Suffix × Bytes
  | [] => (.one, [])
  | c :: p =>
    if c = chr '*' then (.star, p)
    else if c = chr '+' then (.plus, p)
    else if c = chr '?' then (.optional, p)
    else if c = chr '-' ∧ !x.inWord p then (.minus, p)
    else (.one, c :: p)

/-- An item that may have a suffix. -/
def parseRepeat (p : Bytes) : Option (Item × Bytes) :=
  (parseSingle p).map fun (x, p) => (.single x (parseSuffix x p).1, (parseSuffix x p).2)

def parseItem (c : UInt8) (p : Bytes) : Option (Item × Bytes) :=
  if c = chr '(' then if peek p = chr ')' then some (.position, p.tail) else some (.start, p)
  else if c = chr ')' then some (.close, p)
  else if c = chr '$' ∧ p = [] then some (.stop, [])
  else if c = L_ESC then
    match p with
    | [] => none
    | d :: q =>
      if d = chr 'b' then
        match q with
        | b :: e :: q => some (.balance b e, q)
        | _ => none
      else if d = chr 'f' then
        if peek q = chr '[' then (parseSingle q).map fun (x, q) => (.frontier x, q) else none
      else if isdigit d then if d = chr '0' then none else some (.back (d.toNat - 0x31), q)
      else parseRepeat (c :: d :: q)
  else parseRepeat (c :: p)

theorem parseSet_length {p body ep : Bytes} (h : parseSet p = some (body, ep)) :
    ep.length < p.length := by
  fun_induction parseSet p generalizing body ep with
  | case1 => cases h
  | case2 => cases h
  | case3 d p hp =>
    obtain ⟨-, rfl⟩ := Prod.mk.inj (Option.some.inj h)
    simp only [List.length_tail, List.length_cons]
    omega
  | case4 d p hp ih =>
    obtain ⟨⟨body', ep'⟩, hrest, hpair⟩ := Option.map_eq_some_iff.1 h
    obtain ⟨-, rfl⟩ := Prod.mk.inj hpair
    have := ih hrest
    simp only [List.length_cons]
    omega
  | case5 c p hc =>
    obtain ⟨-, rfl⟩ := Prod.mk.inj (Option.some.inj h)
    simp only [List.length_cons]
    omega
  | case6 c d p hc hd ih =>
    obtain ⟨⟨body', ep'⟩, hrest, hpair⟩ := Option.map_eq_some_iff.1 h
    obtain ⟨-, rfl⟩ := Prod.mk.inj hpair
    have := ih hrest
    simp only [List.length_cons] at this ⊢
    omega

theorem parseSingle_length {p ep : Bytes} {x : Single} (h : parseSingle p = some (x, ep)) :
    ep.length < p.length := by
  unfold parseSingle at h
  split at h
  · cases h
  · split_ifs at h
    · split at h
      · cases h
      · obtain ⟨-, rfl⟩ := Prod.mk.inj (Option.some.inj h)
        simp only [List.length_cons]
        omega
    · obtain ⟨⟨body, ep'⟩, hset, hpair⟩ := Option.map_eq_some_iff.1 h
      obtain ⟨-, rfl⟩ := Prod.mk.inj hpair
      have := parseSet_length hset
      rw [List.length_tail] at this
      rw [List.length_cons]
      omega
    · obtain ⟨⟨body, ep'⟩, hset, hpair⟩ := Option.map_eq_some_iff.1 h
      obtain ⟨-, rfl⟩ := Prod.mk.inj hpair
      exact Nat.lt_succ_of_lt (parseSet_length hset)
    all_goals
      obtain ⟨-, rfl⟩ := Prod.mk.inj (Option.some.inj h)
      exact Nat.lt_succ_self _

theorem parseSuffix_length (x : Single) (p : Bytes) : (parseSuffix x p).2.length ≤ p.length := by
  unfold parseSuffix
  split
  · exact le_rfl
  · split_ifs <;> simp

theorem parseRepeat_length {p q : Bytes} {i : Item} (h : parseRepeat p = some (i, q)) :
    q.length < p.length := by
  obtain ⟨⟨x, ep⟩, hx, hpair⟩ := Option.map_eq_some_iff.1 h
  obtain ⟨-, rfl⟩ := Prod.mk.inj hpair
  exact Nat.lt_of_le_of_lt (parseSuffix_length x ep) (parseSingle_length hx)

theorem parseItem_length {c : UInt8} {p q : Bytes} {i : Item} (h : parseItem c p = some (i, q)) :
    q.length < (c :: p).length := by
  unfold parseItem at h
  split_ifs at h with h1 h2 h3 h4 h5
  · obtain ⟨-, rfl⟩ := Prod.mk.inj (Option.some.inj h)
    rw [List.length_tail, List.length_cons]
    omega
  · obtain ⟨-, rfl⟩ := Prod.mk.inj (Option.some.inj h)
    exact Nat.lt_succ_self _
  · obtain ⟨-, rfl⟩ := Prod.mk.inj (Option.some.inj h)
    exact Nat.lt_succ_self _
  · obtain ⟨-, rfl⟩ := Prod.mk.inj (Option.some.inj h)
    exact Nat.succ_pos _
  · split at h
    · cases h
    · split_ifs at h
      · split at h
        · obtain ⟨-, rfl⟩ := Prod.mk.inj (Option.some.inj h)
          simp only [List.length_cons]
          omega
        · cases h
      · obtain ⟨⟨x, ep⟩, hx, hpair⟩ := Option.map_eq_some_iff.1 h
        obtain ⟨-, rfl⟩ := Prod.mk.inj hpair
        have := parseSingle_length hx
        simp only [List.length_cons]
        omega
      · obtain ⟨-, rfl⟩ := Prod.mk.inj (Option.some.inj h)
        simp only [List.length_cons]
        omega
      · exact parseRepeat_length h
  · exact parseRepeat_length h

theorem parseItem_ne_malformed {c : UInt8} {p q : Bytes} {i : Item}
    (h : parseItem c p = some (i, q)) : i ≠ .malformed := by
  have hrepeat {p : Bytes} (h : parseRepeat p = some (i, q)) : i ≠ .malformed := by
    obtain ⟨_, _, hpair⟩ := Option.map_eq_some_iff.1 h
    cases hpair
    exact Item.noConfusion
  unfold parseItem at h
  split_ifs at h with h1 h2 h3 h4 h5
  · cases h
    exact Item.noConfusion
  · cases h
    exact Item.noConfusion
  · cases h
    exact Item.noConfusion
  · cases h
    exact Item.noConfusion
  · split at h
    · cases h
    · split_ifs at h
      · split at h
        · cases h
          exact Item.noConfusion
        · cases h
      · obtain ⟨_, _, hpair⟩ := Option.map_eq_some_iff.1 h
        cases hpair
        exact Item.noConfusion
      · cases h
        exact Item.noConfusion
      · exact hrepeat h
  · exact hrepeat h

/-- The items of a pattern, up to one that is malformed. -/
def parse : Bytes → List Item
  | [] => []
  | c :: p =>
    match h : parseItem c p with
    | some (i, q) =>
      have : q.length < (c :: p).length := parseItem_length h
      i :: parse q
    | none => [.malformed]
termination_by p => p.length
decreasing_by assumption

/-! ### The outcomes -/

/-- The characters of a part of a set. -/
def SetItem.has (c : UInt8) : SetItem → Bool
  | cls cl => match_class c cl
  | range lo hi => lo ≤ c && c ≤ hi
  | char d => d == c

/-- The characters that match. -/
def Single.has (x : Single) (c : UInt8) : Bool :=
  match x with
  | any => true
  | cls cl => match_class c cl
  | set negated items => items.any (·.has c) != negated
  | char d => d == c

/-- How often a suffix has its item match, of at most `n` times; what is tried first comes first. -/
def Suffix.counts (n : ℕ) : Suffix → List ℕ
  | one => if 1 ≤ n then [1] else []
  | optional => if 1 ≤ n then [1, 0] else [0]
  | plus => (List.range' 1 n).reverse
  | star => (List.range (n + 1)).reverse
  | minus => List.range (n + 1)

section

variable (src : Bytes)

/-- How many characters match from an offset on. -/
def Single.reps (x : Single) (s : ℕ) : ℕ := ((src.drop s).takeWhile x.has).length

/-- How many more there are that open than that close. -/
def balanceOf (b e : UInt8) (w : Bytes) : ℤ :=
  (w.map fun c => if c = e then -1 else if c = b then 1 else 0).sum

/-- The first offset where as many close as open, the one at `s` being the first that opens. -/
def balancedEnd (b e : UInt8) (s : ℕ) : Option ℕ :=
  if src[s]? = some b then
    ((List.range (src.length - s)).find? fun n =>
      1 + balanceOf b e ((src.drop (s + 1)).take n) = 0).map (s + 1 + ·)
  else none

/-- The character before an offset, and a zero at the start. -/
def charBefore (s : ℕ) : UInt8 := if s = 0 then 0 else src.getD (s - 1) 0

/-- The capture that was started last and is not finished. -/
def lastOpen (capture : List Capture) : Option ℕ :=
  (List.range capture.length).reverse.find? fun l =>
    (capture[l]?.map Capture.len) = some .unfinished

/-- The text of a finished capture. -/
def captured (capture : List Capture) (l : ℕ) : Option Bytes :=
  match capture[l]? with
  | some ⟨start, .len n⟩ =>
    if ((src.drop start).take n).length = n then some ((src.drop start).take n) else none
  | _ => none

/-- An offset, and the captures up to there. -/
abbrev Outcome := ℕ × List Capture

/-- The outcomes of an item.  A `)` that closes nothing stands for itself: the matcher refuses it, but
a pattern without special characters may have it. -/
def Item.step : Item → Outcome → List Outcome
  | start, (s, capture) => [(s, capture ++ [⟨s, .unfinished⟩])]
  | position, (s, capture) => [(s, capture ++ [⟨s, .position⟩])]
  | close, (s, capture) =>
    match lastOpen capture with
    | some l => [(s, capture.modify l fun c => { c with len := .len (s - c.init) })]
    | none => if src[s]? = some (chr ')') then [(s + 1, capture)] else []
  | stop, (s, capture) => if s = src.length then [(s, capture)] else []
  | balance b e, (s, capture) => (balancedEnd src b e s).toList.map (·, capture)
  | frontier x, (s, capture) =>
    if !x.has (charBefore src s) && x.has (src.getD s 0) then [(s, capture)] else []
  | back l, (s, capture) =>
    match captured src capture l with
    | some w => if w <+: src.drop s then [(s + w.length, capture)] else []
    | none => []
  | single x suffix, (s, capture) => (suffix.counts (x.reps src s)).map fun n => (s + n, capture)
  | malformed, _ => []

/-- The outcomes of a list of items, where `bad` are those from a malformed one on. -/
def outcomesWith (bad : Outcome → List Outcome) : List Item → Outcome → List Outcome
  | [], o => [o]
  | .malformed :: _, o => bad o
  | i :: items, o => (i.step src o).flatMap (outcomesWith bad items)

theorem outcomesWith_cons {bad : Outcome → List Outcome} {i : Item} (h : i ≠ .malformed)
    (items : List Item) (o : Outcome) :
    outcomesWith src bad (i :: items) o = (i.step src o).flatMap (outcomesWith src bad items) := by
  cases i with
  | malformed => exact absurd rfl h
  | _ => rfl

/-- The outcomes of a list of items. -/
def outcomes (items : List Item) (o : Outcome) : List Outcome := outcomesWith src (fun _ => []) items o

theorem outcomes_cons {i : Item} (h : i ≠ .malformed) (items : List Item) (o : Outcome) :
    outcomes src (i :: items) o = (i.step src o).flatMap (outcomes src items) :=
  outcomesWith_cons src h items o

end

end StrLib

end Jaci
