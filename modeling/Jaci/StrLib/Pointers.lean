import Jaci.StrLib.Match
import Mathlib

/-!
# The matcher with its pointers

The matcher of `Match` as the source has it: pointers into the pattern and the subject are indices,
`matchdepth` and the captures are in a state, and a read outside of a string, whose last byte is the
zero after it, is a fault.

* `byteAt` : a read;
* `classend`, `matchbracketclass`, `matchbalance` : the scanners;
* `init`, `do_match` : the matcher.
-/

namespace Jaci

namespace StrLib

namespace Pointers

open Wire

/-- Why the matcher stops. -/
inductive Stop where
  | error (e : String)
  | fault
deriving DecidableEq

def luaL_error {α : Type} (e : String) : Except Stop α := .error (.error e)

/-- An error of a function that reads no strings. -/
def lift {α : Type} : Except String α → Except Stop α
  | .ok x => .ok x
  | .error e => luaL_error e

/-- The fields of `MatchState` that change; `level` is the number of captures. -/
structure MatchState where
  /-- The calls of `match` that are left. -/
  matchdepth : ℕ
  capture : List Capture

/-- A match from an offset on: where it ends, if it succeeds. -/
abbrev Matcher := ℕ → MatchState → Except Stop (Option ℕ × MatchState)

/-- A byte of a string or the zero after it. -/
def byteAt (w : Bytes) (i : ℕ) : Except Stop UInt8 :=
  match (w ++ [0])[i]? with
  | some c => .ok c
  | none => .error .fault

/-- `s[-1]`. -/
def byteBefore (w : Bytes) : ℕ → Except Stop UInt8
  | 0 => .error .fault
  | s + 1 => byteAt w s

/-- The byte before an offset, and a zero at the start. -/
def previous (w : Bytes) (s : ℕ) : Except Stop UInt8 := if s = 0 then .ok 0 else byteBefore w s

theorem byteAt_le {w : Bytes} {i : ℕ} {c : UInt8} (h : byteAt w i = .ok c) : i ≤ w.length := by
  unfold byteAt at h
  split at h
  · rename_i hget
    have := (List.getElem?_eq_some_iff.1 hget).1
    rw [List.length_append, List.length_singleton] at this
    omega
  · cases h

/-! ### Scanners of the pattern -/

section

variable (src pat : Bytes)

/-- Where the loop of `classend` over a set goes on after `c`: an escaped character is skipped. -/
def setnext (p : ℕ) (c : UInt8) : ℕ := if c = L_ESC ∧ p + 1 < pat.length then p + 2 else p + 1

theorem lt_setnext (p : ℕ) (c : UInt8) : p < setnext pat p c := by
  rw [setnext]
  split_ifs <;> omega

/-- The loop of `classend` over a set. -/
def setend (p : ℕ) : Except Stop ℕ :=
  if p = pat.length then luaL_error "malformed pattern (missing ']')"
  else
    match _h : byteAt pat p with
    | .error e => .error e
    | .ok c =>
      match byteAt pat (setnext pat p c) with
      | .error e => .error e
      | .ok d => if d = chr ']' then .ok (setnext pat p c + 1) else setend (setnext pat p c)
termination_by pat.length + 1 - p
decreasing_by
  have := byteAt_le _h
  have := lt_setnext pat p c
  omega

def classend (p : ℕ) : Except Stop ℕ := do
  let c ← byteAt pat p
  if c = L_ESC then
    if p + 1 = pat.length then luaL_error "malformed pattern (ends with '%')" else return p + 2
  else if c = chr '[' then
    if (← byteAt pat (p + 1)) = chr '^' then setend pat (p + 2) else setend pat (p + 1)
  else return p + 1

/-- The loop of `matchbracketclass`, from the character after `p` on. -/
def bracketLoop (c : UInt8) (sig : Bool) (ec p : ℕ) : Except Stop Bool :=
  if _h : p + 1 < ec then do
    let q ← byteAt pat (p + 1)
    if q = L_ESC then
      if match_class c (← byteAt pat (p + 2)) then return sig else bracketLoop c sig ec (p + 2)
    else if (← byteAt pat (p + 2)) = chr '-' ∧ p + 3 < ec then
      let hi ← byteAt pat (p + 3)
      if q ≤ c ∧ c ≤ hi then return sig else bracketLoop c sig ec (p + 3)
    else if q = c then return sig
    else bracketLoop c sig ec (p + 1)
  else return !sig
termination_by ec - p

def matchbracketclass (c : UInt8) (p ec : ℕ) : Except Stop Bool := do
  if (← byteAt pat (p + 1)) = chr '^' then bracketLoop pat c false ec (p + 1)
  else bracketLoop pat c true ec p

def singlematch (s p ep : ℕ) : Except Stop Bool :=
  if src.length ≤ s then return false
  else do
    let c ← byteAt src s
    let q ← byteAt pat p
    if q = chr '.' then return true
    else if q = L_ESC then return match_class c (← byteAt pat (p + 1))
    else if q = chr '[' then matchbracketclass pat c p (ep - 1)
    else return q == c

theorem singlematch_lt {s p ep : ℕ} (h : singlematch src pat s p ep = .ok true) : s < src.length := by
  rw [singlematch] at h
  split_ifs at h with hs
  · cases h
  · exact Nat.lt_of_not_le hs

def is_literal_word_hyphen (p ep : ℕ) : Except Stop Bool := do
  if (← byteAt pat ep) ≠ chr '-' then return false
  else if ¬ (ep = p + 1 ∧ ep + 1 < pat.length) then return false
  else if !isalnum (← byteAt pat p) then return false
  else return isalnum (← byteAt pat (ep + 1))

/-- It is only called when there is a hyphen after the item. -/
def wordHyphen (p ep : ℕ) (c : UInt8) : Except Stop Bool :=
  if c = chr '-' then is_literal_word_hyphen pat p ep else .ok false

/-! ### Items -/

/-- The loop of `matchbalance`, from the character after `s` on. -/
def balanceLoop (b e : UInt8) (cont s : ℕ) : Except Stop (Option ℕ) :=
  if _h : s + 1 < src.length then do
    let c ← byteAt src (s + 1)
    if c = e then
      if cont = 1 then return some (s + 2) else balanceLoop b e (cont - 1) (s + 1)
    else balanceLoop b e (if c = b then cont + 1 else cont) (s + 1)
  else return none
termination_by src.length - s

def matchbalance (s p : ℕ) : Except Stop (Option ℕ) :=
  if pat.length ≤ p + 1 then luaL_error "malformed pattern (missing arguments to '%b')"
  else do
    if (← byteAt src s) ≠ (← byteAt pat p) then return none
    else balanceLoop src (← byteAt pat p) (← byteAt pat (p + 1)) 1 s

/-- The first loop of `max_expand`: how often the item matches, `i` times up to there. -/
def countMatches (s p ep i : ℕ) : Except Stop ℕ :=
  match _h : singlematch src pat (s + i) p ep with
  | .error e => .error e
  | .ok false => .ok i
  | .ok true => countMatches s p ep (i + 1)
termination_by src.length - (s + i)
decreasing_by
  have := singlematch_lt src pat _h
  omega

/-- The second loop of `max_expand`. -/
def shrink (rest : Matcher) : ℕ → Matcher
  | 0, s, ms => rest s ms
  | i + 1, s, ms => do
    match (← rest (s + (i + 1)) ms) with
    | (some res, ms) => return (some res, ms)
    | (none, ms) => shrink rest i s ms

def max_expand (p ep : ℕ) (rest : Matcher) : Matcher := fun s ms => do
  shrink rest (← countMatches src pat s p ep 0) s ms

def min_expand (p ep : ℕ) (rest : Matcher) (s : ℕ) (ms : MatchState) :
    Except Stop (Option ℕ × MatchState) :=
  match rest s ms with
  | .error e => .error e
  | .ok (some res, ms) => .ok (some res, ms)
  | .ok (none, ms) =>
    match _h : singlematch src pat s p ep with
    | .error e => .error e
    | .ok true => min_expand p ep rest (s + 1) ms
    | .ok false => .ok (none, ms)
termination_by src.length - s
decreasing_by
  have := singlematch_lt src pat _h
  omega

def start_capture (rest : Matcher) (what : CaptureLen) : Matcher := fun s ms => do
  if LUA_MAXCAPTURES ≤ ms.capture.length then luaL_error "too many captures"
  else
    let (res, ms) ← rest s { ms with capture := ms.capture ++ [⟨s, what⟩] }
    return (res, if res = none then { ms with capture := ms.capture.dropLast } else ms)

def end_capture (rest : Matcher) : Matcher := fun s ms => do
  let l ← lift (capture_to_close ms.capture)
  let (res, ms) ← rest s
    { ms with capture := ms.capture.modify l fun c => { c with len := .len (s - c.init) } }
  return (res, if res = none then
    { ms with capture := ms.capture.modify l fun c => { c with len := .unfinished } } else ms)

/-- `memcmp`, of two parts of the subject. -/
def memcmp (start s n : ℕ) : Except Stop Bool := do
  let captured ← (List.range n).mapM fun i => byteAt src (start + i)
  let text ← (List.range n).mapM fun i => byteAt src (s + i)
  return captured == text

def match_capture (capture : List Capture) (s : ℕ) (l : UInt8) : Except Stop (Option ℕ) := do
  match (← lift (check_capture capture l)) with
  | ⟨start, .len n⟩ =>
    if n ≤ src.length - s then
      if (← memcmp src start s n) then return some (s + n) else return none
    else return none
  | _ => return none

/-- An item from `p` to `ep` and its suffix: `call` and `skip` match what is after the suffix, in a
call of `match` and without one, and `next` matches from `ep` on. -/
def match_suffix (p ep : ℕ) (call skip next : Matcher) : Matcher := fun s ms => do
  let single ← singlematch src pat s p ep
  let c ← byteAt pat ep
  let hyphen ← wordHyphen pat p ep c
  if !single then
    if c = chr '*' ∨ c = chr '?' ∨ (c = chr '-' ∧ !hyphen) then skip s ms
    else return (none, ms)
  else if c = chr '?' then
    match (← call (s + 1) ms) with
    | (some res, ms) => return (some res, ms)
    | (none, ms) => skip s ms
  else if c = chr '+' then max_expand src pat p ep call (s + 1) ms
  else if c = chr '*' then max_expand src pat p ep call s ms
  else if c = chr '-' then
    if hyphen then next (s + 1) ms else min_expand src pat p ep call s ms
  else next (s + 1) ms

theorem setend_lt {p ep : ℕ} (h : setend pat p = .ok ep) : p < ep := by
  fun_induction setend pat p with
  | case1 => cases h
  | case2 => cases h
  | case3 => cases h
  | case4 p hne c hc hd =>
    obtain rfl := Except.ok.inj h
    exact Nat.lt_succ_of_lt (lt_setnext pat p c)
  | case5 p hne c hc d hd hclose ih => exact Nat.lt_trans (lt_setnext pat p c) (ih h)

theorem classend_lt {p ep : ℕ} (h : classend pat p = .ok ep) : p < ep := by
  rw [classend] at h
  cases hc : byteAt pat p with
  | error e => rw [hc] at h; cases h
  | ok c =>
    rw [hc] at h
    dsimp only [bind, Except.bind] at h
    split_ifs at h
    · cases h
    · obtain rfl := Except.ok.inj h
      omega
    · cases hd : byteAt pat (p + 1) with
      | error e => rw [hd] at h; cases h
      | ok d =>
        rw [hd] at h
        dsimp only at h
        split_ifs at h
        · have := setend_lt pat h
          omega
        · have := setend_lt pat h
          omega
    · obtain rfl := Except.ok.inj h
      omega

/-! ### The matcher -/

/-- An item that may have a suffix: `call` is a call of `match`, `next` goes on without one. -/
def match_single (p : ℕ) (call next : ∀ q, p < q → Matcher) : Matcher := fun s ms =>
  match h : classend pat p with
  | .error e => .error e
  | .ok ep =>
    have hep : p < ep := classend_lt pat h
    match_suffix src pat p ep (call (ep + 1) (Nat.lt_succ_of_lt hep))
      (next (ep + 1) (Nat.lt_succ_of_lt hep)) (next ep hep) s ms

theorem lt_add_two (p : ℕ) : p < p + 2 := by omega

theorem lt_add_four (p : ℕ) : p < p + 4 := by omega

theorem lt_of_classend {pat : Bytes} {p ep : ℕ} (h : classend pat (p + 2) = .ok ep) : p < ep :=
  (lt_add_two p).trans (classend_lt pat h)

/-- An item after the escape character. -/
def match_escape (p : ℕ) (call next : ∀ q, p < q → Matcher) : Matcher := fun s ms => do
  let d ← byteAt pat (p + 1)
  if d = chr 'b' then
    match (← matchbalance src pat s (p + 2)) with
    | some s => next (p + 4) (lt_add_four p) s ms
    | none => return (none, ms)
  else if d = chr 'f' then
    if (← byteAt pat (p + 2)) = chr '[' then
      match h : classend pat (p + 2) with
      | .error e => .error e
      | .ok ep =>
        let before ← matchbracketclass pat (← previous src s) (p + 2) (ep - 1)
        let here ← matchbracketclass pat (← byteAt src s) (p + 2) (ep - 1)
        if !before && here then next ep (lt_of_classend h) s ms
        else return (none, ms)
    else luaL_error "missing '[' after '%f' in pattern"
  else if isdigit d then
    match (← match_capture src ms.capture s d) with
    | some s => next (p + 2) (lt_add_two p) s ms
    | none => return (none, ms)
  else match_single src pat p call next s ms

/-- The item at `p`, where `c` is. -/
def match_item (c : UInt8) (p : ℕ) (call next : ∀ q, p < q → Matcher) : Matcher := fun s ms => do
  if c = chr '(' then
    if (← byteAt pat (p + 1)) = chr ')' then
      start_capture (call (p + 2) (by omega)) .position s ms
    else start_capture (call (p + 1) (by omega)) .unfinished s ms
  else if c = chr ')' then end_capture (call (p + 1) (by omega)) s ms
  else if c = chr '$' ∧ p + 1 = pat.length then
    return (if s = src.length then some s else none, ms)
  else if c = L_ESC then match_escape src pat p call next s ms
  else match_single src pat p call next s ms

/-- A call of `match`, where `init` is what it does. -/
def within (init : Matcher) : Matcher := fun s ms =>
  if ms.matchdepth = 0 then luaL_error "pattern too complex"
  else do
    let (res, ms) ← init s { ms with matchdepth := ms.matchdepth - 1 }
    return (res, { ms with matchdepth := ms.matchdepth + 1 })

/-- The matcher from `init` on. -/
def init (p : ℕ) : Matcher :=
  if _hp : p = pat.length then fun s ms => .ok (some s, ms)
  else
    match _h : byteAt pat p with
    | .error e => fun _ _ => .error e
    | .ok c => match_item src pat c p (fun q _ => within (init q)) (fun q _ => init q)
termination_by pat.length - p
decreasing_by all_goals have := byteAt_le _h; omega

/-- `match`. -/
def do_match (p : ℕ) : Matcher := within (init src pat p)

end

end Pointers

end StrLib

end Jaci
