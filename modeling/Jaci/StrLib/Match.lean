import Jaci.Lib.Wire

/-!
# Patterns of the string library

The matcher of `string.find` and `string.match`.  Pointers into the pattern are the bytes from them
on, pointers into the subject are offsets, and a string is followed by a zero.  The matcher takes
the rule for literal hyphens as a parameter `hyphen`, so that it can be left out.

* `match_item` : one item of a pattern;
* `init` : the items from there on, where `goto init` goes;
* `do_match` : a call of `match`;
* `str_find_aux` : `string.find` and `string.match`.
-/

namespace Jaci

namespace StrLib

open Wire

/-! ### Characters -/

/-- The byte of an ASCII character. -/
def chr (c : Char) : UInt8 := c.toUInt8

/-- `*p`. -/
def peek (p : Bytes) : UInt8 := p.headD 0

def isupper (c : UInt8) : Bool := chr 'A' ≤ c && c ≤ chr 'Z'

def islower (c : UInt8) : Bool := chr 'a' ≤ c && c ≤ chr 'z'

def isalpha (c : UInt8) : Bool := isupper c || islower c

def isdigit (c : UInt8) : Bool := chr '0' ≤ c && c ≤ chr '9'

def isalnum (c : UInt8) : Bool := isalpha c || isdigit c

def isxdigit (c : UInt8) : Bool :=
  isdigit c || chr 'A' ≤ c && c ≤ chr 'F' || chr 'a' ≤ c && c ≤ chr 'f'

def iscntrl (c : UInt8) : Bool := c < 0x20 || c == 0x7f

def isgraph (c : UInt8) : Bool := 0x20 < c && c < 0x7f

def ispunct (c : UInt8) : Bool := isgraph c && !isalnum c

def isspace (c : UInt8) : Bool := c == 0x20 || 0x09 ≤ c && c ≤ 0x0d

def tolower (c : UInt8) : UInt8 := if isupper c then c + 0x20 else c

def L_ESC : UInt8 := chr '%'

/-- The character class of a lower-case letter. -/
def classOf (cl : UInt8) : Option (UInt8 → Bool) :=
  if cl = chr 'a' then some isalpha
  else if cl = chr 'c' then some iscntrl
  else if cl = chr 'd' then some isdigit
  else if cl = chr 'g' then some isgraph
  else if cl = chr 'l' then some islower
  else if cl = chr 'p' then some ispunct
  else if cl = chr 's' then some isspace
  else if cl = chr 'u' then some isupper
  else if cl = chr 'w' then some isalnum
  else if cl = chr 'x' then some isxdigit
  else if cl = chr 'z' then some fun c => c == 0
  else none

def match_class (c cl : UInt8) : Bool :=
  match classOf (tolower cl) with
  | some is => if islower cl then is c else !is c
  | none => cl == c

/-! ### Sets -/

/-- The loop of `classend` over a set. -/
def setend : Bytes → Except String Bytes
  | [] => .error "malformed pattern (missing ']')"
  | c :: p =>
    if c = L_ESC then
      -- The escaped character is skipped, if there is one.
      match p with
      | [] => .error "malformed pattern (missing ']')"
      | _ :: p => if peek p = chr ']' then .ok p.tail else setend p
    else if peek p = chr ']' then .ok p.tail
    else setend p

def classend : Bytes → Except String Bytes
  | [] => .ok []
  | c :: p =>
    if c = L_ESC then
      match p with
      | [] => .error "malformed pattern (ends with '%')"
      | _ :: p => .ok p
    else if c = chr '[' then setend (if peek p = chr '^' then p.tail else p)
    else .ok p

/-- The loop of `matchbracketclass`; `ec` bytes of the pattern are from the end of the set on. -/
def bracketLoop (c : UInt8) (sig : Bool) (ec : ℕ) : Bytes → Bool
  | [] => !sig
  | q :: p =>
    if p.length < ec then !sig
    else if q = L_ESC then
      if match_class c (peek p) then sig else bracketLoop c sig ec p.tail
    else if peek p = chr '-' ∧ ec + 1 < p.length then
      if q ≤ c ∧ c ≤ peek p.tail then sig else bracketLoop c sig ec (p.drop 2)
    else if q = c then sig
    else bracketLoop c sig ec p
termination_by p => p.length
decreasing_by all_goals simp only [List.length_tail, List.length_drop, List.length_cons]; omega

/-- `matchbracketclass`, where `p` starts with the bracket. -/
def matchbracketclass (c : UInt8) (p : Bytes) (ec : ℕ) : Bool :=
  if peek p.tail = chr '^' then bracketLoop c false ec p.tail.tail
  else bracketLoop c true ec p.tail

/-! ### Captures -/

/-- The field `len` of a capture. -/
inductive CaptureLen where
  /-- `CAP_UNFINISHED`. -/
  | unfinished
  /-- `CAP_POSITION`. -/
  | position
  | len (n : ℕ)
deriving DecidableEq

/-- A capture. -/
structure Capture where
  init : ℕ
  len : CaptureLen
deriving DecidableEq

/-- The result of a match: where it ends, and the captures. -/
abbrev Result := Except String (Option ℕ × List Capture)

/-- A match of what is left of a pattern, at an offset and with the captures up to there. -/
abbrev Matcher := ℕ → List Capture → Result

def LUA_MAXCAPTURES : ℕ := 32

/-- `start_capture`; the level is the number of captures. -/
def start_capture (rest : Matcher) (what : CaptureLen) : Matcher := fun s capture => do
  if LUA_MAXCAPTURES ≤ capture.length then throw "too many captures"
  let (res, capture) ← rest s (capture ++ [⟨s, what⟩])
  return (res, if res = none then capture.dropLast else capture)

def capture_to_close (capture : List Capture) : Except String ℕ :=
  match (List.range capture.length).reverse.find? fun l =>
    (capture[l]?.map Capture.len) = some .unfinished with
  | some l => .ok l
  | none => .error "invalid pattern capture"

def end_capture (rest : Matcher) : Matcher := fun s capture => do
  let l ← capture_to_close capture
  let (res, capture) ← rest s (capture.modify l fun c => { c with len := .len (s - c.init) })
  return (res, if res = none then capture.modify l fun c => { c with len := .unfinished }
    else capture)

def check_capture (capture : List Capture) (l : UInt8) : Except String Capture :=
  match capture[l.toNat - 0x31]? with
  | some c =>
    if l < chr '1' ∨ c.len = .unfinished then
      .error ("invalid capture index %" ++ toString (l.toNat - 0x30))
    else .ok c
  | none => .error ("invalid capture index %" ++ toString (l.toNat - 0x30))

section Items

variable (src : Bytes)

def match_capture (capture : List Capture) (s : ℕ) (l : UInt8) : Except String (Option ℕ) := do
  match (← check_capture capture l) with
  | ⟨start, .len n⟩ =>
    if n ≤ src.length - s ∧ (src.drop start).take n = (src.drop s).take n then return some (s + n)
    else return none
  | _ => return none

/-! ### Items -/

def singlematch (p ep : Bytes) (s : ℕ) : Bool :=
  if src.length ≤ s then false
  else if peek p = chr '.' then true
  else if peek p = L_ESC then match_class (peek (src.drop s)) (peek p.tail)
  else if peek p = chr '[' then matchbracketclass (peek (src.drop s)) p (ep.length + 1)
  else peek p == peek (src.drop s)

/-- The loop of `matchbalance`. -/
def balanceLoop (b e : UInt8) : ℕ → ℕ → Bytes → Option ℕ
  | _, _, [] => none
  | cont, s, c :: rest =>
    if c = e then if cont = 1 then some (s + 1) else balanceLoop b e (cont - 1) (s + 1) rest
    else balanceLoop b e (if c = b then cont + 1 else cont) (s + 1) rest

def matchbalance (s : ℕ) (p : Bytes) : Except String (Option ℕ) :=
  if p.length ≤ 1 then .error "malformed pattern (missing arguments to '%b')"
  else if peek (src.drop s) ≠ peek p then .ok none
  else .ok (balanceLoop (peek p) (peek p.tail) 1 (s + 1) (src.drop (s + 1)))

/-- The first loop of `max_expand`: how often the item matches. -/
def countMatches (single : ℕ → Bool) : ℕ → ℕ → ℕ
  | 0, _ => 0
  | k + 1, s => if single s then countMatches single k (s + 1) + 1 else 0

/-- The second loop of `max_expand`. -/
def shrink (rest : Matcher) : ℕ → Matcher
  | 0, s, capture => rest s capture
  | i + 1, s, capture => do
    match (← rest (s + (i + 1)) capture) with
    | (some res, capture) => return (some res, capture)
    | (none, capture) => shrink rest i s capture

def max_expand (single : ℕ → Bool) (rest : Matcher) : Matcher := fun s capture =>
  shrink rest (countMatches single (src.length - s) s) s capture

/-- The loop of `min_expand`, where `k` bytes of the subject are left. -/
def minLoop (single : ℕ → Bool) (rest : Matcher) : ℕ → Matcher
  | 0, s, capture => rest s capture
  | k + 1, s, capture => do
    match (← rest s capture) with
    | (some res, capture) => return (some res, capture)
    | (none, capture) =>
      if single s then minLoop single rest k (s + 1) capture else return (none, capture)

def min_expand (single : ℕ → Bool) (rest : Matcher) : Matcher := fun s capture =>
  minLoop single rest (src.length - s) s capture

end Items

def is_literal_word_hyphen (p ep : Bytes) : Bool :=
  peek ep == chr '-' && ep.length + 1 == p.length && !ep.tail.isEmpty && isalnum (peek p) &&
    isalnum (peek ep.tail)

theorem setend_length {p ep : Bytes} (h : setend p = .ok ep) : ep.length < p.length := by
  fun_induction setend p with
  | case1 => cases h
  | case2 => cases h
  | case3 d p hp =>
    obtain rfl := Except.ok.inj h
    simp only [List.length_tail, List.length_cons]
    omega
  | case4 d p hp ih =>
    have := ih h
    simp only [List.length_cons]
    omega
  | case5 c p hc hp =>
    obtain rfl := Except.ok.inj h
    simp only [List.length_tail, List.length_cons]
    omega
  | case6 c p hc hp ih =>
    have := ih h
    simp only [List.length_cons]
    omega

/-- The rest of a pattern is shorter. -/
theorem classend_length {p ep : Bytes} (hp : p ≠ []) (h : classend p = .ok ep) :
    ep.length < p.length := by
  unfold classend at h
  split at h
  · exact absurd rfl hp
  · rename_i c p _
    split_ifs at h with hesc hset hneg
    · split at h
      · cases h
      · obtain rfl := Except.ok.inj h
        simp only [List.length_cons]
        omega
    · have := setend_length h
      rw [List.length_tail] at this
      rw [List.length_cons]
      omega
    · have := setend_length h
      rw [List.length_cons]
      omega
    · obtain rfl := Except.ok.inj h
      exact Nat.lt_succ_self _

/-! ### The matcher -/

section Match

variable (hyphen : Bytes → Bytes → Bool) (src : Bytes)

/-- An item from `p` to `ep` and its suffix: `call` and `skip` match what is after the suffix, in a
call of `match` and without one, and `next` matches from `ep` on. -/
def match_suffix (p ep : Bytes) (call skip next : Matcher) : Matcher := fun s capture =>
  if !singlematch src p ep s then
    if peek ep = chr '*' ∨ peek ep = chr '?' ∨ (peek ep = chr '-' ∧ !hyphen p ep) then
      skip s capture
    else .ok (none, capture)
  else if peek ep = chr '?' then do
    match (← call (s + 1) capture) with
    | (some res, capture) => return (some res, capture)
    | (none, capture) => skip s capture
  else if peek ep = chr '+' then max_expand src (singlematch src p ep) call (s + 1) capture
  else if peek ep = chr '*' then max_expand src (singlematch src p ep) call s capture
  else if peek ep = chr '-' then
    if hyphen p ep then next (s + 1) capture
    else min_expand src (singlematch src p ep) call s capture
  else next (s + 1) capture

/-- An item that may have a suffix: `call` is a call of `match`, `next` goes on without one. -/
def match_single (p : Bytes) (hp : p ≠ [])
    (call next : ∀ q : Bytes, q.length < p.length → Matcher) : Matcher :=
  match h : classend p with
  | .error e => fun _ _ => .error e
  | .ok ep =>
    have hep : ep.length < p.length := classend_length hp h
    have htail : ep.tail.length < p.length := by rw [List.length_tail]; omega
    match_suffix hyphen src p ep (call ep.tail htail) (next ep.tail htail) (next ep hep)

/-- An item after the escape character. -/
def match_escape (c : UInt8) (p : Bytes)
    (call next : ∀ q : Bytes, q.length < (c :: p).length → Matcher) : Matcher := fun s capture =>
  if peek p = chr 'b' then do
    match (← matchbalance src s p.tail) with
    | some s => next (p.drop 3) (by rw [List.length_drop, List.length_cons]; omega) s capture
    | none => return (none, capture)
  else if peek p = chr 'f' then
    if hset : peek p.tail = chr '[' then
      match h : classend p.tail with
      | .error e => .error e
      | .ok ep =>
        -- The frontier is between a byte outside of the set and one inside.
        let previous := if s = 0 then 0 else peek (src.drop (s - 1))
        if !matchbracketclass previous p.tail (ep.length + 1) &&
            matchbracketclass (peek (src.drop s)) p.tail (ep.length + 1) then
          next ep (by
            have := classend_length (by rintro hp; rw [hp] at hset; cases hset) h
            rw [List.length_tail] at this
            rw [List.length_cons]
            omega) s capture
        else .ok (none, capture)
    else .error "missing '[' after '%f' in pattern"
  else if isdigit (peek p) then do
    match (← match_capture src capture s (peek p)) with
    | some s => next p.tail (by rw [List.length_tail, List.length_cons]; omega) s capture
    | none => return (none, capture)
  else match_single hyphen src (c :: p) (List.cons_ne_nil c p) call next s capture

/-- The first item of a pattern. -/
def match_item (c : UInt8) (p : Bytes)
    (call next : ∀ q : Bytes, q.length < (c :: p).length → Matcher) : Matcher := fun s capture =>
  if c = chr '(' then
    if peek p = chr ')' then
      start_capture (call p.tail (by rw [List.length_tail, List.length_cons]; omega)) .position s
        capture
    else start_capture (call p (Nat.lt_succ_self _)) .unfinished s capture
  else if c = chr ')' then end_capture (call p (Nat.lt_succ_self _)) s capture
  else if c = chr '$' ∧ p = [] then .ok (if s = src.length then some s else none, capture)
  else if c = L_ESC then match_escape hyphen src c p call next s capture
  else match_single hyphen src (c :: p) (List.cons_ne_nil c p) call next s capture

/-- A call of `match`, where `init` is what it does, and `matchdepth` calls are left. -/
def within (init : ℕ → Matcher) (matchdepth : ℕ) : Matcher := fun s capture =>
  if matchdepth = 0 then .error "pattern too complex" else init (matchdepth - 1) s capture

/-- The matcher from `init` on. -/
def init (matchdepth : ℕ) : Bytes → Matcher
  | [] => fun s capture => .ok (some s, capture)
  | c :: p => match_item hyphen src c p
      (fun q _ => within (fun matchdepth => init matchdepth q) matchdepth)
      (fun q _ => init matchdepth q)
termination_by p => p.length
decreasing_by all_goals assumption

/-- `match`. -/
def do_match (matchdepth : ℕ) (p : Bytes) : Matcher :=
  within (fun matchdepth => init hyphen src matchdepth p) matchdepth

end Match

/-! ### `string.find` -/

/-- The offset of a byte, as `memchr` finds it. -/
def memchr (c : UInt8) (s : Bytes) : Option ℕ := s.findIdx? (· == c)

theorem memchr_lt {c : UInt8} {s : Bytes} {k : ℕ} (h : memchr c s = some k) : k < s.length :=
  (List.findIdx?_eq_some_iff_getElem.mp h).1

/-- The loop of `lmemfind`: `l1` bytes of `s1` may be the first one, which is `c`, and `s2` are the
other ones. -/
def memfindLoop (c : UInt8) (s2 : Bytes) (l1 : ℕ) (s1 : Bytes) (offset : ℕ) : Option ℕ :=
  match h : memchr c (s1.take l1) with
  | none => none
  | some k =>
    if (s1.drop (k + 1)).take s2.length = s2 then some (offset + k)
    else memfindLoop c s2 (l1 - (k + 1)) (s1.drop (k + 1)) (offset + (k + 1))
termination_by l1
decreasing_by
  have := memchr_lt h
  rw [List.length_take] at this
  omega

def lmemfind (s1 : Bytes) : Bytes → Option ℕ
  | [] => some 0
  | c :: s2 =>
    if s1.length < (c :: s2).length then none else memfindLoop c s2 (s1.length - s2.length) s1 0

/-- A Lua value that `string.find` returns. -/
inductive FindValue where
  | nil
  | integer (i : ℕ)
  | string (s : Bytes)
deriving DecidableEq

/-- `push_onecapture`, for a capture there is. -/
def push_onecapture (src : Bytes) (c : Capture) : Except String FindValue :=
  match c.len with
  | .unfinished => .error "unfinished capture"
  | .position => .ok (.integer (c.init + 1))
  | .len n => .ok (.string ((src.drop c.init).take n))

/-- `push_captures`; without captures the whole match is one, if it is given. -/
def push_captures (src : Bytes) (capture : List Capture) (whole : Option (ℕ × ℕ)) :
    Except String (List FindValue) :=
  match capture, whole with
  | [], some (s, e) => .ok [.string ((src.drop s).take (e - s))]
  | _, _ => capture.mapM (push_onecapture src)

def posrelat (pos : Int32) (len : ℕ) : ℤ :=
  max 0 (if pos.toInt < 0 then pos.toInt + len + 1 else pos.toInt)

/-- The characters that are special. -/
def SPECIALS : Bytes := "^$*+?.([%-".toList.map chr

def nospecials (p : Bytes) : Bool := p.all (· ∉ SPECIALS)

def LUAI_MAXCCALLS : ℕ := 200

/-- The loop of `str_find_aux` over the offsets of the subject, of which `k` are left. -/
def findLoop (rest : Matcher) (anchor : Bool) : ℕ → ℕ →
    Except String (Option (ℕ × ℕ × List Capture))
  | 0, s1 => do
    match (← rest s1 []) with
    | (some e, capture) => return some (s1, e, capture)
    | (none, _) => return none
  | k + 1, s1 => do
    match (← rest s1 []) with
    | (some e, capture) => return some (s1, e, capture)
    | (none, _) => if anchor then return none else findLoop rest anchor k (s1 + 1)

def str_find_aux (hyphen : Bytes → Bytes → Bool) (find plain : Bool) (s p : Bytes) (init : Int32) :
    Except String (List FindValue) :=
  let init := max 1 (posrelat init s.length)
  if (s.length + 1 : ℤ) < init then .ok [.nil]
  else
    let start := (init - 1).toNat
    if find && (plain || nospecials p) then
      match lmemfind (s.drop start) p with
      | some k => .ok [.integer (start + k + 1), .integer (start + k + p.length)]
      | none => .ok [.nil]
    else
      let anchor := peek p == chr '^'
      let p := if anchor then p.tail else p
      match findLoop (do_match hyphen s LUAI_MAXCCALLS p) anchor (s.length - start) start with
      | .error e => .error e
      | .ok none => .ok [.nil]
      | .ok (some (s1, e, capture)) =>
        if find then do
          return .integer (s1 + 1) :: .integer e :: (← push_captures s capture none)
        else push_captures s capture (some (s1, e))

/-- `string.find`. -/
def str_find (s p : Bytes) (init : Int32) (plain : Bool) : Except String (List FindValue) :=
  str_find_aux is_literal_word_hyphen true plain s p init

end StrLib

end Jaci
