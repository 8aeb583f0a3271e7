import Jaci.Lib.Decimal
import Jaci.Lib.Find
import Jaci.Net.Percent

/-!
# URLs

`parse_url_full` searches the marks of the parts independently of each other: a question mark in a
fragment is taken for that of a query.

* `parse_url_full`, `net_parseurl`, `net_urlformat` : the source;
* `Parts`, `Url` : the parts of a URL, and the characters that they may have;
* `Url.components` : what is to be found;
* `parse_url_full_iff` : when it is found;
* `Tuple` : what is formatted;
* `parse_format_iff` : **when both directions are right**;
* `question_in_fragment` : a fragment with a question mark.
-/

namespace Jaci

namespace Net

open Wire StdString
open Strto (cstr atoi number)

/-! ### The source -/

def tolower (c : UInt8) : UInt8 := if 0x41 ≤ c ∧ c ≤ 0x5a then c + 0x20 else c

def http : Bytes := [104, 116, 116, 112]

def https : Bytes := [104, 116, 116, 112, 115]

/-- `ws`. -/
def wsScheme : Bytes := [119, 115]

def wss : Bytes := [119, 115, 115]

def localhost : Bytes := [108, 111, 99, 97, 108, 104, 111, 115, 116]

/-- `://`. -/
def schemeMark : Bytes := [0x3a, 0x2f, 0x2f]

/-- The results of `parse_url_full`. -/
structure Components where
  scheme : Bytes
  host : Bytes
  /-- The port, an `int`. -/
  port : ℤ
  path : Bytes
  query : Bytes
  fragment : Bytes
deriving DecidableEq

/-- A difference of `size_t`. -/
def sizeSub (a b : ℕ) : ℕ := (a + 2 ^ 64 - b) % 2 ^ 64

/-- The loop that looks for the end of the host. -/
def hostEnd (url : Bytes) (host_start : ℕ) : ℕ :=
  host_start + ((url.drop host_start).takeWhile fun c => c ≠ 0x2f ∧ c ≠ 0x3f ∧ c ≠ 0x23).length

def defaultPort (scheme : Bytes) : ℤ :=
  if scheme = https ∨ scheme = wss then 443
  else if scheme = http ∨ scheme = wsScheme then 80
  else 80

def hostPort (scheme host_port : Bytes) : Bytes × ℤ :=
  let colon := find host_port [0x3a] 0
  if colon ≠ npos then (substr host_port 0 colon, atoi (host_port.drop (colon + 1)))
  else (host_port, defaultPort scheme)

/-- The path, from the positions of the marks. -/
def pathAt (url : Bytes) (path_start query_start frag_start : ℕ) : Bytes :=
  if path_start ≠ npos ∧ path_start < query_start ∧ path_start < frag_start then
    let p_end := if query_start ≠ npos then query_start
      else if frag_start ≠ npos then frag_start else url.length
    substr url path_start (sizeSub p_end path_start)
  else [0x2f]

/-- The query, from the positions of the marks. -/
def queryAt (url : Bytes) (query_start frag_start : ℕ) : Bytes :=
  if query_start ≠ npos then
    let q_end := if frag_start ≠ npos then frag_start else url.length
    substr url (query_start + 1) (sizeSub (sizeSub q_end query_start) 1)
  else []

def parse_url_full (url : Bytes) : Option Components :=
  let scheme_end := find url schemeMark 0
  if scheme_end = npos then none
  else
    let scheme := (substr url 0 scheme_end).map tolower
    let host_start := scheme_end + 3
    let path_start := find url [0x2f] host_start
    let query_start := find url [0x3f] host_start
    let frag_start := find url [0x23] host_start
    let host_end := hostEnd url host_start
    let (host, port) := hostPort scheme (substr url host_start (host_end - host_start))
    let path := pathAt url path_start query_start frag_start
    let query := queryAt url query_start frag_start
    let fragment := if frag_start ≠ npos then url.drop (frag_start + 1) else []
    some ⟨scheme, host, port, path, query, fragment⟩

/-- The fields of a table. -/
structure Fields where
  /-- The string `scheme`. -/
  scheme : Option Bytes
  /-- The string `host`. -/
  host : Option Bytes
  /-- The integer `port`. -/
  port : Option ℤ
  /-- The string `path`. -/
  path : Option Bytes
  /-- The string `query`. -/
  query : Option Bytes
  /-- The string `fragment`. -/
  fragment : Option Bytes
deriving DecidableEq

/-- The table that `net_parseurl` creates.  It has no empty query and no empty fragment. -/
def Components.table (c : Components) : Fields where
  scheme := some c.scheme
  host := some c.host
  port := some c.port
  path := some c.path
  query := if c.query = [] then none else some c.query
  fragment := if c.fragment = [] then none else some c.fragment

def net_parseurl (url : Bytes) : Option Fields := (parse_url_full url).map Components.table

def hidesPort (scheme : Bytes) (port : ℤ) : Bool :=
  !(decide (port > 0) && !(port = 80 && scheme = http) && !(port = 443 && scheme = https) &&
    !(port = 80 && scheme = wsScheme) && !(port = 443 && scheme = wss))

/-- `net_urlformat`.  `lua_tostring` gives a C string. -/
def net_urlformat (t : Fields) : Bytes :=
  let scheme := (t.scheme.map cstr).getD http
  let host := (t.host.map cstr).getD localhost
  let port := t.port.getD 0
  let path := (t.path.map cstr).getD [0x2f]
  let query := (t.query.map cstr).getD []
  let fragment := (t.fragment.map cstr).getD []
  let formatted := scheme ++ schemeMark ++ host
  let formatted := if hidesPort scheme port then formatted else formatted ++ 0x3a :: decimalInt port
  let formatted := if path.head? = some 0x2f then formatted else formatted ++ [0x2f]
  let formatted := formatted ++ path
  let formatted := if query = [] then formatted else formatted ++ 0x3f :: query
  if fragment = [] then formatted else formatted ++ 0x23 :: fragment

/-! ### The characters of the parts -/

/-- A character of a scheme: a letter, a digit, or one of `+-.`. -/
def isSchemeChar (c : UInt8) : Bool := isalnum c || c ∈ [0x2b, 0x2d, 0x2e]

/-- A character of a registered name: an unreserved one of `-._~`, a delimiter within a part, one of
`!$&'()*+,;=`, or the percent sign of an encoded one. -/
def isRegName (c : UInt8) : Bool :=
  isalnum c || c ∈ [0x2d, 0x2e, 0x5f, 0x7e, 0x21, 0x24, 0x26, 0x27, 0x28, 0x29, 0x2a, 0x2b, 0x2c,
    0x3b, 0x3d, 0x25]

def isPathChar (c : UInt8) : Bool := isRegName c || c ∈ [0x3a, 0x40, 0x2f]

/-- A character of a query or a fragment. -/
def isQueryChar (c : UInt8) : Bool := isPathChar c || c = 0x3f

/-- The parts of a URL as they are written. -/
structure Parts where
  scheme : Bytes
  host : Bytes
  port : Option Bytes
  path : Bytes
  query : Option Bytes
  fragment : Option Bytes

def marked (mark : UInt8) : Option Bytes → Bytes
  | none => []
  | some part => mark :: part

namespace Parts

def authority (u : Parts) : Bytes := u.host ++ marked 0x3a u.port

def text (u : Parts) : Bytes :=
  u.scheme ++ schemeMark ++
    (u.authority ++ (u.path ++ (marked 0x3f u.query ++ marked 0x23 u.fragment)))

end Parts

/-- A URL with a registered name or an address as its host. -/
structure Url extends Parts where
  scheme_chars : ∀ c ∈ scheme, isSchemeChar c = true
  host_chars : ∀ c ∈ host, isRegName c = true
  port_digits : ∀ ds ∈ port, ∀ c ∈ ds, Strto.isDigit 10 c = true
  path_chars : ∀ c ∈ path, isPathChar c = true
  path_begins : ∀ c ∈ path.head?, c = 0x2f
  query_chars : ∀ q ∈ query, ∀ c ∈ q, isQueryChar c = true
  fragment_chars : ∀ f ∈ fragment, ∀ c ∈ f, isQueryChar c = true
  fits : toParts.text.length ≤ max_size

namespace Url

/-- The number of the port: that of the scheme if there are no digits. -/
def portNumber (u : Url) : ℤ :=
  match u.port with
  | none | some [] => defaultPort (u.scheme.map tolower)
  | some (d :: ds) => number 10 (d :: ds)

/-- The components: the case of a scheme does not matter, and an empty path is a slash. -/
def components (u : Url) : Components where
  scheme := u.scheme.map tolower
  host := u.host
  port := u.portNumber
  path := if u.path = [] then [0x2f] else u.path
  query := u.query.getD []
  fragment := u.fragment.getD []

/-- After the colon there are digits, and the number is an `int`. -/
def PortFits (u : Url) : Prop := ∀ ds ∈ u.port, ds ≠ [] ∧ number 10 ds < 2 ^ 31

/-- There is a query, or no question mark in the fragment, or the path is empty and the first question
mark is the last byte. -/
def QueryFound (u : Url) : Prop :=
  u.query = none → ∀ f ∈ u.fragment, 0x3f ∈ f → u.path = [] ∧ f.idxOf 0x3f + 1 = f.length

end Url

/-! ### Where the marks are -/

variable {u : Url} {s line rest pre ds : Bytes} {c : UInt8}

theorem notMem_of {chars : UInt8 → Bool} (h : ∀ b ∈ s, chars b = true) (hc : chars c = false) :
    c ∉ s := by
  intro hmem
  rw [h c hmem] at hc
  cases hc

theorem notMem_marked {mark : UInt8} {part : Option Bytes} (hmark : c ≠ mark)
    (h : ∀ p ∈ part, c ∉ p) : c ∉ marked mark part := by
  cases part with
  | none => exact List.not_mem_nil
  | some p => exact List.not_mem_cons_of_ne_of_not_mem hmark (h p rfl)

namespace Url

theorem notMem_scheme (u : Url) : 0x3a ∉ u.scheme := notMem_of u.scheme_chars (by decide)

theorem notMem_host (u : Url) : 0x3a ∉ u.host := notMem_of u.host_chars (by decide)

/-- A mark is no part of the host and the port. -/
theorem notMem_authority (u : Url) (hc : c = 0x2f ∨ c = 0x3f ∨ c = 0x23) : c ∉ u.authority := by
  rw [Parts.authority, List.mem_append, not_or]
  rcases hc with rfl | rfl | rfl
  · exact ⟨notMem_of u.host_chars (by decide), notMem_marked (by decide) fun p hp =>
      notMem_of (u.port_digits p hp) (by decide)⟩
  · exact ⟨notMem_of u.host_chars (by decide), notMem_marked (by decide) fun p hp =>
      notMem_of (u.port_digits p hp) (by decide)⟩
  · exact ⟨notMem_of u.host_chars (by decide), notMem_marked (by decide) fun p hp =>
      notMem_of (u.port_digits p hp) (by decide)⟩

theorem question_notMem_path (u : Url) : 0x3f ∉ u.path := notMem_of u.path_chars (by decide)

theorem hash_notMem_path (u : Url) : 0x23 ∉ u.path := notMem_of u.path_chars (by decide)

theorem hash_notMem_query (u : Url) : 0x23 ∉ marked 0x3f u.query :=
  notMem_marked (by decide) fun q hq => notMem_of (u.query_chars q hq) (by decide)

/-- What stands before the host. -/
def before (u : Url) : Bytes := u.scheme ++ schemeMark

/-- What stands before the path. -/
def origin (u : Url) : Bytes := u.before ++ u.authority

theorem length_before (u : Url) : u.before.length = u.scheme.length + 3 := List.length_append

theorem text_eq (u : Url) :
    u.text = u.before ++ (u.authority ++
      (u.path ++ (marked 0x3f u.query ++ marked 0x23 u.fragment))) := rfl

theorem find_scheme (u : Url) : find u.text schemeMark 0 = u.scheme.length := by
  have h := find_of_notMem (p := [0x2f, 0x2f]) [] (u.authority ++
    (u.path ++ (marked 0x3f u.query ++ marked 0x23 u.fragment))) u.notMem_scheme
  rwa [List.nil_append, List.length_nil, Nat.zero_add] at h

/-- A mark is searched from the path on. -/
theorem find_authority (u : Url) (hc : c = 0x2f ∨ c = 0x3f ∨ c = 0x23) (rest : Bytes) :
    find (u.before ++ (u.authority ++ rest)) [c] u.before.length =
      find (u.origin ++ rest) [c] u.origin.length :=
  find_skip _ _ (u.notMem_authority hc)

theorem find_hash (u : Url) :
    find u.text [0x23] u.before.length =
      if u.fragment.isSome then (u.origin ++ u.path ++ marked 0x3f u.query).length else npos := by
  rw [text_eq, find_authority u (.inr (.inr rfl)), find_skip _ _ u.hash_notMem_path,
    find_skip _ _ u.hash_notMem_query]
  cases u.fragment with
  | none => exact find_none _ List.not_mem_nil
  | some f => exact find_here _ _ _

theorem find_question_query (u : Url) (h : u.query.isSome) :
    find u.text [0x3f] u.before.length = (u.origin ++ u.path).length := by
  obtain ⟨q, hq⟩ := Option.isSome_iff_exists.1 h
  rw [text_eq, find_authority u (.inr (.inl rfl)), find_skip _ _ u.question_notMem_path, hq]
  exact find_here _ _ _

/-- Without a query the question mark is searched in the fragment. -/
theorem find_question_fragment (u : Url) (h : u.query = none) :
    find u.text [0x3f] u.before.length =
      find (u.origin ++ u.path ++ marked 0x23 u.fragment) [0x3f] (u.origin ++ u.path).length := by
  rw [text_eq, find_authority u (.inr (.inl rfl)), find_skip _ _ u.question_notMem_path, h]
  rfl

theorem find_slash (u : Url) (h : u.path ≠ []) :
    find u.text [0x2f] u.before.length = u.origin.length := by
  rw [text_eq, find_authority u (.inl rfl)]
  cases hpath : u.path with
  | nil => exact absurd hpath h
  | cons c path =>
    obtain rfl := u.path_begins c (by rw [hpath]; rfl)
    exact find_here _ _ _

theorem length_origin_le (u : Url) : u.origin.length ≤ u.text.length := by
  rw [text_eq, origin]
  simp only [List.length_append]
  omega

/-- Without a path no slash stands before the other marks. -/
theorem find_slash_empty (u : Url) (h : u.path = []) :
    ¬ (find u.text [0x2f] u.before.length ≠ npos ∧
      find u.text [0x2f] u.before.length < find u.text [0x3f] u.before.length ∧
      find u.text [0x2f] u.before.length < find u.text [0x23] u.before.length) := by
  rintro ⟨hnpos, hquestion, hhash⟩
  have horigin : u.origin.length ≤ npos :=
    Nat.le_of_lt (lt_npos (s := ⟨u.text, u.fits⟩) u.length_origin_le)
  have hle : u.origin.length ≤ find u.text [0x2f] u.before.length := by
    rw [text_eq, find_authority u (.inl rfl)]
    exact le_find (List.cons_ne_nil _ _) horigin
  cases hq : u.query with
  | some q =>
    rw [u.find_question_query (by rw [hq]; rfl), h, List.append_nil] at hquestion
    omega
  | none =>
    cases hf : u.fragment with
    | some f =>
      rw [find_hash, hf, hq, h] at hhash
      simp only [marked, List.append_nil, Option.isSome_some, if_true] at hhash
      omega
    | none =>
      refine hnpos ?_
      rw [text_eq, find_authority u (.inl rfl), h, hq, hf]
      exact find_none _ List.not_mem_nil

/-! ### What is read -/

def portRead (u : Url) : ℤ :=
  match u.port with
  | none => defaultPort (u.scheme.map tolower)
  | some ds => atoi ds

theorem hostEnd_eq (u : Url) : hostEnd u.text u.before.length = u.origin.length := by
  have hauthority : ∀ c ∈ u.authority, decide (c ≠ 0x2f ∧ c ≠ 0x3f ∧ c ≠ 0x23) = true := by
    intro c hc
    rw [decide_eq_true_iff]
    refine ⟨?_, ?_, ?_⟩
    · rintro rfl
      exact u.notMem_authority (.inl rfl) hc
    · rintro rfl
      exact u.notMem_authority (.inr (.inl rfl)) hc
    · rintro rfl
      exact u.notMem_authority (.inr (.inr rfl)) hc
  have hrest : (u.path ++ (marked 0x3f u.query ++ marked 0x23 u.fragment)).takeWhile
      (fun c => c ≠ 0x2f ∧ c ≠ 0x3f ∧ c ≠ 0x23) = [] := by
    cases hpath : u.path with
    | cons c path =>
      obtain rfl := u.path_begins c (by rw [hpath]; rfl)
      rfl
    | nil => cases u.query <;> cases u.fragment <;> rfl
  rw [hostEnd, text_eq, List.drop_left, List.takeWhile_append_of_pos hauthority, hrest,
    List.append_nil, origin, List.length_append]

theorem hostPort_eq (u : Url) :
    hostPort (u.scheme.map tolower) u.authority = (u.host, u.portRead) := by
  rw [Parts.authority, portRead]
  cases u.port with
  | none =>
    have hfind : find (u.host ++ []) [0x3a] 0 = npos := find_none [] (by simpa using u.notMem_host)
    rw [marked, hostPort, hfind, if_neg (fun h => h rfl), List.append_nil]
  | some ds =>
    have hfind : find (u.host ++ 0x3a :: ds) [0x3a] 0 = u.host.length := by
      have h := find_of_notMem (p := []) [] ds u.notMem_host
      rwa [List.nil_append, List.append_assoc, List.length_nil, Nat.zero_add] at h
    have hlt : u.host.length < npos := by
      refine lt_npos (s := ⟨u.text, u.fits⟩) ?_
      simp only [text_eq, Parts.authority, List.length_append]
      omega
    have hsub : substr (u.host ++ 0x3a :: ds) 0 u.host.length = u.host := substr_append [] _ _
    rw [marked, hostPort, hfind, if_pos (Nat.ne_of_lt hlt), hsub, ← List.drop_drop, List.drop_left]
    rfl

/-- A question mark in the fragment, without a query: what stands before it in the fragment, and what
stands after it. -/
def stray (u : Url) : Option (Bytes × Bytes) :=
  match u.query, u.fragment with
  | none, some f =>
    if 0x3f ∈ f then some (f.take (f.idxOf 0x3f), f.drop (f.idxOf 0x3f + 1)) else none
  | _, _ => none

/-- The path that is read: it goes on to the stray question mark. -/
def pathRead (u : Url) : Bytes :=
  if u.path = [] then [0x2f]
  else match u.stray with
    | none => u.path
    | some (f1, _) => u.path ++ 0x23 :: f1

/-- The query that is read: what stands after the stray question mark. -/
def queryRead (u : Url) : Bytes :=
  match u.stray with
  | none => u.query.getD []
  | some (_, f2) => f2

theorem idxOf_mark {f1 f2 : Bytes} (h : 0x3f ∉ f1) : (f1 ++ 0x3f :: f2).idxOf 0x3f = f1.length := by
  rw [List.idxOf_append, if_neg h, List.idxOf_cons_self, Nat.zero_add]

theorem stray_eq_some {f1 f2 : Bytes} (h : u.stray = some (f1, f2)) :
    u.query = none ∧ u.fragment = some (f1 ++ 0x3f :: f2) ∧ 0x3f ∉ f1 := by
  rw [stray] at h
  split at h
  · next f hq hf =>
    split_ifs at h with hmem
    obtain ⟨g1, g2, rfl, hg⟩ := List.eq_append_cons_of_mem hmem
    rw [idxOf_mark hg, ← List.drop_drop, List.take_left, List.drop_left] at h
    obtain ⟨rfl, rfl⟩ := Prod.mk.inj (Option.some.inj h)
    exact ⟨hq, hf, hg⟩
  · cases h

/-- Without a stray question mark there is a query or no question mark. -/
theorem stray_eq_none (h : u.stray = none) (hq : u.query = none) :
    0x3f ∉ marked 0x23 u.fragment := by
  rw [stray, hq] at h
  cases hf : u.fragment with
  | none => exact List.not_mem_nil
  | some f =>
    rw [hf] at h
    dsimp only at h
    split_ifs at h with hmem
    exact List.not_mem_cons_of_ne_of_not_mem (by decide) hmem

theorem sizeSub_of_le {a b : ℕ} (h : b ≤ a) (ha : a < 2 ^ 64) : sizeSub a b = a - b := by
  rw [sizeSub]
  omega

/-- The stray question mark is found. -/
theorem find_question_stray {f1 f2 : Bytes} (h : u.stray = some (f1, f2)) :
    find u.text [0x3f] u.before.length = (u.origin ++ u.path ++ 0x23 :: f1).length := by
  obtain ⟨hq, hf, hnot⟩ := stray_eq_some h
  have hnot' : (0x3f : UInt8) ∉ 0x23 :: f1 := List.not_mem_cons_of_ne_of_not_mem (by decide) hnot
  have hfind := find_of_notMem (p := []) (u.origin ++ u.path) f2 hnot'
  rw [List.append_assoc (0x23 :: f1), ← List.length_append] at hfind
  rw [find_question_fragment u hq, hf]
  exact hfind

theorem find_question_none (hq : u.query = none) (h : u.stray = none) :
    find u.text [0x3f] u.before.length = npos := by
  rw [find_question_fragment u hq]
  exact find_none _ (stray_eq_none h hq)

theorem find_hash_some {f : Bytes} (h : u.fragment = some f) :
    find u.text [0x23] u.before.length = (u.origin ++ u.path ++ marked 0x3f u.query).length := by
  rw [find_hash, h]
  rfl

theorem find_hash_none (h : u.fragment = none) : find u.text [0x23] u.before.length = npos := by
  rw [find_hash, h]
  rfl

theorem length_text (u : Url) :
    u.text.length = u.origin.length + u.path.length + (marked 0x3f u.query).length +
      (marked 0x23 u.fragment).length := by
  rw [text_eq, origin]
  simp only [List.length_append]
  omega

theorem length_text_lt (u : Url) : u.text.length < npos :=
  lt_npos (s := ⟨u.text, u.fits⟩) (Nat.le_refl _)

/-- The path is read up to the mark that was found. -/
theorem pathAt_of (u : Url) (hpath : u.path ≠ []) {question hash : ℕ}
    (htext : u.text = u.origin ++ (line ++ rest)) (hquestion : u.origin.length < question)
    (hhash : u.origin.length < hash)
    (hend : (if question ≠ npos then question else if hash ≠ npos then hash else u.text.length) =
      (u.origin ++ line).length) :
    pathAt u.text (find u.text [0x2f] u.before.length) question hash = line := by
  have hlen : u.text.length ≤ 2 ^ 63 - 1 := u.fits
  have hle := congrArg List.length htext
  simp only [List.length_append] at hle
  have hlt : u.origin.length < npos := lt_npos (s := ⟨u.text, u.fits⟩) u.length_origin_le
  rw [pathAt, u.find_slash hpath, if_pos ⟨Nat.ne_of_lt hlt, hquestion, hhash⟩]
  simp only [hend]
  rw [List.length_append, sizeSub_of_le (by omega) (by omega), Nat.add_sub_cancel_left, htext]
  exact substr_append _ _ _

/-- The position of the fragment's mark, or the end. -/
theorem hash_or_end (u : Url) :
    (if find u.text [0x23] u.before.length ≠ npos then find u.text [0x23] u.before.length
      else u.text.length) = (u.origin ++ u.path ++ marked 0x3f u.query).length := by
  have hlen := u.length_text
  have hlt := u.length_text_lt
  cases hf : u.fragment with
  | some f =>
    rw [find_hash_some hf, if_pos]
    simp only [List.length_append]
    omega
  | none =>
    rw [find_hash_none hf, if_neg (fun h => h rfl)]
    rw [hf] at hlen
    simp only [List.length_append]
    exact hlen

theorem origin_lt_hash (u : Url) (h : u.path ≠ []) :
    u.origin.length < find u.text [0x23] u.before.length := by
  have hlen := u.length_text
  have hlt := u.length_text_lt
  have hpos := List.length_pos_iff.2 h
  cases hf : u.fragment with
  | some f =>
    rw [find_hash_some hf]
    simp only [List.length_append]
    omega
  | none =>
    rw [find_hash_none hf]
    omega

theorem pathAt_eq (u : Url) :
    pathAt u.text (find u.text [0x2f] u.before.length) (find u.text [0x3f] u.before.length)
      (find u.text [0x23] u.before.length) = u.pathRead := by
  rw [pathRead]
  split_ifs with hpath
  · rw [pathAt, if_neg (u.find_slash_empty hpath)]
  have hpos := List.length_pos_iff.2 hpath
  have hlt := u.length_text_lt
  have hlen := u.length_text
  have htext : u.text = u.origin ++ (u.path ++ (marked 0x3f u.query ++ marked 0x23 u.fragment)) := by
    rw [text_eq, origin, List.append_assoc u.before]
  cases hstray : u.stray with
  | some p =>
    obtain ⟨f1, f2⟩ := p
    obtain ⟨hq, hf, -⟩ := stray_eq_some hstray
    have htext' : u.text = u.origin ++ ((u.path ++ 0x23 :: f1) ++ 0x3f :: f2) := by
      rw [htext, hq, hf]
      simp only [marked, List.nil_append, List.append_assoc, List.cons_append]
    have hlen' := congrArg List.length htext'
    simp only [List.length_append, List.length_cons] at hlen'
    rw [find_question_stray hstray]
    refine u.pathAt_of hpath htext' ?_ (u.origin_lt_hash hpath) ?_
    · simp only [List.length_append, List.length_cons]
      omega
    · rw [if_pos, List.append_assoc]
      simp only [List.length_append, List.length_cons]
      omega
  | none =>
    cases hq : u.query with
    | some q =>
      rw [u.find_question_query (by rw [hq]; rfl)]
      refine u.pathAt_of hpath htext ?_ (u.origin_lt_hash hpath) ?_
      · rw [List.length_append]
        omega
      · rw [if_pos]
        rw [List.length_append]
        omega
    | none =>
      rw [find_question_none hq hstray]
      refine u.pathAt_of hpath htext ?_ (u.origin_lt_hash hpath) ?_
      · omega
      · rw [if_neg (fun h => h rfl), u.hash_or_end, hq, marked, List.append_nil]

theorem queryAt_eq (u : Url) :
    queryAt u.text (find u.text [0x3f] u.before.length) (find u.text [0x23] u.before.length) =
      u.queryRead := by
  have hlt := u.length_text_lt
  have hlen := u.length_text
  have hfits : u.text.length ≤ 2 ^ 63 - 1 := u.fits
  have htext : u.text = u.origin ++ (u.path ++ (marked 0x3f u.query ++ marked 0x23 u.fragment)) := by
    rw [text_eq, origin, List.append_assoc u.before]
  rw [queryRead]
  cases hstray : u.stray with
  | some p =>
    -- The difference of the marks wraps around, and the rest of the string is taken.
    obtain ⟨f1, f2⟩ := p
    obtain ⟨hq, hf, -⟩ := stray_eq_some hstray
    have htext' : u.text = (u.origin ++ u.path ++ 0x23 :: f1 ++ [0x3f]) ++ f2 := by
      rw [htext, hq, hf]
      simp only [marked, List.nil_append, List.append_assoc, List.cons_append]
    have hlen' := congrArg List.length htext'
    simp only [List.length_append, List.length_cons, List.length_nil] at hlen'
    have hcount : f2.length ≤ sizeSub (sizeSub (u.origin ++ u.path).length
        (u.origin ++ u.path ++ 0x23 :: f1).length) 1 := by
      simp only [sizeSub, List.length_append, List.length_cons]
      omega
    have hstart : (u.origin ++ u.path ++ 0x23 :: f1).length + 1 =
        (u.origin ++ u.path ++ 0x23 :: f1 ++ [0x3f]).length := by
      simp only [List.length_append, List.length_cons, List.length_nil]
    have hne : (u.origin ++ u.path ++ 0x23 :: f1).length ≠ npos := by
      simp only [List.length_append, List.length_cons]
      omega
    rw [queryAt, find_question_stray hstray, if_pos hne, u.hash_or_end, hq, marked, List.append_nil,
      hstart, htext']
    exact substr_append_rest _ hcount
  | none =>
    cases hq : u.query with
    | none => rw [queryAt, find_question_none hq hstray, if_neg (fun h => h rfl), Option.getD_none]
    | some q =>
      have htext' : u.text = (u.origin ++ u.path ++ [0x3f]) ++ (q ++ marked 0x23 u.fragment) := by
        rw [htext, hq]
        simp only [marked, List.append_assoc, List.cons_append, List.nil_append]
      have hlen' := congrArg List.length htext'
      simp only [List.length_append, List.length_cons, List.length_nil] at hlen'
      have hcount : sizeSub (sizeSub (u.origin ++ u.path ++ marked 0x3f (some q)).length
          (u.origin ++ u.path).length) 1 = q.length := by
        simp only [sizeSub, marked, List.length_append, List.length_cons]
        omega
      have hstart : (u.origin ++ u.path).length + 1 = (u.origin ++ u.path ++ [0x3f]).length := by
        simp only [List.length_append, List.length_cons, List.length_nil]
      have hne : (u.origin ++ u.path).length ≠ npos := by
        rw [List.length_append]
        omega
      rw [queryAt, u.find_question_query (by rw [hq]; rfl), if_pos hne, u.hash_or_end, hq]
      dsimp only
      rw [hcount, hstart, htext', Option.getD_some]
      exact substr_append _ _ _

theorem fragment_eq (u : Url) :
    (if find u.text [0x23] u.before.length ≠ npos then
      u.text.drop (find u.text [0x23] u.before.length + 1) else []) = u.fragment.getD [] := by
  have hlt := u.length_text_lt
  have hlen := u.length_text
  cases hf : u.fragment with
  | none => rw [find_hash_none hf, if_neg (fun h => h rfl), Option.getD_none]
  | some f =>
    have htext : u.text = u.origin ++ u.path ++ marked 0x3f u.query ++ (0x23 :: f) := by
      rw [text_eq, origin, hf]
      simp only [marked, List.append_assoc]
    rw [find_hash_some hf, if_pos, Option.getD_some, htext, ← List.drop_drop, List.drop_left]
    · rfl
    · simp only [List.length_append]
      omega

/-- **What is read.** -/
theorem parse_url_full_eq (u : Url) :
    parse_url_full u.text = some ⟨u.scheme.map tolower, u.host, u.portRead, u.pathRead, u.queryRead,
      u.fragment.getD []⟩ := by
  have hne : u.scheme.length ≠ npos := by
    have hlt := u.length_text_lt
    have hlen := u.length_text
    have horigin : u.origin.length = u.scheme.length + 3 + u.authority.length := by
      rw [origin, List.length_append, length_before]
    omega
  have hscheme : substr u.text 0 u.scheme.length = u.scheme := by
    rw [text_eq, before, List.append_assoc]
    exact substr_append [] _ _
  have hauthority : substr u.text u.before.length (u.origin.length - u.before.length) =
      u.authority := by
    rw [origin, List.length_append, Nat.add_sub_cancel_left]
    exact substr_append _ _ _
  simp only [parse_url_full, find_scheme, hscheme, ← length_before, hostEnd_eq, hauthority,
    hostPort_eq, pathAt_eq, queryAt_eq, fragment_eq]
  rw [if_neg hne]

/-! ### When the components are found -/

theorem defaultPort_ne_zero (scheme : Bytes) : defaultPort scheme ≠ 0 := by
  rw [defaultPort]
  split_ifs <;> decide

theorem portRead_iff (u : Url) : u.portRead = u.portNumber ↔ u.PortFits := by
  rw [portRead, portNumber, PortFits]
  cases hport : u.port with
  | none => simp
  | some ds =>
    cases ds with
    | nil =>
      refine iff_of_false ?_ fun h => (h [] rfl).1 rfl
      exact fun h => defaultPort_ne_zero _ (h.symm.trans Strto.atoi_nil)
    | cons d ds =>
      have hiff := Strto.atoi_digits (u.port_digits _ (by rw [hport]; rfl)) (List.cons_ne_nil d ds)
      refine hiff.trans ⟨fun h ds' hds' => ?_, fun h => (h _ rfl).2⟩
      obtain rfl := Option.some.inj hds'
      exact ⟨List.cons_ne_nil _ _, h⟩

theorem queryFound_iff_stray (u : Url) :
    u.QueryFound ↔ ∀ f1 f2, u.stray = some (f1, f2) → u.path = [] ∧ f2 = [] := by
  constructor
  · intro h f1 f2 hstray
    obtain ⟨hq, hf, hnot⟩ := stray_eq_some hstray
    obtain ⟨hpath, hlast⟩ := h hq _ hf (by simp)
    refine ⟨hpath, List.length_eq_zero_iff.1 ?_⟩
    rw [idxOf_mark hnot, List.length_append, List.length_cons] at hlast
    omega
  · intro h hq f hf hmem
    cases hstray : u.stray with
    | none =>
      have hnot := stray_eq_none hstray hq
      rw [Option.mem_def.1 hf] at hnot
      exact absurd (List.mem_cons_of_mem _ hmem) hnot
    | some p =>
      obtain ⟨f1, f2⟩ := p
      obtain ⟨-, hf', hnot⟩ := stray_eq_some hstray
      obtain ⟨hpath, rfl⟩ := h f1 f2 hstray
      obtain rfl := Option.some.inj (hf.symm.trans hf')
      refine ⟨hpath, ?_⟩
      rw [idxOf_mark hnot, List.length_append]
      rfl

/-- The path and the query are found. -/
theorem pathRead_queryRead_iff (u : Url) :
    (u.pathRead = if u.path = [] then [0x2f] else u.path) ∧ u.queryRead = u.query.getD [] ↔
      u.QueryFound := by
  rw [queryFound_iff_stray, pathRead, queryRead]
  cases hstray : u.stray with
  | none => simp
  | some p =>
    obtain ⟨f1, f2⟩ := p
    obtain ⟨hq, -, -⟩ := stray_eq_some hstray
    by_cases hpath : u.path = []
    · simp [hq, hpath]
    · simp [hpath]

/-- **When the components are found.** -/
theorem parse_url_full_iff (u : Url) :
    parse_url_full u.text = some u.components ↔ u.PortFits ∧ u.QueryFound := by
  rw [parse_url_full_eq, ← portRead_iff, ← pathRead_queryRead_iff, components]
  simp only [Option.some.injEq, Components.mk.injEq, true_and, and_true]

end Url

/-! ### Formatting -/

/-- Components that are formatted: the scheme is in lower case, there is a port, and a path. -/
structure Tuple extends Components where
  scheme_chars : ∀ c ∈ scheme, isSchemeChar c = true ∧ tolower c = c
  host_chars : ∀ c ∈ host, isRegName c = true
  port_range : 1 ≤ port ∧ port ≤ 65535
  path_chars : ∀ c ∈ path, isPathChar c = true
  path_begins : path.head? = some 0x2f
  query_chars : ∀ c ∈ query, isQueryChar c = true
  fragment_chars : ∀ c ∈ fragment, isQueryChar c = true
  fits : (net_urlformat toComponents.table).length ≤ max_size

/-- An empty part is left out. -/
def present (part : Bytes) : Option Bytes := if part = [] then none else some part

namespace Tuple

/-- The parts that are written. -/
def parts (t : Tuple) : Parts where
  scheme := t.scheme
  host := t.host
  port := if hidesPort t.scheme t.port then none else some (decimal t.port.toNat)
  path := t.path
  query := present t.query
  fragment := present t.fragment

end Tuple

theorem cstr_of_chars {chars : UInt8 → Bool} (h : ∀ b ∈ s, chars b = true) (h0 : chars 0 = false) :
    cstr s = s := by
  refine List.takeWhile_eq_self_iff.2 fun c hc => ?_
  rw [decide_eq_true_iff]
  rintro rfl
  exact notMem_of h h0 hc

theorem elim_present (part : Bytes) (h : cstr part = part) :
    ((present part).map cstr).getD [] = part := by
  rw [present]
  split_ifs with hnil
  · rw [hnil]
    rfl
  · rw [Option.map_some, h]
    rfl

theorem marked_present (mark : UInt8) (part : Bytes) :
    marked mark (present part) = if part = [] then [] else mark :: part := by
  rw [present]
  split_ifs <;> rfl

theorem strto_isDigit {d : UInt8} (h : isDigit d = true) :
    Strto.isDigit 10 d = true ∧ (Strto.value d).getD 0 = d.toNat - 0x30 := by
  rw [isDigit, Bool.and_eq_true, decide_eq_true_iff, decide_eq_true_iff] at h
  have hvalue : Strto.value d = some (d.toNat - 0x30) := if_pos h
  have hle := UInt8.le_iff_toNat_le.1 h.2
  have h39 : (0x39 : UInt8).toNat = 57 := rfl
  refine ⟨Strto.isDigit_iff.2 ⟨_, hvalue, by omega⟩, ?_⟩
  rw [hvalue, Option.getD_some]

theorem foldl_number (ds : Bytes) (acc : ℕ) (h : ∀ d ∈ ds, isDigit d = true) :
    ds.foldl (fun acc c => acc * 10 + (Strto.value c).getD 0) acc =
      ds.foldl (fun acc d => acc * 10 + (d.toNat - 0x30)) acc := by
  induction ds generalizing acc with
  | nil => rfl
  | cons d ds ih =>
    rw [List.foldl_cons, List.foldl_cons, (strto_isDigit (h d List.mem_cons_self)).2]
    exact ih _ fun c hc => h c (List.mem_cons_of_mem _ hc)

/-- A printed number is read. -/
theorem number_decimal (n : ℕ) : number 10 (decimal n) = n :=
  (foldl_number _ _ fun _ hd => isDigit_of_mem_decimal hd).trans (digitsVal_decimal n)

namespace Tuple

variable (t : Tuple)

/-- The URL that is formatted. -/
theorem format_eq : net_urlformat t.table = t.parts.text := by
  have hscheme : cstr t.scheme = t.scheme :=
    cstr_of_chars (fun c hc => (t.scheme_chars c hc).1) (by decide)
  have hhost : cstr t.host = t.host := cstr_of_chars t.host_chars (by decide)
  have hpath : cstr t.path = t.path := cstr_of_chars t.path_chars (by decide)
  have hquery := elim_present t.query (cstr_of_chars t.query_chars (by decide))
  have hfragment := elim_present t.fragment (cstr_of_chars t.fragment_chars (by decide))
  have hport : decimalInt t.port = decimal t.port.toNat := by
    have h := t.port_range
    rw [decimalInt, if_neg (by omega), show t.port.natAbs = t.port.toNat by omega]
  rw [present] at hquery hfragment
  simp only [net_urlformat, Components.table, hquery, hfragment, Option.map_some, Option.getD_some,
    hscheme, hhost, hpath, hport, t.path_begins, if_true]
  simp only [Parts.text, Parts.authority, parts, marked_present]
  split_ifs <;> simp [marked]

def url : Url where
  toParts := t.parts
  scheme_chars := fun c hc => (t.scheme_chars c hc).1
  host_chars := t.host_chars
  port_digits := by
    intro ds hds c hc
    simp only [parts] at hds
    split_ifs at hds with hhide
    · cases hds
    · obtain rfl := Option.some.inj hds
      exact (strto_isDigit (isDigit_of_mem_decimal hc)).1
  path_chars := t.path_chars
  path_begins := fun c hc => Option.some.inj (hc.symm.trans t.path_begins)
  query_chars := by
    intro q hq
    simp only [parts, present] at hq
    split_ifs at hq with hnil
    · cases hq
    · obtain rfl := Option.some.inj hq
      exact t.query_chars
  fragment_chars := by
    intro f hf
    simp only [parts, present] at hf
    split_ifs at hf with hnil
    · cases hf
    · obtain rfl := Option.some.inj hf
      exact t.fragment_chars
  fits := by
    rw [← t.format_eq]
    exact t.fits

theorem scheme_lower : t.scheme.map tolower = t.scheme :=
  (List.map_congr_left fun c hc => (t.scheme_chars c hc).2).trans (List.map_id _)

/-- A port that is left out is that of the scheme. -/
theorem defaultPort_of_hides (h : hidesPort t.scheme t.port = true) :
    defaultPort t.scheme = t.port := by
  have hrange := t.port_range
  simp only [hidesPort, Bool.not_eq_true', Bool.and_eq_false_iff, decide_eq_false_iff_not,
    Bool.not_eq_false', Bool.and_eq_true, decide_eq_true_eq] at h
  rw [defaultPort]
  rcases h with (((h | ⟨hp, hs⟩) | ⟨hp, hs⟩) | ⟨hp, hs⟩) | ⟨hp, hs⟩
  · omega
  · rw [hs, hp]
    rfl
  · rw [hs, hp]
    rfl
  · rw [hs, hp]
    rfl
  · rw [hs, hp]
    rfl

theorem portNumber_eq : t.url.portNumber = t.port := by
  have hrange := t.port_range
  simp only [Url.portNumber, url, parts]
  cases hhide : hidesPort t.scheme t.port with
  | true =>
    rw [if_pos rfl, t.scheme_lower]
    exact t.defaultPort_of_hides hhide
  | false =>
    obtain ⟨d, ds, hdecimal, -⟩ := decimal_eq_cons t.port.toNat
    rw [if_neg Bool.false_ne_true, hdecimal]
    dsimp only
    rw [← hdecimal, number_decimal]
    omega

theorem portFits : t.url.PortFits := by
  intro ds hds
  have hrange := t.port_range
  simp only [url, parts] at hds
  split_ifs at hds with hhide
  · cases hds
  · obtain rfl := Option.some.inj hds
    refine ⟨decimal_ne_nil _, ?_⟩
    rw [number_decimal]
    omega

theorem path_ne_nil : t.path ≠ [] := by
  intro h
  have hbegins := t.path_begins
  rw [h] at hbegins
  cases hbegins

theorem getD_present (part : Bytes) : (present part).getD [] = part := by
  rw [present]
  split_ifs with h
  · exact h.symm
  · rfl

theorem components_eq : t.url.components = t.toComponents := by
  have hpath : (if t.url.path = [] then [0x2f] else t.url.path) = t.path := if_neg t.path_ne_nil
  rw [Url.components, portNumber_eq, hpath]
  simp only [url, parts, getD_present, t.scheme_lower]

theorem queryFound_iff : t.url.QueryFound ↔ (t.query = [] → 0x3f ∉ t.fragment) := by
  have hquery : t.url.query = none ↔ t.query = [] := by
    simp only [url, parts, present]
    split_ifs with h <;> simp [h]
  constructor
  · intro h hnil hmem
    have hf : t.url.fragment = some t.fragment := if_neg (List.ne_nil_of_mem hmem)
    exact t.path_ne_nil (h (hquery.2 hnil) _ hf hmem).1
  · intro h hnone f hf hmem
    simp only [url, parts, present] at hf
    split_ifs at hf with hnil
    · cases hf
    · obtain rfl := Option.some.inj hf
      exact absurd hmem (h (hquery.1 hnone))

end Tuple

theorem table_injective {c c' : Components} (h : c.table = c'.table) : c = c' := by
  have hpresent : ∀ p q : Bytes, present p = present q → p = q := by
    intro p q heq
    rw [← Tuple.getD_present p, heq, Tuple.getD_present]
  obtain ⟨scheme, host, port, path, query, fragment⟩ := c
  simp only [Components.table, Fields.mk.injEq, Option.some.injEq] at h
  obtain ⟨rfl, rfl, rfl, rfl, hquery, hfragment⟩ := h
  rw [hpresent _ _ hquery, hpresent _ _ hfragment]

/-- **URLs are parsed, and what was formatted is parsed**, exactly if the port is an `int`, and
without a query no question mark in the fragment is taken for that of one. -/
theorem parse_format_iff (u : Url) (t : Tuple) :
    (parse_url_full u.text = some u.components ↔ u.PortFits ∧ u.QueryFound) ∧
      (net_parseurl (net_urlformat t.table) = some t.table ↔ (t.query = [] → 0x3f ∉ t.fragment)) := by
  refine ⟨u.parse_url_full_iff, ?_⟩
  have hparse := t.url.parse_url_full_iff
  rw [t.components_eq, and_iff_right t.portFits, t.queryFound_iff] at hparse
  rw [← hparse, net_parseurl, t.format_eq, Option.map_eq_some_iff]
  constructor
  · rintro ⟨c, hc, htable⟩
    rw [← table_injective htable]
    exact hc
  · exact fun h => ⟨_, h, rfl⟩

/-- In `http://a/b#c?d` the path and the query are not found. -/
theorem question_in_fragment :
    ¬ ((∀ u : Url, parse_url_full u.text = some u.components) ∧
      ∀ t : Tuple, net_parseurl (net_urlformat t.table) = some t.table) := by
  intro h
  have hparse := h.1 ⟨⟨http, [97], none, [0x2f, 98], none, some [99, 0x3f, 100]⟩, by decide +kernel,
    by decide +kernel, by simp, by decide +kernel, by decide +kernel, by simp, by decide +kernel,
    by decide⟩
  revert hparse
  decide

end Net

end Jaci
