import Jaci.Lsp.Rename

/-!
# Semantic tokens

`SemanticTokenCollector` gives a token to a whole type alias, to a whole type reference and to the whole
name of a function statement, and to what stands inside of these too.

* `addToken`, `visit`, `encode`, `Data` : the source;
* `decode` : how an editor reads the data;
* `Laid` : the parts of a program stand in the text one after the other;
* `WellFormed` : the data are the tokens, one after the other, in whatever order they were found;
* `wellFormed_iff` : **when they are**;
* `nested_tokens` : a type alias with a type inside.
-/

namespace Jaci

namespace Lsp

open Ast

namespace SemanticTokens

/-! ### The source -/

/-- `static_cast<int>`, of an `unsigned int`. -/
def toInt (n : UInt32) : ℤ := (n.toNat : ℤ).bmod (2 ^ 32)

structure RawToken where
  line : ℤ
  col : ℤ
  length : ℤ
  tokenType : ℤ
  tokenModifiers : ℤ
deriving DecidableEq

/-- Is there a token at a location?  It is on one line and not empty. -/
def accepts (loc : Location) : Bool :=
  loc.begin.line = loc.end_.line ∧ 0 < toInt (loc.end_.column - loc.begin.column)

def addToken (loc : Location) (tokenType : ℤ) : List RawToken :=
  if accepts loc then
    [⟨toInt loc.begin.line, toInt loc.begin.column, toInt (loc.end_.column - loc.begin.column),
      tokenType, 0⟩]
  else []

/-- What `visit` gives to `addToken` for a node. -/
def marked (node : Node) : Option (Location × ℤ) :=
  match node.kind with
  | .localFunction name => some (name.location, 8)
  | .statFunction nameLocation => some (nameLocation, 8)
  | .typeAlias => some (node.location, 0)
  | .typeReference _ => some (node.location, 0)
  | .exprLocal _ => some (node.location, 6)
  | .indexName indexLocation => some (indexLocation, 7)
  | .constantNumber => some (node.location, 13)
  | .constantString => some (node.location, 12)
  | _ => none

/-- `visit`: the tokens of a node. -/
def visit (node : Node) : List RawToken := (marked node).toList.flatMap fun m => addToken m.1 m.2

/-- Does `visit` go on from a node?  Of the types only from a reference. -/
def enters : Kind → Bool
  | .type => false
  | _ => true

/-- The order of `std::sort` in `handleSemanticTokensFull`. -/
def less (a b : RawToken) : Bool := if a.line ≠ b.line then a.line < b.line else a.col < b.col

/-- What `std::sort` can make of the tokens. -/
structure Sorts (tokens sorted : List RawToken) : Prop where
  perm : sorted.Perm tokens
  sorted : sorted.Pairwise fun a b => less b a = false

/-- The loop of `handleSemanticTokensFull`. -/
def encode : ℤ → ℤ → List RawToken → List ℤ
  | _, _, [] => []
  | prevLine, prevCol, tok :: toks =>
    let deltaLine := (tok.line - prevLine).bmod (2 ^ 32)
    let deltaCol := if deltaLine = 0 then (tok.col - prevCol).bmod (2 ^ 32) else tok.col
    deltaLine :: deltaCol :: tok.length :: tok.tokenType :: tok.tokenModifiers ::
      encode tok.line tok.col toks

/-- The data that `handleSemanticTokensFull` can return for the tokens. -/
def Data (tokens : List RawToken) (data : List ℤ) : Prop :=
  ∃ sorted, Sorts tokens sorted ∧ data = encode 0 0 sorted

/-! ### What the data should be -/

/-- How an editor reads the data: a line relative to the one before it, a column relative to the one
before it on the same line. -/
def decode : ℤ → ℤ → List ℤ → List RawToken
  | line, col, deltaLine :: deltaStart :: length :: tokenType :: tokenModifiers :: rest =>
    let start := if deltaLine = 0 then col + deltaStart else deltaStart
    ⟨line + deltaLine, start, length, tokenType, tokenModifiers⟩ ::
      decode (line + deltaLine) start rest
  | _, _, _ => []

/-- A token starts after the start of another. -/
def Increases (a b : RawToken) : Prop := a.line < b.line ∨ a.line = b.line ∧ a.col < b.col

/-- A token starts after the end of another. -/
def Follows (a b : RawToken) : Prop := a.line < b.line ∨ a.line = b.line ∧ a.col + a.length ≤ b.col

/-- A token, where it is in the text. -/
def placed (m : Location × ℤ) : RawToken :=
  ⟨m.1.begin.line.toNat, m.1.begin.column.toNat, (m.1.end_.column - m.1.begin.column).toNat, m.2, 0⟩

def own (node : Node) : List (Location × ℤ) := (marked node).toList.filter fun m => accepts m.1

/-- The tokens of a program. -/
def collected (root : Node) : List (Location × ℤ) := (root.visited enters).flatMap own

/-- In whatever order the nodes are visited, the data are the tokens of the program, one after the
other. -/
structure WellFormed (root : Node) : Prop where
  increasing : ∀ visits : List Node, visits.Perm (root.visited enters) → ∀ data,
    Data (visits.flatMap visit) data → (decode 0 0 data).Pairwise Increases
  apart : ∀ visits : List Node, visits.Perm (root.visited enters) → ∀ data,
    Data (visits.flatMap visit) data → (decode 0 0 data).Pairwise Follows
  same : ∀ visits : List Node, visits.Perm (root.visited enters) → ∀ data,
    Data (visits.flatMap visit) data → (decode 0 0 data).Perm ((collected root).map placed)
  unique : ∀ visits visits' : List Node, visits.Perm (root.visited enters) →
    visits'.Perm (root.visited enters) → ∀ data data', Data (visits.flatMap visit) data →
    Data (visits'.flatMap visit) data' → data = data'

/-! ### Where nodes stand in the text -/

/-- Positions, in the order of the text. -/
def place (p : Ast.Position) : ℕ := p.line.toNat * 2 ^ 32 + p.column.toNat

/-- A location between two places. -/
structure Between (lo : ℕ) (loc : Location) (hi : ℕ) : Prop where
  lower : lo ≤ place loc.begin
  ordered : place loc.begin ≤ place loc.end_
  upper : place loc.end_ ≤ hi

mutual

/-- What is visited of a node stands between two places of the text, its parts one after the other:
of a field access the name after the expression, of a local function the name before the function, of
a function statement the name within its location and the function after it, and of a type alias or a
type reference everything within its location. -/
def Laid : ℕ → Node → ℕ → Prop
  | lo, .mk (.exprLocal _) location parts _, hi => parts = [] ∧ Between lo location hi
  | lo, .mk .constantNumber location parts _, hi => parts = [] ∧ Between lo location hi
  | lo, .mk .constantString location parts _, hi => parts = [] ∧ Between lo location hi
  | lo, .mk (.indexName indexLocation) _ parts _, hi =>
    ∃ mid, LaidAll lo parts mid ∧ Between mid indexLocation hi
  | lo, .mk (.localFunction name) _ parts _, hi =>
    ∃ mid, Between lo name.location mid ∧ LaidAll mid parts hi
  | lo, .mk (.statFunction nameLocation) _ (name :: parts) _, hi =>
    Between lo nameLocation hi ∧ Laid (place nameLocation.begin) name (place nameLocation.end_) ∧
      LaidAll (place nameLocation.end_) parts hi
  | _, .mk (.statFunction _) _ [] _, _ => False
  | lo, .mk .typeAlias location parts _, hi =>
    Between lo location hi ∧ LaidAll (place location.begin) parts (place location.end_)
  | lo, .mk (.typeReference _) location parts _, hi =>
    Between lo location hi ∧ LaidAll (place location.begin) parts (place location.end_)
  | lo, .mk .type _ _ _, hi => lo ≤ hi
  | lo, .mk _ _ parts _, hi => LaidAll lo parts hi

/-- Successive nodes stand between two places, one after the other. -/
def LaidAll : ℕ → List Node → ℕ → Prop
  | lo, [], hi => lo ≤ hi
  | lo, n :: ns, hi => ∃ mid, Laid lo n mid ∧ LaidAll mid ns hi

end

/-- The nodes that stand within the location of the token of a node. -/
def covered : Node → List Node
  | .mk (.statFunction _) _ (name :: _) _ => name.visited enters
  | .mk .typeAlias _ parts _ => Node.visitedAll enters parts
  | .mk (.typeReference _) _ parts _ => Node.visitedAll enters parts
  | _ => []

/-- No token stands within another: within a type alias on one line, a type reference on one line or
the name of a function statement. -/
def Clear (nodes : List Node) : Prop :=
  ∀ n ∈ nodes, own n ≠ [] → ∀ m ∈ covered n, own m = []

/-- No token starts at a line or a column that is no `int`. -/
def InRange (root : Node) : Prop :=
  ∀ m ∈ collected root, m.1.begin.line.toNat < 2 ^ 31 ∧ m.1.begin.column.toNat < 2 ^ 31

/-! ### Data -/

theorem bmod_of_int {a : ℤ} (hlow : -2147483648 ≤ a) (hhigh : a < 2147483648) :
    a.bmod (2 ^ 32) = a := Int.bmod_eq_of_le (by norm_num; omega) (by norm_num; omega)

theorem toInt_bounds (n : UInt32) : -2147483648 ≤ toInt n ∧ toInt n < 2147483648 := by
  have hlow := Int.le_bmod (x := n.toNat) (m := 2 ^ 32) (by norm_num)
  have hhigh := Int.bmod_lt (x := n.toNat) (m := 2 ^ 32) (by norm_num)
  unfold toInt
  norm_num at hlow hhigh ⊢
  exact ⟨hlow, hhigh⟩

theorem toInt_of_lt {n : UInt32} (h : n.toNat < 2147483648) : toInt n = n.toNat := by
  unfold toInt
  exact bmod_of_int (by omega) (by omega)

theorem lt_of_toInt_nonneg {n : UInt32} (h : 0 ≤ toInt n) : n.toNat < 2147483648 := by
  have hn := n.toNat_lt
  unfold toInt at h
  rw [Int.bmod_def] at h
  norm_num at h hn
  split_ifs at h <;> omega

theorem toInt_of_pos {n : UInt32} (h : 0 < toInt n) : toInt n = n.toNat :=
  toInt_of_lt (lt_of_toInt_nonneg h.le)

/-- A line and a column that are not negative and fit. -/
def Fits (line col : ℤ) : Prop := 0 ≤ line ∧ line < 2147483648 ∧ 0 ≤ col ∧ col < 2147483648

theorem bmod_sub_of_fits {a b : ℤ} (ha : 0 ≤ a) (hb : 0 ≤ b) (ha' : a < 2147483648)
    (hb' : b < 2147483648) : (a - b).bmod (2 ^ 32) = a - b := bmod_of_int (by omega) (by omega)

/-- **Reading what was written.** -/
theorem decode_encode : ∀ (toks : List RawToken) (line col : ℤ), Fits line col →
    (∀ t ∈ toks, Fits t.line t.col) → decode line col (encode line col toks) = toks
  | [], _, _, _, _ => rfl
  | t :: toks, line, col, hprev, htoks => by
    have ht := htoks t (by simp)
    have hline : (t.line - line).bmod (2 ^ 32) = t.line - line :=
      bmod_sub_of_fits ht.1 hprev.1 ht.2.1 hprev.2.1
    have hcol : (t.col - col).bmod (2 ^ 32) = t.col - col :=
      bmod_sub_of_fits ht.2.2.1 hprev.2.2.1 ht.2.2.2 hprev.2.2.2
    have hstart : (if t.line - line = 0 then
        col + (if t.line - line = 0 then t.col - col else t.col) else
        (if t.line - line = 0 then t.col - col else t.col)) = t.col := by
      split_ifs <;> omega
    rw [encode, decode]
    simp only [hline, hcol, hstart, show line + (t.line - line) = t.line by omega]
    rw [decode_encode toks t.line t.col ht fun u hu => htoks u (List.mem_cons_of_mem t hu)]

/-- A line and a column are an `int`. -/
def IsInt (t : RawToken) : Prop :=
  -2147483648 ≤ t.line ∧ t.line < 2147483648 ∧ -2147483648 ≤ t.col ∧ t.col < 2147483648

/-- If nothing that is read is negative, nothing was: the first token of a line is written as it is. -/
theorem fits_of_decode : ∀ (toks : List RawToken) (line col : ℤ), Fits line col →
    (∀ t ∈ toks, IsInt t) → toks.Pairwise (fun a b => less b a = false) →
    (line = 0 ∧ col = 0 ∨ ∀ t ∈ toks, line ≤ t.line ∧ (t.line = line → col ≤ t.col)) →
    (∀ t ∈ decode line col (encode line col toks), 0 ≤ t.line ∧ 0 ≤ t.col) →
    ∀ t ∈ toks, Fits t.line t.col
  | [], _, _, _, _, _, _, _ => by simp
  | t :: toks, line, col, hprev, hint, hsorted, hafter, hread => by
    have ht := hint t (by simp)
    rw [encode, decode] at hread
    obtain ⟨hhead, htail⟩ := List.forall_mem_cons.1 hread
    dsimp only at hhead
    obtain ⟨hline, hcol⟩ : 0 ≤ t.line ∧ 0 ≤ t.col := by
      rcases hafter with ⟨rfl, rfl⟩ | hafter
      · rw [sub_zero, sub_zero, bmod_of_int ht.1 ht.2.1, bmod_of_int ht.2.2.1 ht.2.2.2] at hhead
        obtain ⟨hline, hcol⟩ := hhead
        split_ifs at hcol with hzero
        · exact ⟨by omega, by omega⟩
        · exact ⟨by omega, by omega⟩
      · obtain ⟨hle, hsame⟩ := hafter t (by simp)
        have hline : 0 ≤ t.line := hprev.1.trans hle
        have hdelta : (t.line - line).bmod (2 ^ 32) = t.line - line :=
          bmod_sub_of_fits hline hprev.1 ht.2.1 hprev.2.1
        refine ⟨hline, ?_⟩
        rcases eq_or_ne t.line line with heq | hne
        · exact hprev.2.2.1.trans (hsame heq)
        · rw [hdelta, if_neg (by omega), if_neg (by omega)] at hhead
          exact hhead.2
    have hfits : Fits t.line t.col := ⟨hline, ht.2.1, hcol, ht.2.2.2⟩
    have hdelta : (t.line - line).bmod (2 ^ 32) = t.line - line :=
      bmod_sub_of_fits hline hprev.1 ht.2.1 hprev.2.1
    have hstart : (t.col - col).bmod (2 ^ 32) = t.col - col :=
      bmod_sub_of_fits hcol hprev.2.2.1 ht.2.2.2 hprev.2.2.2
    have hread' : (if t.line - line = 0 then
        col + (if t.line - line = 0 then t.col - col else t.col) else
        (if t.line - line = 0 then t.col - col else t.col)) = t.col := by
      split_ifs <;> omega
    simp only [hdelta, hstart, hread', show line + (t.line - line) = t.line by omega] at htail
    obtain ⟨hfirst, hrest⟩ := List.pairwise_cons.1 hsorted
    refine List.forall_mem_cons.2 ⟨hfits, fits_of_decode toks t.line t.col hfits
      (fun u hu => hint u (List.mem_cons_of_mem t hu)) hrest (.inr fun u hu => ?_) htail⟩
    have hless := hfirst u hu
    rw [less] at hless
    split_ifs at hless with hne
    · have hlt := of_decide_eq_false hless
      exact ⟨by omega, fun h => absurd h hne⟩
    · have hlt := of_decide_eq_false hless
      omega

/-! ### Tokens -/

/-- The token of a location, as `addToken` makes it. -/
def raw (m : Location × ℤ) : RawToken :=
  ⟨toInt m.1.begin.line, toInt m.1.begin.column, toInt (m.1.end_.column - m.1.begin.column), m.2, 0⟩

theorem isInt_raw (m : Location × ℤ) : IsInt (raw m) := by
  have hline := toInt_bounds m.1.begin.line
  have hcol := toInt_bounds m.1.begin.column
  simp only [IsInt, raw]
  exact ⟨hline.1, hline.2, hcol.1, hcol.2⟩

/-- A token is on one line and ends after its start. -/
structure Proper (m : Location × ℤ) : Prop where
  accepted : accepts m.1 = true
  ordered : place m.1.begin ≤ place m.1.end_

/-- One of two tokens ends before the other starts. -/
def Apart (a b : Location × ℤ) : Prop :=
  place a.1.end_ ≤ place b.1.begin ∨ place b.1.end_ ≤ place a.1.begin

theorem accepts_of_mem_own {n : Node} {m : Location × ℤ} (h : m ∈ own n) : accepts m.1 = true :=
  (List.mem_filter.1 h).2

theorem visit_eq (n : Node) : visit n = (own n).map raw := by
  rw [visit, own]
  cases marked n with
  | none => rfl
  | some m =>
    rw [Option.toList_some, List.flatMap_singleton, addToken, List.filter_singleton]
    cases accepts m.1 with
    | true => rfl
    | false => rfl

theorem flatMap_visit (ns : List Node) : ns.flatMap visit = (ns.flatMap own).map raw := by
  rw [List.map_flatMap]
  exact congrArg ns.flatMap (funext visit_eq)

namespace Proper

variable {a b : Location × ℤ}

theorem place_lt (ha : Proper a) : place a.1.begin < place a.1.end_ := by
  have hacc := ha.accepted
  simp only [accepts, decide_eq_true_eq] at hacc
  obtain ⟨hline, hlen⟩ := hacc
  refine lt_of_le_of_ne ha.ordered fun heq => ?_
  rw [place, place, hline, Nat.add_left_cancel_iff, UInt32.toNat_inj] at heq
  rw [heq, UInt32.sub_self] at hlen
  exact absurd hlen (by decide)

theorem placed_length (ha : Proper a) : (placed a).col + (placed a).length = a.1.end_.column.toNat := by
  have hacc := ha.accepted
  simp only [accepts, decide_eq_true_eq] at hacc
  have hle := ha.ordered
  rw [place, place, hacc.1, Nat.add_le_add_iff_left] at hle
  have hsub := UInt32.toNat_sub_of_le _ _ (UInt32.le_iff_toNat_le.2 hle)
  simp only [placed, hsub]
  omega

theorem follows_iff (ha : Proper a) :
    Follows (placed a) (placed b) ↔ place a.1.end_ ≤ place b.1.begin := by
  have hacc := ha.accepted
  simp only [accepts, decide_eq_true_eq] at hacc
  have hb := b.1.begin.column.toNat_lt
  have he := a.1.end_.column.toNat_lt
  rw [Follows, ha.placed_length, place, place, ← hacc.1]
  simp only [placed]
  norm_num at hb he ⊢
  omega

theorem increases_of_follows (ha : Proper a) {c : RawToken} (h : Follows (placed a) c) :
    Increases (placed a) c := by
  have hlt := ha.place_lt
  have hacc := ha.accepted
  simp only [accepts, decide_eq_true_eq] at hacc
  rw [place, place, hacc.1, Nat.add_lt_add_iff_left] at hlt
  rw [Follows, ha.placed_length] at h
  refine h.imp_right fun h => ⟨h.1, lt_of_lt_of_le ?_ h.2⟩
  exact Int.ofNat_lt.2 hlt

theorem raw_eq (ha : Proper a) (hline : a.1.begin.line.toNat < 2147483648)
    (hcol : a.1.begin.column.toNat < 2147483648) : raw a = placed a := by
  have hacc := ha.accepted
  simp only [accepts, decide_eq_true_eq] at hacc
  rw [raw, placed, toInt_of_lt hline, toInt_of_lt hcol, toInt_of_pos hacc.2]

end Proper

/-! ### Sorted data -/

variable {root : Node}

theorem fits_of_decode_zero {sorted : List RawToken} (hint : ∀ t ∈ sorted, IsInt t)
    (hsorted : sorted.Pairwise fun a b => less b a = false)
    (hread : ∀ t ∈ decode 0 0 (encode 0 0 sorted), 0 ≤ t.line ∧ 0 ≤ t.col) :
    ∀ t ∈ sorted, Fits t.line t.col :=
  fits_of_decode sorted 0 0 ⟨le_rfl, by norm_num, le_rfl, by norm_num⟩ hint hsorted
    (.inl ⟨rfl, rfl⟩) hread

theorem less_of_increases {a b : RawToken} (h : Increases a b) : less a b = true := by
  rw [less]
  split_ifs with hne
  · exact decide_eq_true (h.resolve_right fun h => hne h.1)
  · exact decide_eq_true (h.resolve_left fun h => hne h.ne).2

/-- Tokens that are apart, in the order of their starts, follow each other. -/
theorem follows_of_sorts {tokens : List (Location × ℤ)} {sorted : List RawToken}
    (hproper : ∀ m ∈ tokens, Proper m) (hapart : tokens.Pairwise Apart)
    (hsorts : Sorts (tokens.map placed) sorted) : sorted.Pairwise Follows := by
  have hmap : (tokens.map placed).Pairwise fun a b => Follows a b ∨ Follows b a := by
    refine List.pairwise_map.2 (hapart.imp_of_mem fun {a b} ha hb h => ?_)
    rwa [(hproper a ha).follows_iff, (hproper b hb).follows_iff]
  have hsym := hmap.perm hsorts.perm.symm Or.symm
  refine (hsym.and hsorts.sorted).imp_of_mem fun {a b} _ hb h => h.1.resolve_right fun hback => ?_
  obtain ⟨m, hm, rfl⟩ := List.mem_map.1 (hsorts.perm.subset hb)
  rw [less_of_increases ((hproper m hm).increases_of_follows hback)] at h
  exact nomatch h.2

theorem Sorts.of_perm {tokens tokens' sorted : List RawToken} (h : Sorts tokens sorted)
    (hperm : tokens.Perm tokens') : Sorts tokens' sorted := ⟨h.perm.trans hperm, h.sorted⟩

theorem perm_visits {visits : List Node} (h : visits.Perm (root.visited enters)) :
    (visits.flatMap visit).Perm ((collected root).map raw) := by
  rw [flatMap_visit]
  exact (h.flatMap_right own).map raw

theorem map_raw (hproper : ∀ m ∈ collected root, Proper m) (hrange : InRange root) :
    (collected root).map raw = (collected root).map placed :=
  List.map_congr_left fun m hm => (hproper m hm).raw_eq (hrange m hm).1 (hrange m hm).2

theorem fits_placed (hrange : InRange root) {t : RawToken} (h : t ∈ (collected root).map placed) :
    Fits t.line t.col := by
  obtain ⟨m, hm, rfl⟩ := List.mem_map.1 h
  obtain ⟨hline, hcol⟩ := hrange m hm
  norm_num at hline hcol
  exact ⟨Int.natCast_nonneg _, by simp only [placed]; omega, Int.natCast_nonneg _,
    by simp only [placed]; omega⟩

theorem decode_of_sorts (hrange : InRange root) {sorted : List RawToken}
    (hsorts : Sorts ((collected root).map placed) sorted) : decode 0 0 (encode 0 0 sorted) = sorted :=
  decode_encode sorted 0 0 ⟨le_rfl, by norm_num, le_rfl, by norm_num⟩ fun _ ht =>
    fits_placed hrange (hsorts.perm.subset ht)

/-- **Tokens that are apart are read back as they are.** -/
theorem wellFormed_of_apart (hproper : ∀ m ∈ collected root, Proper m)
    (hapart : (collected root).Pairwise Apart) (hrange : InRange root) : WellFormed root := by
  have hsorts : ∀ visits : List Node, visits.Perm (root.visited enters) → ∀ sorted,
      Sorts (visits.flatMap visit) sorted → Sorts ((collected root).map placed) sorted :=
    fun visits hvisits sorted h => by
      rw [← map_raw hproper hrange]
      exact h.of_perm (perm_visits hvisits)
  have hincreases : ∀ sorted, Sorts ((collected root).map placed) sorted → sorted.Pairwise Increases :=
    fun sorted h => (follows_of_sorts hproper hapart h).imp_of_mem fun {a b} ha _ hab => by
      obtain ⟨m, hm, rfl⟩ := List.mem_map.1 (h.perm.subset ha)
      exact (hproper m hm).increases_of_follows hab
  refine ⟨?_, ?_, ?_, ?_⟩
  · rintro visits hvisits _ ⟨sorted, h, rfl⟩
    rw [decode_of_sorts hrange (hsorts visits hvisits sorted h)]
    exact hincreases sorted (hsorts visits hvisits sorted h)
  · rintro visits hvisits _ ⟨sorted, h, rfl⟩
    rw [decode_of_sorts hrange (hsorts visits hvisits sorted h)]
    exact follows_of_sorts hproper hapart (hsorts visits hvisits sorted h)
  · rintro visits hvisits _ ⟨sorted, h, rfl⟩
    rw [decode_of_sorts hrange (hsorts visits hvisits sorted h)]
    exact (hsorts visits hvisits sorted h).perm
  · rintro visits visits' hvisits hvisits' _ _ ⟨sorted, h, rfl⟩ ⟨sorted', h', rfl⟩
    have h := hsorts visits hvisits sorted h
    have h' := hsorts visits' hvisits' sorted' h'
    have hsame : sorted = sorted' := List.Perm.eq_of_pairwise
      (fun a b _ _ hab hba => by
        rw [Increases] at hab hba
        omega)
      (hincreases sorted h) (hincreases sorted' h') (h.perm.trans h'.perm.symm)
    rw [hsame]

/-- The tokens can be sorted. -/
theorem exists_sorts (tokens : List RawToken) : ∃ sorted, Sorts tokens sorted := by
  refine ⟨tokens.mergeSort fun a b => !less b a, List.mergeSort_perm _ _, ?_⟩
  have hsorted := @List.pairwise_mergeSort _ (fun a b => !less b a)
    (fun a b c hab hbc => by
      simp only [less, Bool.not_eq_true'] at hab hbc ⊢
      split_ifs at hab hbc ⊢ <;> simp_all <;> omega)
    (fun a b => by
      simp only [less, Bool.or_eq_true, Bool.not_eq_true']
      split_ifs <;> simp_all <;> omega) tokens
  exact hsorted.imp fun h => by simpa using h

/-- **What is read back in order is apart and no `int` overflows.** -/
theorem apart_of_wellFormed (hproper : ∀ m ∈ collected root, Proper m) (h : WellFormed root) :
    (collected root).Pairwise Apart ∧ InRange root := by
  obtain ⟨sorted, hsorts⟩ := exists_sorts ((root.visited enters).flatMap visit)
  have hdata : Data ((root.visited enters).flatMap visit) (encode 0 0 sorted) := ⟨sorted, hsorts, rfl⟩
  have hsame := h.same _ (.refl _) _ hdata
  have hfollows := h.apart _ (.refl _) _ hdata
  have hraw := hsorts.of_perm (perm_visits (.refl _))
  have hmap : ((collected root).map placed).Pairwise fun a b => Follows a b ∨ Follows b a :=
    (hfollows.imp Or.inl).perm hsame Or.symm
  refine ⟨(List.pairwise_map.1 hmap).imp_of_mem fun {a b} ha hb hab => ?_, ?_⟩
  · rwa [(hproper a ha).follows_iff, (hproper b hb).follows_iff] at hab
  have hfits := @fits_of_decode_zero sorted
    (fun t ht => by
      obtain ⟨m, hm, rfl⟩ := List.mem_map.1 (hraw.perm.subset ht)
      exact isInt_raw m)
    hsorts.sorted
    (fun t ht => by
      obtain ⟨m, hm, rfl⟩ := List.mem_map.1 (hsame.subset ht)
      exact ⟨Int.natCast_nonneg _, Int.natCast_nonneg _⟩)
  intro m hm
  have hm' := hfits (raw m) (hraw.perm.symm.subset (List.mem_map_of_mem hm))
  simp only [Fits, raw] at hm'
  have hline := lt_of_toInt_nonneg (n := m.1.begin.line) hm'.1
  have hcol := lt_of_toInt_nonneg (n := m.1.begin.column) hm'.2.2.1
  norm_num
  exact ⟨hline, hcol⟩

/-! ### Programs -/

theorem laid_plain {lo hi : ℕ} {kind : Kind} {location : Location} {parts others : List Node}
    (hnone : marked (.mk kind location parts others) = none) (hkind : kind ≠ .type) :
    Laid lo (.mk kind location parts others) hi ↔ LaidAll lo parts hi := by
  cases kind with
  | type => exact absurd rfl hkind
  | function args => rw [Laid] <;> simp
  | statLocal vars => rw [Laid] <;> simp
  | statFor var => rw [Laid] <;> simp
  | statForIn vars => rw [Laid] <;> simp
  | statClass name => rw [Laid] <;> simp
  | other => rw [Laid] <;> simp
  | _ => cases hnone

theorem own_of_marked {n : Node} {m : Location × ℤ} (h : marked n = some m) :
    ∀ a ∈ own n, a = m := by
  intro a ha
  have hmem := (List.mem_filter.1 ha).1
  rw [h] at hmem
  exact List.mem_singleton.1 hmem

theorem own_of_none {n : Node} (h : marked n = none) : own n = [] := by
  rw [own, h]
  rfl

theorem pairwise_own (n : Node) : (own n).Pairwise Apart := by
  refine List.Pairwise.filter _ ?_
  cases marked n with
  | none => exact List.Pairwise.nil
  | some m => exact List.pairwise_singleton _ _

/-- The tokens of nodes that stand between two places. -/
structure Spread (lo : ℕ) (nodes : List Node) (hi : ℕ) : Prop where
  le : lo ≤ hi
  between : ∀ m ∈ nodes.flatMap own, Between lo m.1 hi
  /-- They are apart if no token stands within another. -/
  apart_iff : (nodes.flatMap own).Pairwise Apart ↔ Clear nodes

theorem clear_append {ns ns' : List Node} : Clear (ns ++ ns') ↔ Clear ns ∧ Clear ns' :=
  List.forall_mem_append

theorem clear_cons {n : Node} {ns : List Node} :
    Clear (n :: ns) ↔ (own n ≠ [] → ∀ m ∈ covered n, own m = []) ∧ Clear ns := List.forall_mem_cons

namespace Spread

variable {lo mid hi : ℕ} {n : Node} {ns ns' : List Node} {m : Location × ℤ}

theorem nil (h : lo ≤ hi) : Spread lo [] hi :=
  ⟨h, by simp, by simp [Clear]⟩

/-- Nodes one after the other. -/
theorem append (h : Spread lo ns mid) (h' : Spread mid ns' hi) : Spread lo (ns ++ ns') hi := by
  refine ⟨h.le.trans h'.le, ?_, ?_⟩
  · rw [List.flatMap_append, List.forall_mem_append]
    refine ⟨fun m hm => ?_, fun m hm => ?_⟩
    · have hm' := h.between m hm
      exact ⟨hm'.lower, hm'.ordered, hm'.upper.trans h'.le⟩
    · have hm' := h'.between m hm
      exact ⟨h.le.trans hm'.lower, hm'.ordered, hm'.upper⟩
  · rw [List.flatMap_append, List.pairwise_append, h.apart_iff, h'.apart_iff, clear_append]
    refine ⟨fun h => ⟨h.1, h.2.1⟩, fun hclear => ⟨hclear.1, hclear.2, fun a ha b hb => .inl ?_⟩⟩
    exact (h.between a ha).upper.trans (h'.between b hb).lower

/-- Nodes between places further apart. -/
theorem widen {lo' hi' : ℕ} (h : Spread lo ns hi) (hlo : lo' ≤ lo) (hhi : hi ≤ hi') :
    Spread lo' ns hi' := by
  refine ⟨hlo.trans (h.le.trans hhi), fun m hm => ?_, h.apart_iff⟩
  have hm' := h.between m hm
  exact ⟨hlo.trans hm'.lower, hm'.ordered, hm'.upper.trans hhi⟩

/-- A node without a token. -/
theorem plain (h : Spread lo ns hi) (hown : own n = []) : Spread lo (n :: ns) hi := by
  refine ⟨h.le, ?_, ?_⟩
  · rw [List.flatMap_cons, hown]
    exact h.between
  · rw [List.flatMap_cons, hown, List.nil_append, h.apart_iff, clear_cons]
    exact ⟨fun hclear => ⟨fun hne => absurd hown hne, hclear⟩, fun hclear => hclear.2⟩

/-- A node with a token before or after the rest. -/
theorem beside (h : Spread lo ns hi) (hmarked : marked n = some m) (hm : Between lo m.1 hi)
    (hcovered : covered n = []) (hbeside : ∀ a ∈ ns.flatMap own, Apart m a) :
    Spread lo (n :: ns) hi := by
  refine ⟨h.le, ?_, ?_⟩
  · rw [List.flatMap_cons, List.forall_mem_append]
    refine ⟨fun a ha => ?_, h.between⟩
    rw [own_of_marked hmarked a ha]
    exact hm
  · rw [List.flatMap_cons, List.pairwise_append, h.apart_iff, clear_cons, hcovered]
    refine ⟨fun h => ⟨fun _ => by simp, h.2.1⟩, fun hclear => ⟨pairwise_own n, hclear.2, ?_⟩⟩
    intro a ha b hb
    rw [own_of_marked hmarked a ha]
    exact hbeside b hb

/-- A node whose token the next nodes stand within, and then others. -/
theorem within (hin : Spread (place m.1.begin) ns (place m.1.end_))
    (h : Spread (place m.1.end_) ns' hi) (hmarked : marked n = some m) (hm : Between lo m.1 hi)
    (hcovered : covered n = ns) : Spread lo (n :: (ns ++ ns')) hi := by
  have hrest := hin.append h
  refine ⟨hm.lower.trans (hm.ordered.trans hm.upper), ?_, ?_⟩
  · rw [List.flatMap_cons, List.forall_mem_append]
    refine ⟨fun a ha => ?_, fun a ha => ?_⟩
    · rw [own_of_marked hmarked a ha]
      exact hm
    · have ha' := hrest.between a ha
      exact ⟨hm.lower.trans ha'.lower, ha'.ordered, ha'.upper⟩
  · rw [List.flatMap_cons, List.pairwise_append, hrest.apart_iff, clear_cons, hcovered]
    refine ⟨fun h => ⟨fun hne b hb => ?_, h.2.1⟩,
      fun hclear => ⟨pairwise_own n, hclear.2, fun a ha b hb => ?_⟩⟩
    · -- A token within the token of the node is not apart from it.
      obtain ⟨a, ha⟩ := List.exists_mem_of_ne_nil _ hne
      refine List.eq_nil_iff_forall_not_mem.2 fun c hc => ?_
      have hmem : c ∈ ns.flatMap own := List.mem_flatMap.2 ⟨b, hb, hc⟩
      have hplace := hin.between c hmem
      have hlt := Proper.place_lt ⟨accepts_of_mem_own hc, hplace.ordered⟩
      have hapart := h.2.2 a ha c (by rw [List.flatMap_append]; exact List.mem_append_left _ hmem)
      rw [own_of_marked hmarked a ha] at hapart
      have hlower := hplace.lower
      have hupper := hplace.upper
      rcases hapart with hapart | hapart
      · omega
      · omega
    · rw [own_of_marked hmarked a ha]
      rw [List.flatMap_append, List.mem_append] at hb
      rcases hb with hb | hb
      · obtain ⟨k, hk, hbk⟩ := List.mem_flatMap.1 hb
        rw [hclear.1 (List.ne_nil_of_mem ha) k hk] at hbk
        cases hbk
      · exact .inl (h.between b hb).lower

/-- A node whose token everything in it stands within. -/
theorem whole (hin : Spread (place m.1.begin) ns (place m.1.end_)) (hmarked : marked n = some m)
    (hm : Between lo m.1 hi) (hcovered : covered n = ns) : Spread lo (n :: ns) hi := by
  have h := within hin (.nil hm.upper) hmarked hm hcovered
  rwa [List.append_nil] at h

/-- A node with a token and without parts. -/
theorem leaf (hmarked : marked n = some m) (hm : Between lo m.1 hi) (hcovered : covered n = []) :
    Spread lo [n] hi :=
  (nil (hm.lower.trans (hm.ordered.trans hm.upper))).beside hmarked hm hcovered (by simp)

end Spread

theorem enters_of_ne {kind : Kind} (h : kind ≠ .type) : enters kind = true := by
  cases kind with
  | type => exact absurd rfl h
  | _ => rfl

mutual

/-- The tokens of a program. -/
theorem spread_visited : ∀ (n : Node) (lo hi : ℕ), Laid lo n hi → Spread lo (n.visited enters) hi
  | .mk kind location parts others, lo, hi, h => by
    rw [Node.visited]
    cases hmarked : marked (.mk kind location parts others) with
    | none =>
      refine Spread.plain ?_ (own_of_none hmarked)
      by_cases htype : kind = .type
      · subst htype
        rw [Laid] at h
        exact .nil h
      · rw [if_pos (enters_of_ne htype)]
        exact spread_visitedAll parts lo hi ((laid_plain hmarked htype).1 h)
    | some m =>
      have htype : kind ≠ .type := by
        rintro rfl
        cases hmarked
      rw [if_pos (enters_of_ne htype)]
      cases kind with
      | indexName indexLocation =>
        obtain rfl := Option.some.inj hmarked
        rw [Laid] at h
        obtain ⟨mid, hparts, hm⟩ := h
        have hspread := spread_visitedAll parts lo mid hparts
        have hle := hm.ordered.trans hm.upper
        refine Spread.beside (hspread.widen le_rfl (hm.lower.trans hle)) hmarked
          ⟨hspread.le.trans hm.lower, hm.ordered, hm.upper⟩ rfl fun a ha => .inr ?_
        exact (hspread.between a ha).upper.trans hm.lower
      | localFunction name =>
        obtain rfl := Option.some.inj hmarked
        rw [Laid] at h
        obtain ⟨mid, hm, hparts⟩ := h
        have hspread := spread_visitedAll parts mid hi hparts
        refine Spread.beside (hspread.widen (hm.lower.trans (hm.ordered.trans hm.upper)) le_rfl)
          hmarked
          ⟨hm.lower, hm.ordered, hm.upper.trans hspread.le⟩ rfl fun a ha => .inl ?_
        exact hm.upper.trans (hspread.between a ha).lower
      | statFunction nameLocation =>
        obtain rfl := Option.some.inj hmarked
        cases parts with
        | nil =>
          rw [Laid] at h
          exact h.elim
        | cons name parts =>
          rw [Laid] at h
          obtain ⟨hm, hname, hparts⟩ := h
          rw [Node.visitedAll]
          exact Spread.within (m := (nameLocation, 8)) (spread_visited name _ _ hname)
            (spread_visitedAll parts _ _ hparts) hmarked hm rfl
      | typeAlias =>
        obtain rfl := Option.some.inj hmarked
        rw [Laid] at h
        exact .whole (m := (location, 0)) (spread_visitedAll parts _ _ h.2) hmarked h.1 rfl
      | typeReference prefixLocal =>
        obtain rfl := Option.some.inj hmarked
        rw [Laid] at h
        exact .whole (m := (location, 0)) (spread_visitedAll parts _ _ h.2) hmarked h.1 rfl
      | exprLocal local_ =>
        obtain rfl := Option.some.inj hmarked
        rw [Laid] at h
        obtain ⟨rfl, hm⟩ := h
        rw [Node.visitedAll]
        exact Spread.leaf hmarked hm rfl
      | constantNumber =>
        obtain rfl := Option.some.inj hmarked
        rw [Laid] at h
        obtain ⟨rfl, hm⟩ := h
        rw [Node.visitedAll]
        exact Spread.leaf hmarked hm rfl
      | constantString =>
        obtain rfl := Option.some.inj hmarked
        rw [Laid] at h
        obtain ⟨rfl, hm⟩ := h
        rw [Node.visitedAll]
        exact Spread.leaf hmarked hm rfl
      | _ => cases hmarked

/-- The tokens of successive nodes. -/
theorem spread_visitedAll : ∀ (ns : List Node) (lo hi : ℕ), LaidAll lo ns hi →
    Spread lo (Node.visitedAll enters ns) hi
  | [], _, _, h => by
    rw [LaidAll] at h
    rw [Node.visitedAll]
    exact .nil h
  | n :: ns, lo, hi, h => by
    rw [LaidAll] at h
    obtain ⟨mid, hn, hns⟩ := h
    rw [Node.visitedAll]
    exact (spread_visited n lo mid hn).append (spread_visitedAll ns mid hi hns)

end

/-! ### When the tokens are well formed -/

theorem proper_of_laid {lo hi : ℕ} (hlaid : Laid lo root hi) : ∀ m ∈ collected root, Proper m := by
  intro m hm
  obtain ⟨n, _, hown⟩ := List.mem_flatMap.1 hm
  exact ⟨accepts_of_mem_own hown, ((spread_visited root lo hi hlaid).between m hm).ordered⟩

theorem clear_of_wellFormed {lo hi : ℕ} (hlaid : Laid lo root hi) (h : WellFormed root) :
    Clear (root.visited enters) :=
  (spread_visited root lo hi hlaid).apart_iff.1 (apart_of_wellFormed (proper_of_laid hlaid) h).1

/-- **Semantic tokens are well formed** exactly if no token stands within another and no token starts at
a line or a column that is no `int`. -/
theorem wellFormed_iff (root : Node) (lo hi : ℕ) (hlaid : Laid lo root hi) :
    WellFormed root ↔ Clear (root.visited enters) ∧ InRange root := by
  have hproper := proper_of_laid hlaid
  refine ⟨fun h => ⟨clear_of_wellFormed hlaid h, (apart_of_wellFormed hproper h).2⟩, fun h => ?_⟩
  obtain ⟨hclear, hrange⟩ := h
  exact wellFormed_of_apart hproper ((spread_visited root lo hi hlaid).apart_iff.2 hclear) hrange

theorem laid_identityFunction : Laid 0 identityFunction 33 := by
  have hname : Between 0 (onLine 15 1) 17 := ⟨by decide, by decide, by decide⟩
  have huse : Between 17 (onLine 27 1) 33 := ⟨by decide, by decide, by decide⟩
  simp only [identityFunction, AstStatBlock, AstStatLocalFunction, AstExprFunction, AstStatReturn,
    AstExprLocal, Laid, LaidAll, List.filterMap_cons, List.filterMap_nil, Option.toList_none,
    List.nil_append]
  exact ⟨33, ⟨17, hname, 33, ⟨33, ⟨33, ⟨33, ⟨trivial, huse⟩, le_rfl⟩, le_rfl⟩, le_rfl⟩, le_rfl⟩, le_rfl⟩

/-- The tokens of a function. -/
theorem wellFormed_identityFunction : WellFormed identityFunction :=
  (wellFormed_iff identityFunction 0 33 laid_identityFunction).2
    ⟨by unfold Clear; decide, by unfold InRange; decide⟩

/-- `type A = B`. -/
def aliasProgram : Node :=
  AstStatBlock (onLine 0 10)
    [AstStatTypeAlias (onLine 0 10) [] [] (AstTypeReference (onLine 9 1) none [])]

theorem laid_aliasProgram : Laid 0 aliasProgram 10 := by
  have halias : Between 0 (onLine 0 10) 10 := ⟨by decide, by decide, by decide⟩
  have htype : Between (place (onLine 0 10).begin) (onLine 9 1) (place (onLine 0 10).end_) :=
    ⟨by decide, by decide, by decide⟩
  simp only [aliasProgram, AstStatBlock, AstStatTypeAlias, AstTypeReference, Laid, LaidAll,
    List.nil_append]
  exact ⟨10, ⟨halias, _, ⟨htype, htype.ordered⟩, le_rfl⟩, le_rfl⟩

/-- A type alias with a type inside. -/
theorem nested_tokens : ¬ ∀ root : Node, (∃ lo hi, Laid lo root hi) → WellFormed root := by
  intro h
  have hclear := clear_of_wellFormed laid_aliasProgram (h aliasProgram ⟨0, 10, laid_aliasProgram⟩)
  revert hclear
  unfold Clear
  decide

end SemanticTokens

end Lsp

end Jaci
