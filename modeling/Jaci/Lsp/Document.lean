import Jaci.Lib.Wire
import Mathlib.Data.List.Basic

/-!
# Documents of the language server

A client edits a text of Unicode characters and sends its changes; the server keeps the bytes of
the text.  The client counts columns in UTF-16 code units, ends lines with LF, CR LF or CR, and a
column beyond a line means the end of the line before its terminator.  The server counts columns in
bytes, ends lines with LF, and a column beyond a line means the start of the next one.

* `CompactLineOffsets`, `DocumentState` : the source;
* `Client` : the text as the client keeps it;
* `PlainPosition` : the positions on which the two agree;
* `getOffset_plain_iff` : they are those that lead to the same place;
* `applyChanges_synchronised` : a session of such changes keeps both texts the same.
-/

namespace Jaci

namespace Lsp

open Wire

/-! ### The server -/

/-- A position: its numbers are of the message, and of the type `int` once it is read. -/
structure Position where
  line : ℤ
  character : ℤ

/-- `Position::fromJson`: the numbers of the message are cast to `int`. -/
def Position.fromJson (v : Position) : Position := ⟨v.line.bmod (2 ^ 32), v.character.bmod (2 ^ 32)⟩

/-- A range of a text. -/
structure Range where
  start : Position
  stop : Position

def Range.fromJson (v : Range) : Range := ⟨.fromJson v.start, .fromJson v.stop⟩

namespace CompactLineOffsets

/-- The loop of `build`, from the byte number `i` on: offsets are 32 bits wide. -/
def newlines : ℕ → Bytes → List ℕ
  | _, [] => []
  | i, b :: bs => if b = 10 then (i + 1) % 2 ^ 32 :: newlines (i + 1) bs else newlines (i + 1) bs

/-- `CompactLineOffsets::build`: where the lines start. -/
def build (text : Bytes) : List ℕ := 0 :: newlines 0 text

def getOffset (offsets : List ℕ) (line character : ℤ) (totalTextSize : ℕ) : ℕ :=
  if line < 0 ∨ offsets = [] then 0
  else if line.toNat ≥ offsets.length then totalTextSize
  else
    let lineStart := offsets.getD line.toNat 0
    let lineEnd :=
      if line.toNat + 1 < offsets.length then offsets.getD (line.toNat + 1) 0 else totalTextSize
    min (lineStart + (max 0 character).toNat) lineEnd

end CompactLineOffsets

/-- An open document. -/
structure DocumentState where
  path : Bytes
  version : ℤ
  text : Bytes
  lineOffsets : List ℕ

/-- One entry of `contentChanges`. -/
structure ContentChange where
  /-- What is replaced; the whole text if it is missing. -/
  range : Option Range
  text : Option Bytes

namespace DocumentState

def updateText (doc : DocumentState) (newText : Bytes) : DocumentState :=
  { doc with text := newText, lineOffsets := CompactLineOffsets.build newText }

def getOffset (doc : DocumentState) (pos : Position) : ℕ :=
  CompactLineOffsets.getOffset doc.lineOffsets pos.line pos.character doc.text.length

def applyIncrementalChange (doc : DocumentState) (range : Range) (newText : Bytes) :
    DocumentState :=
  let startOffset := doc.getOffset range.start
  let endOffset := doc.getOffset range.stop
  let (startOffset, endOffset) :=
    if startOffset > endOffset then (endOffset, startOffset) else (startOffset, endOffset)
  let startOffset := min startOffset doc.text.length
  let endOffset := min endOffset doc.text.length
  doc.updateText (doc.text.take startOffset ++ newText ++ doc.text.drop endOffset)

/-- One change of `didChange`. -/
def applyChange (doc : DocumentState) (change : ContentChange) : DocumentState :=
  match change.range, change.text with
  | some range, some text => doc.applyIncrementalChange (.fromJson range) text
  | none, some text => doc.updateText text
  | _, none => doc

end DocumentState

/-! ### The client -/

namespace Client

def LF : Char := Char.ofNat 10

def CR : Char := Char.ofNat 13

/-- The number of UTF-16 code units of a character. -/
def units (c : Char) : ℕ := if c.toNat < 0x10000 then 1 else 2

/-- The first line with its terminator, and what follows. -/
def nextLine : List Char → List Char × List Char
  | [] => ([], [])
  | c :: t =>
    if c = LF then ([c], t)
    else if c = CR then
      match t with
      | d :: u => if d = LF then ([c, d], u) else ([c], t)
      | [] => ([c], [])
    else (c :: (nextLine t).1, (nextLine t).2)

/-- The number of characters before a column of the first line. -/
def column : ℕ → List Char → ℕ
  | _, [] => 0
  | ch, c :: t =>
    if c = LF ∨ c = CR ∨ ch < units c then 0 else column (ch - units c) t + 1

/-- The number of characters before a position. -/
def offset : ℕ → ℕ → List Char → ℕ
  | 0, ch, t => column ch t
  | line + 1, ch, t => (nextLine t).1.length + offset line ch (nextLine t).2

/-- A position of the client: a line and a column in UTF-16 code units. -/
structure Pos where
  line : ℕ
  character : ℕ

/-- The order of the positions. -/
def Pos.le (p q : Pos) : Prop := p.line < q.line ∨ p.line = q.line ∧ p.character ≤ q.character

/-- The numbers of a position are of the type `uinteger` of the protocol. -/
def Pos.Bounded (p : Pos) : Prop := p.line < 2 ^ 31 ∧ p.character < 2 ^ 31

/-- A change: the range that is replaced, or the whole text, and the new text. -/
structure Change where
  range : Option (Pos × Pos)
  text : List Char

/-- A change that the protocol allows: its range is in order. -/
def Change.Valid (change : Change) : Prop :=
  ∀ start stop, change.range = some (start, stop) →
    start.Bounded ∧ stop.Bounded ∧ start.le stop

/-- The text after a change. -/
def apply (t : List Char) (change : Change) : List Char :=
  match change.range with
  | none => change.text
  | some (start, stop) =>
    t.take (offset start.line start.character t) ++ change.text ++
      t.drop (offset stop.line stop.character t)

end Client

open Client

/-- The bytes of a text in UTF-8. -/
def encode (t : List Char) : Bytes := t.flatMap String.utf8EncodeChar

def Client.Change.send (change : Change) : ContentChange where
  range := change.range.map fun (start, stop) =>
    ⟨⟨start.line, start.character⟩, ⟨stop.line, stop.character⟩⟩
  text := some (encode change.text)

/-! ### Where both agree -/

/-- A column of the first line is as many bytes from its start, or is beyond the last line of the
text for both.  So is a column that only ASCII characters are before. -/
def PlainColumn (ch : ℕ) (t : List Char) : Prop :=
  (encode (t.take (column ch t))).length = ch ∨
    t.length ≤ column ch t ∧ (encode t).length ≤ ch

instance (ch : ℕ) (t : List Char) : Decidable (PlainColumn ch t) :=
  inferInstanceAs (Decidable (_ ∨ _ ∧ _))

/-- Does the first line end with a CR that no LF follows? -/
def endsWithCR : List Char → Bool
  | [] => false
  | c :: t =>
    if c = LF then false
    else if c = CR then
      match t with
      | d :: _ => decide (d ≠ LF)
      | [] => true
    else endsWithCR t

/-- No line before the position ends with a single CR, and its column is plain; or it is the end of
the text. -/
def PlainPosition : ℕ → ℕ → List Char → Prop
  | 0, ch, t => PlainColumn ch t
  | line + 1, ch, t =>
    if endsWithCR t then t.length ≤ offset (line + 1) ch t else PlainPosition line ch (nextLine t).2

instance decidablePlainPosition : ∀ line ch t, Decidable (PlainPosition line ch t)
  | 0, ch, t => inferInstanceAs (Decidable (PlainColumn ch t))
  | line + 1, ch, t =>
    have := decidablePlainPosition line ch (nextLine t).2
    inferInstanceAs (Decidable (if endsWithCR t then t.length ≤ offset (line + 1) ch t
      else PlainPosition line ch (nextLine t).2))

/-- The change is of the whole text; or its positions are plain, and the text is not too large for
the table of lines. -/
def PlainChange (t : List Char) (change : Change) : Prop :=
  match change.range with
  | none => True
  | some (start, stop) =>
    (encode t).length < 2 ^ 32 ∧
      PlainPosition start.line start.character t ∧ PlainPosition stop.line stop.character t

/-- Each change of a session is plain in its turn. -/
def PlainSession : List Char → List Change → Prop
  | _, [] => True
  | t, change :: changes => PlainChange t change ∧ PlainSession (apply t change) changes

/-! ### Encoding -/

theorem encode_append (t u : List Char) : encode (t ++ u) = encode t ++ encode u :=
  List.flatMap_append

theorem encode_cons (c : Char) (t : List Char) :
    encode (c :: t) = String.utf8EncodeChar c ++ encode t := rfl

theorem encode_take (t : List Char) (n : ℕ) :
    encode (t.take n) = (encode t).take (encode (t.take n)).length := by
  conv_rhs => rw [← List.take_append_drop n t, encode_append]
  simp

theorem encode_drop (t : List Char) (n : ℕ) :
    encode (t.drop n) = (encode t).drop (encode (t.take n)).length := by
  conv_rhs => rw [← List.take_append_drop n t, encode_append]
  simp

theorem encode_LF : String.utf8EncodeChar LF = [10] := by decide

theorem encode_line (l rest : List Char) :
    encode (l ++ LF :: rest) = encode l ++ 10 :: encode rest := by
  rw [encode_append, encode_cons, encode_LF]
  rfl

theorem take_line (l rest : List Char) (n : ℕ) :
    (l ++ LF :: rest).take ((l ++ [LF]).length + n) = l ++ LF :: rest.take n := by
  rw [List.append_cons l LF rest, List.append_cons l LF (rest.take n)]
  exact List.take_length_add_append n

/-- The byte of a line feed is in no other character. -/
theorem newline_notMem {c : Char} (h : c ≠ LF) : (10 : UInt8) ∉ String.utf8EncodeChar c := by
  have hhigh : ∀ x y : UInt8, y.toBitVec.getLsbD 7 = true → x ||| y ≠ 10 := by
    intro x y hy hxy
    have hbit := congrArg (fun b : UInt8 => b.toBitVec.getLsbD 7) hxy
    rw [UInt8.toBitVec_or, BitVec.getLsbD_or, hy, Bool.or_true] at hbit
    exact absurd hbit (by decide)
  intro hmem
  rcases c.utf8Size_eq with hs | hs | hs | hs
  · rw [String.utf8EncodeChar_eq_singleton hs, List.mem_singleton] at hmem
    have hle : c.val.toNat ≤ 127 := UInt32.le_iff_toNat_le.mp (Char.utf8Size_eq_one_iff.mp hs)
    have hval := congrArg UInt8.toNat hmem
    rw [UInt32.toNat_toUInt8] at hval
    have h10 : (10 : UInt8).toNat = 10 := rfl
    refine h (Char.toNat_inj.mp ?_)
    show c.val.toNat = 10
    omega
  · rw [String.utf8EncodeChar_eq_cons_cons hs] at hmem
    simp only [List.mem_cons, List.not_mem_nil, or_false] at hmem
    rcases hmem with e | e
    · exact hhigh _ _ (by decide) e.symm
    · exact hhigh _ _ (by decide) e.symm
  · rw [String.utf8EncodeChar_eq_cons_cons_cons hs] at hmem
    simp only [List.mem_cons, List.not_mem_nil, or_false] at hmem
    rcases hmem with e | e | e
    · exact hhigh _ _ (by decide) e.symm
    · exact hhigh _ _ (by decide) e.symm
    · exact hhigh _ _ (by decide) e.symm
  · rw [String.utf8EncodeChar_eq_cons_cons_cons_cons hs] at hmem
    simp only [List.mem_cons, List.not_mem_nil, or_false] at hmem
    rcases hmem with e | e | e | e
    · exact hhigh _ _ (by decide) e.symm
    · exact hhigh _ _ (by decide) e.symm
    · exact hhigh _ _ (by decide) e.symm
    · exact hhigh _ _ (by decide) e.symm

theorem newline_notMem_encode {t : List Char} (h : LF ∉ t) : (10 : UInt8) ∉ encode t := by
  intro hmem
  obtain ⟨c, hc, hmem⟩ := List.mem_flatMap.mp hmem
  exact newline_notMem (fun e => h (e ▸ hc)) hmem

/-! ### The table of lines -/

section Lines

open CompactLineOffsets

variable {l rest : Bytes}

theorem newlines_append (i : ℕ) (l rest : Bytes) :
    newlines i (l ++ rest) = newlines i l ++ newlines (i + l.length) rest := by
  induction l generalizing i with
  | nil => rfl
  | cons b l ih =>
    have hadd : i + (b :: l).length = i + 1 + l.length := by simp; omega
    rw [List.cons_append, newlines, newlines, ih, hadd]
    split_ifs <;> rfl

theorem newlines_eq_nil (i : ℕ) (h : (10 : UInt8) ∉ l) : newlines i l = [] := by
  induction l generalizing i with
  | nil => rfl
  | cons b l ih =>
    rw [newlines, if_neg fun (e : b = 10) => h (e ▸ List.mem_cons_self)]
    exact ih _ fun hm => h (List.mem_cons_of_mem _ hm)

/-- The offsets of a text that starts later. -/
theorem newlines_shift (i k : ℕ) (h : i + k + rest.length < 2 ^ 32) :
    newlines (i + k) rest = (newlines i rest).map (· + k) := by
  induction rest generalizing i with
  | nil => rfl
  | cons b rest ih =>
    have hlen : (b :: rest).length = rest.length + 1 := rfl
    have ih' := ih (i + 1) (by omega)
    rw [show i + 1 + k = i + k + 1 by omega] at ih'
    rw [newlines, newlines]
    split_ifs
    · rw [List.map_cons, ih', Nat.mod_eq_of_lt (by omega), Nat.mod_eq_of_lt (by omega)]
      congr 1
      omega
    · exact ih'

theorem build_line (h : (10 : UInt8) ∉ l) (hsize : (l ++ 10 :: rest).length < 2 ^ 32) :
    build (l ++ 10 :: rest) = 0 :: (build rest).map (· + (l.length + 1)) := by
  have hlen : (l ++ 10 :: rest).length = l.length + 1 + rest.length := by simp; omega
  have hshift : newlines (0 + (l.length + 1)) rest = (newlines 0 rest).map (· + (l.length + 1)) :=
    newlines_shift 0 (l.length + 1) (by omega)
  rw [Nat.zero_add] at hshift
  rw [build, build, newlines_append, newlines_eq_nil 0 h, List.nil_append, newlines, if_pos rfl,
    Nat.zero_add, hshift, Nat.mod_eq_of_lt (by omega)]
  simp

/-- The offset of a position in a text. -/
def offsetIn (text : Bytes) (line ch : ℕ) : ℕ :=
  CompactLineOffsets.getOffset (build text) line ch text.length

theorem offsetIn_eq (text : Bytes) (line ch : ℕ) :
    offsetIn text line ch =
      if line ≥ (build text).length then text.length
      else min ((build text).getD line 0 + ch)
        (if line + 1 < (build text).length then (build text).getD (line + 1) 0 else text.length) := by
  have hnil : build text ≠ [] := by simp [build]
  rw [offsetIn, CompactLineOffsets.getOffset, if_neg (by simp [hnil])]
  simp

/-- A later line of a text is a line of what follows the first one. -/
theorem offsetIn_succ (h : (10 : UInt8) ∉ l) (hsize : (l ++ 10 :: rest).length < 2 ^ 32)
    (line ch : ℕ) :
    offsetIn (l ++ 10 :: rest) (line + 1) ch = l.length + 1 + offsetIn rest line ch := by
  have hlen : (l ++ 10 :: rest).length = l.length + 1 + rest.length := by simp; omega
  have hget : ∀ i < (build rest).length,
      ((build rest).map (· + (l.length + 1))).getD i 0 = (build rest).getD i 0 + (l.length + 1) := by
    intro i hi
    simp [hi]
  rw [offsetIn_eq, offsetIn_eq, build_line h hsize, hlen]
  simp only [List.length_cons, List.length_map, List.getD_cons_succ, ge_iff_le,
    Nat.add_le_add_iff_right, Nat.add_lt_add_iff_right]
  split_ifs with h1 h2
  · rfl
  · rw [hget _ (by omega), hget _ (by omega)]
    omega
  · rw [hget _ (by omega)]
    omega

/-- There is no later line. -/
theorem offsetIn_last (h : (10 : UInt8) ∉ l) (line ch : ℕ) :
    offsetIn l (line + 1) ch = l.length := by
  rw [offsetIn_eq, if_pos]
  simp [build, newlines_eq_nil 0 h]

theorem exists_line (text : Bytes) :
    (∃ l rest, text = l ++ 10 :: rest ∧ (10 : UInt8) ∉ l) ∨ (10 : UInt8) ∉ text := by
  by_cases h : (10 : UInt8) ∈ text
  · obtain ⟨l, rest, rfl, hl⟩ := List.eq_append_cons_of_mem h
    exact .inl ⟨l, rest, rfl, hl⟩
  · exact .inr h

/-- A later line of a text that starts with a part of a line. -/
theorem offsetIn_append (h : (10 : UInt8) ∉ l) (hsize : (l ++ rest).length < 2 ^ 32)
    (line ch : ℕ) : offsetIn (l ++ rest) (line + 1) ch = l.length + offsetIn rest (line + 1) ch := by
  rcases exists_line rest with ⟨m, rest, rfl, hm⟩ | hrest
  · have hlm : (10 : UInt8) ∉ l ++ m := by simp [h, hm]
    rw [← List.append_assoc] at hsize ⊢
    have hsmall : (m ++ 10 :: rest).length < 2 ^ 32 := by
      simp only [List.length_append, List.length_cons] at hsize ⊢
      omega
    rw [offsetIn_succ hlm hsize, offsetIn_succ hm hsmall, List.length_append]
    omega
  · rw [offsetIn_last (by simp [h, hrest]), offsetIn_last hrest, List.length_append]

/-- The length of the first line, its LF included. -/
def lineLength : Bytes → ℕ
  | [] => 0
  | b :: bs => if b = 10 then 1 else lineLength bs + 1

theorem lineLength_append (h : (10 : UInt8) ∉ l) :
    lineLength (l ++ rest) = l.length + lineLength rest := by
  induction l with
  | nil => simp
  | cons b l ih =>
    rw [List.cons_append, lineLength, if_neg fun (e : b = 10) => h (e ▸ List.mem_cons_self),
      ih fun hm => h (List.mem_cons_of_mem _ hm)]
    simp only [List.length_cons]
    omega

theorem offsetIn_zero {text : Bytes} (hsize : text.length < 2 ^ 32) (ch : ℕ) :
    offsetIn text 0 ch = min ch (lineLength text) := by
  rcases exists_line text with ⟨l, rest, rfl, hl⟩ | h
  · have h0 : (build rest).getD 0 0 = 0 := rfl
    rw [offsetIn_eq, build_line hl hsize, lineLength_append hl]
    simp [lineLength, build]
  · have hall : lineLength (text ++ []) = text.length + lineLength [] := lineLength_append h
    rw [List.append_nil] at hall
    rw [offsetIn_eq, hall, build, newlines_eq_nil 0 h]
    simp [lineLength]

end Lines

/-! ### The same places -/

section Places

variable {t : List Char}

theorem nextLine_cons {c : Char} (hLF : c ≠ LF) (hCR : c ≠ CR) :
    nextLine (c :: t) = (c :: (nextLine t).1, (nextLine t).2) := by
  rw [nextLine.eq_def]
  simp only [if_neg hLF, if_neg hCR]

theorem endsWithCR_cons {c : Char} (hLF : c ≠ LF) (hCR : c ≠ CR) :
    endsWithCR (c :: t) = endsWithCR t := by
  rw [endsWithCR.eq_def]
  simp only [if_neg hLF, if_neg hCR]

/-- A first line that does not end with a CR ends where its LF is. -/
theorem nextLine_cases (h : endsWithCR t = false) :
    (∃ l rest, t = l ++ LF :: rest ∧ LF ∉ l ∧ nextLine t = (l ++ [LF], rest)) ∨
      LF ∉ t ∧ nextLine t = (t, []) := by
  induction t with
  | nil => exact .inr ⟨List.not_mem_nil, rfl⟩
  | cons c t ih =>
    by_cases hLF : c = LF
    · subst hLF
      exact .inl ⟨[], t, rfl, List.not_mem_nil, by simp [nextLine]⟩
    by_cases hCR : c = CR
    · subst hCR
      have hne : CR ≠ LF := by decide
      cases t with
      | nil => simp [endsWithCR, hne] at h
      | cons d u =>
        have hd : d = LF := by simpa [endsWithCR, hne] using h
        subst hd
        exact .inl ⟨[CR], u, rfl, by simp [hne.symm], by simp [nextLine, hne]⟩
    rw [endsWithCR_cons hLF hCR] at h
    have hnext := nextLine_cons (t := t) hLF hCR
    rcases ih h with ⟨l, rest, rfl, hl, hn⟩ | ⟨hn, hl⟩
    · refine .inl ⟨c :: l, rest, rfl, ?_, by rw [hnext, hn]; rfl⟩
      simp [hl, Ne.symm hLF]
    · exact .inr ⟨by simp [hn, Ne.symm hLF], by rw [hnext, hl]⟩

/-- A first line that ends with a CR. -/
theorem nextLine_CR (h : endsWithCR t = true) :
    ∃ l rest, t = l ++ rest ∧ LF ∉ l ∧ nextLine t = (l, rest) := by
  induction t with
  | nil => cases h
  | cons c t ih =>
    by_cases hLF : c = LF
    · simp [endsWithCR, hLF] at h
    by_cases hCR : c = CR
    · subst hCR
      refine ⟨[CR], t, rfl, by simp [Ne.symm hLF], ?_⟩
      cases t with
      | nil => simp [nextLine, hLF]
      | cons d u =>
        have hd : d ≠ LF := by simpa [endsWithCR, hLF] using h
        simp [nextLine, hLF, hd]
    obtain ⟨l, rest, rfl, hl, hnext⟩ := ih (by rwa [endsWithCR_cons hLF hCR] at h)
    refine ⟨c :: l, rest, rfl, by simp [hl, Ne.symm hLF], ?_⟩
    rw [nextLine_cons hLF hCR, hnext]

theorem LF_notMem_column (ch : ℕ) (t : List Char) : LF ∉ t.take (column ch t) := by
  induction t generalizing ch with
  | nil => simp
  | cons c t ih =>
    rw [column]
    split_ifs with h
    · simp
    · simp only [not_or] at h
      simp [ih, Ne.symm h.1]

theorem lineLength_pos {text : Bytes} (h : text ≠ []) : 0 < lineLength text := by
  cases text with
  | nil => exact absurd rfl h
  | cons b bs =>
    rw [lineLength]
    split_ifs
    · exact Nat.one_pos
    · exact Nat.succ_pos _

/-- The prefixes of a text grow with their number of characters. -/
theorem length_encode_take_le {i j : ℕ} (h : i ≤ j) :
    (encode (t.take i)).length ≤ (encode (t.take j)).length := by
  have hsplit := List.take_append_drop i (t.take j)
  rw [List.take_take, Nat.min_eq_left h] at hsplit
  rw [← hsplit, encode_append, List.length_append]
  exact Nat.le_add_right _ _

/-- The bytes of a text that goes on are more. -/
theorem length_encode_take_lt {n : ℕ} (h : n < t.length) :
    (encode (t.take n)).length < (encode t).length := by
  conv_rhs => rw [← List.take_append_drop n t, encode_append, List.length_append]
  refine Nat.lt_add_of_pos_right ?_
  rw [List.drop_eq_getElem_cons h, encode_cons, List.length_append,
    String.length_utf8EncodeChar]
  exact Nat.add_pos_left (Char.utf8Size_pos _) _

/-- The server finds a column of the first line where the client does if it is plain. -/
theorem column_plain_iff (ch : ℕ) (t : List Char) :
    min ch (lineLength (encode t)) = (encode (t.take (column ch t))).length ↔ PlainColumn ch t := by
  have hline : lineLength (encode t) =
      (encode (t.take (column ch t))).length + lineLength (encode (t.drop (column ch t))) := by
    rw [← lineLength_append (newline_notMem_encode (LF_notMem_column ch t)), ← encode_append,
      List.take_append_drop]
  rcases Nat.lt_or_ge (column ch t) t.length with h | h
  · -- The line goes on after the column.
    have hmore : 0 < lineLength (encode (t.drop (column ch t))) := by
      refine lineLength_pos fun hnil => ?_
      have hlt := length_encode_take_lt h
      rw [encode_drop] at hnil
      exact absurd (List.drop_eq_nil_iff.mp hnil) (by omega)
    rw [PlainColumn]
    omega
  · have hnil : t.drop (column ch t) = [] := List.drop_eq_nil_iff.mpr h
    have hall : t.take (column ch t) = t := List.take_of_length_le h
    have hzero : lineLength (encode []) = 0 := rfl
    rw [hnil, hzero] at hline
    rw [PlainColumn, hall]
    rw [hall] at hline
    omega

/-- The line `k` of the server is after every place of an earlier line of the client, unless that
place is the end of the text. -/
theorem offsetIn_later {line k : ℕ} (hk : line < k) (hsize : (encode t).length < 2 ^ 32)
    (ch ch' : ℕ) :
    offset line ch t < t.length ∧
        (encode (t.take (offset line ch t))).length < offsetIn (encode t) k ch' ∨
      t.length ≤ offset line ch t ∧ offsetIn (encode t) k ch' = (encode t).length := by
  obtain ⟨k, rfl⟩ := Nat.exists_eq_add_one_of_ne_zero (Nat.ne_zero_of_lt hk)
  induction line generalizing t k with
  | zero =>
    by_cases hLF : LF ∈ t
    · obtain ⟨l, rest, rfl, hl⟩ := List.eq_append_cons_of_mem hLF
      have hcolumn : column ch (l ++ LF :: rest) ≤ l.length := by
        by_contra hgt
        refine LF_notMem_column ch (l ++ LF :: rest) ?_
        rw [List.take_append, List.mem_append]
        right
        rw [List.take_cons (by omega)]
        exact List.mem_cons_self
      have hprefix := length_encode_take_le (t := l) hcolumn
      rw [List.take_length] at hprefix
      rw [encode_line] at hsize ⊢
      rw [offsetIn_succ (newline_notMem_encode hl) hsize, offset,
        List.take_append_of_le_length hcolumn]
      simp only [List.length_append, List.length_cons]
      omega
    · rw [offsetIn_last (newline_notMem_encode hLF), offset]
      rcases Nat.lt_or_ge (column ch t) t.length with h | h
      · exact .inl ⟨h, length_encode_take_lt h⟩
      · exact .inr ⟨h, rfl⟩
  | succ line ih =>
    cases hCR : endsWithCR t with
    | true =>
      obtain ⟨l, rest, rfl, hl, hnext⟩ := nextLine_CR hCR
      rw [encode_append] at hsize ⊢
      have hrest := ih (t := rest) (by rw [List.length_append] at hsize; omega) k (by omega)
      rw [offsetIn_append (newline_notMem_encode hl) hsize, offset, hnext,
        List.take_length_add_append, encode_append]
      simp only [List.length_append]
      omega
    | false =>
      obtain ⟨k, rfl⟩ := Nat.exists_eq_add_one_of_ne_zero (n := k) (by omega)
      rcases nextLine_cases hCR with ⟨l, rest, rfl, hl, hnext⟩ | ⟨hl, hnext⟩
      · rw [encode_line] at hsize ⊢
        have hrest := ih (t := rest) (by simp at hsize; omega) k (by omega)
        rw [offsetIn_succ (newline_notMem_encode hl) hsize, offset, hnext, take_line,
          encode_line]
        simp only [List.length_append, List.length_cons, List.length_nil]
        omega
      · refine .inr ⟨?_, offsetIn_last (newline_notMem_encode hl) _ _⟩
        rw [offset, hnext]
        exact Nat.le_add_right _ _

theorem plainPosition_nil (line ch : ℕ) : PlainPosition line ch [] := by
  induction line with
  | zero => exact .inr ⟨Nat.le_refl _, Nat.zero_le ch⟩
  | succ line ih => exact ih

/-- **The plain positions are those that lead to the same place** of the text and of its bytes. -/
theorem getOffset_plain_iff (line ch : ℕ) (hsize : (encode t).length < 2 ^ 32) :
    offsetIn (encode t) line ch = (encode (t.take (offset line ch t))).length ↔
      PlainPosition line ch t := by
  induction line generalizing t with
  | zero =>
    rw [offsetIn_zero hsize]
    exact column_plain_iff ch t
  | succ line ih =>
    cases hCR : endsWithCR t with
    | true =>
      rw [PlainPosition, if_pos hCR]
      obtain ⟨l, rest, rfl, hl, hnext⟩ := nextLine_CR hCR
      rw [encode_append] at hsize ⊢
      have hrest := offsetIn_later (t := rest) (Nat.lt_add_one line)
        (by rw [List.length_append] at hsize; omega) ch ch
      have hall : rest.length ≤ offset line ch rest →
          (encode (rest.take (offset line ch rest))).length = (encode rest).length := fun h => by
        rw [List.take_of_length_le h]
      rw [offsetIn_append (newline_notMem_encode hl) hsize, offset, hnext,
        List.take_length_add_append, encode_append]
      simp only [List.length_append]
      omega
    | false =>
      rw [PlainPosition, if_neg (by simp [hCR])]
      rcases nextLine_cases hCR with ⟨l, rest, rfl, hl, hnext⟩ | ⟨hl, hnext⟩
      · rw [encode_line] at hsize ⊢
        have hrest := ih (t := rest) (by simp at hsize; omega)
        rw [offsetIn_succ (newline_notMem_encode hl) hsize, offset, hnext, take_line, encode_line,
          ← hrest]
        simp only [List.length_append, List.length_cons]
        omega
      · -- The text has no such line: both stop at its end.
        rw [offsetIn_last (newline_notMem_encode hl), offset, hnext,
          List.take_of_length_le (Nat.le_add_right _ _)]
        exact iff_of_true rfl (plainPosition_nil line ch)

/-- A column is in its line. -/
theorem column_le_nextLine (ch : ℕ) (t : List Char) : column ch t ≤ (nextLine t).1.length := by
  induction t generalizing ch with
  | nil => exact Nat.le_refl _
  | cons c t ih =>
    rw [column]
    split_ifs with h
    · exact Nat.zero_le _
    · simp only [not_or] at h
      rw [nextLine_cons h.1 h.2.1]
      exact Nat.succ_le_succ (ih _)

theorem column_mono {ch ch' : ℕ} (h : ch ≤ ch') : column ch t ≤ column ch' t := by
  induction t generalizing ch ch' with
  | nil => exact Nat.le_refl _
  | cons c t ih =>
    rw [column, column]
    split_ifs with h1 h2 h2
    · exact Nat.le_refl _
    · exact Nat.zero_le _
    · rcases h2 with h2 | h2 | h2
      · exact absurd (.inl h2) h1
      · exact absurd (.inr (.inl h2)) h1
      · exact absurd (.inr (.inr (h.trans_lt h2))) h1
    · exact Nat.succ_le_succ (ih (Nat.sub_le_sub_right h _))

theorem offset_mono {p q : Pos} (h : p.le q) :
    offset p.line p.character t ≤ offset q.line q.character t := by
  obtain ⟨line, ch⟩ := p
  obtain ⟨line', ch'⟩ := q
  simp only [Pos.le] at h
  induction line generalizing line' t with
  | zero =>
    cases line' with
    | zero =>
      have hch : ch ≤ ch' := by simpa using h
      exact column_mono hch
    | succ line' => exact (column_le_nextLine ch t).trans (Nat.le_add_right _ _)
  | succ line ih =>
    cases line' with
    | zero => omega
    | succ line' => exact Nat.add_le_add_left (ih line' (by omega)) _

end Places

/-! ### Sessions -/

/-- The server holds the text of the client, and the lines of it. -/
structure Synchronised (doc : DocumentState) (t : List Char) : Prop where
  text : doc.text = encode t
  lineOffsets : doc.lineOffsets = CompactLineOffsets.build doc.text

section Sessions

variable {doc : DocumentState} {t : List Char} {change : Change}

theorem Synchronised.updateText (doc : DocumentState) (t : List Char) :
    Synchronised (doc.updateText (encode t)) t := ⟨rfl, rfl⟩

theorem fromJson_bounded {p : Pos} (h : p.Bounded) :
    Position.fromJson ⟨p.line, p.character⟩ = ⟨p.line, p.character⟩ := by
  have hcast : ∀ n : ℕ, n < 2 ^ 31 → (n : ℤ).bmod (2 ^ 32) = n := by
    intro n hn
    exact Int.bmod_eq_of_le (by omega) (by omega)
  simp only [Position.fromJson, hcast _ h.1, hcast _ h.2]

theorem Synchronised.getOffset (hs : Synchronised doc t) {p : Pos} (hp : p.Bounded)
    (hsize : (encode t).length < 2 ^ 32) (hplain : PlainPosition p.line p.character t) :
    doc.getOffset (.fromJson ⟨p.line, p.character⟩) =
      (encode (t.take (offset p.line p.character t))).length := by
  rw [fromJson_bounded hp, DocumentState.getOffset, hs.lineOffsets, hs.text]
  exact (getOffset_plain_iff _ _ hsize).mpr hplain

theorem applyIncrementalChange_eq {p q : Position} {a b : ℕ} (hstart : doc.getOffset p = a)
    (hstop : doc.getOffset q = b) (hab : a ≤ b) (hb : b ≤ doc.text.length) (new : Bytes) :
    doc.applyIncrementalChange ⟨p, q⟩ new =
      doc.updateText (doc.text.take a ++ new ++ doc.text.drop b) := by
  simp only [DocumentState.applyIncrementalChange, hstart, hstop, if_neg (Nat.not_lt.mpr hab),
    Nat.min_eq_left hb, Nat.min_eq_left (hab.trans hb)]

/-- A plain change keeps the server synchronised. -/
theorem Synchronised.applyChange (hs : Synchronised doc t) (hvalid : change.Valid)
    (hplain : PlainChange t change) :
    Synchronised (doc.applyChange change.send) (apply t change) := by
  obtain ⟨range, new⟩ := change
  cases range with
  | none => exact .updateText doc new
  | some range =>
    obtain ⟨start, stop⟩ := range
    obtain ⟨hsize, hstart, hstop⟩ := hplain
    obtain ⟨hb, hb', hle⟩ := hvalid start stop rfl
    have hfrom := hs.getOffset hb hsize hstart
    have hto := hs.getOffset hb' hsize hstop
    have horder := length_encode_take_le (t := t) (offset_mono (t := t) hle)
    have hend : (encode (t.take (offset stop.line stop.character t))).length ≤ doc.text.length := by
      rw [hs.text, encode_take]
      exact List.length_take_le' _ _
    have hnew : apply t ⟨some (start, stop), new⟩ =
        t.take (offset start.line start.character t) ++ new ++
          t.drop (offset stop.line stop.character t) := rfl
    have hbytes : doc.applyChange (Change.send ⟨some (start, stop), new⟩) =
        doc.updateText (encode (apply t ⟨some (start, stop), new⟩)) := by
      rw [hnew, encode_append, encode_append, encode_take t, encode_drop t, ← hs.text]
      rw [← applyIncrementalChange_eq hfrom hto horder hend]
      rfl
    rw [hbytes]
    exact .updateText doc _

theorem Synchronised.applyChanges {changes : List Change} (hs : Synchronised doc t)
    (hvalid : ∀ change ∈ changes, change.Valid) (hplain : PlainSession t changes) :
    Synchronised ((changes.map Change.send).foldl DocumentState.applyChange doc)
      (changes.foldl apply t) := by
  induction changes generalizing doc t with
  | nil => exact hs
  | cons change changes ih =>
    exact ih (hs.applyChange (hvalid _ List.mem_cons_self) hplain.1)
      (fun _ hm => hvalid _ (List.mem_cons_of_mem _ hm)) hplain.2

theorem PlainSession.take {changes : List Change} (h : PlainSession t changes) (n : ℕ) :
    PlainSession t (changes.take n) := by
  induction changes generalizing t n with
  | nil => simpa using h
  | cons change changes ih =>
    cases n with
    | zero => trivial
    | succ n => exact ⟨h.1, ih h.2 n⟩

end Sessions

/-- **The server keeps the text of the client** through every session of changes whose positions
are plain: after each change its bytes are those of the text of the client. -/
theorem applyChanges_synchronised (doc : DocumentState) (t : List Char) (changes : List Change)
    (hvalid : ∀ change ∈ changes, change.Valid) (hplain : PlainSession t changes) (n : ℕ) :
    (((changes.take n).map Change.send).foldl DocumentState.applyChange
        (doc.updateText (encode t))).text =
      encode ((changes.take n).foldl apply t) :=
  (Synchronised.updateText doc t).applyChanges
    (fun change hm => hvalid change (List.mem_of_mem_take hm)) (hplain.take n) |>.text

/-- Two edits of a text of two lines: `d` becomes `é`, and a letter follows the first line. -/
theorem applyChanges_synchronised_lines :
    ((([⟨some (⟨1, 1⟩, ⟨1, 2⟩), [Char.ofNat 0xE9]⟩, ⟨some (⟨0, 2⟩, ⟨0, 2⟩), [Char.ofNat 120]⟩].take
        2).map Change.send).foldl DocumentState.applyChange
      (DocumentState.updateText ⟨[], 1, [], []⟩ (encode [Char.ofNat 97, Char.ofNat 98, LF,
        Char.ofNat 99, Char.ofNat 100]))).text =
      encode [Char.ofNat 97, Char.ofNat 98, Char.ofNat 120, LF, Char.ofNat 99, Char.ofNat 0xE9] := by
  refine (applyChanges_synchronised ⟨[], 1, [], []⟩ _ _ ?_ ?_ 2).trans (by decide)
  · simp [Change.Valid, Pos.Bounded, Pos.le]
  · exact ⟨⟨by decide, by decide, by decide⟩, ⟨by decide, by decide, by decide⟩, trivial⟩

/-- The column after `é` is 1 for the client, and inside of its two bytes for the server. -/
theorem applyChange_splits_character :
    ¬ ∀ (doc : DocumentState) (t : List Char) (changes : List Change),
      (∀ change ∈ changes, change.Valid) → ∀ n : ℕ,
        (((changes.take n).map Change.send).foldl DocumentState.applyChange
            (doc.updateText (encode t))).text =
          encode ((changes.take n).foldl apply t) := by
  intro h
  have hvalid : ∀ change ∈ [(⟨some (⟨0, 1⟩, ⟨0, 1⟩), [Char.ofNat 120]⟩ : Change)], change.Valid := by
    simp [Change.Valid, Pos.Bounded, Pos.le]
  exact absurd (h ⟨[], 1, [], []⟩ [Char.ofNat 0xE9] _ hvalid 1) (by decide)

end Lsp

end Jaci
