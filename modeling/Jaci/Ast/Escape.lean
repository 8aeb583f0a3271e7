import Jaci.Ast.Covers
import Jaci.Ast.Fixup

/-!
# Escaping

`escape` makes the body of a string literal of a string.  Between delimiters the lexer reads the
body as one lexeme, and `fixupQuotedString` makes the string of it again.

* `Plain` : the bodies over which the lexer goes without a stop;
* `run_plain` : what it makes of them;
* `escape_round_trip` : **the string comes back**, unless the literal reaches beyond the offsets that
  the lexer has.
-/

namespace Jaci

namespace Ast

open Wire

/-! ### Escaping -/

/-- The letter of an escape that has one. -/
def escapeLetter (c : UInt8) : Option UInt8 :=
  if c = 7 then some (byte 'a') else if c = 8 then some (byte 'b') else if c = 12 then some (byte 'f')
  else if c = 10 then some (byte 'n') else if c = 13 then some (byte 'r')
  else if c = 9 then some (byte 't') else if c = 11 then some (byte 'v')
  else if c = apostrophe ∨ c = quote ∨ c = backslash then some c else none

/-- `formatAppend(r, "%03u", c)`. -/
def decimal (c : UInt8) : Bytes :=
  [byte '0' + c / 100, byte '0' + c / 10 % 10, byte '0' + c % 10]

/-- What `escape` appends for a byte. -/
def escapeByte (escapeForInterpString : Bool) (c : UInt8) : Bytes :=
  if c ≥ byte ' ' ∧ c ≠ backslash ∧ c ≠ apostrophe ∧ c ≠ quote ∧ c ≠ backtick ∧ c ≠ openBrace then [c]
  else if escapeForInterpString ∧ (c = backtick ∨ c = openBrace) then [backslash, c]
  else match escapeLetter c with
    | some letter => [backslash, letter]
    | none => backslash :: decimal c

def escape (s : Bytes) (escapeForInterpString : Bool) : Bytes :=
  s.flatMap (escapeByte escapeForInterpString)

/-- A byte that stands for itself. -/
def isPlain (c : UInt8) : Bool :=
  c ≠ 0 ∧ c ≠ byte '\r' ∧ c ≠ byte '\n' ∧ c ≠ backslash ∧ c ≠ quote ∧ c ≠ backtick ∧ c ≠ openBrace

/-- A byte that makes an escape of one byte. -/
def isLetter (c : UInt8) : Bool :=
  c ≠ 0 ∧ c ≠ byte '\r' ∧ c ≠ byte '\n' ∧ c ≠ byte 'x' ∧ c ≠ byte 'z' ∧ c ≠ byte 'u' ∧ ¬isDigit c

/-- What stands for a byte: itself, an escape of one letter, or one of three digits. -/
def Stands (c : UInt8) (text : Bytes) : Prop :=
  (isPlain c ∧ text = [c]) ∨
  (∃ letter, isLetter letter ∧ unescape letter = c ∧ text = [backslash, letter]) ∨
  text = backslash :: decimal c

theorem escapeByte_stands (interp : Bool) (c : UInt8) : Stands c (escapeByte interp c) := by
  have hc : c ≥ byte ' ' ∧ c ≠ backslash ∧ c ≠ apostrophe ∧ c ≠ quote ∧ c ≠ backtick ∧
      c ≠ openBrace → isPlain c := fun ⟨hge, hback, _, hquote, htick, hbrace⟩ => by
    have hne : ∀ d, d < byte ' ' → c ≠ d := by
      rintro d hd rfl
      exact absurd hd (UInt8.not_lt.2 hge)
    simp [isPlain, hback, hquote, htick, hbrace, hne 0 (by decide), hne (byte '\r') (by decide),
      hne (byte '\n') (by decide)]
  have hl : ∀ l, escapeLetter c = some l → isLetter l ∧ unescape l = c := by
    intro l hl
    rw [escapeLetter] at hl
    split_ifs at hl with h₁ h₂ h₃ h₄ h₅ h₆ h₇ h₈
    on_goal 8 => rcases h₈ with rfl | rfl | rfl <;> obtain rfl := Option.some.inj hl <;> decide
    all_goals
      obtain rfl := Option.some.inj hl
      subst c
      decide
  rw [escapeByte]
  split_ifs with hraw hinterp
  · exact .inl ⟨hc hraw, rfl⟩
  · refine .inr (.inl ⟨c, ?_, ?_, rfl⟩) <;> rcases hinterp.2 with rfl | rfl <;> decide
  · cases hesc : escapeLetter c with
    | none => exact .inr (.inr rfl)
    | some letter =>
      obtain ⟨hletter, hun⟩ := hl letter hesc
      exact .inr (.inl ⟨letter, hletter, hun, rfl⟩)

theorem escape_cons (c : UInt8) (s : Bytes) (interp : Bool) :
    escape (c :: s) interp = escapeByte interp c ++ escape s interp := rfl

/-! ### Lexing -/

/-- A body over which the lexer goes without a stop. -/
inductive Plain : Bytes → Prop where
  | nil : Plain []
  | plain {c : UInt8} {text : Bytes} : isPlain c → Plain text → Plain (c :: text)
  | letter {c : UInt8} {text : Bytes} : c ≠ 0 → c ≠ byte '\r' → c ≠ byte '\n' → c ≠ byte 'z' →
      c ≠ byte 'u' → Plain text → Plain (backslash :: c :: text)

theorem isPlain_digits (c : UInt8) : ∀ d ∈ decimal c, isPlain d ∧ d ≠ byte 'z' ∧ d ≠ byte 'u' := by
  have hdigit : ∀ k : UInt8, k.toNat < 10 → isPlain (byte '0' + k) ∧ byte '0' + k ≠ byte 'z' ∧
      byte '0' + k ≠ byte 'u' := fun k hk => by
    have h : ∀ n < 10, isPlain (byte '0' + UInt8.ofNat n) ∧ byte '0' + UInt8.ofNat n ≠ byte 'z' ∧
        byte '0' + UInt8.ofNat n ≠ byte 'u' := by decide
    simpa only [UInt8.ofNat_toNat] using h k.toNat hk
  have hc := c.toNat_lt
  intro d hd
  simp only [decimal, List.mem_cons, List.not_mem_nil, or_false] at hd
  rcases hd with rfl | rfl | rfl <;> refine hdigit _ ?_ <;>
    simp only [UInt8.toNat_div, UInt8.toNat_mod, UInt8.reduceToNat] <;> omega

theorem plain_escape (s : Bytes) (interp : Bool) : Plain (escape s interp) := by
  induction s with
  | nil => exact .nil
  | cons c s ih =>
    rw [escape_cons]
    rcases escapeByte_stands interp c with ⟨hc, h⟩ | ⟨letter, hletter, -, h⟩ | h <;> rw [h]
    · exact .plain hc ih
    · simp only [isLetter, decide_eq_true_eq] at hletter
      obtain ⟨h0, hcr, hlf, -, hz, hu, -⟩ := hletter
      exact .letter h0 hcr hlf hz hu ih
    · have hdigits := isPlain_digits c
      simp only [decimal, List.mem_cons, List.not_mem_nil, or_false, forall_eq_or_imp,
        forall_eq] at hdigits
      obtain ⟨⟨h₁, hz, hu⟩, ⟨h₂, -⟩, h₃, -⟩ := hdigits
      have h₁' := h₁
      simp only [isPlain, decide_eq_true_eq] at h₁'
      exact .letter h₁'.1 h₁'.2.1 h₁'.2.2.1 hz hu (.plain h₂ (.plain h₃ ih))

namespace Lexer

variable {s t : Lexer} {c : UInt8} {rest text : Bytes}

/-- Some bytes are consumed, none of which ends a line. -/
def skip (s : Lexer) (n : ℕ) : Lexer := { s with offset := s.offset + UInt32.ofNat n }

theorem skip_skip (s : Lexer) (m n : ℕ) : (s.skip m).skip n = s.skip (m + n) := by
  rw [skip, skip, skip, UInt32.ofNat_add, ← UInt32.add_assoc]

theorem pos_skip {n : ℕ} (h : s.pos + n < 2 ^ 32) : (s.skip n).pos = s.pos + n := by
  rw [pos, skip, UInt32.toNat_add, UInt32.toNat_ofNat', Nat.add_mod_mod]
  exact Nat.mod_eq_of_lt h

theorem lt_of_drop (h : s.buffer.drop s.pos = c :: rest) : s.pos < s.bufferSize := by
  by_contra hge
  rw [List.drop_eq_nil_of_le (Nat.le_of_not_lt hge)] at h
  cases h

theorem peekch_of_drop (h : s.buffer.drop s.pos = c :: rest) : s.peekch = c := by
  have hlt := lt_of_drop h
  rw [bufferSize] at hlt
  rw [List.drop_eq_getElem_cons hlt] at h
  rw [peekch_eq, at_, List.getD_eq_getElem?_getD, List.getElem?_eq_getElem hlt, Option.getD_some]
  exact (List.cons.inj h).1

theorem drop_skip {n : ℕ} {pre : Bytes} (h : s.buffer.drop s.pos = pre ++ rest) (hn : pre.length = n)
    (hlt : s.pos + n < 2 ^ 32) : (s.skip n).buffer.drop (s.skip n).pos = rest := by
  rw [pos_skip hlt, skip, ← List.drop_drop, h, ← hn, List.drop_left]

/-- A loop that goes over plain bodies, up to a delimiter. -/
structure GoesOver (body : Lexer → Option (Lexer ⊕ Lexer × Lexeme)) (delimiter : UInt8)
    (finish : Lexer → Lexer × Lexeme) : Prop where
  plain : ∀ t : Lexer, isPlain t.peekch → body t = some (.inl (t.skip 1))
  letter : ∀ t : Lexer, t.peekch = backslash → (t.skip 1).peekch ≠ 0 →
    (t.skip 1).peekch ≠ byte '\r' → (t.skip 1).peekch ≠ byte '\n' →
    (t.skip 1).peekch ≠ byte 'z' → (t.skip 1).peekch ≠ byte 'u' → body t = some (.inl (t.skip 2))
  delimiter : ∀ t : Lexer, t.peekch = delimiter → body t = some (.inr (finish t))

/-- The loop stops at the delimiter. -/
theorem run_plain {body : Lexer → Option (Lexer ⊕ Lexer × Lexeme)} {delimiter : UInt8}
    {finish : Lexer → Lexer × Lexeme} (hbody : GoesOver body delimiter finish) (hplain : Plain text)
    (hdrop : s.buffer.drop s.pos = text ++ delimiter :: rest) (hfits : s.pos + text.length < 2 ^ 32)
    {n : ℕ} (hn : text.length < n) : Loop.run body n s = some (finish (s.skip text.length)) := by
  induction hplain generalizing s n with
  | nil =>
    obtain ⟨n, rfl⟩ := Nat.exists_eq_succ_of_ne_zero (Nat.ne_of_gt hn)
    have hskip : s.skip 0 = s := by rw [skip, show UInt32.ofNat 0 = 0 from rfl, UInt32.add_zero]
    rw [Loop.run, hbody.delimiter s (peekch_of_drop hdrop), Option.bind_some, List.length_nil, hskip]
  | @plain c text hc _ ih =>
    rw [List.length_cons] at hfits hn
    obtain ⟨n, rfl⟩ := Nat.exists_eq_succ_of_ne_zero (Nat.ne_of_gt (Nat.zero_lt_of_lt hn))
    have hpeek := peekch_of_drop hdrop
    have hdrop' := @drop_skip _ _ 1 [c] hdrop rfl (by omega)
    rw [Loop.run, hbody.plain s (hpeek.symm ▸ hc), Option.bind_some]
    refine (ih hdrop' (by rw [pos_skip (by omega)]; omega) (by omega)).trans ?_
    rw [skip_skip, List.length_cons, Nat.add_comm 1]
  | @letter c text h0 hcr hlf hz hu _ ih =>
    rw [List.length_cons, List.length_cons] at hfits hn
    obtain ⟨n, rfl⟩ := Nat.exists_eq_succ_of_ne_zero (Nat.ne_of_gt (Nat.zero_lt_of_lt hn))
    have hpeek := peekch_of_drop hdrop
    have hnext := peekch_of_drop (@drop_skip _ _ 1 [backslash] hdrop rfl (by omega))
    have hdrop' := @drop_skip _ _ 2 [backslash, c] hdrop rfl (by omega)
    rw [← hnext] at h0 hcr hlf hz hu
    rw [Loop.run, hbody.letter s hpeek h0 hcr hlf hz hu, Option.bind_some]
    refine (ih hdrop' (by rw [pos_skip (by omega)]; omega) (by omega)).trans ?_
    rw [skip_skip, List.length_cons, List.length_cons, Nat.add_comm 2]

theorem readBackslashInString_letter (h0 : (t.skip 1).peekch ≠ 0)
    (hcr : (t.skip 1).peekch ≠ byte '\r') (hlf : (t.skip 1).peekch ≠ byte '\n')
    (hz : (t.skip 1).peekch ≠ byte 'z') : t.readBackslashInString = some (t.skip 2) := by
  have hconsume : t.consume = t.skip 1 := rfl
  rw [peekch_eq] at hlf
  have hline : isNewline ((t.skip 1).at_ (t.skip 1).offset.toNat) = false := decide_eq_false hlf
  rw [readBackslashInString, hconsume]
  dsimp only
  rw [if_neg hcr, if_neg h0, if_neg hz, consumeAny, hline, if_neg Bool.false_ne_true]
  exact congrArg some (skip_skip t 1 1)

theorem isPlain_spec (h : isPlain c) : ¬(c = 0 ∨ c = byte '\r' ∨ c = byte '\n') ∧ c ≠ backslash ∧
    c ≠ quote ∧ c ≠ backtick ∧ c ≠ byte '{' := by
  simp only [isPlain, decide_eq_true_eq] at h
  obtain ⟨h0, hcr, hlf, hslash, hquote, htick, hbrace⟩ := h
  exact ⟨fun h => h.elim h0 fun h => h.elim hcr hlf, hslash, hquote, htick, hbrace⟩

/-- A quoted string. -/
theorem readQuotedString_plain (hplain : Plain text)
    (hdrop : s.buffer.drop s.pos = quote :: (text ++ quote :: rest))
    (hfits : s.pos + text.length + 1 < 2 ^ 32) : s.readQuotedString =
      some (s.skip (text.length + 2), (s.skip (text.length + 2)).slice s.position .QuotedString
        (s.offset + 1) ((s.skip (text.length + 2)).offset - 1)) := by
  have hdelimiter := peekch_of_drop hdrop
  have hdrop' := @drop_skip _ _ 1 [quote] hdrop rfl (by omega)
  have hsize := congrArg List.length hdrop
  simp only [List.length_drop, List.length_cons, List.length_append] at hsize
  rw [readQuotedString]
  dsimp only
  rw [hdelimiter, show s.consume = s.skip 1 from rfl]
  refine (@run_plain _ _ _ _ _ (fun t => (t.skip 1, (t.skip 1).slice s.position .QuotedString
    (s.skip 1).offset ((t.skip 1).offset - 1))) ⟨fun t ht => ?_, fun t ht h0 hcr hlf hz hu => ?_,
      fun t ht => ?_⟩ hplain hdrop' (by rw [pos_skip (by omega)]; omega) _ ?_).trans ?_
  · obtain ⟨hend, hslash, hquote, -, -⟩ := isPlain_spec ht
    rw [if_neg hquote, if_neg hend, if_neg hslash]
    rfl
  · rw [if_neg (by rw [ht]; decide), if_neg (by rw [ht]; decide), if_pos ht,
      readBackslashInString_letter h0 hcr hlf hz, Option.map_some]
  · rw [if_pos ht]
    rfl
  · rw [rounds]
    exact Nat.lt_succ_of_le (by rw [bufferSize, skip]; dsimp only; omega)
  · rw [skip_skip, skip_skip, Nat.add_comm 1]
    rfl

/-- An interpolated string without expressions. -/
theorem readInterpolatedStringBegin_plain (hplain : Plain text)
    (hdrop : s.buffer.drop s.pos = backtick :: (text ++ backtick :: rest))
    (hfits : s.pos + text.length + 1 < 2 ^ 32) : s.readInterpolatedStringBegin =
      some (s.skip (text.length + 2), (s.skip (text.length + 2)).slice s.position
        .InterpStringSimple (s.offset + 1) ((s.skip (text.length + 2)).offset - 1)) := by
  have hdrop' := @drop_skip _ _ 1 [backtick] hdrop rfl (by omega)
  have hsize := congrArg List.length hdrop
  simp only [List.length_drop, List.length_cons, List.length_append] at hsize
  rw [readInterpolatedStringBegin, readInterpolatedStringSection, show s.consume = s.skip 1 from rfl]
  dsimp only
  refine (@run_plain _ _ _ _ _ (fun t => (t.skip 1, (t.skip 1).slice s.position .InterpStringSimple
    (s.skip 1).offset ((t.skip 1).offset - 1))) ⟨fun t ht => ?_, fun t ht h0 hcr hlf hz hu => ?_,
      fun t ht => ?_⟩ hplain hdrop' (by rw [pos_skip (by omega)]; omega) _ ?_).trans ?_
  · obtain ⟨hend, hslash, -, htick, hbrace⟩ := isPlain_spec ht
    rw [if_neg htick, if_neg hend, if_neg hslash, if_neg hbrace]
    rfl
  · have hunicode : ¬(t.peekchAt 1 = byte 'u' ∧ t.peekchAt 2 = byte '{') := fun h => hu h.1
    rw [if_neg (by rw [ht]; decide), if_neg (by rw [ht]; decide), if_pos ht, if_neg hunicode,
      readBackslashInString_letter h0 hcr hlf hz, Option.map_some]
  · rw [if_pos ht]
    rfl
  · rw [rounds]
    exact Nat.lt_succ_of_le (by rw [bufferSize, skip]; dsimp only; omega)
  · rw [skip_skip, skip_skip, Nat.add_comm 1]
    rfl

/-- No white space is skipped. -/
theorem skipSpace_of_peekch (hlt : s.pos < s.bufferSize) (h : isSpace s.peekch = false) :
    s.skipSpace = some s := by
  simp only [peekch_eq, isSpace, Bool.or_eq_false_iff, decide_eq_false_iff_not] at h
  obtain ⟨⟨⟨⟨⟨hsp, htab⟩, hcr⟩, hlf⟩, hvt⟩, hff⟩ := h
  dsimp only [pos] at *
  rw [skipSpace, rounds, Loop.run, if_pos hlt]
  dsimp only
  rw [if_neg (not_or.2 ⟨hsp, htab⟩), if_neg hlf, if_neg hcr, if_neg (not_or.2 ⟨hvt, hff⟩)]
  rfl

/-- The state from which a lexeme is read. -/
def updated (s : Lexer) (updatePrevLocation : Bool) : Lexer :=
  if updatePrevLocation then { s with prevLocation := s.lexeme.location } else s

theorem updated_spec (s : Lexer) (updatePrevLocation : Bool) :
    (s.updated updatePrevLocation).buffer = s.buffer ∧
      (s.updated updatePrevLocation).offset = s.offset := by
  rw [updated]
  split_ifs <;> exact ⟨rfl, rfl⟩

theorem next_of_readNext {skipComments updatePrevLocation : Bool} {u : Lexer} {l : Lexeme}
    (hlt : s.pos < s.bufferSize) (hspace : isSpace s.peekch = false)
    (hread : (s.updated updatePrevLocation).readNext = some (u, l)) (hcomment : l.type ≠ .Comment)
    (hblock : l.type ≠ .BlockComment) :
    s.next skipComments updatePrevLocation = some { u with lexeme := l } := by
  have hno : ({ u with lexeme := l } : Lexer).isComment = false :=
    Bool.or_eq_false_iff.2 ⟨decide_eq_false hcomment, decide_eq_false hblock⟩
  rw [next, rounds, Loop.run]
  dsimp only
  rw [skipSpace_of_peekch hlt hspace, Option.bind_some, ← updated, hread, Option.map_some,
    Option.bind_some, hno, Bool.and_false, if_neg Bool.false_ne_true]

theorem readNext_quote (h : s.peekch = quote) : s.readNext = s.readQuotedString := by
  rw [readNext, h]
  rfl

theorem readNext_backtick (h : s.peekch = backtick) :
    s.readNext = s.readInterpolatedStringBegin := by
  rw [readNext, h]
  rfl

/-- The bytes of the last lexeme. -/
def lexemeText (s : Lexer) : Option Bytes :=
  match s.lexeme.data with
  | .data (some offset) => some ((s.buffer.drop offset.toNat).take s.lexeme.length.toNat)
  | _ => none

end Lexer

/-- The delimiters, with the lexemes between them. -/
inductive Delimits : UInt8 → LexemeType → Prop where
  | quote : Delimits quote .QuotedString
  | backtick : Delimits backtick .InterpStringSimple

/-- A literal is one lexeme. -/
def LexesAs (s : Lexer) (skipComments updatePrevLocation : Bool) (type : LexemeType)
    (body : Bytes) : Prop :=
  ∃ t, s.next skipComments updatePrevLocation = some t ∧ t.lexeme.type = type ∧
    t.lexemeText = some body ∧ t.buffer = s.buffer ∧ t.offset = s.offset + UInt32.ofNat (body.length + 2)

/-- A plain body between delimiters is one lexeme. -/
theorem lexesAs_of_plain {s : Lexer} {body rest : Bytes} {delimiter : UInt8} {type : LexemeType}
    (hplain : Plain body) (hdelimits : Delimits delimiter type)
    (hdrop : s.buffer.drop s.offset.toNat = delimiter :: (body ++ delimiter :: rest))
    (hfits : s.offset.toNat + body.length + 1 < 2 ^ 32) (skipComments updatePrevLocation : Bool) :
    LexesAs s skipComments updatePrevLocation type body := by
  obtain ⟨hbuffer, hoffset⟩ := s.updated_spec updatePrevLocation
  obtain ⟨v, hv⟩ : ∃ v, v = s.updated updatePrevLocation := ⟨_, rfl⟩
  rw [← hv] at hbuffer hoffset
  have hdrop' : v.buffer.drop v.pos = delimiter :: (body ++ delimiter :: rest) := by
    rw [Lexer.pos, hbuffer, hoffset, hdrop]
  have hread : v.readNext = some (v.skip (body.length + 2), (v.skip (body.length + 2)).slice
      v.position type (v.offset + 1) ((v.skip (body.length + 2)).offset - 1)) := by
    have hpeek := Lexer.peekch_of_drop hdrop'
    rw [← hoffset] at hfits
    cases hdelimits with
    | quote => exact (Lexer.readNext_quote hpeek).trans (Lexer.readQuotedString_plain hplain hdrop' hfits)
    | backtick =>
      exact (Lexer.readNext_backtick hpeek).trans
        (Lexer.readInterpolatedStringBegin_plain hplain hdrop' hfits)
  have hspace : isSpace s.peekch = false := by
    rw [Lexer.peekch_of_drop hdrop]
    cases hdelimits <;> decide
  have htype : type ≠ .Comment ∧ type ≠ .BlockComment := by
    cases hdelimits <;> exact ⟨by decide, by decide⟩
  have hlength : v.offset + UInt32.ofNat (body.length + 2) - 1 - (v.offset + 1) =
      UInt32.ofNat body.length := by
    rw [UInt32.ofNat_add, show UInt32.ofNat 2 = 2 from rfl]
    grind
  have hstart : (v.offset + 1).toNat = v.pos + 1 :=
    Lexer.pos_skip (n := 1) (by rw [Lexer.pos, hoffset]; omega)
  rw [hv] at hread
  refine ⟨_, Lexer.next_of_readNext (Lexer.lt_of_drop hdrop) hspace hread ?_ ?_, rfl, ?_, ?_, ?_⟩
  · exact htype.1
  · exact htype.2
  · rw [← hv]
    refine congrArg some ?_
    dsimp only [Lexer.slice, Lexer.upTo]
    rw [show (v.skip (body.length + 2)).offset = v.offset + UInt32.ofNat (body.length + 2) from rfl,
      hlength, hstart, ← List.drop_drop,
      show (v.skip (body.length + 2)).buffer = v.buffer from rfl, hdrop', List.drop_one, List.tail_cons,
      UInt32.toNat_ofNat', Nat.mod_eq_of_lt (by omega), List.take_left]
  · rw [← hv]
    exact hbuffer
  · rw [← hv, ← hoffset]
    rfl

/-! ### Undoing -/

namespace Fixup

variable {s : Fixup} {c : UInt8} {text rest : Bytes}

theorem escaped_letter {letter : UInt8} (h : isLetter letter) :
    s.escaped letter = some (s.put (unescape letter)) := by
  simp only [isLetter, decide_eq_true_eq] at h
  obtain ⟨h0, hcr, hlf, hx, hz, hu, hdigit⟩ := h
  rw [escaped, if_neg hlf, if_neg hcr, if_neg h0, if_neg hx, if_neg hz, if_neg hu, if_neg hdigit]

/-- The number that the digits of a decimal escape denote. -/
theorem decimal_spec (c : UInt8) : ∃ d₁ d₂ d₃, decimal c = [d₁, d₂, d₃] ∧ isDigit d₁ ∧ isDigit d₂ ∧
    isDigit d₃ ∧ 10 * (10 * (d₁.toUInt32 - (byte '0').toUInt32) +
      (d₂.toUInt32 - (byte '0').toUInt32)) + (d₃.toUInt32 - (byte '0').toUInt32) = c.toUInt32 := by
  have h : ∀ n < 256, isDigit (byte '0' + .ofNat n / 100) ∧ isDigit (byte '0' + .ofNat n / 10 % 10) ∧
      isDigit (byte '0' + .ofNat n % 10) ∧
      10 * (10 * ((byte '0' + .ofNat n / 100).toUInt32 - (byte '0').toUInt32) +
        ((byte '0' + .ofNat n / 10 % 10).toUInt32 - (byte '0').toUInt32)) +
        ((byte '0' + .ofNat n % 10).toUInt32 - (byte '0').toUInt32) =
          (UInt8.ofNat n).toUInt32 := by decide +kernel
  have hc := h c.toNat c.toNat_lt
  rw [UInt8.ofNat_toNat] at hc
  exact ⟨_, _, _, rfl, hc⟩

theorem escaped_digit {d : UInt8} (h : isDigit d) : s.escaped d = s.decimalEscape d := by
  have hne : ∀ n < 256, isDigit (.ofNat n) → UInt8.ofNat n ≠ byte '\n' ∧ UInt8.ofNat n ≠ byte '\r' ∧
      UInt8.ofNat n ≠ 0 ∧ UInt8.ofNat n ≠ byte 'x' ∧ UInt8.ofNat n ≠ byte 'z' ∧
      UInt8.ofNat n ≠ byte 'u' := by decide +kernel
  have hd := hne d.toNat d.toNat_lt
  rw [UInt8.ofNat_toNat] at hd
  obtain ⟨hlf, hcr, h0, hx, hz, hu⟩ := hd h
  rw [escaped, if_neg hlf, if_neg hcr, if_neg h0, if_neg hx, if_neg hz, if_neg hu, if_pos h]

theorem decimalEscape_eq {d₁ d₂ d₃ : UInt8} (hdrop : s.data.drop s.i = d₂ :: d₃ :: rest)
    (h₂ : isDigit d₂) (h₃ : isDigit d₃) (hcode : 10 * (10 * (d₁.toUInt32 - (byte '0').toUInt32) +
      (d₂.toUInt32 - (byte '0').toUInt32)) + (d₃.toUInt32 - (byte '0').toUInt32) = c.toUInt32) :
    s.decimalEscape d₁ = some ({ s with i := s.i + 2 }.put c) := by
  obtain ⟨hat₂, hlt₂, hdrop₂⟩ := at_eq hdrop
  obtain ⟨hat₃, hlt₃, -⟩ := at_eq hdrop₂
  have hread : s.decimalCode 2 s.i (d₁.toUInt32 - (byte '0').toUInt32) = (s.i + 2, c.toUInt32) := by
    rw [decimalCode, hat₂, if_neg (not_or.2 ⟨hlt₂.ne, not_not.2 h₂⟩), decimalCode, hat₃,
      if_neg (not_or.2 ⟨hlt₃.ne, not_not.2 h₃⟩), decimalCode, hcode]
  have hsmall : ¬c.toUInt32 > 0xFF := by
    rw [gt_iff_lt, UInt32.lt_iff_toNat_lt, UInt8.toNat_toUInt32]
    exact Nat.not_lt.2 (Nat.le_of_lt_succ c.toNat_lt)
  rw [decimalEscape, hread]
  dsimp only
  rw [if_neg hsmall, UInt8.toUInt8_toUInt32]

/-- A round at what stands for a byte. -/
theorem round_stands (hstands : Stands c text) (hdrop : s.data.drop s.i = text ++ rest)
    (hwrite : s.write ≤ s.i) :
    ∃ t, s.round = some t ∧ t.i = s.i + text.length ∧ s.Wrote [c] t := by
  have hlength := congrArg List.length hdrop
  rw [List.length_drop, List.length_append] at hlength
  rcases hstands with ⟨hc, rfl⟩ | ⟨letter, hletter, rfl, rfl⟩ | rfl
  · obtain ⟨hat, hlt, -⟩ := at_eq hdrop
    obtain ⟨-, hslash, -⟩ := Lexer.isPlain_spec hc
    rw [round, hat, if_pos hslash]
    exact ⟨_, rfl, rfl, (wrote_put c (by omega)).at_i _⟩
  · obtain ⟨hslash, hlt, hdrop₁⟩ := @at_eq _ (letter :: rest) _ _ hdrop
    obtain ⟨hat, hlt₁, -⟩ := at_eq hdrop₁
    rw [round, if_neg (not_not.2 hslash), if_neg hlt₁.ne, hat, escaped_letter hletter]
    exact ⟨_, rfl, rfl, (wrote_put (s := { s with i := s.i + 2 }) _ (by dsimp only; omega)).from_i⟩
  · obtain ⟨d₁, d₂, d₃, htext, h₁, h₂, h₃, hcode⟩ := decimal_spec c
    rw [htext] at hdrop ⊢
    obtain ⟨hslash, hlt, hdrop₁⟩ := @at_eq _ (d₁ :: d₂ :: d₃ :: rest) _ _ hdrop
    obtain ⟨hat, hlt₁, hdrop₂⟩ := at_eq hdrop₁
    rw [round, if_neg (not_not.2 hslash), if_neg hlt₁.ne, hat, escaped_digit h₁,
      decimalEscape_eq (s := { s with i := s.i + 2 }) hdrop₂ h₂ h₃ hcode]
    exact ⟨_, rfl, rfl, (wrote_put (s := { s with i := s.i + 2 + 2 }) c
      (by dsimp only; omega)).from_i⟩

/-- The loop undoes the escapes. -/
theorem run_escape (str : Bytes) (interp : Bool) {n : ℕ} (hdrop : s.data.drop s.i = escape str interp)
    (hwrite : s.write ≤ s.i) (hn : str.length < n) :
    Loop.run body n s = some (true, s.data.take s.write ++ str) := by
  induction str generalizing s n with
  | nil =>
    obtain ⟨n, rfl⟩ := Nat.exists_eq_succ_of_ne_zero (Nat.ne_of_gt hn)
    have hend : ¬s.i < s.data.length := Nat.not_lt.2 (List.drop_eq_nil_iff.1 hdrop)
    rw [Loop.run, body, if_neg hend, Option.bind_some, List.append_nil]
  | cons c str ih =>
    obtain ⟨n, rfl⟩ := Nat.exists_eq_succ_of_ne_zero (Nat.ne_of_gt (Nat.zero_lt_of_lt hn))
    rw [escape_cons] at hdrop
    obtain ⟨t, hround, hi, hwrote⟩ := round_stands (escapeByte_stands interp c) hdrop hwrite
    have hpos : 0 < (escapeByte interp c).length := by
      rcases escapeByte_stands interp c with ⟨-, h⟩ | ⟨_, -, -, h⟩ | h <;> rw [h] <;>
        exact Nat.succ_pos _
    have hlength := congrArg List.length hdrop
    rw [List.length_drop, List.length_append] at hlength
    have hw := hwrote.write
    rw [List.length_singleton] at hw
    have hdrop' : t.data.drop t.i = escape str interp := by
      rw [hwrote.rest t.i (by omega), hi, ← List.drop_drop, hdrop, List.drop_left]
    rw [Loop.run, body, if_pos (by omega), hround, Option.bind_some]
    refine (ih hdrop' (by omega) (Nat.lt_of_succ_lt_succ hn)).trans ?_
    rw [hwrote.text, List.append_assoc, List.singleton_append]

end Fixup

theorem length_le_escape (s : Bytes) (interp : Bool) : s.length ≤ (escape s interp).length := by
  induction s with
  | nil => exact Nat.zero_le _
  | cons c s ih =>
    rw [escape_cons, List.length_append, List.length_cons]
    rcases escapeByte_stands interp c with ⟨-, h⟩ | ⟨_, -, -, h⟩ | h <;> rw [h] <;>
      simp only [decimal, List.length_cons, List.length_nil] <;> omega

theorem escape_eq_self {s : Bytes} {interp : Bool} (h : backslash ∉ escape s interp) :
    escape s interp = s := by
  induction s with
  | nil => rfl
  | cons c s ih =>
    rw [escape_cons] at h ⊢
    rw [List.mem_append, not_or] at h
    rcases escapeByte_stands interp c with ⟨-, hc⟩ | ⟨_, -, -, hc⟩ | hc <;> rw [hc] at h ⊢
    · rw [ih h.2]
      rfl
    · exact absurd List.mem_cons_self h.1
    · exact absurd List.mem_cons_self h.1

theorem fixupQuotedString_escape (s : Bytes) (interp : Bool) :
    fixupQuotedString (escape s interp) = some (true, s) := by
  rw [fixupQuotedString]
  split_ifs with hplain
  · have hslash : backslash ∉ escape s interp := by
      rcases hplain with h | h
      · rw [h]
        exact List.not_mem_nil
      · exact h
    rw [escape_eq_self hslash]
  · exact Fixup.run_escape s interp rfl le_rfl (Nat.lt_succ_of_le (length_le_escape s interp))

/-- **The round trip**: a literal whose bytes have offsets is one lexeme with the escaped string,
which `fixupQuotedString` turns into the string. -/
theorem escape_round_trip (s : Lexer) (str rest : Bytes)
    (escapeForInterpString skipComments updatePrevLocation : Bool) (delimiter : UInt8)
    (type : LexemeType) (hdelimits : Delimits delimiter type)
    (hdrop : s.buffer.drop s.offset.toNat =
      delimiter :: (escape str escapeForInterpString ++ delimiter :: rest))
    (hfits : s.offset.toNat + (escape str escapeForInterpString).length + 1 < 2 ^ 32) :
    LexesAs s skipComments updatePrevLocation type (escape str escapeForInterpString) ∧
      fixupQuotedString (escape str escapeForInterpString) = some (true, str) :=
  ⟨lexesAs_of_plain (plain_escape _ _) hdelimits hdrop hfits _ _, fixupQuotedString_escape _ _⟩

/-- A body of a backslash, a letter, a brace, a digit and a quote. -/
theorem escape_round_trip_quotes :
    LexesAs (.new (quote :: (escape [backslash, byte 'u', openBrace, byte '7', quote, 0, byte '1']
      false ++ quote :: [])) .reserved ⟨0, 0⟩ true) false true .QuotedString
        (escape [backslash, byte 'u', openBrace, byte '7', quote, 0, byte '1'] false) ∧
      fixupQuotedString (escape [backslash, byte 'u', openBrace, byte '7', quote, 0, byte '1'] false) =
        some (true, [backslash, byte 'u', openBrace, byte '7', quote, 0, byte '1']) :=
  escape_round_trip _ _ [] false false true _ _ .quote rfl (by decide)

/-- A literal of more bytes than there are offsets is not one lexeme. -/
theorem long_literal_not_lexed : ¬ ∀ (s : Lexer) (str rest : Bytes)
    (escapeForInterpString skipComments updatePrevLocation : Bool) (delimiter : UInt8)
    (type : LexemeType), Delimits delimiter type →
    s.buffer.drop s.offset.toNat =
      delimiter :: (escape str escapeForInterpString ++ delimiter :: rest) →
    LexesAs s skipComments updatePrevLocation type (escape str escapeForInterpString) := by
  intro h
  obtain ⟨n, hn⟩ : ∃ n, 2 ^ 32 ≤ n := ⟨_, le_rfl⟩
  obtain ⟨t, -, -, htext, -⟩ := h (.new (quote :: (escape (List.replicate n (byte 'a')) false ++
    quote :: [])) .reserved ⟨0, 0⟩ true) (List.replicate n (byte 'a')) [] false false true _ _ .quote rfl
  have hlong := length_le_escape (List.replicate n (byte 'a')) false
  rw [List.length_replicate] at hlong
  -- the length of a lexeme is a 32-bit number
  have hlength := t.lexeme.length.toNat_lt
  rw [Lexer.lexemeText] at htext
  split at htext
  · have hlen := congrArg List.length (Option.some.inj htext)
    rw [List.length_take] at hlen
    omega
  · cases htext

end Ast

end Jaci
