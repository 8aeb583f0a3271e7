import Jaci.LuaJson.Sound

/-!
# Unicode in string literals

A string literal of RFC 8259 denotes Unicode code points: those between the quotes that stand for
themselves, and those of its escapes.  A code point above `U+FFFF` is escaped as two surrogates.
The two decoders know nothing of surrogates.

* `Denotes` : the code points of a literal;
* `length_decoded` : every surrogate costs the decoders a byte;
* `strings_denote_iff` : **the decoders return the UTF-8 encoding** if and only if no escape is a
  surrogate.
-/

namespace Jaci

namespace LuaJson

open Wire Json Json.Parser

/-! ### Literals -/

/-- A part of a string literal. -/
inductive Piece where
  | raw (c : Char)
  | short (esc : UInt8)
  | unicode (h₁ h₂ h₃ h₄ : UInt8)
deriving DecidableEq

def Piece.text : Piece → Bytes
  | .raw c => String.utf8EncodeChar c
  | .short esc => [backslash, esc]
  | .unicode h₁ h₂ h₃ h₄ => [backslash, 0x75, h₁, h₂, h₃, h₄]

/-- The number that four hexadecimal digits denote. -/
def hexNumber (h₁ h₂ h₃ h₄ : UInt8) : Option ℕ :=
  match hexVal h₁, hexVal h₂, hexVal h₃, hexVal h₄ with
  | some d₁, some d₂, some d₃, some d₄ => some (((d₁ * 16 + d₂) * 16 + d₃) * 16 + d₄)
  | _, _, _, _ => none

/-- The code points of a literal. -/
inductive Denotes : List Piece → List Char → Prop where
  | nil : Denotes [] []
  | raw {ps : List Piece} {cs : List Char} (c : Char) : 0x20 ≤ c.toNat → c ≠ '"' → c ≠ '\\' →
      Denotes ps cs → Denotes (.raw c :: ps) (c :: cs)
  | short {ps : List Piece} {cs : List Char} {esc b : UInt8} : (esc, b) ∈ escapes →
      Denotes ps cs → Denotes (.short esc :: ps) (Char.ofNat b.toNat :: cs)
  | scalar {ps : List Piece} {cs : List Char} {h₁ h₂ h₃ h₄ : UInt8} (c : Char) :
      hexNumber h₁ h₂ h₃ h₄ = some c.toNat →
      Denotes ps cs → Denotes (.unicode h₁ h₂ h₃ h₄ :: ps) (c :: cs)
  | pair {ps : List Piece} {cs : List Char} {h₁ h₂ h₃ h₄ l₁ l₂ l₃ l₄ : UInt8} {hi lo : ℕ}
      (c : Char) : hexNumber h₁ h₂ h₃ h₄ = some hi → hexNumber l₁ l₂ l₃ l₄ = some lo →
      0xD800 ≤ hi → hi < 0xDC00 → 0xDC00 ≤ lo → lo < 0xE000 →
      c.toNat = 0x10000 + (hi - 0xD800) * 0x400 + (lo - 0xDC00) →
      Denotes ps cs → Denotes (.unicode h₁ h₂ h₃ h₄ :: .unicode l₁ l₂ l₃ l₄ :: ps) (c :: cs)

/-- A part is the escape of a surrogate. -/
def Piece.isSurrogate : Piece → Bool
  | .raw _ => false
  | .short _ => false
  | .unicode h₁ h₂ h₃ h₄ =>
    match hexNumber h₁ h₂ h₃ h₄ with
    | some n => decide (0xD800 ≤ n ∧ n < 0xE000)
    | none => false

/-- The text of a literal, without its quotes. -/
def literal (ps : List Piece) : Bytes := ps.flatMap Piece.text

def utf8 (cs : List Char) : Bytes := cs.flatMap String.utf8EncodeChar

/-- The bytes that the decoders take a part for. -/
def Piece.decoded : Piece → Bytes
  | .raw c => String.utf8EncodeChar c
  | .short esc => (unescape esc).toList
  | .unicode h₁ h₂ h₃ h₄ => hexBytes [h₁, h₂, h₃, h₄]

/-- The bytes that the decoders take a literal for. -/
def decoded (ps : List Piece) : Bytes := ps.flatMap Piece.decoded

/-! ### Code points -/

section CodePoints

variable {c : Char} {n d : ℕ}

theorem hexVal_lt {h : UInt8} (hd : hexVal h = some d) : d < 16 := by
  unfold hexVal at hd
  split_ifs at hd with h1 h2 h3
  all_goals
    obtain rfl := Option.some.inj hd
    simp only [UInt8.le_iff_toNat_le] at *
    simp at *
    omega

theorem shiftLeft_or (hd : d < 16) : n <<< 4 ||| d = n * 16 + d := by
  rw [← Nat.shiftLeft_add_eq_or_of_lt (by omega), Nat.shiftLeft_eq]

/-- The decoders read the number that the digits denote. -/
theorem readHex_of_hexNumber {h₁ h₂ h₃ h₄ : UInt8} (h : hexNumber h₁ h₂ h₃ h₄ = some n) :
    (readHex [h₁, h₂, h₃, h₄] 0).1 = some n := by
  unfold hexNumber at h
  split at h
  case h_2 => simp at h
  case h_1 d₁ d₂ d₃ d₄ e₁ e₂ e₃ e₄ =>
    rw [← Option.some.inj h]
    simp only [readHex, e₁, e₂, e₃, e₄, shiftLeft_or (hexVal_lt e₁), shiftLeft_or (hexVal_lt e₂),
      shiftLeft_or (hexVal_lt e₃), shiftLeft_or (hexVal_lt e₄), Nat.zero_mul, Nat.zero_add]

theorem or_of_lt_32 : ∀ k < 32, 0xC0 ||| k = k + 0xC0 := by decide

theorem or_of_lt_16 : ∀ k < 16, 0xE0 ||| k = k + 0xE0 := by decide

theorem or_of_lt_64 : ∀ k < 64, 0x80 ||| k = k + 0x80 := by decide

/-- A code point of at most 16 bits is encoded as UTF-8 does. -/
theorem encodeCodepoint_char (h : c.toNat < 0x10000) :
    encodeCodepoint c.toNat = String.utf8EncodeChar c := by
  have h1F (k : ℕ) : k &&& 0x1F = k % 32 := Nat.and_two_pow_sub_one_eq_mod k 5
  have h3F (k : ℕ) : k &&& 0x3F = k % 64 := Nat.and_two_pow_sub_one_eq_mod k 6
  have h0F (k : ℕ) : k &&& 0x0F = k % 16 := Nat.and_two_pow_sub_one_eq_mod k 4
  have h6 (k : ℕ) : k >>> 6 = k / 64 := Nat.shiftRight_eq_div_pow k 6
  have h12 (k : ℕ) : k >>> 12 = k / 4096 := Nat.shiftRight_eq_div_pow k 12
  unfold encodeCodepoint String.utf8EncodeChar
  change _ = if c.toNat ≤ 0x7f then _ else if c.toNat ≤ 0x7ff then _ else if c.toNat ≤ 0xffff then _
    else _
  simp only [h1F, h3F, h0F, h6, h12]
  rw [or_of_lt_32 _ (Nat.mod_lt _ (by decide)), or_of_lt_64 _ (Nat.mod_lt _ (by decide)),
    or_of_lt_64 _ (Nat.mod_lt _ (by decide)), or_of_lt_16 _ (Nat.mod_lt _ (by decide))]
  split_ifs <;> first | omega | rfl

theorem length_encodeCodepoint (h : 0x800 ≤ n) : (encodeCodepoint n).length = 3 := by
  rw [encodeCodepoint, if_neg (by omega), if_neg (by omega)]
  rfl

theorem length_utf8EncodeChar (h : 0x10000 ≤ c.toNat) :
    (String.utf8EncodeChar c).length = 4 := by
  unfold String.utf8EncodeChar
  change List.length (if c.toNat ≤ 0x7f then _ else if c.toNat ≤ 0x7ff then _ else
    if c.toNat ≤ 0xffff then _ else _) = 4
  rw [if_neg (by omega), if_neg (by omega), if_neg (by omega)]
  rfl

/-- A scalar value of four digits is no surrogate. -/
theorem not_surrogate (c : Char) : ¬ (0xD800 ≤ c.toNat ∧ c.toNat < 0xE000) := by
  have hvalid : c.toNat.isValidChar := c.valid
  unfold Nat.isValidChar at hvalid
  omega

theorem hexNumber_lt {h₁ h₂ h₃ h₄ : UInt8} (h : hexNumber h₁ h₂ h₃ h₄ = some n) : n < 0x10000 := by
  unfold hexNumber at h
  split at h
  case h_2 => simp at h
  case h_1 d₁ d₂ d₃ d₄ e₁ e₂ e₃ e₄ =>
    have := hexVal_lt e₁
    have := hexVal_lt e₂
    have := hexVal_lt e₃
    have := hexVal_lt e₄
    have := Option.some.inj h
    omega

/-- A byte stands for itself in a string literal. -/
def IsPlain (b : UInt8) : Prop := b ≠ quote ∧ b ≠ backslash ∧ ¬ b < 0x20

theorem isPlain_ofNat (h : n < 256) (hcontrol : 0x20 ≤ n) (hquote : n ≠ 0x22) (hback : n ≠ 0x5c) :
    IsPlain (UInt8.ofNat n) := by
  have hn : (UInt8.ofNat n).toNat = n := by simpa using Nat.mod_eq_of_lt h
  refine ⟨?_, ?_, ?_⟩
  · intro heq
    exact hquote (hn.symm.trans (congrArg UInt8.toNat heq))
  · intro heq
    exact hback (hn.symm.trans (congrArg UInt8.toNat heq))
  · rw [UInt8.lt_iff_toNat_lt, hn]
    exact Nat.not_lt.mpr hcontrol

/-- The bytes of a code point stand for themselves where it does. -/
theorem isPlain_utf8EncodeChar (hcontrol : 0x20 ≤ c.toNat) (hquote : c ≠ '"') (hback : c ≠ '\\') :
    ∀ b ∈ String.utf8EncodeChar c, IsPlain b := by
  have hquote' : c.toNat ≠ 0x22 := fun h => hquote (Char.toNat_inj.mp h)
  have hback' : c.toNat ≠ 0x5c := fun h => hback (Char.toNat_inj.mp h)
  -- The bytes of a sequence are above the ASCII range.
  have hhigh (k d : ℕ) (hd : 0x80 ≤ d) (hk : k + d < 256) : IsPlain (UInt8.ofNat (k + d)) :=
    isPlain_ofNat hk (by omega) (by omega) (by omega)
  intro b hb
  unfold String.utf8EncodeChar at hb
  change b ∈ if c.toNat ≤ 0x7f then [UInt8.ofNat c.toNat] else if c.toNat ≤ 0x7ff then _ else
    if c.toNat ≤ 0xffff then _ else _ at hb
  split_ifs at hb with h1 h2 h3
  · rw [List.mem_singleton.mp hb]
    exact isPlain_ofNat (by omega) hcontrol hquote' hback'
  all_goals
    simp only [List.mem_cons, List.not_mem_nil, or_false] at hb
    rcases hb with rfl | rfl | rfl | rfl <;> exact hhigh _ _ (by decide) (by omega)

end CodePoints

/-! ### Literals are strings of the grammar -/

variable {ps : List Piece} {cs : List Char} {s t : Bytes}

theorem Chars.append_plain {bs : Bytes} (hbs : ∀ b ∈ bs, IsPlain b) (h : Chars false s t) :
    Chars false (bs ++ s) (bs ++ t) := by
  induction bs with
  | nil => exact h
  | cons b bs ih =>
    obtain ⟨hquote, hback, hcontrol⟩ := hbs b List.mem_cons_self
    have hrest := ih fun c hc => hbs c (List.mem_cons_of_mem _ hc)
    have hchars := Chars.raw b hquote hback hrest
    rwa [decide_eq_false hcontrol, Bool.false_or] at hchars

theorem Chars.append_unicode {h₁ h₂ h₃ h₄ : UInt8} {n : ℕ} (hn : hexNumber h₁ h₂ h₃ h₄ = some n)
    (h : Chars false s t) : Chars false (hexBytes [h₁, h₂, h₃, h₄] ++ s)
      (Piece.text (.unicode h₁ h₂ h₃ h₄) ++ t) :=
  .unicode (isHex_of_readHex (readHex_of_hexNumber hn)) h

theorem Denotes.chars (h : Denotes ps cs) : Chars false (decoded ps) (literal ps) := by
  induction h with
  | nil => exact .nil
  | raw c hcontrol hquote hback _ ih =>
    exact ih.append_plain (isPlain_utf8EncodeChar hcontrol hquote hback)
  | short hesc _ ih =>
    rename_i ps cs esc b _
    have hdecoded : decoded (.short esc :: ps) = b :: decoded ps := by
      rw [decoded, List.flatMap_cons, Piece.decoded, (unescape_of_mem _ hesc).1]
      rfl
    rw [hdecoded]
    exact .escape hesc ih
  | scalar c hn _ ih => exact ih.append_unicode hn
  | pair c hhi hlo _ _ _ _ _ _ ih => exact (ih.append_unicode hlo).append_unicode hhi

/-- `parseString` reads the strings of the grammar as `parse_string` does. -/
theorem parseStringLoop_of_chars {b : Bool} (h : Chars b s t) (p : Parser) (acc r : Bytes) :
    parseStringLoop p (t ++ quote :: r) acc = (some (acc ++ s), p.moveTo r) := by
  induction h generalizing acc with
  | nil =>
    rw [List.nil_append, parseStringLoop.eq_def]
    simp
  | raw c hq hb _ ih =>
    rw [List.cons_append, parseStringLoop.eq_def]
    simp only [hq, hb, if_false, ih]
    simp
  | escape hesc _ ih =>
    have hlsp : ∀ p ∈ escapes, Parser.unescape p.1 = p.2 := by
      simp [escapes, Parser.unescape, quote, backslash]
    rw [List.cons_append, List.cons_append, parseStringLoop.eq_def]
    simp only [show ¬ backslash = quote by decide, if_false, if_true,
      (unescape_of_mem _ hesc).2, hlsp _ hesc, ih]
    simp
  | unicode hhex _ ih =>
    obtain ⟨m, hm⟩ := readHex_of_isHex hhex 0
    obtain ⟨left, hread⟩ : ∃ left, readHex [_, _, _, _] 0 = (some m, left) :=
      ⟨(readHex [_, _, _, _] 0).2, Prod.ext hm rfl⟩
    simp only [List.cons_append]
    rw [parseStringLoop.eq_def]
    simp only [show ¬ backslash = quote by decide, if_false, if_true, hread, ih]
    simp [hexBytes, hread]

/-! ### What the decoders make of them -/

@[simp] theorem decoded_cons (piece : Piece) : decoded (piece :: ps) = piece.decoded ++ decoded ps :=
  List.flatMap_cons

@[simp] theorem utf8_cons (c : Char) : utf8 (c :: cs) = String.utf8EncodeChar c ++ utf8 cs :=
  List.flatMap_cons

theorem decoded_short {esc b : UInt8} (h : (esc, b) ∈ escapes) :
    Piece.decoded (.short esc) = String.utf8EncodeChar (Char.ofNat b.toNat) := by
  simp only [escapes, List.mem_cons, List.not_mem_nil, or_false, Prod.mk.injEq] at h
  rcases h with ⟨rfl, rfl⟩ | ⟨rfl, rfl⟩ | ⟨rfl, rfl⟩ | ⟨rfl, rfl⟩ | ⟨rfl, rfl⟩ | ⟨rfl, rfl⟩ |
    ⟨rfl, rfl⟩ | ⟨rfl, rfl⟩ <;> rfl

section Unicode

variable {h₁ h₂ h₃ h₄ : UInt8} {n : ℕ}

theorem decoded_unicode (h : hexNumber h₁ h₂ h₃ h₄ = some n) :
    Piece.decoded (.unicode h₁ h₂ h₃ h₄) = encodeCodepoint n := by
  rw [Piece.decoded, hexBytes, readHex_of_hexNumber h]
  rfl

theorem decoded_scalar {c : Char} (h : hexNumber h₁ h₂ h₃ h₄ = some c.toNat) :
    Piece.decoded (.unicode h₁ h₂ h₃ h₄) = String.utf8EncodeChar c := by
  rw [decoded_unicode h, encodeCodepoint_char (hexNumber_lt h)]

theorem isSurrogate_unicode (h : hexNumber h₁ h₂ h₃ h₄ = some n) :
    Piece.isSurrogate (.unicode h₁ h₂ h₃ h₄) = decide (0xD800 ≤ n ∧ n < 0xE000) := by
  rw [Piece.isSurrogate, h]

end Unicode

/-- Every surrogate costs the decoders a byte. -/
theorem Denotes.length_decoded (h : Denotes ps cs) :
    (decoded ps).length = (utf8 cs).length + ps.countP Piece.isSurrogate := by
  induction h with
  | nil => rfl
  | raw c _ _ _ _ ih =>
    rw [decoded_cons, utf8_cons, List.length_append, List.length_append, ih,
      List.countP_cons_of_neg (by simp [Piece.isSurrogate]), Piece.decoded, Nat.add_assoc]
  | short hesc _ ih =>
    rw [decoded_cons, utf8_cons, List.length_append, List.length_append, ih,
      List.countP_cons_of_neg (by simp [Piece.isSurrogate]), decoded_short hesc, Nat.add_assoc]
  | scalar c hn _ ih =>
    rw [decoded_cons, utf8_cons, List.length_append, List.length_append, ih,
      List.countP_cons_of_neg (by simpa [isSurrogate_unicode hn] using not_surrogate c),
      decoded_scalar hn, Nat.add_assoc]
  | pair c hhi hlo hhi' hhi'' hlo' hlo'' hc _ ih =>
    -- Twice three bytes instead of four.
    rw [decoded_cons, decoded_cons, utf8_cons, List.length_append, List.length_append,
      List.length_append, ih, decoded_unicode hhi, decoded_unicode hlo,
      length_encodeCodepoint (by omega), length_encodeCodepoint (by omega),
      length_utf8EncodeChar (by omega),
      List.countP_cons_of_pos (by rw [isSurrogate_unicode hhi]; exact decide_eq_true (by omega)),
      List.countP_cons_of_pos (by rw [isSurrogate_unicode hlo]; exact decide_eq_true (by omega))]
    omega

theorem Denotes.decoded_eq (h : Denotes ps cs) (hps : ∀ p ∈ ps, p.isSurrogate = false) :
    decoded ps = utf8 cs := by
  induction h with
  | nil => rfl
  | raw c _ _ _ _ ih => rw [decoded_cons, utf8_cons, ih (List.forall_mem_cons.mp hps).2, Piece.decoded]
  | short hesc _ ih =>
    rw [decoded_cons, utf8_cons, ih (List.forall_mem_cons.mp hps).2, decoded_short hesc]
  | scalar c hn _ ih =>
    rw [decoded_cons, utf8_cons, ih (List.forall_mem_cons.mp hps).2, decoded_scalar hn]
  | pair c hhi _ hhi' hhi'' _ _ _ _ _ =>
    have hno := (List.forall_mem_cons.mp hps).1
    rw [isSurrogate_unicode hhi, decide_eq_false_iff_not] at hno
    omega

theorem Denotes.decoded_eq_iff (h : Denotes ps cs) :
    decoded ps = utf8 cs ↔ ∀ p ∈ ps, p.isSurrogate = false := by
  refine ⟨fun heq => ?_, h.decoded_eq⟩
  have hlength := h.length_decoded
  rw [heq, Nat.left_eq_add, List.countP_eq_zero] at hlength
  intro p hp
  simpa using hlength p hp

/-- **The decoders return the UTF-8 encoding** of the code points that a literal denotes if and only
if no escape of it is a surrogate. -/
theorem strings_denote_iff (h : Denotes ps cs) (p : Parser) (rest : Bytes) :
    (parse_string (literal ps ++ quote :: rest) = .ok (utf8 cs, rest) ↔
      ∀ piece ∈ ps, piece.isSurrogate = false) ∧
    ((p.moveTo (quote :: (literal ps ++ quote :: rest))).parseString =
        (some (utf8 cs), p.moveTo rest) ↔
      ∀ piece ∈ ps, piece.isSurrogate = false) := by
  have hlua := parse_string_of_chars h.chars rest
  have hlsp : (p.moveTo (quote :: (literal ps ++ quote :: rest))).parseString =
      (some (decoded ps), p.moveTo rest) := by
    unfold parseString
    rw [matchChar_cons rfl]
    simp only [moveTo_rest, parseStringLoop_of_chars h.chars, List.nil_append, moveTo_moveTo]
  rw [hlua, hlsp, ← h.decoded_eq_iff]
  simp

/-- The literal `"é\u00e9"`. -/
def twoAccents : List Piece := [.raw 'é', .unicode 0x30 0x30 0x65 0x39]

theorem denotes_twoAccents : Denotes twoAccents ['é', 'é'] :=
  .raw 'é' (by decide) (by decide) (by decide) (.scalar 'é' rfl .nil)

theorem strings_denote_twoAccents :
    (parse_string (literal twoAccents ++ quote :: []) = .ok (utf8 ['é', 'é'], []) ↔
      ∀ piece ∈ twoAccents, piece.isSurrogate = false) ∧
    ((Parser.moveTo ⟨0, [], ""⟩ (quote :: (literal twoAccents ++ quote :: []))).parseString =
        (some (utf8 ['é', 'é']), Parser.moveTo ⟨0, [], ""⟩ []) ↔
      ∀ piece ∈ twoAccents, piece.isSurrogate = false) :=
  strings_denote_iff denotes_twoAccents ⟨0, [], ""⟩ []

/-- The two escapes of `U+1F600`. -/
def grinning : List Piece := [.unicode 0x64 0x38 0x33 0x64, .unicode 0x64 0x65 0x30 0x30]

theorem denotes_grinning : Denotes grinning ['😀'] :=
  .pair '😀' rfl rfl (by decide) (by decide) (by decide) (by decide) rfl .nil

/-- A supplementary code point comes out as six bytes. -/
theorem not_strings_denote : ¬ ∀ (ps : List Piece) (cs : List Char) (rest : Bytes),
    Denotes ps cs → parse_string (literal ps ++ quote :: rest) = .ok (utf8 cs, rest) := by
  intro h
  have hread := h grinning ['😀'] [] denotes_grinning
  rw [parse_string_of_chars denotes_grinning.chars] at hread
  injection hread with hread
  revert hread
  decide

end LuaJson

end Jaci
