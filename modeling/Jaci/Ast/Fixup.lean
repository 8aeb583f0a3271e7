import Jaci.Ast.Lexer
import Jaci.Lib.Utf8

/-!
# Escapes in string literals

`fixupQuotedString` replaces the escapes of a string literal in place: it writes to the buffer that
it reads.  The digits of `\u{...}` are added up in a 32-bit number.

* `Fixup.Inv` : what is written stays behind what is read;
* `Fixup.round_spec` : a round of the loop keeps it;
* `unicode_escapes` : **an escape denotes its code point** if and only if its digits do not wrap
  around to another one.
-/

namespace Jaci

namespace Ast

open Wire

def isHexDigit (c : UInt8) : Bool :=
  isDigit c || (byte 'a' ≤ c && c ≤ byte 'f') || (byte 'A' ≤ c && c ≤ byte 'F')

def unescape (c : UInt8) : UInt8 :=
  if c = byte 'a' then 7 else if c = byte 'b' then 8 else if c = byte 'f' then 12
  else if c = byte 'n' then 10 else if c = byte 'r' then 13 else if c = byte 't' then 9
  else if c = byte 'v' then 11 else c

/-- `isDigit(ch) ? ch - '0' : (ch | ' ') - 'a' + 10`. -/
def hexDigit (c : UInt8) : UInt32 :=
  if isDigit c then c.toUInt32 - (byte '0').toUInt32
  else (c ||| byte ' ').toUInt32 - (byte 'a').toUInt32 + 10

/-- `char(0x80 | (code & 0x3F))`. -/
def tailByte (code : UInt32) : UInt8 := ((0x80 : UInt32) ||| (code &&& 0x3F)).toUInt8

/-- `toUtf8`; it returns 0 where there are no bytes. -/
def toUtf8 (code : UInt32) : Option Bytes :=
  if code < 0x80 then some [code.toUInt8]
  else if code < 0x800 then
    some [((0xC0 : UInt32) ||| (code >>> 6)).toUInt8, tailByte code]
  else if code < 0x10000 then
    some [((0xE0 : UInt32) ||| (code >>> 12)).toUInt8, tailByte (code >>> 6), tailByte code]
  else if code < 0x110000 then
    some [((0xF0 : UInt32) ||| (code >>> 18)).toUInt8, tailByte (code >>> 12),
      tailByte (code >>> 6), tailByte code]
  else none

/-- The state of `fixupQuotedString`. -/
structure Fixup where
  data : Bytes
  i : ℕ
  write : ℕ
deriving DecidableEq

namespace Fixup

variable (s : Fixup)

/-- `data[j]`. -/
def at_ (j : ℕ) : UInt8 := s.data.getD j 0

/-- `data[write++] = c`. -/
def put (c : UInt8) : Fixup := { s with data := s.data.set s.write c, write := s.write + 1 }

/-- The loop over the digits of `\x`. -/
def hexCode : ℕ → ℕ → UInt32 → Option UInt32
  | 0, _, code => some code
  | n + 1, i, code =>
    if isHexDigit (s.at_ i) then hexCode n (i + 1) (16 * code + hexDigit (s.at_ i)) else none

/-- The loop over the digits of `\u`. -/
def braceCode : ℕ → ℕ → UInt32 → Option (ℕ × UInt32)
  | 0, i, code => some (i, code)
  | n + 1, i, code =>
    if i = s.data.length then none
    else if s.at_ i = closeBrace then some (i, code)
    else if isHexDigit (s.at_ i) then braceCode n (i + 1) (16 * code + hexDigit (s.at_ i))
    else none

/-- The loop over the other digits of a decimal escape. -/
def decimalCode : ℕ → ℕ → UInt32 → ℕ × UInt32
  | 0, i, code => (i, code)
  | n + 1, i, code =>
    if i = s.data.length ∨ ¬isDigit (s.at_ i) then (i, code)
    else decimalCode n (i + 1) (10 * code + ((s.at_ i).toUInt32 - (byte '0').toUInt32))

/-- `case 'x'`. -/
def hexEscape : Option Fixup :=
  if s.i + 2 > s.data.length then none
  else (s.hexCode 2 s.i 0).map fun code =>
    let s := s.put code.toUInt8
    { s with i := s.i + 2 }

/-- `case 'u'`. -/
def unicodeEscape : Option Fixup :=
  if s.i + 3 > s.data.length then none
  else if s.at_ s.i ≠ openBrace then none
  else
    let s := { s with i := s.i + 1 }
    if s.at_ s.i = closeBrace then none
    else (s.braceCode 16 s.i 0).bind fun (i, code) =>
      let s := { s with i := i }
      if s.i = s.data.length ∨ s.at_ s.i ≠ closeBrace then none
      else
        let s := { s with i := s.i + 1 }
        (toUtf8 code).map fun bytes => bytes.foldl put s

/-- A decimal escape, after its first digit. -/
def decimalEscape (escape : UInt8) : Option Fixup :=
  let (i, code) := s.decimalCode 2 s.i (escape.toUInt32 - (byte '0').toUInt32)
  if code > 0xFF then none else some ({ s with i := i }.put code.toUInt8)

/-- `switch (escape)`. -/
def escaped (escape : UInt8) : Option Fixup :=
  if escape = byte '\n' then some (s.put (byte '\n'))
  else if escape = byte '\r' then
    let s := s.put (byte '\n')
    some (if s.i < s.data.length ∧ s.at_ s.i = byte '\n' then { s with i := s.i + 1 } else s)
  else if escape = 0 then none
  else if escape = byte 'x' then s.hexEscape
  else if escape = byte 'z' then
    some { s with i := s.i + ((s.data.drop s.i).takeWhile isSpace).length }
  else if escape = byte 'u' then s.unicodeEscape
  else if isDigit escape then s.decimalEscape escape
  else some (s.put (unescape escape))

/-- The body of the loop; there is none where the function returns false. -/
def round : Option Fixup :=
  if s.at_ s.i ≠ backslash then
    let s := s.put (s.at_ s.i)
    some { s with i := s.i + 1 }
  else if s.i + 1 = s.data.length then none
  else { s with i := s.i + 2 }.escaped (s.at_ (s.i + 1))

end Fixup

/-- The loop of `fixupQuotedString`. -/
def Fixup.body (s : Fixup) : Option (Fixup ⊕ Bool × Bytes) :=
  if s.i < s.data.length then
    match s.round with
    | some s => some (.inl s)
    | none => some (.inr (false, s.data))
  else some (.inr (true, s.data.take s.write))

/-- `fixupQuotedString`: whether it succeeds, and the string after it. -/
def fixupQuotedString (data : Bytes) : Option (Bool × Bytes) :=
  if data = [] ∨ backslash ∉ data then some (true, data)
  else Loop.run Fixup.body (data.length + 1) ⟨data, 0, 0⟩

example : fixupQuotedString "a\\u{48}\\x69\\10".toUTF8.toList =
    some (true, "aHi\n".toUTF8.toList) := by decide +kernel

/-! ### Writing -/

namespace Fixup

variable {s t u : Fixup} {data bytes : Bytes}

/-- Bytes are written. -/
structure Wrote (s : Fixup) (bytes : Bytes) (t : Fixup) : Prop where
  length : t.data.length = s.data.length
  write : t.write = s.write + bytes.length
  text : t.data.take t.write = s.data.take s.write ++ bytes
  rest : ∀ j, t.write ≤ j → t.data.drop j = s.data.drop j

/-- The place that is read next does not count. -/
theorem wrote_nil (i : ℕ) : s.Wrote [] { s with i := i } :=
  ⟨rfl, rfl, (List.append_nil _).symm, fun _ _ => rfl⟩

theorem Wrote.at_i (h : s.Wrote bytes t) (i : ℕ) : s.Wrote bytes { t with i := i } :=
  ⟨h.length, h.write, h.text, h.rest⟩

theorem Wrote.from_i {i : ℕ} (h : ({ s with i := i } : Fixup).Wrote bytes t) : s.Wrote bytes t :=
  ⟨h.length, h.write, h.text, h.rest⟩

theorem wrote_put (c : UInt8) (h : s.write < s.data.length) : s.Wrote [c] (s.put c) := by
  refine ⟨List.length_set .., rfl, ?_, fun j hj => ?_⟩
  · have hlt : s.write < (s.data.set s.write c).length := by rwa [List.length_set]
    rw [put, ← List.take_concat_get' _ _ hlt, List.getElem_set_self, List.take_set_of_le le_rfl]
  · exact List.drop_set_of_lt hj

theorem Wrote.trans {more : Bytes} (h : s.Wrote bytes t) (h' : t.Wrote more u) :
    s.Wrote (bytes ++ more) u where
  length := h'.length.trans h.length
  write := by rw [h'.write, h.write, List.length_append, Nat.add_assoc]
  text := by rw [h'.text, h.text, List.append_assoc]
  rest j hj := by
    rw [h'.rest j hj, h.rest j]
    have := h'.write
    omega

theorem wrote_puts (bytes : Bytes) (h : s.write + bytes.length ≤ s.data.length) :
    s.Wrote bytes (bytes.foldl put s) := by
  induction bytes generalizing s with
  | nil => exact wrote_nil s.i
  | cons c bytes ih =>
    rw [List.length_cons] at h
    have hput := wrote_put c (show s.write < s.data.length by omega)
    refine hput.trans (ih ?_)
    have hwrite := hput.write
    have hlength := hput.length
    simp only [List.length_singleton] at hwrite
    omega

/-! ### Rounds -/

/-- What has been written stays behind what is read, which is as it was. -/
structure Inv (data : Bytes) (s : Fixup) : Prop where
  length : s.data.length = data.length
  /-- The place of writing is not behind that of reading. -/
  le : s.write ≤ s.i
  inside : s.i ≤ data.length
  unread : s.data.drop s.i = data.drop s.i

/-- An escape is read; its first two bytes have been. -/
structure Escapes (s t : Fixup) (bytes : Bytes) : Prop where
  wrote : s.Wrote bytes t
  le : s.i ≤ t.i
  inside : t.i ≤ s.data.length
  /-- There are not more bytes than the escape has. -/
  short : bytes.length ≤ t.i - s.i + 2

theorem escapes_put (c : UInt8) (hwrite : s.write < s.i) (hi : s.i ≤ s.data.length) :
    s.Escapes (s.put c) [c] :=
  ⟨wrote_put c (by omega), le_rfl, hi, by simp only [List.length_singleton]; omega⟩

theorem braceCode_le {n i j : ℕ} {code r : UInt32} (h : s.braceCode n i code = some (j, r))
    (hi : i ≤ s.data.length) : i ≤ j ∧ j ≤ s.data.length ∧
      (0 < n → s.at_ i ≠ closeBrace → i < j) := by
  induction n generalizing i code with
  | zero =>
    cases h
    exact ⟨le_rfl, hi, fun h => absurd h (Nat.lt_irrefl 0)⟩
  | succ n ih =>
    rw [braceCode] at h
    split_ifs at h with hend hclose hhex
    · cases h
      exact ⟨le_rfl, hi, fun _ hne => absurd hclose hne⟩
    · obtain ⟨hle, hinside, -⟩ := ih h (by omega)
      exact ⟨by omega, hinside, fun _ _ => by omega⟩

theorem decimalCode_le {n i : ℕ} {code : UInt32} (hi : i ≤ s.data.length) :
    i ≤ (s.decimalCode n i code).1 ∧ (s.decimalCode n i code).1 ≤ s.data.length := by
  induction n generalizing i code with
  | zero => exact ⟨le_rfl, hi⟩
  | succ n ih =>
    rw [decimalCode]
    split_ifs with hend
    · exact ⟨le_rfl, hi⟩
    · obtain ⟨hne, -⟩ := not_or.1 hend
      obtain ⟨hle, hinside⟩ := @ih (i + 1) _ (by omega)
      exact ⟨by omega, hinside⟩

theorem hexEscape_spec (hwrite : s.write < s.i) (h : s.hexEscape = some t) :
    ∃ bytes, s.Escapes t bytes := by
  rw [hexEscape] at h
  split_ifs at h with hend
  obtain ⟨code, -, rfl⟩ := Option.map_eq_some_iff.1 h
  refine ⟨[code.toUInt8], (wrote_put _ (by omega)).at_i _, Nat.le_add_right _ 2, ?_, ?_⟩
  · exact Nat.le_of_not_lt hend
  · exact Nat.le_add_left 1 _

theorem length_toUtf8 {code : UInt32} {bytes : Bytes} (h : toUtf8 code = some bytes) :
    bytes.length ≤ 4 := by
  unfold toUtf8 at h
  split_ifs at h <;> cases h <;> simp

@[simp] theorem i_puts (bytes : Bytes) : (bytes.foldl put s).i = s.i := by
  induction bytes generalizing s with
  | nil => rfl
  | cons c bytes ih => exact ih

theorem unicodeEscape_spec (hwrite : s.write + 2 ≤ s.i) (h : s.unicodeEscape = some t) :
    ∃ bytes, s.Escapes t bytes := by
  rw [unicodeEscape] at h
  dsimp only at h
  split_ifs at h with hend hopen hempty
  obtain ⟨⟨i, code⟩, hcode, h⟩ := Option.bind_eq_some_iff.1 h
  obtain ⟨hle, hinside, hlt⟩ := braceCode_le hcode (by dsimp only; omega)
  have hlt := hlt (by norm_num) hempty
  dsimp only at h hle hinside hlt
  split_ifs at h with hclose
  obtain ⟨hne, -⟩ := not_or.1 hclose
  obtain ⟨bytes, hbytes, rfl⟩ := Option.map_eq_some_iff.1 h
  have hlen := length_toUtf8 hbytes
  -- the braces and a digit make room for the third and the fourth byte
  have hwrote := wrote_puts (s := { s with i := i + 1 }) bytes (by dsimp only; omega)
  refine ⟨bytes, hwrote.from_i, ?_, ?_, ?_⟩ <;>
    rw [i_puts] <;> dsimp only <;> omega

theorem decimalEscape_spec {escape : UInt8} (hwrite : s.write < s.i) (hi : s.i ≤ s.data.length)
    (h : s.decimalEscape escape = some t) : ∃ bytes, s.Escapes t bytes := by
  rw [decimalEscape] at h
  dsimp only at h
  split_ifs at h with hlarge
  cases h
  obtain ⟨hle, hinside⟩ := @decimalCode_le s 2 s.i (escape.toUInt32 - (byte '0').toUInt32) hi
  generalize s.decimalCode 2 s.i (escape.toUInt32 - (byte '0').toUInt32) = r at hle hinside
  have hwrote := wrote_put (s := { s with i := r.1 }) r.2.toUInt8
    (show s.write < s.data.length by omega)
  exact ⟨_, hwrote.from_i, hle, hinside, Nat.le_add_left 1 _⟩

/-- What an escape writes is no longer than the escape. -/
theorem escaped_spec {escape : UInt8} (hwrite : s.write + 2 ≤ s.i) (hi : s.i ≤ s.data.length)
    (h : s.escaped escape = some t) : ∃ bytes, s.Escapes t bytes := by
  have hput := fun c => escapes_put (s := s) c (by omega) hi
  rw [escaped] at h
  split_ifs at h with hlf hcr h0 hx hz hu hdigit
  · cases h
    exact ⟨_, hput _⟩
  · have hwrote := (hput (byte '\n')).wrote
    dsimp only at h
    split_ifs at h with hcrlf <;> cases h
    · exact ⟨_, hwrote.at_i _, Nat.le_succ _, hwrote.length ▸ hcrlf.1, Nat.le_add_left 1 _⟩
    · exact ⟨_, hput _⟩
  · exact hexEscape_spec (by omega) h
  · cases h
    refine ⟨[], wrote_nil _, Nat.le_add_right _ _, ?_, Nat.zero_le _⟩
    have := (List.takeWhile_prefix isSpace (l := s.data.drop s.i)).length_le
    rw [List.length_drop] at this
    dsimp only
    omega
  · exact unicodeEscape_spec hwrite h
  · exact decimalEscape_spec (by omega) hi h
  · cases h
    exact ⟨_, hput _⟩

/-- **A round** writes no more bytes than it reads. -/
theorem round_spec (hi : s.i < s.data.length) (hwrite : s.write ≤ s.i) (h : s.round = some t) :
    ∃ bytes, s.Wrote bytes t ∧ s.i < t.i ∧ t.i ≤ s.data.length ∧ bytes.length ≤ t.i - s.i := by
  rw [round] at h
  split_ifs at h with hplain hend
  · cases h
    exact ⟨_, (wrote_put _ (by omega)).at_i _, Nat.lt_succ_self _, hi,
      (Nat.add_sub_cancel_left s.i 1).ge⟩
  · obtain ⟨bytes, hesc⟩ := escaped_spec (by dsimp only; omega) (by dsimp only; omega) h
    have hle := hesc.le
    have hshort := hesc.short
    dsimp only at hle hshort
    exact ⟨bytes, hesc.wrote.from_i, by omega, hesc.inside, by omega⟩

theorem Inv.start (data : Bytes) : Inv data ⟨data, 0, 0⟩ := ⟨rfl, le_rfl, Nat.zero_le _, rfl⟩

theorem Inv.round (hs : Inv data s) (hi : s.i < s.data.length) (h : s.round = some t) :
    Inv data t ∧ s.i < t.i := by
  obtain ⟨bytes, hwrote, hlt, hinside, hshort⟩ := round_spec hi hs.le h
  have hwrite := hwrote.write
  have hle := hs.le
  have htle : t.write ≤ t.i := by omega
  refine ⟨⟨hwrote.length.trans hs.length, htle, hs.length ▸ hinside, ?_⟩, hlt⟩
  rw [hwrote.rest t.i htle]
  have hunread := congrArg (List.drop (t.i - s.i)) hs.unread
  rwa [List.drop_drop, List.drop_drop, Nat.add_sub_cancel' hlt.le] at hunread

/-! ### Runs -/

/-- The states of the loop. -/
inductive Reads (data : Bytes) : Fixup → Prop where
  | start : Reads data ⟨data, 0, 0⟩
  | round {s t : Fixup} : Reads data s → s.i < s.data.length → s.round = some t → Reads data t

theorem Reads.inv (h : Reads data s) : Inv data s := by
  induction h with
  | start => exact .start data
  | round _ hi hround ih => exact (ih.round hi hround).1

/-- What the function returns where it succeeds. -/
def Done (data : Bytes) (r : Bool × Bytes) : Prop :=
  r.1 = true → ∃ s, Reads data s ∧ s.i = data.length ∧ r.2 = s.data.take s.write

theorem Reads.body (h : Reads data s) :
    Loop.Round Fixup.body (Reads data) (fun s => data.length - s.i) (Done data) s := by
  have hlength := h.inv.length
  have hinside := h.inv.inside
  by_cases hi : s.i < s.data.length
  · cases hround : s.round with
    | none =>
      refine .inr ⟨(false, s.data), by rw [Fixup.body, if_pos hi, hround], fun h => ?_⟩
      cases h
    | some t =>
      have hlt := (h.inv.round hi hround).2
      exact .inl ⟨t, by rw [Fixup.body, if_pos hi, hround], h.round hi hround, by dsimp only; omega⟩
  · exact .inr ⟨_, by rw [Fixup.body, if_neg hi], fun _ => ⟨s, h, by omega, rfl⟩⟩

end Fixup

/-! ### Code points -/

/-- The value of a hexadecimal digit. -/
def hexValue (c : UInt8) : ℕ :=
  if c ≤ byte '9' then c.toNat - (byte '0').toNat
  else if c ≤ byte 'F' then c.toNat - (byte 'A').toNat + 10
  else c.toNat - (byte 'a').toNat + 10

/-- The number that hexadecimal digits denote. -/
def number (h : Bytes) : ℕ := h.foldl (fun n c => 16 * n + hexValue c) 0

theorem toNat_hexDigit (c : UInt8) (hc : isHexDigit c) : (hexDigit c).toNat = hexValue c := by
  have h : ∀ n < 256, isHexDigit (.ofNat n) → (hexDigit (.ofNat n)).toNat = hexValue (.ofNat n) := by
    decide +kernel
  have hc' := h c.toNat c.toNat_lt
  rw [UInt8.ofNat_toNat] at hc'
  exact hc' hc

theorem isHexDigit_ne_closeBrace {c : UInt8} (hc : isHexDigit c) : c ≠ closeBrace := by
  rintro rfl
  exact absurd hc (by decide)

/-- The digits are added up modulo `2 ^ 32`. -/
theorem toNat_foldl_hexDigit (h : Bytes) (hhex : ∀ c ∈ h, isHexDigit c) (code : UInt32) (n : ℕ)
    (hn : code.toNat = n % 2 ^ 32) :
    (h.foldl (fun code c => 16 * code + hexDigit c) code).toNat =
      h.foldl (fun n c => 16 * n + hexValue c) n % 2 ^ 32 := by
  induction h generalizing code n with
  | nil => exact hn
  | cons c h ih =>
    refine ih (fun c hc => hhex c (List.mem_cons_of_mem _ hc)) _ _ ?_
    have hc := toNat_hexDigit c (hhex c List.mem_cons_self)
    rw [UInt32.toNat_add, UInt32.toNat_mul, hc, hn, show (16 : UInt32).toNat = 16 from rfl]
    dsimp only
    omega

theorem tailByte_eq (code : UInt32) (k : ℕ) (c : UInt32) (hc : c.toNat = code.toNat / 64 ^ k) :
    tailByte c = Utf8.tail k code.toNat := by
  have hmask : (c &&& 0x3F).toNat = c.toNat % 2 ^ 6 := Nat.and_two_pow_sub_one_eq_mod _ 6
  have hor : (0x80 ||| c.toNat % 2 ^ 6) = 0x80 + c.toNat % 2 ^ 6 :=
    (Nat.two_pow_add_eq_or_of_lt (i := 6) (Nat.mod_lt _ (by norm_num)) 2).symm
  refine UInt8.toNat_inj.1 ?_
  rw [tailByte, UInt32.toNat_toUInt8, UInt32.toNat_or, hmask, Utf8.tail, UInt8.toNat_ofNat', ← hc]
  exact congrArg (· % 2 ^ 8) hor

/-- The bytes are those of the encoding, up to the last code point. -/
theorem toUtf8_eq (code : UInt32) :
    toUtf8 code = if code.toNat < 0x110000 then some (Utf8.encode code.toNat) else none := by
  have h0 := tailByte_eq code 0 code (Nat.div_one _).symm
  have h1 := tailByte_eq code 1 (code >>> 6) (Nat.shiftRight_eq_div_pow _ 6)
  have h2 := tailByte_eq code 2 (code >>> 12) (Nat.shiftRight_eq_div_pow _ 12)
  -- the first byte has ones above its bits
  have hlead (lead c : UInt32) (a k n : ℕ) (hlead : lead.toNat = 2 ^ k * a) (hc : c.toNat = n)
      (hn : n < 2 ^ k) : (lead ||| c).toUInt8 = UInt8.ofNat (2 ^ k * a + n) := by
    refine UInt8.toNat_inj.1 ?_
    rw [UInt32.toNat_toUInt8, UInt32.toNat_or, hlead, hc, ← Nat.two_pow_add_eq_or_of_lt hn,
      UInt8.toNat_ofNat']
  have h80 : code < 0x80 ↔ code.toNat < 0x80 := UInt32.lt_iff_toNat_lt
  have h800 : code < 0x800 ↔ code.toNat < 0x800 := UInt32.lt_iff_toNat_lt
  have h10000 : code < 0x10000 ↔ code.toNat < 0x10000 := UInt32.lt_iff_toNat_lt
  have h110000 : code < 0x110000 ↔ code.toNat < 0x110000 := UInt32.lt_iff_toNat_lt
  unfold toUtf8 Utf8.encode
  simp only [h80, h800, h10000, h110000, h0, h1, h2]
  by_cases hc1 : code.toNat < 0x80
  · rw [if_pos hc1, if_pos (by omega), if_pos hc1]
    rfl
  by_cases hc2 : code.toNat < 0x800
  · rw [if_neg hc1, if_pos hc2, if_pos (by omega), if_neg hc1, if_pos hc2,
      hlead 0xC0 (code >>> 6) 6 5 (code.toNat / 2 ^ 6) rfl (Nat.shiftRight_eq_div_pow _ 6) (by omega)]
    rfl
  by_cases hc3 : code.toNat < 0x10000
  · rw [if_neg hc1, if_neg hc2, if_pos hc3, if_pos (by omega), if_neg hc1, if_neg hc2, if_pos hc3,
      hlead 0xE0 (code >>> 12) 14 4 (code.toNat / 2 ^ 12) rfl
        (Nat.shiftRight_eq_div_pow _ 12) (by omega)]
    rfl
  by_cases hc4 : code.toNat < 0x110000
  · rw [if_neg hc1, if_neg hc2, if_neg hc3, if_pos hc4, if_pos hc4, if_neg hc1, if_neg hc2,
      if_neg hc3,
      hlead 0xF0 (code >>> 18) 30 3 (code.toNat / 2 ^ 18) rfl
        (Nat.shiftRight_eq_div_pow _ 18) (by omega)]
    rfl
  · rw [if_neg hc1, if_neg hc2, if_neg hc3, if_neg hc4, if_neg hc4]

/-- The digits of an escape. -/
abbrev Digits := { h : Bytes // h ≠ [] ∧ ∀ c ∈ h, isHexDigit c }

def Digits.text (h : Digits) : Bytes :=
  backslash :: byte 'u' :: openBrace :: (h.1 ++ [closeBrace])

/-- Where the escape is read, it is accepted only if it denotes a code point, and then the encoding
of the code point is written. -/
def Digits.Faithful (h : Digits) : Prop :=
  ∀ data s t post, Fixup.Reads data s → data.drop s.i = h.text ++ post → s.round = some t →
    number h.1 ≤ 0x10FFFF ∧ s.Wrote (Utf8.encode (number h.1)) t ∧ t.i = s.i + h.text.length

/-- The digits wrap around to a code point. -/
def Digits.Wraps (h : Digits) : Prop :=
  h.1.length ≤ 16 ∧ 0x10FFFF < number h.1 ∧ number h.1 % 2 ^ 32 ≤ 0x10FFFF

namespace Fixup

variable {s t : Fixup} {h rest : Bytes}

theorem at_eq {c : UInt8} {j : ℕ} (hdrop : s.data.drop j = c :: rest) :
    s.at_ j = c ∧ j < s.data.length ∧ s.data.drop (j + 1) = rest := by
  have hlt : j < s.data.length := by
    by_contra hge
    rw [List.drop_eq_nil_of_le (Nat.le_of_not_lt hge)] at hdrop
    cases hdrop
  rw [List.drop_eq_getElem_cons hlt] at hdrop
  obtain ⟨rfl, hrest⟩ := List.cons.inj hdrop
  refine ⟨?_, hlt, hrest⟩
  rw [at_, List.getD_eq_getElem?_getD, List.getElem?_eq_getElem hlt, Option.getD_some]

/-- At most `n` digits are read. -/
theorem braceCode_eq {n i : ℕ} {code : UInt32} (hhex : ∀ c ∈ h, isHexDigit c)
    (hdrop : s.data.drop i = h ++ closeBrace :: rest) :
    s.braceCode n i code = some (i + min n h.length,
      (h.take n).foldl (fun code c => 16 * code + hexDigit c) code) := by
  induction n generalizing i code h with
  | zero => rw [braceCode, Nat.zero_min, List.take_zero, List.foldl_nil, Nat.add_zero]
  | succ n ih =>
    cases h with
    | nil =>
      obtain ⟨hat, hlt, -⟩ := at_eq hdrop
      rw [braceCode, if_neg (Nat.ne_of_lt hlt), if_pos hat, List.length_nil, Nat.min_zero,
        List.take_nil, List.foldl_nil, Nat.add_zero]
    | cons c h =>
      obtain ⟨hat, hlt, hdrop'⟩ := @at_eq _ (h ++ closeBrace :: rest) _ _ hdrop
      have hc := hhex c List.mem_cons_self
      rw [braceCode, if_neg (Nat.ne_of_lt hlt), hat, if_neg (isHexDigit_ne_closeBrace hc), if_pos hc,
        ih (fun c hc => hhex c (List.mem_cons_of_mem _ hc)) hdrop', List.length_cons,
        List.take_succ_cons, List.foldl_cons, Nat.add_min_add_right, Nat.add_assoc,
        Nat.add_comm 1]

/-- The escape of a code point. -/
theorem unicodeEscape_eq (hne : h ≠ []) (hhex : ∀ c ∈ h, isHexDigit c)
    (hdrop : s.data.drop s.i = openBrace :: (h ++ closeBrace :: rest)) :
    s.unicodeEscape = if h.length ≤ 16 then
      (toUtf8 (h.foldl (fun code c => 16 * code + hexDigit c) 0)).map fun bytes =>
        bytes.foldl put { s with i := s.i + 1 + h.length + 1 }
      else none := by
  obtain ⟨hopen, hlt, hdigits⟩ := at_eq hdrop
  have hlength := congrArg List.length hdrop
  simp only [List.length_drop, List.length_cons, List.length_append] at hlength
  obtain ⟨c, h, rfl⟩ := List.exists_cons_of_ne_nil hne
  have hfirst := (@at_eq _ (h ++ closeBrace :: rest) _ _ hdigits).1
  have hc := isHexDigit_ne_closeBrace (hhex c List.mem_cons_self)
  have hpos : 0 < (c :: h).length := Nat.succ_pos _
  have hcode := fun n code => @braceCode_eq _ _ _ n _ code hhex hdigits
  generalize c :: h = digits at hhex hdigits hcode hlength hpos hne
  have hat (n : ℕ) (hn : n ≤ digits.length) : s.data.drop (s.i + 1 + n) =
      digits.drop n ++ closeBrace :: rest := by
    rw [← List.drop_drop, hdigits, List.drop_append_of_le_length hn]
  rw [unicodeEscape, if_neg (by omega), if_neg (not_not.2 hopen)]
  dsimp only
  have hcode' : braceCode { s with i := s.i + 1 } 16 (s.i + 1) 0 = _ := hcode 16 0
  have hempty : at_ { s with i := s.i + 1 } (s.i + 1) ≠ closeBrace := hfirst.symm ▸ hc
  rw [if_neg hempty, hcode', Option.bind_some]
  dsimp only
  by_cases hle : digits.length ≤ 16
  · have hclose := at_eq ((hat digits.length le_rfl).trans (by rw [List.drop_length]; rfl))
    rw [if_pos hle, Nat.min_eq_right hle, List.take_of_length_le hle, if_neg]
    rintro (hend | hne)
    · omega
    · exact hne hclose.1
  · have h16 : 16 < digits.length := by omega
    have hnext := at_eq ((hat 16 h16.le).trans (by rw [List.drop_eq_getElem_cons h16]; rfl))
    rw [if_neg hle, Nat.min_eq_left h16.le, if_pos]
    refine .inr ?_
    rw [show at_ { s with i := s.i + 1 + 16 } (s.i + 1 + 16) = s.at_ (s.i + 1 + 16) from rfl,
      hnext.1]
    exact isHexDigit_ne_closeBrace (hhex _ (List.getElem_mem h16))

/-- A round at the escape of a code point. -/
theorem round_unicode (hne : h ≠ []) (hhex : ∀ c ∈ h, isHexDigit c)
    (hdrop : s.data.drop s.i = backslash :: byte 'u' :: openBrace :: (h ++ closeBrace :: rest)) :
    s.round = if h.length ≤ 16 ∧ number h % 2 ^ 32 < 0x110000 then
      some ((Utf8.encode (number h % 2 ^ 32)).foldl put { s with i := s.i + 3 + h.length + 1 })
      else none := by
  obtain ⟨hslash, hlt, hdrop₁⟩ := at_eq hdrop
  obtain ⟨hu, hlt₁, hdrop₂⟩ := at_eq hdrop₁
  have hcode := toNat_foldl_hexDigit h hhex 0 0 rfl
  rw [← number] at hcode
  have hesc : ({ s with i := s.i + 2 } : Fixup).escaped (byte 'u') =
      ({ s with i := s.i + 2 } : Fixup).unicodeEscape := rfl
  rw [round, if_neg (not_not.2 hslash), if_neg (by omega), hu, hesc,
    unicodeEscape_eq (s := { s with i := s.i + 2 }) hne hhex hdrop₂, toUtf8_eq, hcode]
  by_cases hle : h.length ≤ 16
  · rw [if_pos hle]
    by_cases hsmall : number h % 2 ^ 32 < 0x110000
    · rw [if_pos hsmall, if_pos ⟨hle, hsmall⟩, Option.map_some]
    · rw [if_neg hsmall, if_neg fun h => hsmall h.2, Option.map_none]
  · rw [if_neg hle, if_neg fun h => hle h.1]

end Fixup

theorem Digits.drop_eq {h : Digits} {data post : Bytes} {s : Fixup} (hs : Fixup.Reads data s)
    (hdrop : data.drop s.i = h.text ++ post) :
    s.data.drop s.i = backslash :: byte 'u' :: openBrace :: (h.1 ++ closeBrace :: post) := by
  rw [hs.inv.unread, hdrop, Digits.text, List.cons_append, List.cons_append, List.cons_append,
    List.append_assoc, List.singleton_append]

/-- Digits that do not wrap around denote the code point that is written. -/
theorem Digits.faithful_of {h : Digits} (hwraps : ¬h.Wraps) : h.Faithful := by
  intro data s t post hs hdrop hround
  have hdrop' := h.drop_eq hs hdrop
  have hlength := congrArg List.length hdrop'
  simp only [List.length_drop, List.length_cons, List.length_append] at hlength
  rw [Fixup.round_unicode h.2.1 h.2.2 hdrop'] at hround
  split_ifs at hround with hfits
  obtain ⟨hle, hsmall⟩ := hfits
  have hnumber : number h.1 ≤ 0x10FFFF := by
    by_contra hlarge
    exact hwraps ⟨hle, by omega, by omega⟩
  rw [Nat.mod_eq_of_lt (by omega)] at hround
  cases hround
  have hpos := List.length_pos_iff.2 h.2.1
  have hwrite := hs.inv.le
  have hshort := (Utf8.length_encode (number h.1)).2
  have hwrote := Fixup.wrote_puts (s := { s with i := s.i + 3 + h.1.length + 1 })
    (Utf8.encode (number h.1)) (by dsimp only; omega)
  refine ⟨hnumber, hwrote.from_i, ?_⟩
  rw [Fixup.i_puts, Digits.text]
  simp only [List.length_cons, List.length_append, List.length_nil]
  omega

/-- **Escapes of code points**: what is written stays behind what is read, and an escape denotes
its code point if and only if its digits do not wrap around to another one. -/
theorem unicode_escapes (h : Digits) :
    (∀ data s, Fixup.Reads data s → s.write ≤ s.i) ∧
      (h.Faithful ↔
        16 < h.1.length ∨ number h.1 ≤ 0x10FFFF ∨ 0x10FFFF < number h.1 % 2 ^ 32) := by
  refine ⟨fun data s hs => hs.inv.le, ⟨fun hfaithful => ?_, fun hcases => ?_⟩⟩
  · by_contra hcases
    obtain ⟨hle, hlarge, hsmall⟩ := by simpa only [not_or, not_lt, not_le] using hcases
    -- the body that is only the escape
    have hdrop : h.text.drop 0 = h.text ++ [] := (List.append_nil _).symm
    have hround := Fixup.round_unicode h.2.1 h.2.2 (h.drop_eq .start hdrop)
    rw [if_pos ⟨hle, by omega⟩] at hround
    exact absurd (hfaithful _ _ _ _ .start hdrop hround).1 (by omega)
  · refine Digits.faithful_of fun hwraps => ?_
    obtain ⟨hle, hlarge, hsmall⟩ := hwraps
    omega

/-- Nine digits that denote more than a code point, and are taken for the letter A. -/
theorem wrapped_digits :
    fixupQuotedString "\\u{100000041}".toUTF8.toList = some (true, [byte 'A']) ∧
      ¬Digits.Faithful
        ⟨[0x31, 0x30, 0x30, 0x30, 0x30, 0x30, 0x30, 0x34, 0x31], by decide +kernel⟩ := by
  refine ⟨by decide +kernel, fun hfaithful => ?_⟩
  exact absurd (hfaithful _ _ _ [] .start rfl rfl).1 (by decide)

end Ast

end Jaci
