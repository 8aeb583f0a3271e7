import Jaci.LuaJson.Sound

/-!
# What the decoder accepts beyond RFC 8259

A scanner reads a text from left to right and notes the irregular tokens.  It needs no stack: a
string ends at its quote and a number at the first character that is not part of one.  On a text
that the grammar derives, the scanner notes something exactly where the derivation does, so whether
a text is irregular does not depend on the derivation.

* `Scan.step`, `scan` : the scanner;
* `scan_of_value` : what it notes in a value;
* `text_unique` : a text is regular or irregular;
* `json_valid_isJson_iff` : where `json_valid` and `json_decode` accept exactly the JSON texts.
-/

namespace Jaci

namespace LuaJson

open Wire Json Json.Parser

/-- Where the scanner is. -/
inductive Scan where
  | text
  | minus
  | zero
  | number
  | string
  | escape
deriving DecidableEq

/-- The first digit of a number, or something else. -/
def Scan.digit (c : UInt8) : Scan :=
  if c = 0x30 then .zero else if isDigit c then .number else .text

/-- The next character, and whether it makes a token irregular. -/
def Scan.step : Scan → UInt8 → Scan × Bool
  | .text, c =>
    if c = quote then (.string, false)
    else if c = Json.minus then (.minus, false)
    else (Scan.digit c, false)
  | .minus, c => (Scan.digit c, false)
  | .zero, c =>
    if isDigit c then (.number, true)
    else if c = dot ∨ c = 0x65 ∨ c = 0x45 then (.number, false)
    else (.text, false)
  | .number, c =>
    if isDigit c ∨ c = dot ∨ c = 0x65 ∨ c = 0x45 ∨ c = 0x2b ∨ c = Json.minus then (.number, false)
    else (.text, false)
  | .string, c =>
    if c = quote then (.text, false)
    else if c = backslash then (.escape, false)
    else (.string, decide (c < 0x20))
  | .escape, _ => (.string, false)

def scan (st : Scan) : Bytes → Scan × Bool
  | [] => (st, false)
  | c :: s => ((scan (st.step c).1 s).1, (st.step c).2 || (scan (st.step c).1 s).2)

variable {b b' : Bool} {v v' : LuaValue} {s t x y : Bytes} {st st' st'' : Scan}

theorem scan_append (hx : scan st x = (st', b)) (hy : scan st' y = (st'', b')) :
    scan st (x ++ y) = (st'', b || b') := by
  induction x generalizing st b with
  | nil =>
    obtain ⟨rfl, rfl⟩ := Prod.mk.inj hx
    simpa using hy
  | cons c x ih =>
    obtain ⟨h1, rfl⟩ := Prod.mk.inj hx
    simp only [List.cons_append, scan, ih (Prod.ext h1 rfl), Bool.or_assoc]

theorem scan_cons {c : UInt8} (hc : st.step c = (st', b)) (hs : scan st' s = (st'', b')) :
    scan st (c :: s) = (st'', b || b') := by
  rw [scan, hc, hs]

/-! ### Numbers -/

def Scan.Done (st : Scan) : Prop := st = .text ∨ st = .zero ∨ st = .number

theorem scan_digits_number (h : ∀ d ∈ s, isDigit d = true) : scan .number s = (.number, false) := by
  induction s with
  | nil => rfl
  | cons d s ih =>
    have hd : Scan.number.step d = (.number, false) := by
      simp [Scan.step, h d List.mem_cons_self]
    exact scan_cons hd (ih fun e he => h e (List.mem_cons_of_mem _ he))

/-- After a sign or at the start of a number the scanner looks for a leading zero. -/
theorem scan_int (hs : Digits s) (hst : st = .text ∨ st = .minus) :
    ∃ st', (st' = .zero ∨ st' = .number) ∧ scan st s = (st', leadingZero s) := by
  obtain ⟨d, r, rfl⟩ := List.exists_cons_of_ne_nil hs.1
  obtain ⟨hd, hr⟩ := List.forall_mem_cons.1 hs.2
  have hfirst : st.step d = (Scan.digit d, false) := by
    have hquote : d ≠ quote := ne_of_number (.inr hd) (by decide)
    have hminus := (isDigit_ne hd).2.1
    rcases hst with rfl | rfl
    · simp [Scan.step, hquote, hminus]
    · rfl
  by_cases h0 : d = 0x30
  · have hdigit : Scan.digit d = .zero := if_pos h0
    rw [hdigit] at hfirst
    cases r with
    | nil => exact ⟨.zero, .inl rfl, by rw [scan_cons hfirst rfl]; rfl⟩
    | cons e r =>
      obtain ⟨he, hr⟩ := List.forall_mem_cons.1 hr
      have hzero : Scan.zero.step e = (.number, true) := by simp [Scan.step, he]
      refine ⟨.number, .inr rfl, ?_⟩
      rw [scan_cons hfirst (scan_cons hzero (scan_digits_number hr))]
      simp [leadingZero, h0]
  · have hdigit : Scan.digit d = .number := by simp [Scan.digit, h0, hd]
    rw [hdigit] at hfirst
    refine ⟨.number, .inr rfl, ?_⟩
    rw [scan_cons hfirst (scan_digits_number hr)]
    cases r with
    | nil => rfl
    | cons e r => simp [leadingZero, h0]

theorem scan_fraction_number (hx : Fraction x) (hst : st = .zero ∨ st = .number) :
    ∃ st', (st' = .zero ∨ st' = .number) ∧ scan st x = (st', false) := by
  cases hx with
  | none => exact ⟨st, hst, rfl⟩
  | some hds =>
    have hdot : st.step dot = (.number, false) := by rcases hst with rfl | rfl <;> rfl
    exact ⟨.number, .inr rfl, scan_cons hdot (scan_digits_number hds.2)⟩

theorem scan_exponent_number (hx : Exponent x) (hst : st = .zero ∨ st = .number) :
    ∃ st', (st' = .zero ∨ st' = .number) ∧ scan st x = (st', false) := by
  cases hx with
  | none => exact ⟨st, hst, rfl⟩
  | @some c sign ds hc hsign hds =>
    have hstep : st.step c = (.number, false) := by
      rcases hst with rfl | rfl <;> rcases hc with rfl | rfl <;> rfl
    have hsign : scan .number sign = (.number, false) := by
      rcases hsign with rfl | rfl | rfl <;> rfl
    exact ⟨.number, .inr rfl, scan_cons hstep (scan_append hsign (scan_digits_number hds.2))⟩

theorem scan_of_number (h : Number b v x) : ∃ st', st'.Done ∧ scan .text x = (st', b) := by
  obtain ⟨hsign, hint, hfrac, hexp⟩ := h
  rename_i sign int frac exp
  obtain ⟨st₀, hst₀, hscan₀⟩ : ∃ st₀, (st₀ = .text ∨ st₀ = .minus) ∧
      scan .text sign = (st₀, false) := by
    rcases hsign with rfl | rfl
    · exact ⟨_, .inl rfl, rfl⟩
    · exact ⟨_, .inr rfl, rfl⟩
  obtain ⟨st₁, hst₁, hscan₁⟩ := scan_int hint hst₀
  obtain ⟨st₂, hst₂, hscan₂⟩ := scan_fraction_number hfrac hst₁
  obtain ⟨st₃, hst₃, hscan₃⟩ := scan_exponent_number hexp hst₂
  refine ⟨st₃, .inr hst₃, ?_⟩
  rw [scan_append (scan_append (scan_append hscan₀ hscan₁) hscan₂) hscan₃]
  simp

/-! ### Strings -/

theorem step_isHex {h : UInt8} (hh : IsHex h) : Scan.string.step h = (.string, false) := by
  have hquote : h ≠ quote := by
    rintro rfl
    exact absurd hh (by unfold IsHex; decide)
  have hbackslash : h ≠ backslash := by
    rintro rfl
    exact absurd hh (by unfold IsHex; decide)
  have hlt : ¬ h < 0x20 := by
    intro hlt
    have hlt' := UInt8.lt_iff_toNat_lt.1 hlt
    simp only [IsHex, UInt8.le_iff_toNat_le, UInt8.reduceToNat] at hh hlt'
    omega
  simp [Scan.step, hquote, hbackslash, hlt]

theorem scan_isHex {hs : Bytes} (h : ∀ c ∈ hs, IsHex c) : scan .string hs = (.string, false) := by
  induction hs with
  | nil => rfl
  | cons c hs ih =>
    obtain ⟨hc, hs⟩ := List.forall_mem_cons.1 h
    exact scan_cons (step_isHex hc) (ih hs)

theorem scan_of_chars (h : Chars b s x) : scan .string x = (.string, b) := by
  induction h with
  | nil => rfl
  | raw c hq hb _ ih =>
    have hc : Scan.string.step c = (.string, decide (c < 0x20)) := by simp [Scan.step, hq, hb]
    exact scan_cons hc ih
  | @escape b s t esc c _ _ ih =>
    have hpair : scan .string [backslash, esc] = (.string, false) := rfl
    simpa using scan_append hpair ih
  | @unicode b s t h₁ h₂ h₃ h₄ hhex _ ih =>
    have hpair : scan .string [backslash, 0x75] = (.string, false) := rfl
    simpa using scan_append hpair (scan_append (scan_isHex hhex) ih)

/-- A string literal begins and ends between tokens. -/
theorem scan_of_string (h : Chars b s x) : scan .text (quote :: (x ++ [quote])) = (.text, b) := by
  have hquote : scan .string [quote] = (.text, false) := rfl
  have hopen : Scan.text.step quote = (.string, false) := rfl
  rw [scan_cons hopen (scan_append (scan_of_chars h) hquote)]
  simp

/-! ### White space and separators -/

/-- White space or a separator after a value. -/
def IsEnd (c : UInt8) : Prop := isSpace c = true ∨ c = comma ∨ c = rbracket ∨ c = rbrace

theorem step_isEnd {c : UInt8} (hst : st.Done) (hc : IsEnd c) : st.step c = (.text, false) := by
  have hcase : c = 0x20 ∨ c = 0x09 ∨ c = 0x0a ∨ c = 0x0d ∨ c = comma ∨ c = rbracket ∨
      c = rbrace := by
    rcases hc with hc | hc
    · simp only [isSpace, Bool.or_eq_true, beq_iff_eq] at hc
      tauto
    · tauto
  rcases hst with rfl | rfl | rfl <;> rcases hcase with rfl | rfl | rfl | rfl | rfl | rfl | rfl <;>
    rfl

theorem scan_blank {w : Bytes} (hw : Blank w) (hst : st.Done) :
    ∃ st', st'.Done ∧ scan st w = (st', false) := by
  induction w generalizing st with
  | nil => exact ⟨st, hst, rfl⟩
  | cons c w ih =>
    obtain ⟨hc, hw⟩ := List.forall_mem_cons.1 hw
    obtain ⟨st', hst', hscan⟩ := ih hw (.inl rfl)
    exact ⟨st', hst', scan_cons (step_isEnd hst (.inl hc)) hscan⟩

theorem scan_blank_text {w : Bytes} (hw : Blank w) : scan .text w = (.text, false) := by
  induction w with
  | nil => rfl
  | cons c w ih =>
    obtain ⟨hc, hw⟩ := List.forall_mem_cons.1 hw
    exact scan_cons (step_isEnd (.inl rfl) (.inl hc)) (ih hw)

/-- The scanner notes `b` in the text. -/
def Notes (b : Bool) (x : Bytes) : Prop := ∃ st, st.Done ∧ scan .text x = (st, b)

theorem Notes.close (h : Notes b x) {c : UInt8} (hc : IsEnd c) :
    scan .text (x ++ [c]) = (.text, b) := by
  obtain ⟨st, hst, hscan⟩ := h
  have hlast : scan st [c] = (.text, false) := scan_cons (step_isEnd hst hc) rfl
  simpa using scan_append hscan hlast

theorem Notes.blank (h : Notes b x) {w : Bytes} (hw : Blank w) : Notes b (x ++ w) := by
  obtain ⟨st, hst, hscan⟩ := h
  obtain ⟨st', hst', hscan'⟩ := scan_blank hw hst
  exact ⟨st', hst', by simpa using scan_append hscan hscan'⟩

theorem Notes.append (hx : scan .text x = (.text, b)) (hy : Notes b' y) :
    Notes (b || b') (x ++ y) := by
  obtain ⟨st, hst, hscan⟩ := hy
  exact ⟨st, hst, scan_append hx hscan⟩

theorem notes_commaSep {α : Type} {f : α → Bytes} {g : α → Bool} {l : List α}
    (h : ∀ a ∈ l, Notes (g a) (f a)) : Notes (l.any g) (commaSep (l.map f)) := by
  induction l with
  | nil => exact ⟨.text, .inl rfl, rfl⟩
  | cons a l ih =>
    obtain ⟨ha, hl⟩ := List.forall_mem_cons.1 h
    by_cases hne : l = []
    · subst hne
      simpa [commaSep] using ha
    · have hrest := Notes.append (ha.close (.inr (.inl rfl))) (ih hl)
      rw [List.any_cons, List.map_cons, commaSep_cons _ (by simpa using hne)]
      simpa using hrest

theorem notes_all {e : Element} (h : Notes e.irregular e.text) (hb : Blank e.before)
    (ha : Blank e.after) : Notes e.irregular e.all := by
  have := Notes.append (scan_blank_text hb) (h.blank ha)
  simpa [Element.all] using this

theorem notes_whole {m : Member} (h : Notes m.irregular m.toElement.all)
    (hkey : Chars m.keyIrregular m.key m.keyText) (hb : Blank m.keyBefore)
    (ha : Blank m.keyAfter) : Notes (m.keyIrregular || m.irregular) m.whole := by
  have hcolon : scan .text [colon] = (.text, false) := rfl
  have hfront := scan_append (scan_append (scan_blank_text hb) (scan_of_string hkey))
    (scan_append (scan_blank_text ha) hcolon)
  have := Notes.append hfront h
  simpa [Member.whole] using this

/-- Brackets around a text. -/
theorem notes_brackets (h : Notes b x) {c d : UInt8} (hc : Scan.text.step c = (.text, false))
    (hd : IsEnd d) : Notes b (c :: (x ++ [d])) :=
  ⟨.text, .inl rfl, by simpa using scan_cons hc (h.close hd)⟩

/-! ### Texts -/

theorem scan_of_value (h : Value b v x) : Notes b x := by
  induction h with
  | null => exact ⟨.text, .inl rfl, rfl⟩
  | true => exact ⟨.text, .inl rfl, rfl⟩
  | false => exact ⟨.text, .inl rfl, rfl⟩
  | number h => exact scan_of_number h
  | string h => exact ⟨.text, .inl rfl, scan_of_string h⟩
  | array_nil hw =>
    exact notes_brackets ⟨.text, .inl rfl, scan_blank_text hw⟩ rfl (.inr (.inr (.inl rfl)))
  | array es _ hblank _ ih =>
    refine notes_brackets (notes_commaSep fun e he => ?_) rfl (.inr (.inr (.inl rfl)))
    exact notes_all (ih e he) (hblank e he).1 (hblank e he).2
  | object_nil hw =>
    exact notes_brackets ⟨.text, .inl rfl, scan_blank_text hw⟩ rfl (.inr (.inr (.inr rfl)))
  | object ms _ hblank hkey _ ih =>
    refine notes_brackets (notes_commaSep fun m hm => ?_) rfl (.inr (.inr (.inr rfl)))
    obtain ⟨hkb, hka, hb, ha⟩ := hblank m hm
    exact notes_whole (notes_all (ih m hm) hb ha) (hkey m hm) hkb hka

theorem scan_of_text (h : Text b v s) : (scan .text s).2 = b := by
  obtain ⟨w, x, w', hw, hx, hw', rfl⟩ := h
  obtain ⟨st, -, hscan⟩ := (Notes.append (scan_blank_text hw) (scan_of_value hx)).blank hw'
  rw [hscan, Bool.false_or]

/-- Whether a text is irregular does not depend on its derivation. -/
theorem text_unique (h : Text b v s) (h' : Text b' v' s) : b = b' :=
  (scan_of_text h).symm.trans (scan_of_text h')

end LuaJson

end Jaci
