import Jaci.LuaJson.Grammar

/-!
# The decoder reads every text

What the grammar derives, with or without irregular tokens, `parse_value` reads.  The statement
about one value is made for any white space before it and anything after it that does not continue
a number.

* `parse_number_of_number`, `parse_string_of_chars` : numbers and strings;
* `reads_of_value` : one value, in any context;
* `json_decode_of_text` : a whole text.
-/

namespace Jaci

namespace LuaJson

open Wire Json Json.Parser

variable {b : Bool} {v : LuaValue} {s t x : Bytes}

/-! ### Numbers -/

theorem noDigit_cons {c : UInt8} {r : Bytes} (h : isDigit c = false) : NoDigit (c :: r) := by
  intro d hd
  rw [List.head?_cons, Option.mem_some_iff] at hd
  rw [← hd]
  exact h

theorem scan_exponent_ok (hx : Exponent x) (ht : NoDigit t)
    (hnone : x = [] → ∀ c ∈ t.head?, c ≠ 0x65 ∧ c ≠ 0x45) :
    scan_exponent (x ++ t) = .ok (x, t) := by
  cases hx with
  | none =>
    cases t with
    | nil => rfl
    | cons c r => simp [scan_exponent, hnone rfl c (by simp)]
  | @some c sign ds hc hsign hds =>
    have hdigits := scan_digits_ok (e := "invalid exponent in number") hds ht
    -- the sign is taken, and without a sign there is a digit
    have hopt : optional (fun c => c == 0x2b || c == minus) (sign ++ (ds ++ t)) =
        (sign, ds ++ t) := by
      rcases hsign with rfl | rfl | rfl
      · obtain ⟨d, r, rfl⟩ := List.exists_cons_of_ne_nil hds.1
        have hd := isDigit_ne (hds.2 d List.mem_cons_self)
        simp [Parser.optional, hd.2.1, hd.2.2.1]
      · rfl
      · rfl
    simp only [List.cons_append, List.append_assoc, scan_exponent, if_pos hc, hopt, hdigits]

theorem scan_fraction_ok (hx : Fraction x) (ht : NoDigit t)
    (hnone : x = [] → ∀ c ∈ t.head?, c ≠ dot) :
    scan_fraction (x ++ t) = .ok (x, t) := by
  cases hx with
  | none =>
    cases t with
    | nil => rfl
    | cons c r => simp [scan_fraction, hnone rfl c (by simp)]
  | some hds =>
    simp only [List.cons_append, scan_fraction, if_true, scan_digits_ok hds ht]

/-- An exponent does not continue digits or begin a fraction. -/
theorem exponent_head (hx : Exponent x) (ht : NoDigit t) :
    NoDigit (x ++ t) ∧ ((x = [] → ∀ c ∈ t.head?, c ≠ dot) → ∀ c ∈ (x ++ t).head?, c ≠ dot) := by
  cases hx with
  | none => exact ⟨ht, fun h => h rfl⟩
  | some hc =>
    refine ⟨noDigit_cons ?_, fun _ c hmem => ?_⟩
    · rcases hc with rfl | rfl <;> rfl
    · rw [List.cons_append, List.cons_append, List.head?_cons, Option.mem_some_iff] at hmem
      rw [← hmem]
      rcases hc with rfl | rfl <;> decide

/-- A number is read if it does not go on. -/
theorem parse_number_ok {sign int frac exp : Bytes} (hsign : sign = [] ∨ sign = [minus])
    (hint : Digits int) (hfrac : Fraction frac) (hexp : Exponent exp) (hend : NoDigit t)
    (hnofrac : frac = [] → exp = [] → ∀ c ∈ t.head?, c ≠ dot)
    (hnoexp : exp = [] → ∀ c ∈ t.head?, c ≠ 0x65 ∧ c ≠ 0x45) :
    parse_number (sign ++ int ++ frac ++ exp ++ t) =
      .ok (number_value (sign ++ int ++ frac ++ exp) (decide (frac = [] ∧ exp = [])), t) := by
  obtain ⟨hnodigit, hdot⟩ := exponent_head hexp hend
  have hopt : optional (· == minus) (sign ++ (int ++ (frac ++ (exp ++ t)))) =
      (sign, int ++ (frac ++ (exp ++ t))) := by
    rcases hsign with rfl | rfl
    · obtain ⟨d, r, rfl⟩ := List.exists_cons_of_ne_nil hint.1
      have hd := isDigit_ne (hint.2 d List.mem_cons_self)
      simp [Parser.optional, hd.2.1]
    · rfl
  have hafter : NoDigit (frac ++ (exp ++ t)) := by
    cases hfrac with
    | none => exact hnodigit
    | some _ => exact noDigit_cons rfl
  simp only [parse_number, List.append_assoc, hopt, scan_digits_ok hint hafter,
    scan_fraction_ok hfrac hnodigit fun h => hdot (hnofrac h), scan_exponent_ok hexp hend hnoexp]

theorem parse_number_of_number (h : Number b v x) (ht : Follow t) :
    parse_number (x ++ t) = .ok (v, t) := by
  obtain ⟨hsign, hint, hfrac, hexp⟩ := h
  exact parse_number_ok hsign hint hfrac hexp ht.noDigit (fun _ _ c hc => (ht c hc).2.1)
    fun _ c hc => (ht c hc).2.2

/-! ### Strings -/

theorem unescape_of_mem : ∀ p ∈ escapes, unescape p.1 = some p.2 ∧ p.1 ≠ 0x75 := by
  simp [escapes, unescape, quote, backslash]

theorem hexVal_of_isHex {h : UInt8} (hh : IsHex h) : ∃ d, hexVal h = some d := by
  rw [hexVal]
  split_ifs with h1 h2 h3
  · exact ⟨_, rfl⟩
  · exact ⟨_, rfl⟩
  · exact ⟨_, rfl⟩
  · rcases hh with hh | hh | hh
    · exact absurd hh h1
    · exact absurd hh h2
    · exact absurd hh h3

theorem readHex_of_isHex {hs : Bytes} (h : ∀ c ∈ hs, IsHex c) (n : ℕ) :
    ∃ m, (readHex hs n).1 = some m := by
  induction hs generalizing n with
  | nil => exact ⟨n, rfl⟩
  | cons c hs ih =>
    obtain ⟨d, hd⟩ := hexVal_of_isHex (h c List.mem_cons_self)
    simp only [readHex, hd]
    exact ih (fun c hc => h c (List.mem_cons_of_mem _ hc)) _

theorem parse_string_loop_of_chars (h : Chars b s x) (acc r : Bytes) :
    parse_string_loop (x ++ quote :: r) acc = .ok (acc ++ s, r) := by
  induction h generalizing acc with
  | nil =>
    rw [List.nil_append, parse_string_loop.eq_def]
    simp
  | raw c hq hb _ ih =>
    rw [List.cons_append, parse_string_loop.eq_def]
    simp only [hq, hb, if_false, ih]
    simp
  | escape hesc _ ih =>
    obtain ⟨h1, h2⟩ := unescape_of_mem _ hesc
    rw [List.cons_append, List.cons_append, parse_string_loop.eq_def]
    simp only [show ¬ backslash = quote by decide, if_false, if_true, h1, h2, ih]
    simp
  | unicode hhex _ ih =>
    obtain ⟨m, hm⟩ := readHex_of_isHex hhex 0
    simp only [List.cons_append]
    rw [parse_string_loop.eq_def]
    simp only [show ¬ backslash = quote by decide, if_false, if_true, hm, ih]
    simp [hexBytes, hm]

theorem parse_string_of_chars (h : Chars b s x) (r : Bytes) :
    parse_string (x ++ quote :: r) = .ok (s, r) := by
  rw [parse_string, parse_string_loop_of_chars h]
  rfl

/-! ### Containers -/

/-- `value` reads the text, in every context. -/
def Reads (value : Bytes → Read LuaValue) (v : LuaValue) (x : Bytes) : Prop :=
  ∀ w t, Blank w → Follow t → value (w ++ x ++ t) = .ok (v, t)

/-- White space and separators do not continue a number. -/
theorem follow_blank {w : Bytes} (hw : Blank w) (ht : Follow t) : Follow (w ++ t) := by
  cases w with
  | nil => exact ht
  | cons c r =>
    intro d hd
    rw [List.cons_append, List.head?_cons, Option.mem_some_iff] at hd
    rw [← hd]
    have hc := hw c List.mem_cons_self
    simp only [isSpace, Bool.or_eq_true, beq_iff_eq] at hc
    rcases hc with ((rfl | rfl) | rfl) | rfl <;> decide

theorem commaSep_cons (s : Bytes) {ss : List Bytes} (h : ss ≠ []) :
    commaSep (s :: ss) = s ++ comma :: commaSep ss := by
  cases ss with
  | nil => exact absurd rfl h
  | cons t rest => rfl

variable {value : Bytes → Read LuaValue}

theorem parse_array_of_elements {es : List Element} (hne : es ≠ [])
    (hblank : ∀ e ∈ es, Blank e.before ∧ Blank e.after)
    (h : ∀ e ∈ es, Reads value e.value e.text) {turns : ℕ} (hturns : es.length ≤ turns)
    (tbl : LuaValue) (i : ℕ) (r : Bytes) :
    parse_array value turns tbl i (commaSep (es.map Element.all) ++ rbracket :: r) =
      .ok (arrayOf tbl i (es.map Element.value), r) := by
  induction es generalizing turns tbl i with
  | nil => exact absurd rfl hne
  | cons e es ih =>
    obtain ⟨turns, rfl⟩ : ∃ k, turns = k + 1 := ⟨turns - 1, by simp at hturns; omega⟩
    have hread := h e List.mem_cons_self
    obtain ⟨hbefore, hafter⟩ := hblank e List.mem_cons_self
    -- one turn of the loop, whatever comes after the element
    have hturn : ∀ c r', (c = comma ∨ c = rbracket ∨ c = rbrace) → isSpace c = false →
        parse_array value (turns + 1) tbl i (e.all ++ c :: r') =
          if c = rbracket then .ok (tbl.rawseti i e.value, r')
          else if c = comma then parse_array value turns (tbl.rawseti i e.value) (i + 1) r'
          else .error "expected ',' or ']' in array" := by
      intro c r' hc hspace
      have hval := hread e.before (e.after ++ c :: r') hbefore
        (follow_blank hafter (follow_cons hc))
      have hnil : e.all ++ c :: r' ≠ [] := by simp
      rw [parse_array, if_neg hnil, Element.all]
      simp only [List.append_assoc] at hval ⊢
      simp only [hval, skip_whitespace_blank hafter hspace]
    by_cases hes : es = []
    · subst hes
      simp only [List.map_cons, List.map_nil, commaSep]
      rw [hturn rbracket r (by simp) rfl, if_pos rfl]
      rfl
    · rw [List.map_cons, commaSep_cons _ (by simpa using hes), List.append_assoc,
        List.cons_append, hturn comma _ (by simp) rfl, if_neg (by decide), if_pos rfl]
      rw [ih hes (fun e' he' => hblank e' (List.mem_cons_of_mem _ he'))
        (fun e' he' => h e' (List.mem_cons_of_mem _ he')) (by simpa using hturns)]
      rfl

theorem parse_object_of_members {ms : List Member} (hne : ms ≠ [])
    (hblank : ∀ m ∈ ms, Blank m.keyBefore ∧ Blank m.keyAfter ∧ Blank m.before ∧ Blank m.after)
    (hkey : ∀ m ∈ ms, Chars m.keyIrregular m.key m.keyText)
    (h : ∀ m ∈ ms, Reads value m.value m.text) {turns : ℕ} (hturns : ms.length ≤ turns)
    (tbl : LuaValue) (r : Bytes) :
    parse_object value turns tbl (commaSep (ms.map Member.whole) ++ rbrace :: r) =
      .ok (objectOf tbl (ms.map fun m => (m.key, m.value)), r) := by
  induction ms generalizing turns tbl with
  | nil => exact absurd rfl hne
  | cons m ms ih =>
    obtain ⟨turns, rfl⟩ : ∃ k, turns = k + 1 := ⟨turns - 1, by simp at hturns; omega⟩
    obtain ⟨hkb, hka, hb, ha⟩ := hblank m List.mem_cons_self
    have hturn : ∀ c r', (c = comma ∨ c = rbracket ∨ c = rbrace) → isSpace c = false →
        parse_object value (turns + 1) tbl (m.whole ++ c :: r') =
          if c = rbrace then .ok (tbl.rawset m.key m.value, r')
          else if c = comma then parse_object value turns (tbl.rawset m.key m.value) r'
          else .error "expected ',' or '\x7d' in object" := by
      intro c r' hc hspace
      have hval := h m List.mem_cons_self m.before (m.after ++ c :: r') hb
        (follow_blank ha (follow_cons hc))
      have hstr := parse_string_of_chars (hkey m List.mem_cons_self)
        (m.keyAfter ++ colon :: (m.before ++ (m.text ++ (m.after ++ c :: r'))))
      have hnil : m.whole ++ c :: r' ≠ [] := by simp
      rw [parse_object, if_neg hnil, Member.whole, Element.all]
      simp only [List.append_assoc, List.cons_append] at hval hstr ⊢
      simp only [skip_whitespace_blank hkb (show isSpace quote = false from rfl), ne_eq,
        not_true_eq_false, if_false, hstr,
        skip_whitespace_blank hka (show isSpace colon = false from rfl), hval,
        skip_whitespace_blank ha hspace]
    by_cases hms : ms = []
    · subst hms
      simp only [List.map_cons, List.map_nil, commaSep]
      rw [hturn rbrace r (by simp) rfl, if_pos rfl]
      rfl
    · rw [List.map_cons, commaSep_cons _ (by simpa using hms), List.append_assoc,
        List.cons_append, hturn comma _ (by simp) rfl, if_neg (by decide), if_pos rfl]
      rw [ih hms (fun m' hm' => hblank m' (List.mem_cons_of_mem _ hm'))
        (fun m' hm' => hkey m' (List.mem_cons_of_mem _ hm'))
        (fun m' hm' => h m' (List.mem_cons_of_mem _ hm')) (by simpa using hturns)]
      rfl

/-! ### Values -/

/-- The first character of a number. -/
theorem number_head (h : Number b v x) :
    ∃ c r, x = c :: r ∧ (c = minus ∨ isDigit c = true) := by
  obtain ⟨hsign, hint, hfrac, hexp⟩ := h
  rcases hsign with rfl | rfl
  · obtain ⟨d, r, rfl⟩ := List.exists_cons_of_ne_nil hint.1
    exact ⟨d, _, rfl, .inr (hint.2 d List.mem_cons_self)⟩
  · exact ⟨minus, _, rfl, .inl rfl⟩

theorem ne_of_number {c d : UInt8} (h : c = minus ∨ isDigit c = true)
    (hd : ¬ (d = minus ∨ isDigit d = true)) : c ≠ d := by
  rintro rfl
  exact hd h

/-- The first character of a value. -/
theorem value_head (h : Value b v x) : ∃ c r, x = c :: r ∧ isSpace c = false ∧ c ≠ rbracket := by
  cases h with
  | null => exact ⟨_, _, rfl, rfl, by decide⟩
  | true => exact ⟨_, _, rfl, rfl, by decide⟩
  | false => exact ⟨_, _, rfl, rfl, by decide⟩
  | number h =>
    obtain ⟨c, r, hx, hc⟩ := number_head h
    exact ⟨c, r, hx, isSpace_of_number hc, ne_of_number hc (by decide)⟩
  | string _ => exact ⟨_, _, rfl, rfl, by decide⟩
  | array_nil _ => exact ⟨_, _, rfl, rfl, by decide⟩
  | array es _ _ _ => exact ⟨_, _, rfl, rfl, by decide⟩
  | object_nil _ => exact ⟨_, _, rfl, rfl, by decide⟩
  | object ms _ _ _ _ => exact ⟨_, _, rfl, rfl, by decide⟩

theorem parse_value_blank {w : Bytes} (hw : Blank w) (fuel : ℕ) (s : Bytes) :
    parse_value fuel (w ++ s) = parse_value fuel s := by
  have hskip : skip_whitespace (w ++ s) = skip_whitespace s :=
    List.dropWhile_append_of_pos hw
  cases fuel with
  | zero => rfl
  | succ fuel => simp only [parse_value, hskip]

theorem parse_value_digit {c : UInt8} (hc : c = minus ∨ isDigit c = true) (fuel : ℕ) (r : Bytes) :
    parse_value (fuel + 1) (c :: r) = parse_number (c :: r) := by
  have h1 : c ≠ 0x6e := ne_of_number hc (by decide)
  have h2 : c ≠ 0x74 := ne_of_number hc (by decide)
  have h3 : c ≠ 0x66 := ne_of_number hc (by decide)
  have h4 : c ≠ quote := ne_of_number hc (by decide)
  have h5 : c ≠ lbracket := ne_of_number hc (by decide)
  have h6 : c ≠ lbrace := ne_of_number hc (by decide)
  rw [parse_value, skip_whitespace_cons (isSpace_of_number hc)]
  simp only [h1, h2, h3, h4, h5, h6, if_false, if_pos hc]

theorem parse_value_number (h : Number b v x) (ht : Follow t) (fuel : ℕ) :
    parse_value (fuel + 1) (x ++ t) = .ok (v, t) := by
  have hnum := parse_number_of_number h ht
  obtain ⟨c, r, rfl, hc⟩ := number_head h
  rw [List.cons_append] at hnum ⊢
  rw [parse_value_digit hc, hnum]

theorem parse_value_string (h : Chars b s x) (fuel : ℕ) (t : Bytes) :
    parse_value (fuel + 1) (quote :: (x ++ quote :: t)) = .ok (.string s, t) := by
  rw [parse_value, skip_whitespace_cons rfl]
  simp only [parse_string_of_chars h]
  rfl

/-! ### Brackets -/

theorem commaSep_append (w x : Bytes) (ss : List Bytes) :
    commaSep ((w ++ x) :: ss) = w ++ commaSep (x :: ss) := by
  cases ss with
  | nil => rfl
  | cons s rest => simp [commaSep]

theorem length_le_commaSep_of_mem {ss : List Bytes} (hx : x ∈ ss) :
    x.length ≤ (commaSep ss).length := by
  induction ss with
  | nil => simp at hx
  | cons s ss ih =>
    by_cases hss : ss = []
    · subst hss
      rw [List.mem_singleton.1 hx]
      rfl
    · rw [commaSep_cons s hss, List.length_append, List.length_cons]
      rcases List.mem_cons.1 hx with rfl | hx
      · omega
      · have := ih hx
        omega

theorem length_le_commaSep (ss : List Bytes) : ss.length ≤ (commaSep ss).length + 1 := by
  induction ss with
  | nil => simp
  | cons s ss ih =>
    by_cases hss : ss = []
    · subst hss
      simp
    · rw [commaSep_cons s hss, List.length_append, List.length_cons, List.length_cons]
      omega

/-- The parser skips the white space before the first element itself. -/
theorem parse_value_array {es : List Element} (hne : es ≠ [])
    (hblank : ∀ e ∈ es, Blank e.before ∧ Blank e.after) {fuel : ℕ}
    (hhead : ∀ e ∈ es, ∃ c r, e.text = c :: r ∧ isSpace c = false ∧ c ≠ rbracket)
    (h : ∀ e ∈ es, Reads (parse_value fuel) e.value e.text) (t : Bytes) :
    parse_value (fuel + 1) (lbracket :: (commaSep (es.map Element.all) ++ rbracket :: t)) =
      .ok (arrayOf .newtable 1 (es.map Element.value), t) := by
  obtain ⟨e, es, rfl⟩ := List.exists_cons_of_ne_nil hne
  obtain ⟨c, r, hx, hspace, hc⟩ := hhead e List.mem_cons_self
  -- the elements as the loop sees them
  let e' : Element := { e with before := [] }
  have hloop := @parse_array_of_elements (parse_value fuel) (e' :: es) (by simp)
    (List.forall_mem_cons.2 ⟨⟨blank_nil, (hblank e List.mem_cons_self).2⟩,
      (List.forall_mem_cons.1 hblank).2⟩)
    (List.forall_mem_cons.2 ⟨h e List.mem_cons_self, (List.forall_mem_cons.1 h).2⟩)
  have hall : e'.all = [c] ++ (r ++ e.after) := by
    rw [Element.all, hx]
    rfl
  obtain ⟨rest, hrest⟩ : ∃ rest, commaSep ((e' :: es).map Element.all) ++ rbracket :: t =
      c :: rest := by
    rw [List.map_cons, hall, commaSep_append]
    exact ⟨_, rfl⟩
  have hskip : skip_whitespace (commaSep ((e :: es).map Element.all) ++ rbracket :: t) =
      c :: rest := by
    have : e.all = e.before ++ e'.all := by simp [Element.all, e']
    rw [List.map_cons, this, commaSep_append, List.append_assoc, ← List.map_cons, hrest,
      skip_whitespace_blank (hblank e List.mem_cons_self).1 hspace]
  have hturns : (e' :: es).length ≤ rest.length + 1 := by
    have h1 := length_le_commaSep ((e' :: es).map Element.all)
    have h2 := congrArg List.length hrest
    rw [List.length_map] at h1
    rw [List.length_append, List.length_cons, List.length_cons] at h2
    omega
  rw [parse_value, skip_whitespace_cons rfl]
  simp only [show ¬ lbracket = 0x6e by decide, show ¬ lbracket = 0x74 by decide,
    show ¬ lbracket = 0x66 by decide, show ¬ lbracket = quote by decide, if_false, if_true, hskip,
    if_neg hc]
  rw [← hrest, hloop hturns]
  rfl

theorem parse_value_object {ms : List Member} (hne : ms ≠ [])
    (hblank : ∀ m ∈ ms, Blank m.keyBefore ∧ Blank m.keyAfter ∧ Blank m.before ∧ Blank m.after)
    (hkey : ∀ m ∈ ms, Chars m.keyIrregular m.key m.keyText) {fuel : ℕ}
    (h : ∀ m ∈ ms, Reads (parse_value fuel) m.value m.text) (t : Bytes) :
    parse_value (fuel + 1) (lbrace :: (commaSep (ms.map Member.whole) ++ rbrace :: t)) =
      .ok (objectOf .newtable (ms.map fun m => (m.key, m.value)), t) := by
  obtain ⟨m, ms, rfl⟩ := List.exists_cons_of_ne_nil hne
  obtain ⟨hkb, hrest⟩ := hblank m List.mem_cons_self
  -- the members as the loop sees them
  let m' : Member := { m with keyBefore := [] }
  have hloop := @parse_object_of_members (parse_value fuel) (m' :: ms) (by simp)
    (List.forall_mem_cons.2 ⟨⟨blank_nil, hrest⟩, (List.forall_mem_cons.1 hblank).2⟩)
    (List.forall_mem_cons.2 ⟨hkey m List.mem_cons_self, (List.forall_mem_cons.1 hkey).2⟩)
    (List.forall_mem_cons.2 ⟨h m List.mem_cons_self, (List.forall_mem_cons.1 h).2⟩)
  obtain ⟨rest, hrest⟩ : ∃ rest, commaSep ((m' :: ms).map Member.whole) ++ rbrace :: t =
      quote :: rest := by
    have hwhole : m'.whole = [quote] ++ (m.keyText ++ quote :: (m.keyAfter ++ colon ::
      m.toElement.all)) := rfl
    rw [List.map_cons, hwhole, commaSep_append]
    exact ⟨_, rfl⟩
  have hskip : skip_whitespace (commaSep ((m :: ms).map Member.whole) ++ rbrace :: t) =
      quote :: rest := by
    have : m.whole = m.keyBefore ++ m'.whole := rfl
    rw [List.map_cons, this, commaSep_append, List.append_assoc, ← List.map_cons, hrest,
      skip_whitespace_blank hkb rfl]
  have hturns : (m' :: ms).length ≤ rest.length + 1 := by
    have h1 := length_le_commaSep ((m' :: ms).map Member.whole)
    have h2 := congrArg List.length hrest
    rw [List.length_map] at h1
    rw [List.length_append, List.length_cons, List.length_cons] at h2
    omega
  rw [parse_value, skip_whitespace_cons rfl]
  simp only [show ¬ lbrace = 0x6e by decide, show ¬ lbrace = 0x74 by decide,
    show ¬ lbrace = 0x66 by decide, show ¬ lbrace = quote by decide,
    show ¬ lbrace = lbracket by decide, if_false, if_true, hskip,
    if_neg (show ¬ quote = rbrace by decide)]
  rw [← hrest, hloop hturns]
  rfl

theorem parse_value_array_nil {w : Bytes} (hw : Blank w) (fuel : ℕ) (t : Bytes) :
    parse_value (fuel + 1) (lbracket :: (w ++ rbracket :: t)) = .ok (.newtable, t) := by
  rw [parse_value, skip_whitespace_cons rfl]
  simp only [skip_whitespace_blank hw (show isSpace rbracket = false from rfl)]
  rfl

theorem parse_value_object_nil {w : Bytes} (hw : Blank w) (fuel : ℕ) (t : Bytes) :
    parse_value (fuel + 1) (lbrace :: (w ++ rbrace :: t)) = .ok (.newtable, t) := by
  rw [parse_value, skip_whitespace_cons rfl]
  simp only [skip_whitespace_blank hw (show isSpace rbrace = false from rfl)]
  rfl

/-! ### Texts -/

/-- A value is read if its parts are.  Only a number can go on after its end. -/
theorem parse_value_of_parts (h : Value b v x) {k : ℕ}
    (hparts : ∀ {b v y}, Value b v y → y.length < x.length → Reads (parse_value k) v y)
    (ht : Follow t ∨ ∀ b v, ¬ Number b v x) : parse_value (k + 1) (x ++ t) = .ok (v, t) := by
  cases h with
  | null => rfl
  | true => rfl
  | false => rfl
  | number h =>
    rcases ht with ht | hnumber
    · exact parse_value_number h ht k
    · exact absurd h (hnumber _ _)
  | string h =>
    rw [List.cons_append, List.append_assoc, List.singleton_append, parse_value_string h]
  | array_nil h =>
    rw [List.cons_append, List.append_assoc, List.singleton_append, parse_value_array_nil h]
  | array es hne hblank h =>
    rw [List.cons_append, List.append_assoc, List.singleton_append]
    refine parse_value_array hne hblank (fun e he => value_head (h e he)) (fun e he => ?_) t
    refine hparts (h e he) ?_
    have hmem : e.all.length ≤ _ := length_le_commaSep_of_mem (List.mem_map_of_mem he)
    simp only [Element.all, List.length_append, List.length_cons] at hmem ⊢
    omega
  | object_nil h =>
    rw [List.cons_append, List.append_assoc, List.singleton_append, parse_value_object_nil h]
  | object ms hne hblank hkey h =>
    rw [List.cons_append, List.append_assoc, List.singleton_append]
    refine parse_value_object hne hblank hkey (fun m hm => ?_) t
    refine hparts (h m hm) ?_
    have hmem : m.whole.length ≤ _ := length_le_commaSep_of_mem (List.mem_map_of_mem hm)
    simp only [Member.whole, Element.all, List.length_append, List.length_cons] at hmem ⊢
    omega

theorem length_pos_of_value (h : Value b v x) : 0 < x.length := by
  obtain ⟨c, r, rfl, -⟩ := value_head h
  exact Nat.succ_pos _

/-- A bound on the length of the text is enough fuel. -/
theorem reads_of_value (h : Value b v x) {fuel : ℕ} (hlen : x.length ≤ fuel) :
    Reads (parse_value fuel) v x := by
  induction fuel generalizing b v x with
  | zero =>
    have hpos := length_pos_of_value h
    omega
  | succ k ih =>
    intro w t hw ht
    rw [List.append_assoc, parse_value_blank hw]
    exact parse_value_of_parts h (fun hy hlt => ih hy (by omega)) (.inl ht)

/-- **Completeness.**  A text is read, and gives the value the grammar derives. -/
theorem json_decode_of_text (h : Text b v s) : json_decode s = .ok v := by
  obtain ⟨w, x, w', hw, hx, hw', rfl⟩ := h
  have hfollow : Follow w' := by
    have hnil : Follow [] := by simp [Follow]
    simpa using follow_blank hw' hnil
  have hread := reads_of_value hx (show x.length ≤ (w ++ x ++ w').length + 1 by
    simp only [List.length_append]
    omega) w w' hw hfollow
  rw [json_decode, hread]
  simp only [skip_whitespace_of_blank hw', if_true]

end LuaJson

end Jaci
