import Jaci.LuaJson.Complete

/-!
# What the decoder reads is a text

The converse of completeness: where `parse_value` succeeds, the part it has consumed is white space
and a value of the grammar.  A loop of the parser gives the list of the elements, or of the members,
that it has read.

* `number_of_parse_number`, `chars_of_parse_string` : numbers and strings;
* `value_of_parse_value` : one value;
* `json_decode_eq_ok_iff` : `json_decode` succeeds exactly on the texts;
* `json_valid_iff` : and so does `json_valid`.
-/

namespace Jaci

namespace LuaJson

open Wire Json Json.Parser

variable {b : Bool} {v : LuaValue} {s t x : Bytes}

/-! ### Numbers -/

theorem optional_eq {p : UInt8 → Bool} {sign : Bytes} (h : Parser.optional p s = (sign, t)) :
    s = sign ++ t ∧ (sign = [] ∨ ∃ c, p c = true ∧ sign = [c]) := by
  cases s with
  | nil =>
    obtain ⟨rfl, rfl⟩ := Prod.mk.inj h
    exact ⟨rfl, .inl rfl⟩
  | cons c r =>
    rw [Parser.optional] at h
    split_ifs at h with hc
    · obtain ⟨rfl, rfl⟩ := Prod.mk.inj h
      exact ⟨rfl, .inr ⟨c, hc, rfl⟩⟩
    · obtain ⟨rfl, rfl⟩ := Prod.mk.inj h
      exact ⟨rfl, .inl rfl⟩

theorem fraction_of_scan_fraction (h : scan_fraction s = .ok (x, t)) :
    Fraction x ∧ s = x ++ t := by
  cases s with
  | nil =>
    obtain ⟨rfl, rfl⟩ := Prod.mk.inj (Except.ok.inj h)
    exact ⟨.none, rfl⟩
  | cons c r =>
    rw [scan_fraction] at h
    split_ifs at h with hc
    · split at h
      · next ds r' hds =>
        obtain ⟨rfl, rfl⟩ := Prod.mk.inj (Except.ok.inj h)
        obtain ⟨hdigits, rfl, -⟩ := scan_digits_eq_ok hds
        exact ⟨.some hdigits, by rw [hc]; rfl⟩
      · simp at h
    · obtain ⟨rfl, rfl⟩ := Prod.mk.inj (Except.ok.inj h)
      exact ⟨.none, rfl⟩

theorem exponent_of_scan_exponent (h : scan_exponent s = .ok (x, t)) :
    Exponent x ∧ s = x ++ t := by
  cases s with
  | nil =>
    obtain ⟨rfl, rfl⟩ := Prod.mk.inj (Except.ok.inj h)
    exact ⟨.none, rfl⟩
  | cons c r =>
    rw [scan_exponent] at h
    split_ifs at h with hc
    · obtain ⟨sign, r', hopt⟩ : ∃ sign r', Parser.optional (fun c => c == 0x2b || c == minus) r =
          (sign, r') := ⟨_, _, rfl⟩
      obtain ⟨rfl, hsign⟩ := optional_eq hopt
      simp only [hopt] at h
      split at h
      · next ds r'' hds =>
        obtain ⟨rfl, rfl⟩ := Prod.mk.inj (Except.ok.inj h)
        obtain ⟨hdigits, rfl, -⟩ := scan_digits_eq_ok hds
        refine ⟨.some hc ?_ hdigits, by simp⟩
        rcases hsign with rfl | ⟨d, hd, rfl⟩
        · exact .inl rfl
        · simpa [or_comm] using hd
      · simp at h
    · obtain ⟨rfl, rfl⟩ := Prod.mk.inj (Except.ok.inj h)
      exact ⟨.none, rfl⟩

theorem number_of_parse_number (h : parse_number s = .ok (v, t)) :
    ∃ b x, Number b v x ∧ s = x ++ t := by
  obtain ⟨sign, r, hopt⟩ : ∃ sign r, Parser.optional (· == minus) s = (sign, r) := ⟨_, _, rfl⟩
  obtain ⟨rfl, hsign⟩ := optional_eq hopt
  simp only [parse_number, hopt] at h
  split at h
  · simp at h
  · next int r₁ hint =>
    split at h
    · simp at h
    · next frac r₂ hfrac =>
      split at h
      · simp at h
      · next exp r₃ hexp =>
        obtain ⟨rfl, rfl⟩ := Prod.mk.inj (Except.ok.inj h)
        obtain ⟨hdigits, rfl, -⟩ := scan_digits_eq_ok hint
        obtain ⟨hfraction, rfl⟩ := fraction_of_scan_fraction hfrac
        obtain ⟨hexponent, rfl⟩ := exponent_of_scan_exponent hexp
        have hsign' : sign = [] ∨ sign = [minus] := by
          rcases hsign with rfl | ⟨d, hd, rfl⟩
          · exact .inl rfl
          · exact .inr (by rw [beq_iff_eq.1 hd])
        exact ⟨_, _, .mk hsign' hdigits hfraction hexponent, by simp⟩

/-! ### Strings -/

theorem mem_escapes_of_unescape {esc c : UInt8} (h : unescape esc = some c) :
    (esc, c) ∈ escapes := by
  unfold unescape at h
  split_ifs at h <;> · cases h; subst esc; decide

theorem isHex_of_hexVal {h : UInt8} {d : ℕ} (hd : hexVal h = some d) : IsHex h := by
  unfold hexVal at hd
  split_ifs at hd with h1 h2 h3
  · exact .inl h1
  · exact .inr (.inl h2)
  · exact .inr (.inr h3)

theorem isHex_of_readHex {hs : Bytes} {n m : ℕ} (h : (readHex hs n).1 = some m) :
    ∀ c ∈ hs, IsHex c := by
  induction hs generalizing n with
  | nil => simp
  | cons c hs ih =>
    rw [readHex] at h
    split at h
    · next d hd => exact List.forall_mem_cons.2 ⟨isHex_of_hexVal hd, ih h⟩
    · simp at h

theorem chars_of_parse_string_loop {k acc : Bytes} (h : parse_string_loop s acc = .ok (k, t)) :
    ∃ b y x, k = acc ++ y ∧ Chars b y x ∧ s = x ++ quote :: t := by
  fun_induction parse_string_loop s acc with
  | case1 => simp at h
  | case2 acc rest =>
    obtain ⟨rfl, rfl⟩ := Prod.mk.inj (Except.ok.inj h)
    exact ⟨false, [], [], by simp, .nil, rfl⟩
  | case3 acc hq => simp at h
  | case4 acc h₁ h₂ h₃ h₄ rest codepoint hhex hq ih =>
    obtain ⟨b, y, x, rfl, hchars, rfl⟩ := ih h
    have hbytes : hexBytes [h₁, h₂, h₃, h₄] = encodeCodepoint codepoint := by simp [hexBytes, hhex]
    refine ⟨b, _, _, ?_, .unicode (isHex_of_readHex hhex) hchars, rfl⟩
    rw [hbytes, List.append_assoc]
  | case5 acc h₁ h₂ h₃ h₄ rest hhex hq => simp at h
  | case6 acc rest hshort hq => simp at h
  | case7 acc esc rest hu c hesc hq ih =>
    obtain ⟨b, y, x, rfl, hchars, rfl⟩ := ih h
    exact ⟨b, c :: y, _, by simp, .escape (mem_escapes_of_unescape hesc) hchars, rfl⟩
  | case8 acc esc rest hu hesc hq => simp at h
  | case9 c rest acc hq hb ih =>
    obtain ⟨b, y, x, rfl, hchars, rfl⟩ := ih h
    exact ⟨_, c :: y, _, by simp, .raw c hq hb hchars, rfl⟩

theorem chars_of_parse_string {k : Bytes} (h : parse_string s = .ok (k, t)) :
    ∃ b x, Chars b k x ∧ s = x ++ quote :: t := by
  obtain ⟨b, y, x, rfl, hchars, rfl⟩ := chars_of_parse_string_loop h
  exact ⟨b, x, hchars, rfl⟩

/-! ### Containers -/

/-- What `value` consumes is white space and a value. -/
def Derives (value : Bytes → Read LuaValue) : Prop :=
  ∀ {s v t}, value s = .ok (v, t) → ∃ w b x, Blank w ∧ Value b v x ∧ s = w ++ x ++ t

variable {value : Bytes → Read LuaValue}

/-- One turn consumes an element and the separator after it. -/
theorem elements_of_parse_array (hvalue : Derives value) {turns : ℕ} {tbl : LuaValue} {i : ℕ}
    (h : parse_array value turns tbl i s = .ok (v, t)) :
    ∃ es : List Element, es ≠ [] ∧ (∀ e ∈ es, Blank e.before ∧ Blank e.after) ∧
      (∀ e ∈ es, Value e.irregular e.value e.text) ∧
      s = commaSep (es.map Element.all) ++ rbracket :: t ∧
      v = arrayOf tbl i (es.map Element.value) := by
  induction turns generalizing tbl i s with
  | zero => simp [parse_array] at h
  | succ turns ih =>
    rw [parse_array] at h
    split_ifs at h with hs
    split at h
    · simp at h
    · next u r hu =>
      obtain ⟨w, b, x, hw, hx, rfl⟩ := hvalue hu
      obtain ⟨w', hw', hr⟩ := exists_blank r
      split at h
      · simp at h
      · next c r' hskip =>
        rw [hskip] at hr
        let e : Element := ⟨w, b, u, x, w'⟩
        split_ifs at h with hc hc'
        · obtain ⟨rfl, rfl⟩ := Prod.mk.inj (Except.ok.inj h)
          refine ⟨[e], by simp, by simpa [e] using ⟨hw, hw'⟩, by simpa [e] using hx, ?_, rfl⟩
          rw [hr, hc]
          simp [e, Element.all, commaSep]
        · obtain ⟨es, hne, hblank, hes, rfl, rfl⟩ := ih h
          refine ⟨e :: es, by simp, List.forall_mem_cons.2 ⟨⟨hw, hw'⟩, hblank⟩,
            List.forall_mem_cons.2 ⟨hx, hes⟩, ?_, rfl⟩
          rw [List.map_cons, commaSep_cons _ (by simpa using hne), hr, hc']
          simp [e, Element.all]

theorem members_of_parse_object (hvalue : Derives value) {turns : ℕ} {tbl : LuaValue}
    (h : parse_object value turns tbl s = .ok (v, t)) :
    ∃ ms : List Member, ms ≠ [] ∧ (∀ m ∈ ms, Blank m.keyBefore ∧ Blank m.keyAfter ∧
        Blank m.before ∧ Blank m.after) ∧ (∀ m ∈ ms, Chars m.keyIrregular m.key m.keyText) ∧
      (∀ m ∈ ms, Value m.irregular m.value m.text) ∧
      s = commaSep (ms.map Member.whole) ++ rbrace :: t ∧
      v = objectOf tbl (ms.map fun m => (m.key, m.value)) := by
  induction turns generalizing tbl s with
  | zero => simp [parse_object] at h
  | succ turns ih =>
    rw [parse_object] at h
    split_ifs at h with hs
    obtain ⟨w₁, hw₁, hs₁⟩ := exists_blank s
    split at h
    · simp at h
    · next c₁ r₁ hskip₁ =>
      rw [hskip₁] at hs₁
      split_ifs at h with hquote
      rw [not_ne_iff] at hquote
      split at h
      · simp at h
      · next k r₂ hk =>
        obtain ⟨bk, xk, hchars, rfl⟩ := chars_of_parse_string hk
        obtain ⟨w₂, hw₂, hr₂⟩ := exists_blank r₂
        split at h
        · simp at h
        · next c₂ r₃ hskip₂ =>
          rw [hskip₂] at hr₂
          split_ifs at h with hcolon
          rw [not_ne_iff] at hcolon
          split at h
          · simp at h
          · next u r₄ hu =>
            obtain ⟨w₃, b, x, hw₃, hx, rfl⟩ := hvalue hu
            obtain ⟨w₄, hw₄, hr₄⟩ := exists_blank r₄
            split at h
            · simp at h
            · next c₃ r₅ hskip₃ =>
              rw [hskip₃] at hr₄
              let m : Member := ⟨⟨w₃, b, u, x, w₄⟩, w₁, bk, k, xk, w₂⟩
              have hsm : s = m.whole ++ c₃ :: r₅ := by
                rw [hs₁, hquote, hr₂, hcolon, hr₄]
                simp [m, Member.whole, Element.all]
              split_ifs at h with hc hc'
              · obtain ⟨rfl, rfl⟩ := Prod.mk.inj (Except.ok.inj h)
                refine ⟨[m], by simp, by simpa [m] using ⟨hw₁, hw₂, hw₃, hw₄⟩,
                  by simpa [m] using hchars, by simpa [m] using hx, ?_, rfl⟩
                rw [hsm, hc]
                rfl
              · obtain ⟨ms, hne, hblank, hkeys, hms, rfl, rfl⟩ := ih h
                refine ⟨m :: ms, by simp, List.forall_mem_cons.2 ⟨⟨hw₁, hw₂, hw₃, hw₄⟩, hblank⟩,
                  List.forall_mem_cons.2 ⟨hchars, hkeys⟩, List.forall_mem_cons.2 ⟨hx, hms⟩, ?_, rfl⟩
                rw [List.map_cons, commaSep_cons _ (by simpa using hne), hsm, hc']
                simp

/-! ### Values -/

theorem of_parse_word {word : Bytes} {u : LuaValue} {e : String}
    (h : parse_word word u e s = .ok (v, t)) : v = u ∧ s = word ++ t := by
  rw [parse_word] at h
  split_ifs at h with hw
  obtain ⟨rfl, rfl⟩ := Prod.mk.inj (Except.ok.inj h)
  refine ⟨rfl, ?_⟩
  conv_lhs => rw [← List.take_append_drop word.length s, hw]

/-- White space before the closing bracket or the first element. -/
theorem value_of_bracket (hvalue : Derives value) {r r' : Bytes} {d : UInt8}
    (hskip : skip_whitespace r = d :: r') {turns : ℕ}
    (h : (if d = rbracket then .ok (.newtable, r')
      else parse_array value turns .newtable 1 (d :: r') : Read LuaValue) = .ok (v, t)) :
    ∃ b x, Value b v x ∧ lbracket :: r = x ++ t := by
  obtain ⟨w, hw, hr⟩ := exists_blank r
  rw [hskip] at hr
  split_ifs at h with hd
  · obtain ⟨rfl, rfl⟩ := Prod.mk.inj (Except.ok.inj h)
    exact ⟨_, _, .array_nil hw, by rw [hr, hd]; simp⟩
  · obtain ⟨es, hne, hblank, hes, hrest, rfl⟩ := elements_of_parse_array hvalue h
    obtain ⟨e, es, rfl⟩ := List.exists_cons_of_ne_nil hne
    obtain ⟨⟨hb, ha⟩, hblank⟩ := List.forall_mem_cons.1 hblank
    obtain ⟨he, hes⟩ := List.forall_mem_cons.1 hes
    let e' : Element := { e with before := w ++ e.before }
    have hall : e'.all = w ++ e.all := by simp [e', Element.all]
    refine ⟨_, _, .array (e' :: es) (by simp)
      (List.forall_mem_cons.2 ⟨⟨List.forall_mem_append.2 ⟨hw, hb⟩, ha⟩, hblank⟩)
      (List.forall_mem_cons.2 ⟨he, hes⟩), ?_⟩
    rw [hr, hrest, List.map_cons, List.map_cons, hall, commaSep_append]
    simp

theorem value_of_brace (hvalue : Derives value) {r r' : Bytes} {d : UInt8}
    (hskip : skip_whitespace r = d :: r') {turns : ℕ}
    (h : (if d = rbrace then .ok (.newtable, r')
      else parse_object value turns .newtable (d :: r') : Read LuaValue) = .ok (v, t)) :
    ∃ b x, Value b v x ∧ lbrace :: r = x ++ t := by
  obtain ⟨w, hw, hr⟩ := exists_blank r
  rw [hskip] at hr
  split_ifs at h with hd
  · obtain ⟨rfl, rfl⟩ := Prod.mk.inj (Except.ok.inj h)
    exact ⟨_, _, .object_nil hw, by rw [hr, hd]; simp⟩
  · obtain ⟨ms, hne, hblank, hkeys, hms, hrest, rfl⟩ := members_of_parse_object hvalue h
    obtain ⟨m, ms, rfl⟩ := List.exists_cons_of_ne_nil hne
    obtain ⟨⟨hb, ha⟩, hblank⟩ := List.forall_mem_cons.1 hblank
    obtain ⟨hk, hkeys⟩ := List.forall_mem_cons.1 hkeys
    obtain ⟨hm, hms⟩ := List.forall_mem_cons.1 hms
    let m' : Member := { m with keyBefore := w ++ m.keyBefore }
    have hwhole : m'.whole = w ++ m.whole := by simp [m', Member.whole]
    refine ⟨_, _, .object (m' :: ms) (by simp)
      (List.forall_mem_cons.2 ⟨⟨List.forall_mem_append.2 ⟨hw, hb⟩, ha⟩, hblank⟩)
      (List.forall_mem_cons.2 ⟨hk, hkeys⟩) (List.forall_mem_cons.2 ⟨hm, hms⟩), ?_⟩
    rw [hr, hrest, List.map_cons, List.map_cons, hwhole, commaSep_append]
    simp

/-- **Soundness.**  What `parse_value` consumes is white space and a value of the grammar. -/
theorem value_of_parse_value (fuel : ℕ) : Derives (parse_value fuel) := by
  induction fuel with
  | zero =>
    intro s v t h
    simp [parse_value] at h
  | succ fuel ih =>
    intro s v t h
    obtain ⟨w, hw, hs⟩ := exists_blank s
    suffices hval : ∃ b x, Value b v x ∧ skip_whitespace s = x ++ t by
      obtain ⟨b, x, hx, hrest⟩ := hval
      exact ⟨w, b, x, hw, hx, by rw [hs, hrest, List.append_assoc]⟩
    rw [parse_value] at h
    split at h
    · simp at h
    · next c r hskip =>
      rw [hskip]
      split_ifs at h with hn ht hf hq hbracket hbrace hnum
      · obtain ⟨rfl, hrest⟩ := of_parse_word h
        exact ⟨_, _, .null, hrest⟩
      · obtain ⟨rfl, hrest⟩ := of_parse_word h
        exact ⟨_, _, .true, hrest⟩
      · obtain ⟨rfl, hrest⟩ := of_parse_word h
        exact ⟨_, _, .false, hrest⟩
      · split at h
        · next k r' hk =>
          obtain ⟨rfl, rfl⟩ := Prod.mk.inj (Except.ok.inj h)
          obtain ⟨b, x, hchars, rfl⟩ := chars_of_parse_string hk
          exact ⟨_, _, .string hchars, by rw [hq]; simp⟩
        · simp at h
      · split at h
        · simp at h
        · next d r' hd =>
          rw [hbracket]
          exact value_of_bracket ih hd h
      · split at h
        · simp at h
        · next d r' hd =>
          rw [hbrace]
          exact value_of_brace ih hd h
      · obtain ⟨b, x, hx, hrest⟩ := number_of_parse_number h
        exact ⟨b, x, .number hx, hrest⟩

/-! ### Texts -/

/-- **The decoder accepts the texts of the extended grammar.** -/
theorem json_decode_eq_ok_iff : json_decode s = .ok v ↔ ∃ b, Text b v s := by
  constructor
  · intro h
    rw [json_decode] at h
    split at h
    · simp at h
    · next u r hu =>
      split_ifs at h with hr
      obtain rfl := Except.ok.inj h
      obtain ⟨w, b, x, hw, hx, rfl⟩ := value_of_parse_value _ hu
      obtain ⟨w', hw', hrest⟩ := exists_blank r
      rw [hr, List.append_nil] at hrest
      rw [hrest]
      exact ⟨b, w, x, w', hw, hx, hw', rfl⟩
  · rintro ⟨b, h⟩
    exact json_decode_of_text h

theorem json_valid_eq : json_valid s = true ↔ ∃ v, json_decode s = .ok v := by
  rw [json_valid, json_decode]
  split
  · simp
  · next u r hu =>
    by_cases hr : skip_whitespace r = []
    · simp [hr]
    · simp [hr]

theorem json_valid_iff : json_valid s = true ↔ ∃ b v, Text b v s := by
  rw [json_valid_eq]
  constructor
  · rintro ⟨v, hv⟩
    obtain ⟨b, hb⟩ := json_decode_eq_ok_iff.1 hv
    exact ⟨b, v, hb⟩
  · rintro ⟨b, v, h⟩
    exact ⟨v, json_decode_of_text h⟩

end LuaJson

end Jaci
