import Jaci.LuaJson.Sound

/-!
# The places of a JSON text

Where a text has values, how deep these are, and where it stops being JSON.

* `Complete` : a value that ends in the text, and `parse_value_eq_ok_iff`;
* `Opens`, `Stops` : the places where a value is read, and where the text is no JSON;
* `opens_elements_iff`, `stops_elements_iff`, … : what follows a complete value, a key or a bracket.
-/

namespace Jaci

namespace LuaJson

open Wire Json Json.Parser

/-! ### Complete values -/

/-- A value begins here, after white space, and `t` is left after it.  What comes after a number
does not continue it. -/
inductive Complete : Bytes → Bytes → Prop where
  | number {w sign int frac exp t : Bytes} : Blank w → sign = [] ∨ sign = [minus] → Digits int →
      Fraction frac → Exponent exp → NoDigit t → (frac = [] → exp = [] → ∀ c ∈ t.head?, c ≠ dot) →
      (exp = [] → ∀ c ∈ t.head?, c ≠ 0x65 ∧ c ≠ 0x45) →
      Complete (w ++ (sign ++ int ++ frac ++ exp) ++ t) t
  | value {w x t : Bytes} {b : Bool} {v : LuaValue} : Blank w → Value b v x →
      (∀ b v, ¬ Number b v x) → Complete (w ++ x ++ t) t

section Complete

variable {s t : Bytes}

theorem scan_fraction_eq_ok {x : Bytes} (h : scan_fraction s = .ok (x, t)) :
    (x ≠ [] → NoDigit t) ∧ (x = [] → s = t ∧ ∀ c ∈ t.head?, c ≠ dot) := by
  cases s with
  | nil =>
    obtain ⟨rfl, rfl⟩ := Prod.mk.inj (Except.ok.inj h)
    exact ⟨fun h => absurd rfl h, fun _ => ⟨rfl, by simp⟩⟩
  | cons c r =>
    rw [scan_fraction] at h
    split_ifs at h with hc
    · split at h
      · next ds r' hds =>
        obtain ⟨rfl, rfl⟩ := Prod.mk.inj (Except.ok.inj h)
        exact ⟨fun _ => (scan_digits_eq_ok hds).2.2, fun h => by cases h⟩
      · simp at h
    · obtain ⟨rfl, rfl⟩ := Prod.mk.inj (Except.ok.inj h)
      exact ⟨fun h => absurd rfl h, fun _ => ⟨rfl, by simpa using hc⟩⟩

theorem scan_exponent_eq_ok {x : Bytes} (h : scan_exponent s = .ok (x, t)) :
    (x ≠ [] → NoDigit t) ∧ (x = [] → s = t ∧ ∀ c ∈ t.head?, c ≠ 0x65 ∧ c ≠ 0x45) := by
  cases s with
  | nil =>
    obtain ⟨rfl, rfl⟩ := Prod.mk.inj (Except.ok.inj h)
    exact ⟨fun h => absurd rfl h, fun _ => ⟨rfl, by simp⟩⟩
  | cons c r =>
    rw [scan_exponent] at h
    split_ifs at h with hc
    · obtain ⟨sign, r', hopt⟩ : ∃ sign r', Parser.optional (fun c => c == 0x2b || c == minus) r =
          (sign, r') := ⟨_, _, rfl⟩
      simp only [hopt] at h
      split at h
      · next ds r'' hds =>
        obtain ⟨rfl, rfl⟩ := Prod.mk.inj (Except.ok.inj h)
        exact ⟨fun _ => (scan_digits_eq_ok hds).2.2, fun h => by simp at h⟩
      · simp at h
    · obtain ⟨rfl, rfl⟩ := Prod.mk.inj (Except.ok.inj h)
      exact ⟨fun h => absurd rfl h, fun _ => ⟨rfl, by simpa using hc⟩⟩

/-- What `parse_number` reads is a number that does not go on. -/
theorem complete_of_parse_number {v : LuaValue} (h : parse_number s = .ok (v, t)) :
    Complete s t := by
  obtain ⟨sign, r, hopt⟩ : ∃ sign r, Parser.optional (· == minus) s = (sign, r) := ⟨_, _, rfl⟩
  obtain ⟨rfl, hsign⟩ := optional_eq hopt
  simp only [parse_number, hopt] at h
  split at h
  · simp at h
  · next int r₁ hint =>
    split at h
    · simp at h
    · next frac r₂ hfrac =>
      split at h
      · simp at h
      · next exp r₃ hexp =>
        obtain ⟨rfl, rfl⟩ := Prod.mk.inj (Except.ok.inj h)
        obtain ⟨hdigits, rfl, hend⟩ := scan_digits_eq_ok hint
        obtain ⟨hfraction, hs⟩ := fraction_of_scan_fraction hfrac
        obtain ⟨hexponent, hs'⟩ := exponent_of_scan_exponent hexp
        obtain ⟨hfracend, hnofrac⟩ := scan_fraction_eq_ok hfrac
        obtain ⟨hexpend, hnoexp⟩ := scan_exponent_eq_ok hexp
        have hsign' : sign = [] ∨ sign = [minus] := by
          rcases hsign with rfl | ⟨d, hd, rfl⟩
          · exact .inl rfl
          · exact .inr (by rw [beq_iff_eq.1 hd])
        -- The last part that is there ends with a digit.
        have hnodigit : NoDigit r₃ := by
          by_cases he : exp = []
          · rw [← (hnoexp he).1]
            by_cases hf : frac = []
            · rw [← (hnofrac hf).1]
              exact hend
            · exact hfracend hf
          · exact hexpend he
        have hdot : frac = [] → exp = [] → ∀ c ∈ r₃.head?, c ≠ dot := by
          intro hf he
          rw [← (hnoexp he).1]
          exact (hnofrac hf).2
        have := Complete.number blank_nil hsign' hdigits hfraction hexponent hnodigit hdot
          fun he => (hnoexp he).2
        simpa [hs, hs'] using this

/-- A number does not continue a value that is not one. -/
theorem parse_value_of_value {w x : Bytes} {b : Bool} {v : LuaValue} (hw : Blank w)
    (hx : Value b v x) (hnumber : ∀ b v, ¬ Number b v x) {fuel : ℕ} (hfuel : x.length ≤ fuel) :
    parse_value fuel (w ++ x ++ t) = .ok (v, t) := by
  have hpos := length_pos_of_value hx
  obtain ⟨k, rfl⟩ : ∃ k, fuel = k + 1 := ⟨fuel - 1, by omega⟩
  rw [List.append_assoc, parse_value_blank hw]
  exact parse_value_of_parts hx (fun hy hlt => reads_of_value hy (by omega)) (.inr hnumber)

theorem Complete.blank {w : Bytes} (hw : Blank w) (h : Complete s t) : Complete (w ++ s) t := by
  cases h with
  | number hw' hsign hint hfrac hexp hend hnofrac hnoexp =>
    have := Complete.number (List.forall_mem_append.mpr ⟨hw, hw'⟩) hsign hint hfrac hexp hend
      hnofrac hnoexp
    simpa using this
  | value hw' hx hnumber =>
    have := Complete.value (t := t) (List.forall_mem_append.mpr ⟨hw, hw'⟩) hx hnumber
    simpa using this

/-- **The parser reads the complete values.** -/
theorem parse_value_eq_ok_iff {fuel : ℕ} (hfuel : s.length < fuel) :
    (∃ v, parse_value fuel s = .ok (v, t)) ↔ Complete s t := by
  constructor
  · rintro ⟨v, h⟩
    obtain ⟨w, b, x, hw, hx, rfl⟩ := value_of_parse_value fuel h
    -- Only of a number the text after it must be known.
    by_cases hnumber : ∃ b v, Number b v x
    · obtain ⟨b', v', hnumber⟩ := hnumber
      obtain ⟨k, rfl⟩ : ∃ k, fuel = k + 1 := ⟨fuel - 1, by omega⟩
      obtain ⟨c, r, rfl, hc⟩ := number_head hnumber
      rw [List.append_assoc, parse_value_blank hw, List.cons_append, parse_value_digit hc] at h
      rw [List.append_assoc]
      exact (complete_of_parse_number h).blank hw
    · exact .value hw hx fun b v h => hnumber ⟨b, v, h⟩
  · intro h
    cases h with
    | @number w sign int frac exp _ hw hsign hint hfrac hexp hend hnofrac hnoexp =>
      obtain ⟨k, rfl⟩ : ∃ k, fuel = k + 1 := ⟨fuel - 1, by omega⟩
      have hread := parse_number_ok hsign hint hfrac hexp hend hnofrac hnoexp
      obtain ⟨c, r, hx, hc⟩ := number_head (.mk hsign hint hfrac hexp)
      rw [hx, List.cons_append] at hread
      rw [hx, List.append_assoc, parse_value_blank hw, List.cons_append, parse_value_digit hc]
      exact ⟨_, hread⟩
    | value hw hx hnumber =>
      refine ⟨_, parse_value_of_value hw hx hnumber ?_⟩
      simp only [List.length_append] at hfuel
      omega

theorem Complete.length_lt (h : Complete s t) : t.length < s.length := by
  obtain ⟨v, hv⟩ := (parse_value_eq_ok_iff (Nat.lt_succ_self s.length)).mpr h
  obtain ⟨w, b, x, -, hx, rfl⟩ := value_of_parse_value _ hv
  obtain ⟨c, r, rfl, -⟩ := value_head hx
  simp only [List.length_append, List.length_cons]
  omega

/-- A string begins here, after white space, and `t` is left after it. -/
def KeyString (s t : Bytes) : Prop :=
  ∃ b k x, Chars b k x ∧ skip_whitespace s = quote :: (x ++ quote :: t)

theorem keyString_iff :
    KeyString s t ↔ ∃ r k, skip_whitespace s = quote :: r ∧ parse_string r = .ok (k, t) := by
  constructor
  · rintro ⟨b, k, x, hx, hs⟩
    exact ⟨_, k, hs, parse_string_of_chars hx t⟩
  · rintro ⟨r, k, hs, hr⟩
    obtain ⟨b, x, hx, rfl⟩ := chars_of_parse_string hr
    exact ⟨b, k, x, hx, hs⟩

theorem KeyString.length_lt (h : KeyString s t) : t.length < s.length := by
  obtain ⟨b, k, x, -, hs⟩ := h
  obtain ⟨w, -, hw⟩ := exists_blank s
  rw [hw, hs]
  simp only [List.length_append, List.length_cons]
  omega
theorem not_complete_nil : ¬ Complete [] t := fun h => absurd h.length_lt (Nat.not_lt_zero _)

theorem Complete.unique (h : Complete s t) (h' : Complete s r) : t = r := by
  obtain ⟨v, hv⟩ := (parse_value_eq_ok_iff (Nat.lt_succ_self s.length)).mpr h
  obtain ⟨v', hv'⟩ := (parse_value_eq_ok_iff (Nat.lt_succ_self s.length)).mpr h'
  exact congrArg Prod.snd (Except.ok.inj (hv.symm.trans hv'))

theorem KeyString.unique (h : KeyString s t) (h' : KeyString s r) : t = r := by
  obtain ⟨u, k, hs, hu⟩ := keyString_iff.mp h
  obtain ⟨u', k', hs', hu'⟩ := keyString_iff.mp h'
  obtain rfl := List.cons.inj (hs.symm.trans hs') |>.2
  exact congrArg Prod.snd (Except.ok.inj (hu.symm.trans hu'))

theorem KeyString.unique_colon {t' r' : Bytes} (hkey : KeyString s t)
    (hcolon : skip_whitespace t = colon :: r) (hkey' : KeyString s t')
    (hcolon' : skip_whitespace t' = colon :: r') : r = r' := by
  obtain rfl := hkey.unique hkey'
  exact (List.cons.inj (hcolon.symm.trans hcolon')).2

theorem length_lt_of_skip {c : UInt8} (h : skip_whitespace t = c :: r) : r.length < t.length := by
  obtain ⟨w, -, hw⟩ := exists_blank t
  rw [hw, h, List.length_append, List.length_cons]
  omega

end Complete

/-! ### Places in the text -/

/-- What is read next: a value, the elements of an array from here on, or the members of an
object. -/
inductive Place where
  | value
  | elements
  | members

/-- From here on there is a place where a value is read with `n` more slots taken: by the arrays and
objects that are open there, and the keys. -/
inductive Opens : Place → ℕ → Bytes → Prop where
  | here {s : Bytes} : Opens .value 0 s
  | array {n : ℕ} {s r r' : Bytes} {d : UInt8} : skip_whitespace s = lbracket :: r →
      skip_whitespace r = d :: r' → d ≠ rbracket → Opens .elements n (d :: r') →
      Opens .value (n + 1) s
  | object {n : ℕ} {s r r' : Bytes} {d : UInt8} : skip_whitespace s = lbrace :: r →
      skip_whitespace r = d :: r' → d ≠ rbrace → Opens .members n (d :: r') →
      Opens .value (n + 1) s
  | element {n : ℕ} {s : Bytes} : Opens .value n s → Opens .elements n s
  | next_element {n : ℕ} {s t r : Bytes} : Complete s t → skip_whitespace t = comma :: r →
      Opens .elements n r → Opens .elements n s
  | member {n : ℕ} {s t r : Bytes} : KeyString s t → skip_whitespace t = colon :: r →
      Opens .value n r → Opens .members (n + 1) s
  | next_member {n : ℕ} {s t r u r' : Bytes} : KeyString s t → skip_whitespace t = colon :: r →
      Complete r u → skip_whitespace u = comma :: r' → Opens .members n r' → Opens .members n s

/-- The text stops being JSON, with `n` slots taken by the arrays and objects that are open there,
and the key whose value is not complete. -/
inductive Stops : Place → ℕ → Bytes → Prop where
  | token {s : Bytes} : (∀ c ∈ (skip_whitespace s).head?, c ≠ lbracket ∧ c ≠ lbrace) →
      (∀ t, ¬ Complete s t) → Stops .value 0 s
  | array_end {s r : Bytes} : skip_whitespace s = lbracket :: r → skip_whitespace r = [] →
      Stops .value 1 s
  | array {n : ℕ} {s r r' : Bytes} {d : UInt8} : skip_whitespace s = lbracket :: r →
      skip_whitespace r = d :: r' → d ≠ rbracket → Stops .elements n (d :: r') →
      Stops .value (n + 1) s
  | object_end {s r : Bytes} : skip_whitespace s = lbrace :: r → skip_whitespace r = [] →
      Stops .value 1 s
  | object {n : ℕ} {s r r' : Bytes} {d : UInt8} : skip_whitespace s = lbrace :: r →
      skip_whitespace r = d :: r' → d ≠ rbrace → Stops .members n (d :: r') →
      Stops .value (n + 1) s
  | element {n : ℕ} {s : Bytes} : Stops .value n s → Stops .elements n s
  | separator {s t : Bytes} : Complete s t →
      (∀ c ∈ (skip_whitespace t).head?, c ≠ rbracket ∧ c ≠ comma) → Stops .elements 0 s
  | next_element {n : ℕ} {s t r : Bytes} : Complete s t → skip_whitespace t = comma :: r →
      Stops .elements n r → Stops .elements n s
  | no_key {s : Bytes} : (∀ t, ¬ KeyString s t) → Stops .members 0 s
  | no_colon {s t : Bytes} : KeyString s t → (∀ c ∈ (skip_whitespace t).head?, c ≠ colon) →
      Stops .members 1 s
  | member {n : ℕ} {s t r : Bytes} : KeyString s t → skip_whitespace t = colon :: r →
      Stops .value n r → Stops .members (n + 1) s
  | member_separator {s t r u : Bytes} : KeyString s t → skip_whitespace t = colon :: r →
      Complete r u → (∀ c ∈ (skip_whitespace u).head?, c ≠ rbrace ∧ c ≠ comma) →
      Stops .members 0 s
  | next_member {n : ℕ} {s t r u r' : Bytes} : KeyString s t →
      skip_whitespace t = colon :: r → Complete r u → skip_whitespace u = comma :: r' →
      Stops .members n r' → Stops .members n s
section Places

variable {s t r : Bytes} {n : ℕ}

theorem opens_nil {n : ℕ} (h : Opens .elements n []) : n = 0 := by
  cases h with
  | element h =>
    cases h with
    | here => rfl
    | array hs => cases hs
    | object hs => cases hs
  | next_element h => exact absurd h not_complete_nil

theorem stops_nil {n : ℕ} (h : Stops .elements n []) : n = 0 := by
  cases h with
  | element h =>
    cases h with
    | token => rfl
    | array_end hs => cases hs
    | array hs => cases hs
    | object_end hs => cases hs
    | object hs => cases hs
  | separator => rfl
  | next_element h => exact absurd h not_complete_nil

/-- After a complete element the array goes on with a comma. -/
theorem opens_elements_iff (ht : Complete s t) : Opens .elements n s ↔
    Opens .value n s ∨ ∃ r, skip_whitespace t = comma :: r ∧ Opens .elements n r := by
  constructor
  · intro h
    cases h with
    | element h => exact .inl h
    | next_element hc hcomma h =>
      obtain rfl := hc.unique ht
      exact .inr ⟨_, hcomma, h⟩
  · rintro (h | ⟨r, hcomma, h⟩)
    · exact .element h
    · exact .next_element ht hcomma h

theorem stops_elements_iff (ht : Complete s t) (hvalue : ¬ Stops .value n s) :
    Stops .elements n s ↔
      (n = 0 ∧ ∀ c ∈ (skip_whitespace t).head?, c ≠ rbracket ∧ c ≠ comma) ∨
        ∃ r, skip_whitespace t = comma :: r ∧ Stops .elements n r := by
  constructor
  · intro h
    cases h with
    | element h => exact absurd h hvalue
    | separator hc hsep =>
      obtain rfl := hc.unique ht
      exact .inl ⟨rfl, hsep⟩
    | next_element hc hcomma h =>
      obtain rfl := hc.unique ht
      exact .inr ⟨_, hcomma, h⟩
  · rintro (⟨rfl, hsep⟩ | ⟨r, hcomma, h⟩)
    · exact .separator ht hsep
    · exact .next_element ht hcomma h

/-- After a key its value is read, and then the object goes on with a comma. -/
theorem opens_members_iff (hkey : KeyString s t) (hcolon : skip_whitespace t = colon :: r) :
    Opens .members n s ↔ (∃ m, n = m + 1 ∧ Opens .value m r) ∨
      ∃ u, Complete r u ∧ ∃ r', skip_whitespace u = comma :: r' ∧ Opens .members n r' := by
  constructor
  · intro h
    cases h with
    | member hkey' hcolon' h =>
      obtain rfl := hkey.unique_colon hcolon hkey' hcolon'
      exact .inl ⟨_, rfl, h⟩
    | next_member hkey' hcolon' hc hcomma h =>
      obtain rfl := hkey.unique_colon hcolon hkey' hcolon'
      exact .inr ⟨_, hc, _, hcomma, h⟩
  · rintro (⟨m, rfl, h⟩ | ⟨u, hc, r', hcomma, h⟩)
    · exact .member hkey hcolon h
    · exact .next_member hkey hcolon hc hcomma h

theorem stops_members_iff (hkey : KeyString s t) (hcolon : skip_whitespace t = colon :: r) :
    Stops .members n s ↔ (∃ m, n = m + 1 ∧ Stops .value m r) ∨
      ∃ u, Complete r u ∧
        ((n = 0 ∧ ∀ c ∈ (skip_whitespace u).head?, c ≠ rbrace ∧ c ≠ comma) ∨
          ∃ r', skip_whitespace u = comma :: r' ∧ Stops .members n r') := by
  constructor
  · intro h
    cases h with
    | no_key hnone => exact absurd hkey (hnone t)
    | no_colon hkey' hnone =>
      obtain rfl := hkey.unique hkey'
      exact absurd rfl (hnone colon (by rw [hcolon]; rfl))
    | member hkey' hcolon' h =>
      obtain rfl := hkey.unique_colon hcolon hkey' hcolon'
      exact .inl ⟨_, rfl, h⟩
    | member_separator hkey' hcolon' hc hsep =>
      obtain rfl := hkey.unique_colon hcolon hkey' hcolon'
      exact .inr ⟨_, hc, .inl ⟨rfl, hsep⟩⟩
    | next_member hkey' hcolon' hc hcomma h =>
      obtain rfl := hkey.unique_colon hcolon hkey' hcolon'
      exact .inr ⟨_, hc, .inr ⟨_, hcomma, h⟩⟩
  · rintro (⟨m, rfl, h⟩ | ⟨u, hc, ⟨rfl, hsep⟩ | ⟨r', hcomma, h⟩⟩)
    · exact .member hkey hcolon h
    · exact .member_separator hkey hcolon hc hsep
    · exact .next_member hkey hcolon hc hcomma h

theorem opens_bracket_iff (hs : skip_whitespace s = lbracket :: r) : Opens .value n s ↔
    n = 0 ∨ ∃ m d r', n = m + 1 ∧ skip_whitespace r = d :: r' ∧ d ≠ rbracket ∧
      Opens .elements m (d :: r') := by
  constructor
  · intro h
    cases h with
    | here => exact .inl rfl
    | array hs' hr hd h =>
      obtain rfl := (List.cons.inj (hs'.symm.trans hs)).2
      exact .inr ⟨_, _, _, rfl, hr, hd, h⟩
    | object hs' => cases (List.cons.inj (hs'.symm.trans hs)).1
  · rintro (rfl | ⟨m, d, r', rfl, hr, hd, h⟩)
    · exact .here
    · exact .array hs hr hd h

theorem stops_bracket_iff (hs : skip_whitespace s = lbracket :: r) : Stops .value n s ↔
    (n = 1 ∧ skip_whitespace r = []) ∨ ∃ m d r', n = m + 1 ∧ skip_whitespace r = d :: r' ∧
      d ≠ rbracket ∧ Stops .elements m (d :: r') := by
  constructor
  · intro h
    cases h with
    | token hhead => exact absurd rfl (hhead lbracket (by rw [hs]; rfl)).1
    | array_end hs' hr =>
      obtain rfl := (List.cons.inj (hs'.symm.trans hs)).2
      exact .inl ⟨rfl, hr⟩
    | array hs' hr hd h =>
      obtain rfl := (List.cons.inj (hs'.symm.trans hs)).2
      exact .inr ⟨_, _, _, rfl, hr, hd, h⟩
    | object_end hs' => cases (List.cons.inj (hs'.symm.trans hs)).1
    | object hs' => cases (List.cons.inj (hs'.symm.trans hs)).1
  · rintro (⟨rfl, hr⟩ | ⟨m, d, r', rfl, hr, hd, h⟩)
    · exact .array_end hs hr
    · exact .array hs hr hd h

theorem opens_brace_iff (hs : skip_whitespace s = lbrace :: r) : Opens .value n s ↔
    n = 0 ∨ ∃ m d r', n = m + 1 ∧ skip_whitespace r = d :: r' ∧ d ≠ rbrace ∧
      Opens .members m (d :: r') := by
  constructor
  · intro h
    cases h with
    | here => exact .inl rfl
    | array hs' => cases (List.cons.inj (hs'.symm.trans hs)).1
    | object hs' hr hd h =>
      obtain rfl := (List.cons.inj (hs'.symm.trans hs)).2
      exact .inr ⟨_, _, _, rfl, hr, hd, h⟩
  · rintro (rfl | ⟨m, d, r', rfl, hr, hd, h⟩)
    · exact .here
    · exact .object hs hr hd h

theorem stops_brace_iff (hs : skip_whitespace s = lbrace :: r) : Stops .value n s ↔
    (n = 1 ∧ skip_whitespace r = []) ∨ ∃ m d r', n = m + 1 ∧ skip_whitespace r = d :: r' ∧
      d ≠ rbrace ∧ Stops .members m (d :: r') := by
  constructor
  · intro h
    cases h with
    | token hhead => exact absurd rfl (hhead lbrace (by rw [hs]; rfl)).2
    | array_end hs' => cases (List.cons.inj (hs'.symm.trans hs)).1
    | array hs' => cases (List.cons.inj (hs'.symm.trans hs)).1
    | object_end hs' hr =>
      obtain rfl := (List.cons.inj (hs'.symm.trans hs)).2
      exact .inl ⟨rfl, hr⟩
    | object hs' hr hd h =>
      obtain rfl := (List.cons.inj (hs'.symm.trans hs)).2
      exact .inr ⟨_, _, _, rfl, hr, hd, h⟩
  · rintro (⟨rfl, hr⟩ | ⟨m, d, r', rfl, hr, hd, h⟩)
    · exact .object_end hs hr
    · exact .object hs hr hd h

end Places

end LuaJson

end Jaci
