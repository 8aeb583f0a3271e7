import Jaci.Json.Text
import Mathlib.Tactic.IntervalCases

/-!
# Round trip of JSON text

What `Value.serialize` prints, `parse` reads back.  The statement about one value is made for a
parser in front of the printed value, with white space before it (the printer puts a space after
a separator when `pretty` is set) and anything after it that does not continue a number: this is
what the loops over containers need, and what their separators and brackets give.

* `parseString_escapeString` : every byte string survives escaping.
* `parseNumber_decimalInt` : every 64-bit integer survives `to_string` and `strtoll`.
* `parseValue_serialize` : one value, in any context.
* `parse_serialize` : the whole text.
-/

namespace Jaci

namespace Json

open Wire

namespace Parser

variable {p : Parser} {rest : Bytes}

@[simp] theorem moveTo_rest (p : Parser) (r : Bytes) : (p.moveTo r).rest = r := rfl

@[simp] theorem moveTo_moveTo (p : Parser) (r r' : Bytes) :
    (p.moveTo r).moveTo r' = p.moveTo r' := rfl

def Blank (ws : Bytes) : Prop := ∀ c ∈ ws, isSpace c = true

theorem blank_nil : Blank [] := by simp [Blank]

theorem skipWhitespace_blank {ws : Bytes} (hw : Blank ws) {c : UInt8} (hc : isSpace c = false)
    (r : Bytes) : (p.moveTo (ws ++ c :: r)).skipWhitespace = p.moveTo (c :: r) := by
  unfold skipWhitespace
  rw [moveTo_rest, List.dropWhile_append_of_pos hw, List.dropWhile_cons_of_neg (by simp [hc])]
  rfl

theorem skipWhitespace_cons {c : UInt8} (hc : isSpace c = false) (r : Bytes) :
    (p.moveTo (c :: r)).skipWhitespace = p.moveTo (c :: r) :=
  skipWhitespace_blank blank_nil hc r

theorem matchChar_blank {ws : Bytes} (hw : Blank ws) {c : UInt8} (hc : isSpace c = false)
    (r : Bytes) : (p.moveTo (ws ++ c :: r)).matchChar c = (true, p.moveTo r) := by
  unfold matchChar
  rw [skipWhitespace_blank hw hc]
  simp

theorem matchChar_cons {c : UInt8} (hc : isSpace c = false) (r : Bytes) :
    (p.moveTo (c :: r)).matchChar c = (true, p.moveTo r) :=
  matchChar_blank blank_nil hc r

theorem matchChar_ne {c d : UInt8} (hc : isSpace c = false) (h : c ≠ d) (r : Bytes) :
    (p.moveTo (c :: r)).matchChar d = (false, p.moveTo (c :: r)) := by
  unfold matchChar
  rw [skipWhitespace_cons hc]
  simp [h]

/-! ### Strings -/

theorem parseStringLoop_control {c : UInt8} (hc : c < 0x20) (r acc : Bytes)
    (h : escapeChar c =
      [backslash, 0x75, 0x30, 0x30, hexDigit (c.toNat / 16), hexDigit (c.toNat % 16)]) :
    parseStringLoop p (escapeChar c ++ r) acc = parseStringLoop p r (acc ++ [c]) := by
  rw [h]
  have hk : c.toNat < 32 := hc
  obtain ⟨k, hk', rfl⟩ : ∃ k < 32, c = UInt8.ofNat k := ⟨c.toNat, hk, by simp⟩
  clear hc hk h
  rw [parseStringLoop.eq_def]
  interval_cases k <;> rfl

/-- One escaped character is read back as the character. -/
theorem parseStringLoop_escapeChar (c : UInt8) (r acc : Bytes) :
    parseStringLoop p (escapeChar c ++ r) acc = parseStringLoop p r (acc ++ [c]) := by
  by_cases h1 : c = quote
  · subst h1; rw [parseStringLoop.eq_def]; rfl
  by_cases h2 : c = backslash
  · subst h2; rw [parseStringLoop.eq_def]; rfl
  by_cases h3 : c = 0x08
  · subst h3; rw [parseStringLoop.eq_def]; rfl
  by_cases h4 : c = 0x0c
  · subst h4; rw [parseStringLoop.eq_def]; rfl
  by_cases h5 : c = 0x0a
  · subst h5; rw [parseStringLoop.eq_def]; rfl
  by_cases h6 : c = 0x0d
  · subst h6; rw [parseStringLoop.eq_def]; rfl
  by_cases h7 : c = 0x09
  · subst h7; rw [parseStringLoop.eq_def]; rfl
  by_cases h8 : c < 0x20
  · exact parseStringLoop_control h8 r acc (by simp [escapeChar, h1, h2, h3, h4, h5, h6, h7, h8])
  · have : escapeChar c = [c] := by simp [escapeChar, h1, h2, h3, h4, h5, h6, h7, h8]
    rw [this, List.singleton_append, parseStringLoop.eq_def]
    simp only [h1, h2, ↓reduceIte]

theorem parseStringLoop_flatMap (s r acc : Bytes) :
    parseStringLoop p (s.flatMap escapeChar ++ quote :: r) acc = (some (acc ++ s), p.moveTo r) := by
  induction s generalizing acc with
  | nil =>
    rw [parseStringLoop.eq_def]
    simp
  | cons c s ih =>
    rw [List.flatMap_cons, List.append_assoc, parseStringLoop_escapeChar, ih]
    simp

/-- Every byte string survives escaping. -/
theorem parseString_escapeString {ws : Bytes} (hw : Blank ws) (s r : Bytes) :
    (p.moveTo (ws ++ escapeString s ++ r)).parseString = (some s, p.moveTo r) := by
  have hs : ws ++ escapeString s ++ r = ws ++ quote :: (s.flatMap escapeChar ++ quote :: r) := by
    simp [escapeString]
  unfold parseString
  rw [hs, matchChar_blank hw rfl]
  simp only [moveTo_rest, parseStringLoop_flatMap, List.nil_append, moveTo_moveTo]

/-! ### Numbers -/

/-- What follows a value does not continue a number. -/
def Follow (rest : Bytes) : Prop :=
  ∀ c ∈ rest.head?, isDigit c = false ∧ c ≠ dot ∧ c ≠ 0x65 ∧ c ≠ 0x45

theorem Follow.noDigit (h : Follow rest) : NoDigit rest := fun c hc => (h c hc).1

theorem scanFraction_follow (h : Follow rest) : scanFraction rest = ([], rest) := by
  cases rest with
  | nil => rfl
  | cons c r => simp [scanFraction, (h c (by simp)).2.1]

theorem scanExponent_follow (h : Follow rest) : scanExponent rest = ([], rest) := by
  cases rest with
  | nil => rfl
  | cons c r => simp [scanExponent, (h c (by simp)).2.2]

theorem isDigit_ne {c : UInt8} (h : isDigit c = true) :
    isSpace c = false ∧ c ≠ minus ∧ c ≠ 0x2b ∧ (c == 0x20 || (0x09 ≤ c && c ≤ 0x0d)) = false := by
  simp only [isDigit, Bool.and_eq_true, decide_eq_true_eq, UInt8.le_iff_toNat_le] at h
  obtain ⟨k, hk, rfl⟩ : ∃ k, (48 ≤ k ∧ k ≤ 57) ∧ c = UInt8.ofNat k := ⟨c.toNat, h, by simp⟩
  obtain ⟨h0, h1⟩ := hk
  clear h
  interval_cases k <;> decide

theorem strtoll_decimalInt (n : Int64) : strtoll (decimalInt n.toInt) = n := by
  have h0 := n.le_toInt
  have h1 := n.toInt_lt
  obtain ⟨c, cs, hc, hd⟩ := decimal_eq_cons n.toInt.natAbs
  have htake := takeWhile_decimal (n := n.toInt.natAbs) (show NoDigit [] by simp [NoDigit])
  rw [List.append_nil] at htake
  unfold decimalInt
  split_ifs with hneg
  · have hv : max (-2 ^ 63) (min (2 ^ 63 - 1) (-1 * (n.toInt.natAbs : ℤ))) = n.toInt := by omega
    simp only [strtoll, List.dropWhile_cons, show (minus == 0x20 || (0x09 ≤ minus && minus ≤ 0x0d)) =
      false from rfl, Bool.false_eq_true, ↓reduceIte, htake, digitsVal_decimal, hv,
      Int64.ofInt_toInt]
  · obtain ⟨-, hm, hp, hs⟩ := isDigit_ne hd
    have hv : max (-2 ^ 63) (min (2 ^ 63 - 1) (1 * (n.toInt.natAbs : ℤ))) = n.toInt := by omega
    rw [hc] at htake ⊢
    simp only [strtoll, List.dropWhile_cons, hs, Bool.false_eq_true, ↓reduceIte, hm, hp, htake]
    rw [← hc, digitsVal_decimal, hv, Int64.ofInt_toInt]

/-- The sign of a printed integer, and its digits. -/
theorem optional_decimalInt (n : ℤ) (r : Bytes) :
    ∃ sign, optional (· == minus) (decimalInt n ++ r) = (sign, decimal n.natAbs ++ r) ∧
      sign ++ decimal n.natAbs = decimalInt n := by
  unfold decimalInt
  split_ifs with h
  · exact ⟨[minus], by simp [optional], rfl⟩
  · obtain ⟨c, cs, hc, hd⟩ := decimal_eq_cons n.natAbs
    exact ⟨[], by simp [hc, optional, (isDigit_ne hd).2.1], rfl⟩

theorem decimalInt_eq_cons (n : ℤ) :
    ∃ c cs, decimalInt n = c :: cs ∧ (c = minus ∨ isDigit c = true) := by
  unfold decimalInt
  split_ifs with h
  · exact ⟨_, _, rfl, .inl rfl⟩
  · obtain ⟨c, cs, hc, hd⟩ := decimal_eq_cons n.natAbs
    exact ⟨c, cs, hc, .inr hd⟩

theorem isSpace_of_number {c : UInt8} (h : c = minus ∨ isDigit c = true) : isSpace c = false := by
  rcases h with rfl | h
  · rfl
  · exact (isDigit_ne h).1

/-- Every 64-bit integer survives printing and reading. -/
theorem parseNumber_decimalInt (lib : CLib) (n : Int64) (hr : Follow rest) :
    (p.moveTo (decimalInt n.toInt ++ rest)).parseNumber lib =
      (some (.integer n), p.moveTo rest) := by
  obtain ⟨c, cs, hc, hk⟩ := decimalInt_eq_cons n.toInt
  obtain ⟨sign, hopt, hsign⟩ := optional_decimalInt n.toInt rest
  have hskip : (p.moveTo (decimalInt n.toInt ++ rest)).skipWhitespace =
      p.moveTo (decimalInt n.toInt ++ rest) := by
    rw [hc]
    exact skipWhitespace_cons (isSpace_of_number hk) _
  unfold parseNumber
  simp only [hskip, moveTo_rest, hopt, takeWhile_decimal hr.noDigit, dropWhile_decimal hr.noDigit,
    decimal_ne_nil, scanFraction_follow hr, scanExponent_follow hr, List.append_nil, hsign,
    strtoll_decimalInt, and_self, ↓reduceIte, moveTo_moveTo]

/-! ### Containers -/

variable {lib : CLib} {pretty : Bool}

/-- The first character of a printed value: no white space, and no closing bracket. -/
def Starts (c : UInt8) : Prop := isSpace c = false ∧ c ≠ rbracket ∧ c ≠ rbrace

instance (c : UInt8) : Decidable (Starts c) := inferInstanceAs (Decidable (_ ∧ _ ∧ _))

theorem starts_of_number {c : UInt8} (h : c = minus ∨ isDigit c = true) : Starts c := by
  refine ⟨isSpace_of_number h, ?_, ?_⟩ <;> rintro rfl <;> revert h <;> decide

theorem serialize_eq_cons (lib : CLib) (pretty : Bool) {v : Value} (hv : v.IntegerOnly) :
    ∃ c cs, v.serialize lib pretty = c :: cs ∧ Starts c := by
  cases hv with
  | null => exact ⟨_, _, rfl, by decide⟩
  | @boolean b => cases b <;> exact ⟨_, _, rfl, by decide⟩
  | @integer n =>
    obtain ⟨c, cs, hc, hk⟩ := decimalInt_eq_cons n.toInt
    exact ⟨c, cs, hc, starts_of_number hk⟩
  | double h => exact h.elim
  | string => exact ⟨_, _, rfl, by decide⟩
  | array => exact ⟨_, _, rfl, by decide⟩
  | object => exact ⟨_, _, rfl, by decide⟩

theorem length_serialize_pos (lib : CLib) (pretty : Bool) {v : Value} (hv : v.IntegerOnly) :
    0 < (v.serialize lib pretty).length := by
  obtain ⟨c, cs, hc, -⟩ := serialize_eq_cons lib pretty hv
  simp [hc]

theorem follow_cons {c : UInt8} {r : Bytes}
    (h : c = comma ∨ c = rbracket ∨ c = rbrace) : Follow (c :: r) := by
  intro d hd
  simp only [List.head?_cons, Option.mem_some_iff] at hd
  subst hd
  rcases h with rfl | rfl | rfl <;> decide

/-- The separator between members is a comma and white space. -/
theorem itemSeparator_eq (pretty : Bool) : ∃ ws, Blank ws ∧ itemSeparator pretty = comma :: ws := by
  cases pretty
  · exact ⟨[], by simp [Blank], rfl⟩
  · exact ⟨[0x20], by simp [Blank, isSpace], rfl⟩

/-- The separator between a key and its value is a colon and white space. -/
theorem keySeparator_eq (pretty : Bool) : ∃ ws, Blank ws ∧ keySeparator pretty = colon :: ws := by
  cases pretty
  · exact ⟨[], by simp [Blank], rfl⟩
  · exact ⟨[0x20], by simp [Blank, isSpace], rfl⟩

/-- `value` reads back the printed `v`, in every context. -/
def Reads (lib : CLib) (pretty : Bool) (p : Parser) (value : Parser → Option Value × Parser)
    (v : Value) : Prop :=
  ∀ ws rest, Blank ws → Follow rest →
    value (p.moveTo (ws ++ v.serialize lib pretty ++ rest)) = (some v, p.moveTo rest)

variable {value : Parser → Option Value × Parser}

theorem parseArray_serializeItems {xs : List Value} (hne : xs ≠ [])
    (h : ∀ v ∈ xs, Reads lib pretty p value v) {turns : ℕ} (ht : xs.length ≤ turns)
    {ws : Bytes} (hw : Blank ws) (arr : List Value) (r : Bytes) :
    parseArray value turns arr
        (p.moveTo (ws ++ serializeItems lib pretty xs ++ rbracket :: r)) =
      (some (.array (arr ++ xs)), p.moveTo r) := by
  induction xs generalizing turns ws arr with
  | nil => exact absurd rfl hne
  | cons v vs ih =>
    obtain ⟨turns, rfl⟩ : ∃ k, turns = k + 1 := ⟨turns - 1, by simp at ht; omega⟩
    have hv := h v List.mem_cons_self
    cases vs with
    | nil =>
      rw [parseArray, serializeItems, hv ws _ hw (follow_cons (by simp))]
      simp only [skipWhitespace_cons (show isSpace rbracket = false from rfl),
        matchChar_cons (show isSpace rbracket = false from rfl)]
    | cons w vs =>
      obtain ⟨ws', hw', hsep⟩ := itemSeparator_eq pretty
      have hrest := ih (by simp) (fun u hu => h u (List.mem_cons_of_mem _ hu))
        (show (w :: vs).length ≤ turns by simpa using ht) hw' (arr ++ [v])
      have e : ws ++ serializeItems lib pretty (v :: w :: vs) ++ rbracket :: r =
          ws ++ v.serialize lib pretty ++
            comma :: (ws' ++ serializeItems lib pretty (w :: vs) ++ rbracket :: r) := by
        simp [serializeItems, hsep]
      rw [parseArray, e, hv ws _ hw (follow_cons (by simp))]
      simp only [skipWhitespace_cons (show isSpace comma = false from rfl),
        matchChar_ne (show isSpace comma = false from rfl) (show comma ≠ rbracket by decide),
        matchChar_cons (show isSpace comma = false from rfl), hrest]
      simp

/-- One turn of the object loop, up to the value. -/
theorem parseObject_key {ws : Bytes} (hw : Blank ws) (k : Bytes) (v : Value)
    (hv : Reads lib pretty p value v) {r : Bytes} (hr : Follow r) (turns : ℕ)
    (obj : List (Bytes × Value)) :
    parseObject value (turns + 1) obj
        (p.moveTo (ws ++ escapeString k ++ keySeparator pretty ++ v.serialize lib pretty ++ r)) =
      match (p.moveTo r).skipWhitespace.matchChar rbrace with
      | (true, p) => (some (.object (obj ++ [(k, v)])), p)
      | (false, p) =>
        match p.matchChar comma with
        | (true, p) => parseObject value turns (obj ++ [(k, v)]) p
        | (false, p) => (none, p.setError "Expected ',' or '\x7d' in object") := by
  obtain ⟨ws', hw', hsep⟩ := keySeparator_eq pretty
  have hstr : ∀ r, (p.moveTo (ws ++ escapeString k ++ r)).skipWhitespace.parseString =
      (some k, p.moveTo r) := by
    intro r
    have e : ws ++ escapeString k ++ r = ws ++ quote :: (k.flatMap escapeChar ++ quote :: r) := by
      simp [escapeString]
    rw [e, skipWhitespace_blank hw rfl]
    have := parseString_escapeString (p := p) blank_nil k r
    simpa [escapeString] using this
  rw [parseObject, List.append_assoc _ _ r, List.append_assoc _ _ (_ ++ r), hstr, hsep]
  simp only [List.cons_append, skipWhitespace_cons (show isSpace colon = false from rfl),
    matchChar_cons (show isSpace colon = false from rfl)]
  rw [← List.append_assoc]
  simp only [hv ws' r hw' hr]
  all_goals rfl

theorem parseObject_serializePairs {kvs : List (Bytes × Value)} (hne : kvs ≠ [])
    (h : ∀ kv ∈ kvs, Reads lib pretty p value kv.2) {turns : ℕ} (ht : kvs.length ≤ turns)
    {ws : Bytes} (hw : Blank ws) (obj : List (Bytes × Value)) (r : Bytes) :
    parseObject value turns obj
        (p.moveTo (ws ++ serializePairs lib pretty kvs ++ rbrace :: r)) =
      (some (.object (obj ++ kvs)), p.moveTo r) := by
  induction kvs generalizing turns ws obj with
  | nil => exact absurd rfl hne
  | cons kv kvs ih =>
    obtain ⟨turns, rfl⟩ : ∃ k, turns = k + 1 := ⟨turns - 1, by simp at ht; omega⟩
    obtain ⟨k, v⟩ := kv
    have hv := h (k, v) List.mem_cons_self
    cases kvs with
    | nil =>
      have := parseObject_key hw k v hv (follow_cons (c := rbrace) (r := r) (by simp)) turns obj
      rw [serializePairs, ← List.append_assoc, ← List.append_assoc, this]
      simp only [skipWhitespace_cons (show isSpace rbrace = false from rfl),
        matchChar_cons (show isSpace rbrace = false from rfl)]
    | cons q kvs =>
      obtain ⟨ws', hw', hsep⟩ := itemSeparator_eq pretty
      have hrest := ih (by simp) (fun u hu => h u (List.mem_cons_of_mem _ hu))
        (show (q :: kvs).length ≤ turns by simpa using ht) hw' (obj ++ [(k, v)])
      have e : ws ++ serializePairs lib pretty ((k, v) :: q :: kvs) ++ rbrace :: r =
          ws ++ escapeString k ++ keySeparator pretty ++ v.serialize lib pretty ++
            comma :: (ws' ++ serializePairs lib pretty (q :: kvs) ++ rbrace :: r) := by
        simp [serializePairs, hsep]
      rw [e, parseObject_key hw k v hv (follow_cons (by simp)) turns obj]
      simp only [skipWhitespace_cons (show isSpace comma = false from rfl),
        matchChar_ne (show isSpace comma = false from rfl) (show comma ≠ rbrace by decide),
        matchChar_cons (show isSpace comma = false from rfl), hrest]
      simp

theorem length_le_serializeItems (lib : CLib) (pretty : Bool) {xs : List Value} (h : ∀ v ∈ xs, v.IntegerOnly) :
    xs.length ≤ (serializeItems lib pretty xs).length ∧
      ∀ v ∈ xs, (v.serialize lib pretty).length ≤ (serializeItems lib pretty xs).length := by
  induction xs with
  | nil => simp
  | cons v vs ih =>
    have hv := length_serialize_pos lib pretty (h v List.mem_cons_self)
    obtain ⟨h1, h2⟩ := ih fun u hu => h u (List.mem_cons_of_mem _ hu)
    cases vs with
    | nil => exact ⟨by rw [serializeItems]; exact hv, by simp [serializeItems]⟩
    | cons w vs =>
      rw [serializeItems]
      simp only [List.length_append] at h1 ⊢
      refine ⟨by simp only [List.length_cons] at h1 ⊢; omega, fun u hu => ?_⟩
      rcases List.mem_cons.1 hu with rfl | hu
      · omega
      · have := h2 u hu
        omega

theorem length_le_serializePairs (lib : CLib) (pretty : Bool) (kvs : List (Bytes × Value)) :
    kvs.length ≤ (serializePairs lib pretty kvs).length ∧
      ∀ kv ∈ kvs, (kv.2.serialize lib pretty).length ≤ (serializePairs lib pretty kvs).length := by
  induction kvs with
  | nil => simp
  | cons kv kvs ih =>
    obtain ⟨k, v⟩ := kv
    obtain ⟨h1, h2⟩ := ih
    have hk : 0 < (escapeString k).length := by simp [escapeString]
    cases kvs with
    | nil => simp [serializePairs]; omega
    | cons q kvs =>
      rw [serializePairs]
      simp only [List.length_append] at h1 ⊢
      refine ⟨by simp only [List.length_cons] at h1 ⊢; omega, fun u hu => ?_⟩
      rcases List.mem_cons.1 hu with rfl | hu
      · dsimp only
        omega
      · have := h2 u hu
        omega

theorem parseWord_self (p : Parser) (word r : Bytes) (v : Value) :
    (p.moveTo (word ++ r)).parseWord word v = (some v, p.moveTo r) := by
  simp [parseWord]

/-- The branch that `parseValue` takes is decided by the first character after white space. -/
theorem parseValue_front {ws : Bytes} (hw : Blank ws) {c : UInt8} (hc : isSpace c = false)
    (fuel : ℕ) (r : Bytes) :
    parseValue lib (fuel + 1) (p.moveTo (ws ++ c :: r)) =
      parseValue lib (fuel + 1) (p.moveTo (c :: r)) := by
  rw [parseValue, parseValue, skipWhitespace_blank hw hc, skipWhitespace_cons hc]

theorem parseValue_word {word : Bytes} {v : Value} (fuel : ℕ) (r : Bytes)
    (h : (word = nullText ∧ v = .null) ∨ (word = trueText ∧ v = .boolean true) ∨
      (word = falseText ∧ v = .boolean false)) :
    parseValue lib (fuel + 1) (p.moveTo (word ++ r)) = (some v, p.moveTo r) := by
  rw [← parseWord_self p word r v]
  rcases h with ⟨rfl, rfl⟩ | ⟨rfl, rfl⟩ | ⟨rfl, rfl⟩ <;> rfl

theorem parseValue_integer (n : Int64) (fuel : ℕ) (hr : Follow rest) :
    parseValue lib (fuel + 1) (p.moveTo (decimalInt n.toInt ++ rest)) =
      (some (.integer n), p.moveTo rest) := by
  obtain ⟨c, cs, hc, hk⟩ := decimalInt_eq_cons n.toInt
  have hne : c ≠ 0x6e ∧ c ≠ 0x74 ∧ c ≠ 0x66 ∧ c ≠ quote := by
    refine ⟨?_, ?_, ?_, ?_⟩ <;> rintro rfl <;> revert hk <;> decide
  rw [← parseNumber_decimalInt (p := p) lib n hr, hc, parseValue]
  simp only [List.cons_append, skipWhitespace_cons (isSpace_of_number hk), moveTo_rest, hne, hk,
    ↓reduceIte]

/-- The value of a string. -/
def stringValue : Option Bytes × Parser → Option Value × Parser
  | (some s, p) => (some (.string s), p)
  | (none, p) => (none, p)

theorem parseValue_string (s : Bytes) (fuel : ℕ) (r : Bytes) :
    parseValue lib (fuel + 1) (p.moveTo (escapeString s ++ r)) =
      (some (.string s), p.moveTo r) := by
  have hstr := parseString_escapeString (p := p) blank_nil s r
  have hc : ([] : Bytes) ++ escapeString s ++ r = quote :: (s.flatMap escapeChar ++ [quote] ++ r) := by
    simp [escapeString]
  rw [hc] at hstr
  rw [← List.nil_append (escapeString s), hc]
  exact congrArg stringValue hstr

theorem parseValue_lbracket (fuel : ℕ) (r : Bytes) :
    parseValue lib (fuel + 1) (p.moveTo (lbracket :: r)) =
      match (p.moveTo r).skipWhitespace.matchChar rbracket with
      | (true, p) => (some (.array []), p)
      | (false, p) => parseArray (parseValue lib fuel) (p.rest.length + 1) [] p := rfl

theorem parseValue_lbrace (fuel : ℕ) (r : Bytes) :
    parseValue lib (fuel + 1) (p.moveTo (lbrace :: r)) =
      match (p.moveTo r).skipWhitespace.matchChar rbrace with
      | (true, p) => (some (.object []), p)
      | (false, p) => parseObject (parseValue lib fuel) (p.rest.length + 1) [] p := rfl

theorem serializeItems_eq_cons (lib : CLib) (pretty : Bool) {xs : List Value} (hne : xs ≠ []) (h : ∀ v ∈ xs, v.IntegerOnly) :
    ∃ c cs, serializeItems lib pretty xs = c :: cs ∧ Starts c := by
  match xs, hne with
  | [v], _ => exact serialize_eq_cons lib pretty (h v (by simp))
  | v :: w :: vs, _ =>
    obtain ⟨c, cs, hc, hs⟩ := serialize_eq_cons lib pretty (h v (by simp))
    exact ⟨c, _, by rw [serializeItems, hc]; rfl, hs⟩

theorem serializePairs_eq_cons (lib : CLib) (pretty : Bool) {kvs : List (Bytes × Value)} (hne : kvs ≠ []) :
    ∃ cs, serializePairs lib pretty kvs = quote :: cs := by
  match kvs, hne with
  | [(k, v)], _ => exact ⟨_, by simp [serializePairs, escapeString]; rfl⟩
  | (k, v) :: q :: kvs, _ => exact ⟨_, by simp [serializePairs, escapeString]; rfl⟩

theorem parseValue_array {xs : List Value} {fuel : ℕ} (hall : ∀ v ∈ xs, v.IntegerOnly)
    (h : ∀ v ∈ xs, Reads lib pretty p (parseValue lib fuel) v) (r : Bytes) :
    parseValue lib (fuel + 1)
        (p.moveTo (lbracket :: (serializeItems lib pretty xs ++ rbracket :: r))) =
      (some (.array xs), p.moveTo r) := by
  rw [parseValue_lbracket]
  by_cases hne : xs = []
  · subst hne
    simp only [serializeItems, List.nil_append,
      skipWhitespace_cons (show isSpace rbracket = false from rfl),
      matchChar_cons (show isSpace rbracket = false from rfl)]
  · -- the first item keeps the parser from taking the closing bracket
    obtain ⟨c, cs, hc, hstart⟩ := serializeItems_eq_cons lib pretty hne hall
    have hlen := (length_le_serializeItems lib pretty hall).1
    have hturns : xs.length ≤ (serializeItems lib pretty xs ++ rbracket :: r).length + 1 := by
      simp only [List.length_append]
      omega
    have hloop := parseArray_serializeItems hne h hturns blank_nil [] r
    rw [List.nil_append, List.nil_append] at hloop
    rw [hc] at hloop ⊢
    simp only [List.cons_append, skipWhitespace_cons hstart.1, matchChar_ne hstart.1 hstart.2.1,
      moveTo_rest]
    exact hloop

theorem parseValue_object {kvs : List (Bytes × Value)} {fuel : ℕ}
    (h : ∀ kv ∈ kvs, Reads lib pretty p (parseValue lib fuel) kv.2) (r : Bytes) :
    parseValue lib (fuel + 1)
        (p.moveTo (lbrace :: (serializePairs lib pretty kvs ++ rbrace :: r))) =
      (some (.object kvs), p.moveTo r) := by
  rw [parseValue_lbrace]
  by_cases hne : kvs = []
  · subst hne
    simp only [serializePairs, List.nil_append,
      skipWhitespace_cons (show isSpace rbrace = false from rfl),
      matchChar_cons (show isSpace rbrace = false from rfl)]
  · obtain ⟨cs, hc⟩ := serializePairs_eq_cons lib pretty hne
    have hlen := (length_le_serializePairs lib pretty kvs).1
    have hturns : kvs.length ≤ (serializePairs lib pretty kvs ++ rbrace :: r).length + 1 := by
      simp only [List.length_append]
      omega
    have hloop := parseObject_serializePairs hne h hturns blank_nil [] r
    rw [List.nil_append, List.nil_append] at hloop
    rw [hc] at hloop ⊢
    simp only [List.cons_append, skipWhitespace_cons (show isSpace quote = false from rfl),
      matchChar_ne (show isSpace quote = false from rfl) (show quote ≠ rbrace by decide),
      moveTo_rest]
    exact hloop

/-- It is enough to read the value back when it comes first. -/
theorem reads_of_front {v : Value} (hv : v.IntegerOnly) {fuel : ℕ}
    (hf : (v.serialize lib pretty).length ≤ fuel)
    (h : ∀ k r, fuel = k + 1 → Follow r →
      parseValue lib (k + 1) (p.moveTo (v.serialize lib pretty ++ r)) = (some v, p.moveTo r)) :
    Reads lib pretty p (parseValue lib fuel) v := by
  intro ws r hw hr
  obtain ⟨c, cs, hc, hs⟩ := serialize_eq_cons lib pretty hv
  obtain ⟨k, rfl⟩ : ∃ k, fuel = k + 1 := ⟨fuel - 1, by rw [hc, List.length_cons] at hf; omega⟩
  rw [← h k r rfl hr, hc, List.append_assoc, List.cons_append, parseValue_front hw hs.1]

/-- **One printed value is read back**, in every context and with every bound on the depth that
covers its length. -/
theorem parseValue_serialize {v : Value} (hv : v.IntegerOnly) {fuel : ℕ}
    (hf : (v.serialize lib pretty).length ≤ fuel) (p : Parser) :
    Reads lib pretty p (parseValue lib fuel) v := by
  induction v using Value.induct generalizing fuel with
  | null => exact reads_of_front hv hf fun k r _ _ => parseValue_word k r (.inl ⟨rfl, rfl⟩)
  | boolean b =>
    refine reads_of_front hv hf fun k r _ _ => parseValue_word k r (.inr ?_)
    cases b
    · exact .inr ⟨rfl, rfl⟩
    · exact .inl ⟨rfl, rfl⟩
  | integer n => exact reads_of_front hv hf fun k r _ hr => parseValue_integer n k hr
  | double d => cases hv with | double h => exact h.elim
  | string s => exact reads_of_front hv hf fun k r _ _ => parseValue_string s k r
  | array xs ih =>
    refine reads_of_front hv hf fun k r hk _ => ?_
    cases hv with
    | array _ hall =>
      have hmem := (length_le_serializeItems lib pretty hall).2
      simp only [Value.serialize, List.length_cons, List.length_append] at hf
      rw [Value.serialize, List.cons_append, List.cons_append, List.append_assoc]
      exact parseValue_array hall
        (fun v hv => ih v hv (hall v hv) ((hmem v hv).trans (by omega))) r
  | object kvs ih =>
    refine reads_of_front hv hf fun k r hk _ => ?_
    cases hv with
    | object _ hall =>
      have hmem := (length_le_serializePairs lib pretty kvs).2
      simp only [Value.serialize, List.length_cons, List.length_append] at hf
      rw [Value.serialize, List.cons_append, List.cons_append, List.append_assoc]
      exact parseValue_object
        (fun kv hkv => ih kv hkv (hall kv hkv) ((hmem kv hkv).trans (by omega))) r

end Parser

/-- **JSON round trip.**  What `serialize` prints, with or without the spaces of `pretty`, is
parsed back to the same value, with no error reported. -/
theorem parse_serialize (lib : CLib) (pretty : Bool) (v : Value) (hv : v.IntegerOnly) :
    parse lib (v.serialize lib pretty) = (some v, "") := by
  have hread := Parser.parseValue_serialize hv
    (Nat.le_succ (v.serialize lib pretty).length) ⟨(v.serialize lib pretty).length, v.serialize lib pretty, ""⟩
    [] [] Parser.blank_nil (by simp [Parser.Follow])
  simp only [List.nil_append, List.append_nil] at hread
  unfold parse
  rw [show (⟨(v.serialize lib pretty).length, v.serialize lib pretty, ""⟩ : Parser) =
    Parser.moveTo ⟨(v.serialize lib pretty).length, v.serialize lib pretty, ""⟩
      (v.serialize lib pretty) from rfl, hread]
  rfl

theorem parse_serialize_nested :
    parse ⟨fun _ => [0x30], fun _ => 0⟩ (Value.serialize ⟨fun _ => [0x30], fun _ => 0⟩ true
        (.object [([0, 0x22], .array [.integer (-2 ^ 63), .null]), ([0, 0x22], .array [])])) =
      (some (.object [([0, 0x22], .array [.integer (-2 ^ 63), .null]), ([0, 0x22], .array [])]),
        "") := by
  refine parse_serialize _ true _ (.object trivial ?_)
  simp only [List.mem_cons, List.not_mem_nil, or_false, forall_eq_or_imp, forall_eq]
  refine ⟨.array trivial ?_, .array trivial (by simp)⟩
  simp only [List.mem_cons, List.not_mem_nil, or_false, forall_eq_or_imp, forall_eq]
  exact ⟨.integer trivial, .null trivial⟩

end Json

end Jaci
