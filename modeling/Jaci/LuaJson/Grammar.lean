import Jaci.LuaJson.Decode
import Jaci.Json.TextRoundTrip
import Mathlib.Data.List.TakeWhile

/-!
# The grammar of JSON

`Text b v s` says that `s` is a text of the value `v`.  With `b = false` this is the grammar of
RFC 8259, with arbitrary bytes in strings.  With `b = true` the text has an irregular token: a
number with superfluous zeros in front, or a control character in a string.

* `Number`, `Chars`, `Value` : the parts of a text;
* `Text` : a value with white space around it;
* `IsJson` : the texts of RFC 8259.
-/

namespace Jaci

namespace LuaJson

open Wire Json Json.Parser

/-! ### Numbers -/

def Digits (ds : Bytes) : Prop := ds ≠ [] ∧ ∀ d ∈ ds, isDigit d = true

/-- A zero in front of other digits. -/
def leadingZero : Bytes → Bool
  | c :: _ :: _ => c == 0x30
  | _ => false

/-- The fraction of a number. -/
inductive Fraction : Bytes → Prop where
  | none : Fraction []
  | some {ds : Bytes} : Digits ds → Fraction (dot :: ds)

/-- The exponent of a number. -/
inductive Exponent : Bytes → Prop where
  | none : Exponent []
  | some {c : UInt8} {sign ds : Bytes} : c = 0x65 ∨ c = 0x45 →
      sign = [] ∨ sign = [0x2b] ∨ sign = [minus] → Digits ds → Exponent (c :: sign ++ ds)

/-- A number. -/
inductive Number : Bool → LuaValue → Bytes → Prop where
  | mk {sign int frac exp : Bytes} : sign = [] ∨ sign = [minus] → Digits int → Fraction frac →
      Exponent exp → Number (leadingZero int)
        (number_value (sign ++ int ++ frac ++ exp) (decide (frac = [] ∧ exp = [])))
        (sign ++ int ++ frac ++ exp)

/-! ### Strings -/

/-- The letters of the short escapes and the characters they stand for. -/
def escapes : List (UInt8 × UInt8) :=
  [(quote, quote), (backslash, backslash), (0x2f, 0x2f), (0x62, 0x08), (0x66, 0x0c), (0x6e, 0x0a),
    (0x72, 0x0d), (0x74, 0x09)]

def IsHex (h : UInt8) : Prop :=
  (0x30 ≤ h ∧ h ≤ 0x39) ∨ (0x61 ≤ h ∧ h ≤ 0x66) ∨ (0x41 ≤ h ∧ h ≤ 0x46)

/-- The bytes of the code point that hexadecimal digits denote. -/
def hexBytes (hs : Bytes) : Bytes := encodeCodepoint ((readHex hs 0).1.getD 0)

/-- The inside of a string literal, with the bytes it stands for. -/
inductive Chars : Bool → Bytes → Bytes → Prop where
  | nil : Chars false [] []
  | raw {b : Bool} {s t : Bytes} (c : UInt8) : c ≠ quote → c ≠ backslash → Chars b s t →
      Chars (decide (c < 0x20) || b) (c :: s) (c :: t)
  | escape {b : Bool} {s t : Bytes} {esc c : UInt8} : (esc, c) ∈ escapes → Chars b s t →
      Chars b (c :: s) (backslash :: esc :: t)
  | unicode {b : Bool} {s t : Bytes} {h₁ h₂ h₃ h₄ : UInt8} : (∀ h ∈ [h₁, h₂, h₃, h₄], IsHex h) →
      Chars b s t → Chars b (hexBytes [h₁, h₂, h₃, h₄] ++ s)
        (backslash :: 0x75 :: h₁ :: h₂ :: h₃ :: h₄ :: t)

/-! ### Values -/

/-- A value in a container, with the white space around it. -/
structure Element where
  before : Bytes
  irregular : Bool
  value : LuaValue
  text : Bytes
  after : Bytes

/-- A key and a value in an object. -/
structure Member extends Element where
  keyBefore : Bytes
  keyIrregular : Bool
  key : Bytes
  keyText : Bytes
  keyAfter : Bytes

/-- The text of an element. -/
def Element.all (e : Element) : Bytes := e.before ++ e.text ++ e.after

def Member.whole (m : Member) : Bytes :=
  m.keyBefore ++ quote :: (m.keyText ++ quote :: (m.keyAfter ++ colon :: m.toElement.all))

/-- Texts with commas between them. -/
def commaSep : List Bytes → Bytes
  | [] => []
  | [s] => s
  | s :: t :: rest => s ++ comma :: commaSep (t :: rest)

/-- The table of the values of an array, from an index on. -/
def arrayOf (t : LuaValue) (i : ℕ) : List LuaValue → LuaValue
  | [] => t
  | v :: vs => arrayOf (t.rawseti i v) (i + 1) vs

/-- The table of the pairs of an object. -/
def objectOf (t : LuaValue) (kvs : List (Bytes × LuaValue)) : LuaValue :=
  kvs.foldl (fun t kv => t.rawset kv.1 kv.2) t

/-- A value without white space around it. -/
inductive Value : Bool → LuaValue → Bytes → Prop where
  | null : Value false .nil nullText
  | true : Value false (.boolean true) trueText
  | false : Value false (.boolean false) falseText
  | number {b : Bool} {v : LuaValue} {s : Bytes} : Number b v s → Value b v s
  | string {b : Bool} {s t : Bytes} : Chars b s t → Value b (.string s) (quote :: (t ++ [quote]))
  | array_nil {w : Bytes} : Blank w → Value false .newtable (lbracket :: (w ++ [rbracket]))
  | array (es : List Element) : es ≠ [] → (∀ e ∈ es, Blank e.before ∧ Blank e.after) →
      (∀ e ∈ es, Value e.irregular e.value e.text) →
      Value (es.any Element.irregular) (arrayOf .newtable 1 (es.map Element.value))
        (lbracket :: (commaSep (es.map Element.all) ++ [rbracket]))
  | object_nil {w : Bytes} : Blank w → Value false .newtable (lbrace :: (w ++ [rbrace]))
  | object (ms : List Member) : ms ≠ [] → (∀ m ∈ ms, Blank m.keyBefore ∧ Blank m.keyAfter ∧
        Blank m.before ∧ Blank m.after) → (∀ m ∈ ms, Chars m.keyIrregular m.key m.keyText) →
      (∀ m ∈ ms, Value m.irregular m.value m.text) →
      Value (ms.any fun m => m.keyIrregular || m.irregular)
        (objectOf .newtable (ms.map fun m => (m.key, m.value)))
        (lbrace :: (commaSep (ms.map Member.whole) ++ [rbrace]))

/-- A text: a value with white space around it. -/
def Text (b : Bool) (v : LuaValue) (s : Bytes) : Prop :=
  ∃ w x w', Blank w ∧ Value b v x ∧ Blank w' ∧ s = w ++ x ++ w'

/-- A JSON text of RFC 8259. -/
def IsJson (s : Bytes) : Prop := ∃ v, Text false v s

/-! ### Scanners -/

variable {s t w : Bytes}

theorem of_dropWhile_eq_cons {p : UInt8 → Bool} {c : UInt8} {r : Bytes}
    (h : s.dropWhile p = c :: r) : p c = false := by
  have := List.head_dropWhile_not p (l := s) (by rw [h]; simp)
  simpa only [h, List.head_cons] using this

theorem skip_whitespace_blank (hw : Blank w) {c : UInt8} (hc : isSpace c = false) (r : Bytes) :
    skip_whitespace (w ++ c :: r) = c :: r := by
  rw [skip_whitespace, List.dropWhile_append_of_pos hw, List.dropWhile_cons_of_neg (by simp [hc])]

theorem skip_whitespace_cons {c : UInt8} (hc : isSpace c = false) (r : Bytes) :
    skip_whitespace (c :: r) = c :: r :=
  skip_whitespace_blank blank_nil hc r

theorem skip_whitespace_of_blank (hw : Blank w) : skip_whitespace w = [] := by
  rw [skip_whitespace, List.dropWhile_eq_nil_iff]
  exact hw

/-- What `skip_whitespace` skips. -/
theorem exists_blank (s : Bytes) : ∃ w, Blank w ∧ s = w ++ skip_whitespace s := by
  refine ⟨s.takeWhile isSpace, fun c hc => List.mem_takeWhile_imp hc, ?_⟩
  rw [skip_whitespace, List.takeWhile_append_dropWhile]

theorem scan_digits_ok {e : String} (hs : Digits s) (ht : NoDigit t) :
    scan_digits e (s ++ t) = .ok (s, t) := by
  have htake : (s ++ t).takeWhile isDigit = s := by
    rw [List.takeWhile_append_of_pos hs.2]
    cases t with
    | nil => simp
    | cons c r => simp [ht c (by simp)]
  have hdrop : (s ++ t).dropWhile isDigit = t := by
    rw [List.dropWhile_append_of_pos hs.2]
    cases t with
    | nil => rfl
    | cons c r => simp [ht c (by simp)]
  rw [scan_digits, htake, hdrop, if_neg hs.1]

theorem scan_digits_eq_ok {e : String} {ds : Bytes} (h : scan_digits e s = .ok (ds, t)) :
    Digits ds ∧ s = ds ++ t ∧ NoDigit t := by
  rw [scan_digits] at h
  split_ifs at h with hne
  obtain ⟨rfl, rfl⟩ := Prod.mk.inj (Except.ok.inj h)
  refine ⟨⟨hne, fun d hd => List.mem_takeWhile_imp hd⟩, ?_, ?_⟩
  · exact (List.takeWhile_append_dropWhile ..).symm
  · intro c hc
    cases hdrop : s.dropWhile isDigit with
    | nil =>
      rw [hdrop] at hc
      simp at hc
    | cons d r =>
      rw [hdrop, List.head?_cons, Option.mem_some_iff] at hc
      rw [← hc]
      exact of_dropWhile_eq_cons hdrop

end LuaJson

end Jaci
