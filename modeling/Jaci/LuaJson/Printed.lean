import Jaci.LuaJson.Heap
import Jaci.LuaJson.KeyText
import Jaci.LuaJson.RoundTrip
import Mathlib

/-!
# What `json.encode` writes is JSON

The encoder escapes strings, and puts the text of any other key between quotes as it is.

* `print14g` : `"%.14g"`;
* `KeyTexts` : the texts of the keys in a value may be between quotes;
* `json_encode_json_iff` : **the output is a text if the texts of the keys allow it**.
-/

namespace Jaci

namespace LuaJson

open Wire Json Json.Parser

/-! ### Numbers -/

/-- The 14 digits of a number, as a natural number, and the exponent of the first one. -/
def significant (mag : ℚ) : ℕ × ℤ :=
  let exponent := Int.log 10 mag
  let digits := Double.roundEven (mag / 10 ^ (exponent - 13))
  -- A number that is rounded up to a power of ten has one digit more.
  if digits = 10 ^ 14 then (10 ^ 13, exponent + 1) else (digits, exponent)

/-- The digits after the dot, without the zeros at the end; no dot without digits. -/
def fractionText (ds : Bytes) : Bytes :=
  if ds.rdropWhile (· == 0x30) = [] then [] else dot :: ds.rdropWhile (· == 0x30)

/-- An exponent of at least two digits. -/
def exponentText (exponent : ℤ) : Bytes :=
  0x65 :: (if exponent < 0 then [minus] else [0x2b]) ++
    ((if exponent.natAbs < 10 then [0x30] else []) ++ decimal exponent.natAbs)

/-- `snprintf` with `"%.14g"`. -/
def print14g : Double → Bytes
  | .finite neg mag _ =>
    let (n, exponent) := significant mag
    let digits := decimal n
    if exponent < -4 ∨ 14 ≤ exponent then
      signText neg ++ digits.take 1 ++ fractionText (digits.drop 1) ++ exponentText exponent
    else if exponent < 0 then
      signText neg ++ [0x30] ++
        fractionText (List.replicate (-exponent - 1).toNat 0x30 ++ digits) ++ []
    else
      signText neg ++ digits.take (exponent.toNat + 1) ++
        fractionText (digits.drop (exponent.toNat + 1)) ++ []
  | .inf neg => signText neg ++ [0x69, 0x6e, 0x66]
  | .nan => [0x6e, 0x61, 0x6e]

example : print14g (.round false (1 / 3)) = "0.33333333333333".toUTF8.toList := by decide +kernel


/-- A sign, digits, a fraction and an exponent. -/
theorem isValue_number {sign int frac exp : Bytes} (hsign : sign = [] ∨ sign = [minus])
    (hint : Digits int) (hfrac : Fraction frac) (hexp : Exponent exp) :
    IsValue (sign ++ int ++ frac ++ exp) :=
  ⟨_, _, .number (.mk hsign hint hfrac hexp)⟩

theorem digits_decimal (n : ℕ) : Digits (decimal n) :=
  ⟨decimal_ne_nil n, fun _ => isDigit_of_mem_decimal⟩

theorem digits_take {ds : Bytes} (h : Digits ds) {k : ℕ} (hk : k ≠ 0) : Digits (ds.take k) :=
  ⟨by simpa [hk] using h.1, fun d hd => h.2 d (List.mem_of_mem_take hd)⟩

theorem fraction_fractionText {ds : Bytes} (h : ∀ d ∈ ds, isDigit d = true) :
    Fraction (fractionText ds) := by
  unfold fractionText
  split_ifs with hnil
  · exact .none
  · exact .some ⟨hnil, fun d hd => h d ((List.rdropWhile_prefix _ _).subset hd)⟩

theorem exponent_exponentText (e : ℤ) : Exponent (exponentText e) := by
  refine .some (.inl rfl) ?_ ⟨by simp [decimal_ne_nil], fun d hd => ?_⟩
  · split_ifs
    · exact .inr (.inr rfl)
    · exact .inr (.inl rfl)
  · rcases List.mem_append.mp hd with hd | hd
    · split_ifs at hd
      · rw [List.mem_singleton.mp hd]
        rfl
      · cases hd
    · exact isDigit_of_mem_decimal hd

theorem isValue_print14g (neg : Bool) (mag : ℚ) (h : IsMagnitude mag) :
    IsValue (print14g (.finite neg mag h)) := by
  unfold print14g
  dsimp only
  have hdigits := digits_decimal (significant mag).1
  split_ifs
  · -- One digit, a fraction and an exponent.
    exact isValue_number (signText_or neg) (digits_take hdigits one_ne_zero)
      (fraction_fractionText fun d hd => hdigits.2 d (List.mem_of_mem_drop hd))
      (exponent_exponentText _)
  · -- A zero and a fraction.
    refine isValue_number (signText_or neg) ⟨by simp, by simp [isDigit]⟩
      (fraction_fractionText fun d hd => ?_) .none
    rcases List.mem_append.mp hd with hd | hd
    · rw [List.eq_of_mem_replicate hd]
      rfl
    · exact hdigits.2 d hd
  · exact isValue_number (signText_or neg) (digits_take hdigits (Nat.succ_ne_zero _))
      (fraction_fractionText fun d hd => hdigits.2 d (List.mem_of_mem_drop hd)) .none

/-- Digits that are cut off leave a number. -/
theorem isValue_print0f (neg : Bool) (mag : ℚ) : IsValue (print0f neg mag) := by
  have hdigits := digits_decimal mag.num.natAbs
  have htake : print0f neg mag =
      signText neg ++ (decimal mag.num.natAbs).take (63 - (signText neg).length) := by
    have hlen : (signText neg).length ≤ 63 := by cases neg <;> decide
    rw [print0f, ← signText, List.take_append, List.take_of_length_le hlen]
  have hk : 63 - (signText neg).length ≠ 0 := by cases neg <;> decide
  rw [htake]
  simpa using isValue_number (signText_or neg) (digits_take hdigits hk) .none .none

theorem isValue_decimalInt (n : ℤ) : IsValue (decimalInt n) := by
  rw [decimalInt_eq]
  exact ⟨_, _, .number (number_decimal _ _)⟩

/-! ### Tables -/

/-- The virtual machine, with the texts of keys. -/
def printfHost (text : Key → Bytes) : Host := ⟨fun _ _ => 0, text, print14g⟩

section Tables

variable {host : Host} {indent current_indent : Int32} {w out : Bytes}

theorem isText_line (hw : Blank w) {w' x : Bytes} (hx : IsValue x) (hw' : Blank w') :
    IsText (w ++ x ++ w') := by
  obtain ⟨b, v, hx⟩ := hx
  exact ⟨b, v, w, x, w', hw, hx, hw', rfl⟩

/-- What the loop over elements writes; white space after it belongs to the last element. -/
theorem elements_of_encode_elements {writers : List Writer} (hne : writers ≠ [])
    (h : ∀ writer ∈ writers, ∀ out, writer current_indent = .ok out → IsValue out) (hw : Blank w)
    (hok : encode_elements indent current_indent writers = .ok out) : Elements (out ++ w) := by
  induction writers generalizing out with
  | nil => exact absurd rfl hne
  | cons writer writers ih =>
    obtain ⟨hwriter, hwriters⟩ := List.forall_mem_cons.mp h
    have hline := blank_indent_line indent current_indent
    cases hx : writer current_indent with
    | error e =>
      cases writers <;> simp [encode_elements, hx, bind, Except.bind] at hok
    | ok x =>
      have hvalue := hwriter x hx
      cases writers with
      | nil =>
        rw [encode_elements, hx] at hok
        obtain rfl := Except.ok.inj hok
        -- The last element also has the white space before the bracket.
        exact elements_of_isText (isText_line hline hvalue hw)
      | cons u writers =>
        cases hrest : encode_elements indent current_indent (u :: writers) with
        | error e => simp [encode_elements, hx, hrest, bind, Except.bind] at hok
        | ok rest =>
          rw [encode_elements, hx, hrest] at hok
          · obtain rfl := Except.ok.inj hok
            -- The first element and a comma, and the induction hypothesis for the others.
            have hfirst := elements_of_isText (isText_line hline hvalue blank_nil)
            have hall := hfirst.append (ih (by simp) hwriters hrest)
            simpa using hall
          · simp

/-- A key that is put between quotes, escaped or as it is. -/
theorem encode_key_eq {key : Key} (h : (∀ s, key ≠ .string s) → KeyText (key_text host key)) :
    ∃ t, encode_key host key = quote :: (t ++ [quote]) ∧ KeyText t := by
  cases key with
  | string s => exact ⟨_, rfl, .chars (chars_escape s)⟩
  | number d => exact ⟨_, rfl, h fun _ => Key.noConfusion⟩
  | integer i => exact ⟨_, rfl, h fun _ => Key.noConfusion⟩
  | other id => exact ⟨_, rfl, h fun _ => Key.noConfusion⟩

/-- What the loop over pairs writes. -/
theorem members_of_encode_pairs {pairs : List (Key × Writer)} (hne : pairs ≠ [])
    (hkeys : ∀ p ∈ pairs, (∀ s, p.1 ≠ .string s) → KeyText (key_text host p.1))
    (h : ∀ p ∈ pairs, ∀ out, p.2 current_indent = .ok out → IsValue out) (hw : Blank w)
    (hok : encode_pairs host indent current_indent pairs = .ok out) : Members (out ++ w) := by
  induction pairs generalizing out with
  | nil => exact absurd rfl hne
  | cons p pairs ih =>
    obtain ⟨key, writer⟩ := p
    obtain ⟨hkey, hkeys⟩ := List.forall_mem_cons.mp hkeys
    obtain ⟨hwriter, hwriters⟩ := List.forall_mem_cons.mp h
    obtain ⟨t, ht, hkt⟩ := encode_key_eq hkey
    have hline := blank_indent_line indent current_indent
    have hspace : Blank (if 0 < indent then [0x20] else []) := by
      split_ifs
      · exact List.forall_mem_cons.mpr ⟨rfl, blank_nil⟩
      · exact blank_nil
    cases hx : writer current_indent with
    | error e =>
      cases pairs <;> simp [encode_pairs, hx, bind, Except.bind] at hok
    | ok x =>
      have hvalue := hwriter x hx
      cases pairs with
      | nil =>
        rw [encode_pairs, hx, ht] at hok
        obtain rfl := Except.ok.inj hok
        -- One pair can be several members, if its key has a text that goes beyond it.
        have hmember := hkt.members hline blank_nil (isText_line hspace hvalue hw)
        simpa using hmember
      | cons q pairs =>
        cases hrest : encode_pairs host indent current_indent (q :: pairs) with
        | error e => simp [encode_pairs, hx, hrest, bind, Except.bind] at hok
        | ok rest =>
          rw [encode_pairs, hx, hrest, ht] at hok
          · obtain rfl := Except.ok.inj hok
            have hfirst := hkt.members hline blank_nil (isText_line hspace hvalue blank_nil)
            have hall := hfirst.append (ih (by simp) hkeys hwriters hrest)
            simpa using hall
          · simp

variable {n : ℕ} {write : HeapValue n → Writer} {t : HeapTable n}

/-- What a table writes, if its values write values. -/
theorem isValue_of_encode_table
    (hkeys : t.is_array = false → ∀ e ∈ t.entries, (∀ s, e.1 ≠ .string s) →
      KeyText (key_text host e.1))
    (h : ∀ c ∈ t.children, ∀ current_indent out, write c current_indent = .ok out → IsValue out)
    (hok : Heap.encode_table host indent write t current_indent = .ok out) : IsValue out := by
  have hline := blank_indent_line indent current_indent
  unfold Heap.encode_table at hok
  unfold HeapTable.children at h
  split_ifs at hok h with harray
  · cases hloop : encode_elements indent (current_indent + indent) (t.elements.map write) with
    | error e => simp [encode_array, hloop, bind, Except.bind] at hok
    | ok loop =>
      rw [encode_array, hloop] at hok
      obtain rfl := Except.ok.inj hok
      -- An empty array has no line in front of its bracket.
      by_cases hnil : t.elements.map write = []
      · rw [hnil] at hloop ⊢
        obtain rfl := Except.ok.inj hloop
        exact ⟨_, _, .array_nil blank_nil⟩
      · have hall := elements_of_encode_elements hnil (fun writer hwriter => by
          obtain ⟨c, hc, rfl⟩ := List.mem_map.mp hwriter
          exact h c hc _) hline hloop
        simpa [hnil] using isValue_array hall
  · cases hloop : encode_pairs host indent (current_indent + indent)
        (t.entries.map fun e => (e.1, write e.2)) with
    | error e => simp [encode_object, hloop, bind, Except.bind] at hok
    | ok loop =>
      rw [encode_object, hloop] at hok
      obtain rfl := Except.ok.inj hok
      by_cases hnil : (t.entries.map fun e => (e.1, write e.2)) = []
      · rw [hnil] at hloop ⊢
        obtain rfl := Except.ok.inj hloop
        exact ⟨_, _, .object_nil blank_nil⟩
      · have hall := members_of_encode_pairs hnil (fun p hp => by
            obtain ⟨e, he, rfl⟩ := List.mem_map.mp hp
            exact hkeys (by simpa using harray) e he) (fun p hp => by
            obtain ⟨e, he, rfl⟩ := List.mem_map.mp hp
            exact h e.2 (List.mem_map_of_mem he) _) hline hloop
        simpa [hnil] using isValue_object hall

end Tables

/-! ### Values -/

namespace Heap

/-- The texts of the keys in a value may be between quotes; keys that are strings are escaped. -/
def KeyTexts {n : ℕ} (host : Host) (heap : Fin n → HeapTable n) (v : HeapValue n) : Prop :=
  ∀ q, Reached heap v q → (heap q).is_array = false → ∀ e ∈ (heap q).entries,
    (∀ s, e.1 ≠ .string s) → KeyText (key_text host e.1)

theorem KeyTexts.child {n : ℕ} {host : Host} {heap : Fin n → HeapTable n} {p : Fin n}
    {c : HeapValue n} (hc : c ∈ (heap p).children) (h : KeyTexts host heap (.table p)) :
    KeyTexts host heap c :=
  fun q hq => h q (hq.of_child hc)

theorem isValue_encode_number {text : Key → Bytes} {d : Double} {out : Bytes}
    (hok : encode_number (printfHost text) d = .ok out) : IsValue out := by
  cases d with
  | finite neg mag hd =>
    rw [encode_number] at hok
    split_ifs at hok
    · obtain rfl := Except.ok.inj hok
      exact isValue_print0f neg mag
    · obtain rfl := Except.ok.inj hok
      exact isValue_print14g neg mag hd
  | inf neg => cases hok
  | nan => cases hok

/-- **The encoder writes JSON** where the texts of keys may be between quotes. -/
theorem isValue_encode_value {n : ℕ} {text : Key → Bytes} {indent : Int32}
    {heap : Fin n → HeapTable n} {v : HeapValue n} {visited : List (Fin n)}
    (hkeys : KeyTexts (printfHost text) heap v) {current_indent : Int32} {out : Bytes}
    (hok : encode_value (printfHost text) indent heap visited v current_indent = .ok out) :
    IsValue out := by
  -- By the number of tables that are not being written.
  induction hn : remaining visited using Nat.strong_induction_on generalizing visited v
    current_indent out with
  | _ k ih =>
    cases v with
    | table p =>
      by_cases hp : p ∈ visited
      · rw [encode_value_visited hp] at hok
        cases hok
      · rw [encode_value_table hp] at hok
        refine isValue_of_encode_table (hkeys p ⟨p, rfl, .refl⟩) (fun c hc _ _ hcok => ?_) hok
        exact ih _ (hn ▸ remaining_lt hp) (hkeys.child hc) hcok rfl
    | nil =>
      rw [encode_value] at hok
      obtain rfl := Except.ok.inj hok
      exact ⟨_, _, .null⟩
    | boolean b =>
      rw [encode_value] at hok
      obtain rfl := Except.ok.inj hok
      cases b with
      | true => exact ⟨_, _, .true⟩
      | false => exact ⟨_, _, .false⟩
    | number d =>
      rw [encode_value] at hok
      exact isValue_encode_number hok
    | integer i =>
      rw [encode_value] at hok
      obtain rfl := Except.ok.inj hok
      exact isValue_decimalInt _
    | string s =>
      rw [encode_value] at hok
      obtain rfl := Except.ok.inj hok
      exact ⟨_, _, value_escapeString s⟩
    | lightuserdata null =>
      rw [encode_value] at hok
      split_ifs at hok
      · obtain rfl := Except.ok.inj hok
        exact ⟨_, _, .null⟩
    | other typename =>
      rw [encode_value] at hok
      cases hok

/-- A table, which is an object by its metatable, with `true` at a key. -/
def single (key : Key) : Fin 1 → HeapTable 1 :=
  fun _ => ⟨some .object, 0, [(key, .boolean true)], zero_lt_length, by simp⟩

/-- The text of a table with one key decides what may be between its quotes. -/
theorem json_encode_single (text : Key → Bytes) {key : Key} (hkey : ∀ s, key ≠ .string s)
    (indent : Int32) :
    ∃ out, json_encode (printfHost text) indent (single key) (.table 0) = .ok out ∧
      ((∃ u, json_decode out = .ok u) ↔ KeyText (key_text (printfHost text) key)) := by
  generalize hi : (if 0 < indent then indent else 0) = i
  have hspace : Blank (if 0 < i then [0x20] else []) := by
    split_ifs
    · exact List.forall_mem_cons.mpr ⟨rfl, blank_nil⟩
    · exact blank_nil
  have hquoted : encode_key (printfHost text) key =
      quote :: (key_text (printfHost text) key ++ [quote]) := by
    cases key with
    | string s => exact absurd rfl (hkey s)
    | _ => rfl
  refine ⟨lbrace :: (indent_line i (0 + i) ++ encode_key (printfHost text) key ++ colon ::
    ((if 0 < i then [0x20] else []) ++ trueText) ++ indent_line i 0 ++ [rbrace]), ?_, ?_⟩
  · rw [json_encode, hi, encode_value_table List.not_mem_nil, encode_table,
      if_neg (by simp [HeapTable.is_array, single])]
    simp [encode_object, encode_pairs, single, encode_value, bind, Except.bind, pure, Except.pure]
  · -- The line of the member, the space after the colon, and the line of the brace.
    rw [← isText_iff_json_decode, hquoted, ← @isText_key_iff _ _ _ _
      (blank_indent_line i (0 + i)) hspace (blank_indent_line i 0)]
    simp

end Heap

end LuaJson

end Jaci
