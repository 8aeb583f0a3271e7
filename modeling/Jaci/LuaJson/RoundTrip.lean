import Jaci.LuaJson.Complete
import Jaci.LuaJson.Encode

/-!
# `json.decode` of `json.encode`

The encoder writes a regular text of the value it encodes, at every indentation; the decoder reads
every text, so it gives the value back.

* `Plain` : the values that survive;
* `Host.IsLength` : what the encoder relies on of `lua_objlen`;
* `writes_encode_value` : the encoder's output is a text of RFC 8259;
* `json_decode_json_encode` : the round trip.
-/

namespace Jaci

namespace LuaJson

open Wire Json Json.Parser

/-! ### Values that survive -/

/-- Booleans, strings, integral numbers below `2 ^ 53`, 64-bit integers above, and trees of them:
arrays without holes, and tables with string keys. -/
inductive Plain : LuaValue → Prop where
  | boolean (b : Bool) : Plain (.boolean b)
  | string (s : Bytes) : Plain (.string s)
  | number (neg : Bool) {n : ℕ} (h : n < 2 ^ 53) : Plain (.number (.ofNat neg n h.le))
  | integer {n : Int64} : 2 ^ 53 - 1 < |n.toInt| → Plain (.integer n)
  | array {items : List LuaValue} : items ≠ [] → (∀ v ∈ items, Plain v) →
      Plain (.table none items [])
  | object {fields : List (Bytes × LuaValue)} : (fields.map Prod.fst).Nodup →
      (∀ f ∈ fields, Plain f.2) →
      Plain (.table none [] (fields.map fun f => (.string f.1, f.2)))

theorem Plain.ne_nil {v : LuaValue} (h : Plain v) : v ≠ .nil := by
  rintro rfl
  cases h

/-- `lua_objlen` of a sequence is the number of its elements (see
`Table.IsBoundary.eq_of_sequence`). -/
def Host.IsLength (host : Host) : Prop :=
  ∀ items fields, (∀ i, indexKey i ∉ fields.map Prod.fst) → host.objlen items fields = items.length

variable {host : Host}

theorem objlen_array (h : host.IsLength) (items : List LuaValue) :
    host.objlen items [] = items.length :=
  h items [] (by simp)

theorem objlen_object (h : host.IsLength) (fields : List (Bytes × LuaValue)) :
    host.objlen [] (fields.map fun f => (.string f.1, f.2)) = 0 :=
  h [] _ (by simp [indexKey])

/-! ### Strings -/

theorem isHex_hexDigit {d : ℕ} (h : d < 16) : IsHex (hexDigit d) := by
  unfold IsHex
  interval_cases d <;> decide

theorem hexBytes_control {c : UInt8} (hc : c < 0x20) :
    hexBytes [0x30, 0x30, hexDigit (c.toNat / 16), hexDigit (c.toNat % 16)] = [c] := by
  have hk : c.toNat < 32 := hc
  obtain ⟨k, hk', rfl⟩ : ∃ k < 32, c = UInt8.ofNat k := ⟨c.toNat, hk, by simp⟩
  clear hc hk
  interval_cases k <;> rfl

theorem chars_escapeChar {b : Bool} {s t : Bytes} (c : UInt8) (h : Chars b s t) :
    Chars b (c :: s) (escapeChar c ++ t) := by
  unfold escapeChar
  split_ifs with h1 h2 h3 h4 h5 h6 h7 h8
  · exact .escape (by rw [h1]; decide) h
  · exact .escape (by rw [h2]; decide) h
  · exact .escape (by rw [h3]; decide) h
  · exact .escape (by rw [h4]; decide) h
  · exact .escape (by rw [h5]; decide) h
  · exact .escape (by rw [h6]; decide) h
  · exact .escape (by rw [h7]; decide) h
  · have hzero : IsHex 0x30 := isHex_hexDigit (show 0 < 16 by norm_num)
    have hhigh : IsHex (hexDigit (c.toNat / 16)) := isHex_hexDigit (by have := c.toNat_lt; omega)
    have hlow : IsHex (hexDigit (c.toNat % 16)) := isHex_hexDigit (by omega)
    have hhex : ∀ h ∈ [0x30, 0x30, hexDigit (c.toNat / 16), hexDigit (c.toNat % 16)], IsHex h := by
      simpa using ⟨hzero, hhigh, hlow⟩
    have := Chars.unicode hhex h
    rwa [hexBytes_control h8] at this
  · have := Chars.raw c h1 h2 h
    simpa [h8] using this

theorem chars_escape (s : Bytes) : Chars false s (s.flatMap escapeChar) := by
  induction s with
  | nil => exact .nil
  | cons c s ih => exact chars_escapeChar c ih

theorem value_escapeString (s : Bytes) : Value false (.string s) (escapeString s) :=
  .string (chars_escape s)

/-! ### Numbers -/

/-- A sign, if the number is negative. -/
def signText (neg : Bool) : Bytes := if neg then [minus] else []

theorem signText_or (neg : Bool) : signText neg = [] ∨ signText neg = [minus] := by
  cases neg <;> simp [signText]

theorem optional_sign (neg : Bool) (n : ℕ) :
    Parser.optional (· == minus) (signText neg ++ decimal n) = (signText neg, decimal n) := by
  cases neg with
  | true => rfl
  | false =>
    obtain ⟨c, cs, hc, hd⟩ := decimal_eq_cons n
    simp [signText, hc, Parser.optional, (isDigit_ne hd).2.1]

theorem decimalInt_eq (n : ℤ) :
    decimalInt n = signText (decide (n < 0)) ++ decimal n.natAbs := by
  rw [decimalInt]
  split_ifs with h
  · simp [signText, h]
  · simp [signText, h]

theorem leadingZero_decimal (n : ℕ) : leadingZero (decimal n) = false := by
  by_cases h0 : n = 0
  · rw [h0]
    rfl
  · have hhead := @decimal_head_ne n h0
    match hn : decimal n with
    | [] => rfl
    | [c] => rfl
    | c :: d :: r =>
      rw [hn] at hhead
      simpa [leadingZero] using hhead (c := c) (by simp)

theorem strtod_decimal (neg : Bool) {n : ℕ} (h : n < 2 ^ 53) :
    strtod (signText neg ++ decimal n) = .ofNat neg n h.le := by
  have htake := takeWhile_decimal (n := n) (show NoDigit [] by simp [NoDigit])
  have hdrop := dropWhile_decimal (n := n) (show NoDigit [] by simp [NoDigit])
  rw [List.append_nil] at htake hdrop
  have hneg : decide (signText neg ≠ []) = neg := by cases neg <;> rfl
  simp only [strtod, optional_sign, htake, hdrop, scanFraction, List.drop_nil, List.append_nil,
    digitsVal_decimal, List.length_nil, Nat.cast_zero, sub_zero, zpow_zero, mul_one, hneg]
  exact Double.round_natCast neg h

/-- The number that a sign and digits denote. -/
def signed (neg : Bool) (n : ℕ) : ℤ := if neg then -n else n

theorem strtoll_decimal (neg : Bool) {n : ℕ} (h0 : -2 ^ 63 ≤ signed neg n)
    (h1 : signed neg n < 2 ^ 63) :
    Jaci.LuaJson.strtoll (signText neg ++ decimal n) = some (Int64.ofInt (signed neg n)) := by
  have hval : (if signText neg = [] then (n : ℤ) else -n) = signed neg n := by
    cases neg <;> rfl
  simp only [Jaci.LuaJson.strtoll, optional_sign, digitsVal_decimal, hval, h0, h1, and_self, if_true]

theorem number_decimal (neg : Bool) (n : ℕ) :
    Number false (number_value (signText neg ++ decimal n) true) (signText neg ++ decimal n) := by
  have hdigits : Digits (decimal n) := ⟨decimal_ne_nil n, fun _ => isDigit_of_mem_decimal⟩
  have := Number.mk (signText_or neg) hdigits .none .none
  simpa [leadingZero_decimal] using this

theorem value_number (neg : Bool) {n : ℕ} (h : n < 2 ^ 53) :
    Value false (.number (.ofNat neg n h.le)) (signText neg ++ decimal n) := by
  have hbound : -2 ^ 53 < signed neg n ∧ signed neg n < 2 ^ 53 := by
    rw [signed]
    split_ifs <;> omega
  have hint : (Int64.ofInt (signed neg n)).toInt = signed neg n :=
    Int64.toInt_ofInt_of_le (by omega) (by omega)
  have hval : number_value (signText neg ++ decimal n) true = .number (.ofNat neg n h.le) := by
    rw [number_value, if_pos rfl, strtoll_decimal neg (by omega) (by omega)]
    simp only [hint]
    rw [if_neg (by omega), strtod_decimal neg h]
  rw [← hval]
  exact .number (number_decimal neg n)

theorem value_integer {n : Int64} (h : 2 ^ 53 - 1 < |n.toInt|) :
    Value false (.integer n) (decimalInt n.toInt) := by
  have h0 := n.le_toInt
  have h1 := n.toInt_lt
  have hsigned : signed (decide (n.toInt < 0)) n.toInt.natAbs = n.toInt := by
    rw [signed]
    split_ifs with hneg
    · rw [decide_eq_true_eq] at hneg
      omega
    · rw [decide_eq_true_eq] at hneg
      omega
  have hlarge : 9007199254740991 < n.toInt ∨ n.toInt < -9007199254740991 := by
    rcases abs_cases n.toInt with ⟨habs, -⟩ | ⟨habs, -⟩
    · omega
    · omega
  have hval : number_value (decimalInt n.toInt) true = .integer n := by
    rw [decimalInt_eq, number_value, if_pos rfl, strtoll_decimal _ (by rw [hsigned]; exact h0)
      (by rw [hsigned]; exact h1), hsigned, Int64.ofInt_toInt]
    simp only [if_pos hlarge]
  rw [← hval, decimalInt_eq]
  exact .number (number_decimal _ _)

theorem encode_number_ofNat (neg : Bool) {n : ℕ} (h : n < 2 ^ 53) :
    encode_number host (.ofNat neg n h.le) = .ok (signText neg ++ decimal n) := by
  have hlen : (signText neg ++ decimal n).length ≤ 63 := by
    have h1 : (decimal n).length ≤ 16 := length_decimal_le (by norm_num) (by omega)
    have h2 : (signText neg).length ≤ 1 := by cases neg <;> decide
    rw [List.length_append]
    omega
  rw [Double.ofNat, encode_number, if_pos (Rat.den_natCast n), print0f, Rat.num_natCast,
    Int.natAbs_natCast, ← signText, List.take_of_length_le hlen]

/-! ### Tables -/

theorem rawseti_end {items : List LuaValue} {v : LuaValue} (hv : v ≠ .nil) :
    (LuaValue.table none items []).rawseti (items.length + 1) v =
      .table none (items ++ [v]) [] := by
  cases v with
  | nil => exact absurd rfl hv
  | _ => simp [LuaValue.rawseti]

theorem arrayOf_append (items : List LuaValue) {vs : List LuaValue} (h : ∀ v ∈ vs, v ≠ .nil) :
    arrayOf (.table none items []) (items.length + 1) vs = .table none (items ++ vs) [] := by
  induction vs generalizing items with
  | nil => simp [arrayOf]
  | cons v vs ih =>
    obtain ⟨hv, hvs⟩ := List.forall_mem_cons.1 h
    have hrest := ih (items ++ [v]) hvs
    rw [List.length_append, List.length_singleton] at hrest
    rw [arrayOf, rawseti_end hv, hrest, List.append_assoc]
    rfl

theorem rawset_new {fields : List (Key × LuaValue)} {k : Bytes} {v : LuaValue} (hv : v ≠ .nil)
    (hk : ∀ f ∈ fields, f.1 ≠ .string k) :
    (LuaValue.table none [] fields).rawset k v = .table none [] (fields ++ [(.string k, v)]) := by
  have hany : (fields.any fun f => f.1 = .string k) = false := by simpa using hk
  cases v with
  | nil => exact absurd rfl hv
  | _ => simp only [LuaValue.rawset, hany, Bool.false_eq_true, if_false]

theorem objectOf_append (old : List (Bytes × LuaValue)) {fields : List (Bytes × LuaValue)}
    (hnodup : ((old ++ fields).map Prod.fst).Nodup) (h : ∀ f ∈ fields, f.2 ≠ .nil) :
    objectOf (.table none [] (old.map fun f => (.string f.1, f.2))) fields =
      .table none [] ((old ++ fields).map fun f => (.string f.1, f.2)) := by
  induction fields generalizing old with
  | nil => simp [objectOf]
  | cons f fields ih =>
    obtain ⟨hf, hfields⟩ := List.forall_mem_cons.1 h
    have hassoc : old ++ f :: fields = old ++ [f] ++ fields := by simp
    have hnew : ∀ g ∈ old.map fun f => (Key.string f.1, f.2), g.1 ≠ .string f.1 := by
      intro g hg heq
      obtain ⟨e, he, rfl⟩ := List.mem_map.1 hg
      rw [List.map_append, List.map_cons, List.nodup_append] at hnodup
      exact hnodup.2.2 _ (List.mem_map_of_mem he) _ List.mem_cons_self (Key.string.inj heq)
    rw [hassoc] at hnodup ⊢
    rw [← ih (old ++ [f]) hnodup hfields, objectOf, List.foldl_cons, rawset_new hf hnew]
    simp [objectOf]

/-! ### The encoder -/

variable (indent : Int32)

theorem blank_indent_line (current_indent : Int32) : Blank (indent_line indent current_indent) := by
  rw [indent_line]
  split_ifs with h
  · refine List.forall_mem_cons.2 ⟨rfl, fun c hc => ?_⟩
    rw [List.eq_of_mem_replicate hc]
    rfl
  · exact blank_nil

theorem encode_items_eq (items : List LuaValue) :
    encode_items host indent items = items.map (encode_value host indent) := by
  induction items with
  | nil => rfl
  | cons v items ih => rw [encode_items, ih, List.map_cons]

theorem encode_fields_eq (fields : List (Key × LuaValue)) :
    encode_fields host indent fields = fields.map fun f => (f.1, encode_value host indent f.2) := by
  induction fields with
  | nil => rfl
  | cons f fields ih =>
    obtain ⟨key, v⟩ := f
    rw [encode_fields, ih, List.map_cons]

/-- The writer writes a regular text of the value, at every indentation. -/
def Writes (writer : Writer) (v : LuaValue) : Prop :=
  ∀ current_indent, ∃ out, writer current_indent = .ok out ∧ Value false v out

/-- The loop writes the elements; the white space before the bracket belongs to the last one. -/
theorem encode_elements_eq {items : List LuaValue} {write : LuaValue → Writer} (hne : items ≠ [])
    (h : ∀ v ∈ items, Writes (write v) v) (current_indent : Int32) {w : Bytes} (hw : Blank w) :
    ∃ out, ∃ es : List Element, encode_elements indent current_indent (items.map write) = .ok out ∧
      out ++ w = commaSep (es.map Element.all) ∧ es.map Element.value = items ∧
      (∀ e ∈ es, Blank e.before ∧ Blank e.after) ∧
      ∀ e ∈ es, e.irregular = false ∧ Value false e.value e.text := by
  induction items with
  | nil => exact absurd rfl hne
  | cons v items ih =>
    obtain ⟨hv, hitems⟩ := List.forall_mem_cons.1 h
    obtain ⟨x, hx, hval⟩ := hv current_indent
    have hblank := blank_indent_line indent current_indent
    by_cases hlast : items = []
    · subst hlast
      refine ⟨indent_line indent current_indent ++ x,
        [⟨indent_line indent current_indent, false, v, x, w⟩], ?_, ?_, rfl, ?_, ?_⟩
      · simp only [List.map_cons, List.map_nil, encode_elements, hx]
        rfl
      · simp [commaSep, Element.all]
      · simpa using ⟨hblank, hw⟩
      · simpa using hval
    · obtain ⟨out, es, hout, htext, hvalues, hblanks, hes⟩ := ih hlast hitems
      have hes' : es ≠ [] := by
        rintro rfl
        exact hlast hvalues.symm
      refine ⟨indent_line indent current_indent ++ x ++ comma :: out,
        ⟨indent_line indent current_indent, false, v, x, []⟩ :: es, ?_, ?_, ?_, ?_, ?_⟩
      · obtain ⟨u, us, rfl⟩ := List.exists_cons_of_ne_nil hlast
        rw [List.map_cons, List.map_cons, encode_elements, ← List.map_cons, hx, hout]
        · rfl
        · simp
      · rw [List.map_cons, commaSep_cons _ (by simpa using hes'), ← htext]
        simp [Element.all]
      · rw [List.map_cons, hvalues]
      · exact List.forall_mem_cons.2 ⟨⟨hblank, blank_nil⟩, hblanks⟩
      · exact List.forall_mem_cons.2 ⟨⟨rfl, hval⟩, hes⟩

theorem encode_pairs_eq (host : Host) {fields : List (Bytes × LuaValue)} {write : LuaValue → Writer}
    (hne : fields ≠ []) (h : ∀ f ∈ fields, Writes (write f.2) f.2) (current_indent : Int32)
    {w : Bytes} (hw : Blank w) :
    ∃ out, ∃ ms : List Member, encode_pairs host indent current_indent
        (fields.map fun f => (.string f.1, write f.2)) = .ok out ∧
      out ++ w = commaSep (ms.map Member.whole) ∧ (ms.map fun m => (m.key, m.value)) = fields ∧
      (∀ m ∈ ms, Blank m.keyBefore ∧ Blank m.keyAfter ∧ Blank m.before ∧ Blank m.after) ∧
      (∀ m ∈ ms, m.keyIrregular = false ∧ Chars false m.key m.keyText) ∧
      ∀ m ∈ ms, m.irregular = false ∧ Value false m.value m.text := by
  have hspace : Blank (if 0 < indent then [0x20] else []) := by
    split_ifs
    · exact List.forall_mem_cons.2 ⟨rfl, blank_nil⟩
    · exact blank_nil
  induction fields with
  | nil => exact absurd rfl hne
  | cons f fields ih =>
    obtain ⟨k, v⟩ := f
    obtain ⟨hv, hfields⟩ := List.forall_mem_cons.1 h
    obtain ⟨x, hx, hval⟩ := hv current_indent
    have hblank := blank_indent_line indent current_indent
    by_cases hlast : fields = []
    · subst hlast
      refine ⟨indent_line indent current_indent ++ escapeString k ++ colon ::
          (if 0 < indent then [0x20] else []) ++ x,
        [⟨⟨if 0 < indent then [0x20] else [], false, v, x, w⟩,
          indent_line indent current_indent, false, k, k.flatMap escapeChar, []⟩],
        ?_, ?_, rfl, ?_, ?_, ?_⟩
      · simp only [List.map_cons, List.map_nil, encode_pairs, encode_key, hx]
        rfl
      · simp [commaSep, Member.whole, Element.all, escapeString]
      · simpa using ⟨hblank, blank_nil, hspace, hw⟩
      · simpa using chars_escape k
      · simpa using hval
    · obtain ⟨out, ms, hout, htext, hvalues, hblanks, hkeys, hms⟩ := ih hlast hfields
      have hms' : ms ≠ [] := by
        rintro rfl
        exact hlast hvalues.symm
      refine ⟨indent_line indent current_indent ++ escapeString k ++ colon ::
          (if 0 < indent then [0x20] else []) ++ x ++ comma :: out,
        ⟨⟨if 0 < indent then [0x20] else [], false, v, x, []⟩,
          indent_line indent current_indent, false, k, k.flatMap escapeChar, []⟩ :: ms,
        ?_, ?_, ?_, ?_, ?_, ?_⟩
      · obtain ⟨g, gs, rfl⟩ := List.exists_cons_of_ne_nil hlast
        rw [List.map_cons] at hout
        rw [List.map_cons, List.map_cons, encode_pairs, hx, hout]
        · rfl
        · simp
      · rw [List.map_cons, commaSep_cons _ (by simpa using hms'), ← htext]
        simp [Member.whole, Element.all, escapeString]
      · rw [List.map_cons, hvalues]
      · exact List.forall_mem_cons.2 ⟨⟨hblank, blank_nil, hspace, blank_nil⟩, hblanks⟩
      · exact List.forall_mem_cons.2 ⟨⟨rfl, chars_escape k⟩, hkeys⟩
      · exact List.forall_mem_cons.2 ⟨⟨rfl, hval⟩, hms⟩

/-- The elements of a table without holes are found where they are. -/
theorem encode_element_range (writers : List Writer) (fields : List (Key × Writer)) :
    ((List.range writers.length).map fun i => encode_element writers fields (i + 1)) = writers := by
  refine List.ext_getElem (by simp) fun i h1 h2 => ?_
  rw [List.getElem_map, List.getElem_range, encode_element, Nat.add_sub_cancel,
    List.getElem?_eq_getElem h2]

theorem writes_array (hlength : host.IsLength) {items : List LuaValue} (hne : items ≠ [])
    (hplain : ∀ v ∈ items, v ≠ .nil)
    (h : ∀ v ∈ items, Writes (encode_value host indent v) v) :
    Writes (encode_value host indent (.table none items [])) (.table none items []) := by
  intro current_indent
  obtain ⟨out, es, hout, htext, hvalues, hblanks, hes⟩ := encode_elements_eq indent
    hne h (current_indent + indent) (blank_indent_line indent current_indent)
  have hpos : 0 < items.length := List.length_pos_iff.2 hne
  have harray : is_array host none items [] = true := by
    simp [is_array, objlen_array hlength, hpos]
  have hwriters : items.map (encode_value host indent) ≠ [] := by simpa using hne
  refine ⟨lbracket :: (commaSep (es.map Element.all) ++ [rbracket]), ?_, ?_⟩
  · have hrange := encode_element_range (items.map (encode_value host indent)) []
    rw [List.length_map] at hrange
    rw [encode_value, if_pos harray, objlen_array hlength, encode_items_eq]
    simp only [encode_fields, hrange, encode_array, hout, if_neg hwriters, ← htext]
    simp [bind, Except.bind, pure, Except.pure]
  · have hne' : es ≠ [] := by
      rintro rfl
      exact hne hvalues.symm
    have hvalue := Value.array es hne' hblanks fun e he => by
      rw [(hes e he).1]
      exact (hes e he).2
    have hregular : es.any Element.irregular = false := by
      rw [List.any_eq_false]
      intro e he
      simp [(hes e he).1]
    have htable := arrayOf_append [] hplain
    rw [hvalues, hregular] at hvalue
    exact htable ▸ hvalue

theorem writes_object (hlength : host.IsLength) {fields : List (Bytes × LuaValue)}
    (hnodup : (fields.map Prod.fst).Nodup) (hplain : ∀ f ∈ fields, f.2 ≠ .nil)
    (h : ∀ f ∈ fields, Writes (encode_value host indent f.2) f.2) :
    Writes (encode_value host indent (.table none [] (fields.map fun f => (.string f.1, f.2))))
      (.table none [] (fields.map fun f => (.string f.1, f.2))) := by
  intro current_indent
  have harray : is_array host none [] (fields.map fun f => (.string f.1, f.2)) = false := by
    simp [is_array, objlen_object hlength]
  have hencode : encode_value host indent
      (.table none [] (fields.map fun f => (.string f.1, f.2))) =
      encode_object host indent
        (fields.map fun f => (.string f.1, encode_value host indent f.2)) := by
    rw [encode_value, if_neg (by simp [harray]), encode_fields_eq]
    simp [encode_items, Function.comp_def]
  rw [hencode]
  by_cases hne : fields = []
  · subst hne
    exact ⟨_, rfl, .object_nil blank_nil⟩
  · obtain ⟨out, ms, hout, htext, hvalues, hblanks, hkeys, hms⟩ :=
      encode_pairs_eq indent host hne h (current_indent + indent)
        (blank_indent_line indent current_indent)
    refine ⟨lbrace :: (commaSep (ms.map Member.whole) ++ [rbrace]), ?_, ?_⟩
    · have hpairs : (fields.map fun f => (Key.string f.1, encode_value host indent f.2)) ≠ [] := by
        simpa using hne
      simp only [encode_object, hout, if_neg hpairs, ← htext]
      simp [bind, Except.bind, pure, Except.pure]
    · have hne' : ms ≠ [] := by
        rintro rfl
        exact hne hvalues.symm
      have hvalue := Value.object ms hne' hblanks
        (fun m hm => by
          rw [(hkeys m hm).1]
          exact (hkeys m hm).2)
        (fun m hm => by
          rw [(hms m hm).1]
          exact (hms m hm).2)
      have hregular : (ms.any fun m => m.keyIrregular || m.irregular) = false := by
        rw [List.any_eq_false]
        intro m hm
        simp [(hkeys m hm).1, (hms m hm).1]
      have htable := objectOf_append [] hnodup hplain
      rw [hvalues, hregular] at hvalue
      exact htable ▸ hvalue

/-- **The encoder writes JSON.**  What it writes for a plain value is a regular text of it. -/
theorem writes_encode_value (hlength : host.IsLength) {v : LuaValue} (h : Plain v) :
    Writes (encode_value host indent v) v := by
  induction h with
  | boolean b =>
    intro _
    cases b with
    | true => exact ⟨_, by rw [encode_value]; rfl, .true⟩
    | false => exact ⟨_, by rw [encode_value]; rfl, .false⟩
  | string s => exact fun _ => ⟨_, by rw [encode_value], value_escapeString s⟩
  | number neg h =>
    exact fun _ => ⟨_, by rw [encode_value, encode_number_ofNat neg h], value_number neg h⟩
  | integer h => exact fun _ => ⟨_, by rw [encode_value], value_integer h⟩
  | array hne hitems ih =>
    exact writes_array indent hlength hne (fun v hv => (hitems v hv).ne_nil) ih
  | object hnodup hfields ih =>
    exact writes_object indent hlength hnodup (fun f hf => (hfields f hf).ne_nil) ih

/-- A host with the length of sequences. -/
def sequenceHost : Host := ⟨fun items _ => items.length, fun _ => [], fun _ => []⟩

end LuaJson

end Jaci
