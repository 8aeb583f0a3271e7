import Jaci.LuaJson.Complete
import Jaci.LuaJson.Sound

/-!
# Texts between quotes

What may stand between the quotes of a key, when it is put there as it is.  The text of a key can
end the key, go on with a value and other members, and begin a key of its own.

* `IsText`, `Elements`, `Members` : texts, without the values they stand for;
* `KeyText` : the texts that may be put between the quotes of a key;
* `isText_key_iff` : **no other text gives an object**.
-/

namespace Jaci

namespace LuaJson

open Wire Json Json.Parser

/-! ### Texts -/

/-- A value without white space around it. -/
def IsValue (x : Bytes) : Prop := ∃ b v, Value b v x

/-- A value with white space around it. -/
def IsText (s : Bytes) : Prop := ∃ b v, Text b v s

/-- The parts of an element are what they should be. -/
def Element.Ok (e : Element) : Prop :=
  (Blank e.before ∧ Blank e.after) ∧ Value e.irregular e.value e.text

/-- The parts of a member are what they should be. -/
def Member.Ok (m : Member) : Prop :=
  (Blank m.keyBefore ∧ Blank m.keyAfter) ∧ Chars m.keyIrregular m.key m.keyText ∧ m.toElement.Ok

/-- The elements of an array, with commas between them. -/
def Elements (s : Bytes) : Prop :=
  ∃ es : List Element, es ≠ [] ∧ (∀ e ∈ es, e.Ok) ∧ s = commaSep (es.map Element.all)

/-- The members of an object, with commas between them. -/
def Members (s : Bytes) : Prop :=
  ∃ ms : List Member, ms ≠ [] ∧ (∀ m ∈ ms, m.Ok) ∧ s = commaSep (ms.map Member.whole)

variable {b : Bool} {k s t w w' e x : Bytes}

theorem IsValue.isText (h : IsValue x) : IsText x := by
  obtain ⟨b, v, h⟩ := h
  exact ⟨b, v, [], x, [], blank_nil, h, blank_nil, by simp⟩

theorem isText_iff : IsText s ↔ ∃ e : Element, e.Ok ∧ e.all = s := by
  constructor
  · rintro ⟨b, v, w, x, w', hw, hx, hw', rfl⟩
    exact ⟨⟨w, b, v, x, w'⟩, ⟨⟨hw, hw'⟩, hx⟩, rfl⟩
  · rintro ⟨e, ⟨⟨hw, hw'⟩, hx⟩, rfl⟩
    exact ⟨_, _, _, _, _, hw, hx, hw', rfl⟩

theorem isText_iff_json_decode : IsText s ↔ ∃ v, json_decode s = .ok v := by
  simp only [IsText, json_decode_eq_ok_iff]
  exact exists_comm

theorem commaSep_concat (ss : List Bytes) (s : Bytes) :
    commaSep (ss ++ [s]) = ss.flatMap (· ++ [comma]) ++ s := by
  induction ss with
  | nil => rfl
  | cons u ss ih =>
    rw [List.cons_append, commaSep_cons u (by simp), ih, List.flatMap_cons]
    simp

theorem commaSep_both {ss ts : List Bytes} (hs : ss ≠ []) (ht : ts ≠ []) :
    commaSep (ss ++ ts) = commaSep ss ++ comma :: commaSep ts := by
  induction ss with
  | nil => exact absurd rfl hs
  | cons u ss ih =>
    rw [List.cons_append, commaSep_cons u (by simp [ht])]
    by_cases hss : ss = []
    · subst hss
      rfl
    · rw [ih hss, commaSep_cons u hss]
      simp

theorem elements_of_isText (h : IsText s) : Elements s := by
  obtain ⟨e, he, rfl⟩ := isText_iff.mp h
  exact ⟨[e], by simp, by simpa using he, rfl⟩

theorem Elements.append (hs : Elements s) (ht : Elements t) : Elements (s ++ comma :: t) := by
  obtain ⟨es, hes, hok, rfl⟩ := hs
  obtain ⟨es', hes', hok', rfl⟩ := ht
  refine ⟨es ++ es', by simp [hes], fun e he => ?_, ?_⟩
  · exact (List.mem_append.mp he).elim (hok e) (hok' e)
  · rw [List.map_append, commaSep_both (by simpa using hes) (by simpa using hes')]

theorem members_of_chars (hw : Blank w) (hk : Chars b s k) (hw' : Blank w') (he : IsText e) :
    Members (w ++ quote :: (k ++ quote :: (w' ++ colon :: e))) := by
  obtain ⟨el, hel, rfl⟩ := isText_iff.mp he
  exact ⟨[⟨el, w, b, s, k, w'⟩], by simp, by simpa using ⟨⟨hw, hw'⟩, hk, hel⟩, rfl⟩

theorem Members.append (hs : Members s) (ht : Members t) : Members (s ++ comma :: t) := by
  obtain ⟨ms, hms, hok, rfl⟩ := hs
  obtain ⟨ms', hms', hok', rfl⟩ := ht
  refine ⟨ms ++ ms', by simp [hms], fun m hm => ?_, ?_⟩
  · exact (List.mem_append.mp hm).elim (hok m) (hok' m)
  · rw [List.map_append, commaSep_both (by simpa using hms) (by simpa using hms')]

theorem isValue_array (h : Elements s) : IsValue (lbracket :: (s ++ [rbracket])) := by
  obtain ⟨es, hes, hok, rfl⟩ := h
  exact ⟨_, _, .array es hes (fun e he => (hok e he).1) fun e he => (hok e he).2⟩

theorem isValue_object (h : Members s) : IsValue (lbrace :: (s ++ [rbrace])) := by
  obtain ⟨ms, hms, hok, rfl⟩ := h
  refine ⟨_, _, .object ms hms (fun m hm => ?_) (fun m hm => (hok m hm).2.1)
    fun m hm => (hok m hm).2.2.2⟩
  obtain ⟨⟨hb, ha⟩, -, hel, -⟩ := hok m hm
  exact ⟨hb, ha, hel⟩

/-! ### Where texts begin and end -/

/-- White space in front of other characters. -/
theorem blank_cons_inj {c c' : UInt8} (hw : Blank w) (hw' : Blank w') (hc : isSpace c = false)
    (hc' : isSpace c' = false) (h : w ++ c :: s = w' ++ c' :: t) : w = w' ∧ c = c' ∧ s = t := by
  have hskip := congrArg skip_whitespace h
  rw [skip_whitespace_blank hw hc, skip_whitespace_blank hw' hc', List.cons.injEq] at hskip
  obtain ⟨rfl, rfl⟩ := hskip
  exact ⟨List.append_cancel_right h, rfl, rfl⟩

theorem blank_reverse (hw : Blank w) : Blank w.reverse := fun c hc => hw c (List.mem_reverse.mp hc)

/-- White space after other characters. -/
theorem concat_blank_inj {c c' : UInt8} (hw : Blank w) (hw' : Blank w') (hc : isSpace c = false)
    (hc' : isSpace c' = false) (h : s ++ c :: w = t ++ c' :: w') : s = t ∧ c = c' ∧ w = w' := by
  have hrev := congrArg List.reverse h
  simp only [List.reverse_append, List.reverse_cons, List.append_assoc, List.cons_append,
    List.nil_append] at hrev
  obtain ⟨hww, hcc, hst⟩ := blank_cons_inj (blank_reverse hw) (blank_reverse hw') hc hc' hrev
  exact ⟨List.reverse_injective hst, hcc, List.reverse_injective hww⟩

theorem Digits.concat {ds : Bytes} (h : Digits ds) : ∃ r d, ds = r ++ [d] ∧ isDigit d = true := by
  obtain ⟨r, d, rfl⟩ := List.eq_nil_or_concat' ds |>.resolve_left h.1
  exact ⟨r, d, rfl, h.2 d (by simp)⟩

/-- The last character of a number. -/
theorem number_last {v : LuaValue} (h : Number b v x) : ∃ r d, x = r ++ [d] ∧ isDigit d = true := by
  obtain ⟨-, hint, hfrac, hexp⟩ := h
  cases hexp with
  | some _ _ hds =>
    obtain ⟨r, d, rfl, hd⟩ := hds.concat
    exact ⟨_, d, by rw [← List.append_assoc, ← List.append_assoc], hd⟩
  | none =>
    cases hfrac with
    | some hds =>
      obtain ⟨r, d, rfl, hd⟩ := hds.concat
      exact ⟨_, d, by rw [List.append_nil, ← List.cons_append, ← List.append_assoc], hd⟩
    | none =>
      obtain ⟨r, d, rfl, hd⟩ := hint.concat
      exact ⟨_, d, by rw [List.append_nil, List.append_nil, ← List.append_assoc], hd⟩

theorem digit_last : ∀ d : UInt8, isDigit d = true → isSpace d = false ∧ d ≠ 0x65 := by
  intro d hd
  refine ⟨isSpace_of_number (.inr hd), ?_⟩
  rintro rfl
  cases hd

/-- The last character of a value; only `true` and `false` end with an `e`. -/
theorem value_last {v : LuaValue} (h : Value b v x) :
    ∃ r c, x = r ++ [c] ∧ isSpace c = false ∧ (c = 0x65 → x = trueText ∨ x = falseText) := by
  cases h with
  | null => exact ⟨[0x6e, 0x75, 0x6c], 0x6c, rfl, rfl, by decide⟩
  | true => exact ⟨[0x74, 0x72, 0x75], 0x65, rfl, rfl, fun _ => .inl rfl⟩
  | false => exact ⟨[0x66, 0x61, 0x6c, 0x73], 0x65, rfl, rfl, fun _ => .inr rfl⟩
  | number h =>
    obtain ⟨r, d, rfl, hd⟩ := number_last h
    exact ⟨r, d, rfl, (digit_last d hd).1, fun he => absurd he (digit_last d hd).2⟩
  | string _ => exact ⟨_, quote, (List.cons_append ..).symm, rfl, fun h => by cases h⟩
  | array_nil _ => exact ⟨_, rbracket, (List.cons_append ..).symm, rfl, fun h => by cases h⟩
  | array es _ _ _ => exact ⟨_, rbracket, (List.cons_append ..).symm, rfl, fun h => by cases h⟩
  | object_nil _ => exact ⟨_, rbrace, (List.cons_append ..).symm, rfl, fun h => by cases h⟩
  | object ms _ _ _ _ => exact ⟨_, rbrace, (List.cons_append ..).symm, rfl, fun h => by cases h⟩

/-- A text in braces is that of an object. -/
theorem members_of_isText (h : IsText (lbrace :: (s ++ [rbrace]))) : Blank s ∨ Members s := by
  obtain ⟨b, v, w, x, w', hw, hx, hw', heq⟩ := h
  -- There is no white space around the braces.
  obtain ⟨c, r, rfl, hc, -⟩ := value_head hx
  obtain ⟨rfl, -, -⟩ := blank_cons_inj blank_nil hw rfl hc
    (show [] ++ lbrace :: (s ++ [rbrace]) = w ++ c :: (r ++ w') by simpa using heq)
  obtain ⟨r', d, hr', hd, -⟩ := value_last hx
  rw [hr'] at heq
  obtain ⟨-, -, rfl⟩ := concat_blank_inj blank_nil hw' rfl hd
    (show (lbrace :: s) ++ rbrace :: [] = r' ++ d :: w' by simpa using heq)
  rw [← hr', List.nil_append, List.append_nil] at heq
  rw [← heq] at hx
  generalize hout : lbrace :: (s ++ [rbrace]) = out at hx
  cases hx with
  | null => cases hout
  | true => cases hout
  | false => cases hout
  | number h =>
    obtain ⟨c, r, rfl, hc⟩ := number_head h
    obtain ⟨rfl, -⟩ := List.cons.inj hout
    exact absurd hc (by decide)
  | string _ => cases hout
  | array_nil _ => cases hout
  | array es _ _ _ => cases hout
  | object_nil hblank =>
    obtain rfl := List.append_cancel_right (List.cons.inj hout).2
    exact .inl hblank
  | object ms hne hblank hkeys hvalues =>
    obtain rfl := List.append_cancel_right (List.cons.inj hout).2
    refine .inr ⟨ms, hne, fun m hm => ?_, rfl⟩
    obtain ⟨hb, ha, hel⟩ := hblank m hm
    exact ⟨⟨hb, ha⟩, hkeys m hm, hel, hvalues m hm⟩

/-! ### Keys -/

/-- A text that may be put between the quotes of a key: characters of a string literal; or the end
of the key and a value, other members, and the beginning of another key. -/
inductive KeyText : Bytes → Prop
  | chars {b : Bool} {s k : Bytes} : Chars b s k → KeyText k
  | member {b : Bool} {s k w e w' t : Bytes} : Chars b s k → Blank w → IsText e → Blank w' →
      KeyText t → KeyText (k ++ quote :: (w ++ colon :: (e ++ comma :: (w' ++ quote :: t))))

/-- The text between the quotes of a key gives members. -/
theorem KeyText.members (h : KeyText t) (hw : Blank w) (hw' : Blank w') (he : IsText e) :
    Members (w ++ quote :: (t ++ quote :: (w' ++ colon :: e))) := by
  induction h generalizing w with
  | chars hk => exact members_of_chars hw hk hw' he
  | member hk hv hx hv' _ ih =>
    have happend := (members_of_chars hw hk hv hx).append (ih hv')
    simpa using happend

/-- Members, and the beginning of one more, begin with a quote. -/
theorem exists_quote {ms : List Member} (h : ∀ m ∈ ms, m.Ok) (hw : Blank w) :
    ∃ w' t, Blank w' ∧ ms.flatMap (fun m => m.whole ++ [comma]) ++ (w ++ quote :: k) =
      w' ++ quote :: t := by
  cases ms with
  | nil => exact ⟨w, k, hw, rfl⟩
  | cons m ms =>
    refine ⟨m.keyBefore, m.keyText ++ quote :: (m.keyAfter ++ colon :: m.toElement.all) ++ [comma] ++
      (ms.flatMap (fun m => m.whole ++ [comma]) ++ (w ++ quote :: k)),
      (h m List.mem_cons_self).1.1, ?_⟩
    rw [List.flatMap_cons, Member.whole]
    simp only [List.append_assoc, List.cons_append]

/-- The text between the first quote of members and a last key. -/
theorem keyText_of_members {ms : List Member} (h : ∀ m ∈ ms, m.Ok) (hk : Chars b s k)
    (hw : Blank w) (hw' : Blank w')
    (heq : ms.flatMap (fun m => m.whole ++ [comma]) ++ (w ++ quote :: k) = w' ++ quote :: t) :
    KeyText t := by
  induction ms generalizing w' t with
  | nil =>
    obtain ⟨-, -, rfl⟩ := blank_cons_inj hw hw' rfl rfl heq
    exact .chars hk
  | cons m ms ih =>
    obtain ⟨hm, hms⟩ := List.forall_mem_cons.mp h
    obtain ⟨⟨hb, ha⟩, hkey, hel⟩ := hm
    obtain ⟨v, u, hv, hrest⟩ := @exists_quote k w ms hms hw
    rw [List.flatMap_cons, List.append_assoc, hrest, Member.whole] at heq
    simp only [List.append_assoc, List.cons_append, List.nil_append] at heq
    obtain ⟨-, -, rfl⟩ := blank_cons_inj hb hw' rfl rfl heq
    exact .member hkey ha (isText_iff.mpr ⟨_, hel, rfl⟩) hv (ih hms hv hrest)

/-- A value that ends where `true` does is `true`. -/
theorem value_eq_true {v : LuaValue} (h : Value b v x) (hw : Blank w) (hw' : Blank w')
    (heq : s ++ (trueText ++ w) = t ++ (x ++ w')) : x = trueText ∧ s = t := by
  obtain ⟨r, c, rfl, hc, hlast⟩ := value_last h
  obtain ⟨hfront, rfl, -⟩ := concat_blank_inj hw hw' (show isSpace 0x65 = false from rfl) hc
    (show s ++ [0x74, 0x72, 0x75] ++ 0x65 :: w = t ++ r ++ c :: w' by simpa [trueText] using heq)
  rcases hlast rfl with htext | htext
  · obtain rfl : r = [0x74, 0x72, 0x75] :=
      List.append_cancel_right (show r ++ [0x65] = [0x74, 0x72, 0x75] ++ [0x65] from htext)
    exact ⟨rfl, List.append_cancel_right hfront⟩
  · obtain rfl : r = [0x66, 0x61, 0x6c, 0x73] :=
      List.append_cancel_right (show r ++ [0x65] = [0x66, 0x61, 0x6c, 0x73] ++ [0x65] from htext)
    obtain ⟨-, hcontra, -⟩ := concat_blank_inj blank_nil blank_nil
      (show isSpace 0x75 = false from rfl) (show isSpace 0x73 = false from rfl)
      (show s ++ [0x74, 0x72] ++ 0x75 :: [] = t ++ [0x66, 0x61, 0x6c] ++ 0x73 :: [] by
        simpa using hfront)
    cases hcontra

/-- **No other text gives an object.**  The text of a key with the value `true`, which is put
between quotes as it is, gives the text of an object if and only if it may be there. -/
theorem isText_key_iff {w₁ w₂ w₃ : Bytes} (h₁ : Blank w₁) (h₂ : Blank w₂) (h₃ : Blank w₃) :
    IsText (lbrace :: ((w₁ ++ quote :: (t ++ quote :: colon :: (w₂ ++ trueText ++ w₃))) ++
      [rbrace])) ↔ KeyText t := by
  have htrue : IsText (w₂ ++ trueText ++ w₃) := ⟨_, _, _, _, _, h₂, .true, h₃, rfl⟩
  constructor
  · intro h
    rcases members_of_isText h with hblank | ⟨ms, hne, hok, heq⟩
    · have hquote := hblank quote (by simp)
      cases hquote
    · obtain ⟨init, m, rfl⟩ := List.eq_nil_or_concat' ms |>.resolve_left hne
      obtain ⟨⟨hb, ha⟩, hkey, ⟨hb', ha'⟩, hvalue⟩ := hok m (by simp)
      rw [List.map_append, List.map_singleton, commaSep_concat, List.flatMap_map, Member.whole,
        Element.all] at heq
      -- From the end: the value, the colon, the quote after the key.
      obtain ⟨-, hfront⟩ := value_eq_true hvalue h₃ ha'
        (show w₁ ++ quote :: (t ++ quote :: colon :: w₂) ++ (trueText ++ w₃) =
          init.flatMap (fun m => m.whole ++ [comma]) ++ (m.keyBefore ++ quote ::
            (m.keyText ++ quote :: (m.keyAfter ++ colon :: m.before))) ++ (m.text ++ m.after) by
          simpa using heq)
      obtain ⟨hcolon, -, -⟩ := concat_blank_inj h₂ hb' rfl rfl
        (show w₁ ++ quote :: (t ++ [quote]) ++ colon :: w₂ =
          init.flatMap (fun m => m.whole ++ [comma]) ++ (m.keyBefore ++ quote ::
            (m.keyText ++ quote :: m.keyAfter)) ++ colon :: m.before by simpa using hfront)
      obtain ⟨hquote, -, -⟩ := concat_blank_inj blank_nil ha rfl rfl
        (show w₁ ++ quote :: t ++ quote :: [] =
          init.flatMap (fun m => m.whole ++ [comma]) ++ (m.keyBefore ++ quote :: m.keyText) ++
            quote :: m.keyAfter by simpa using hcolon)
      exact keyText_of_members (fun m hm => hok m (by simp [hm])) hkey hb h₁ hquote.symm
  · intro h
    have hmembers := h.members h₁ blank_nil htrue
    exact (isValue_object hmembers).isText

end LuaJson

end Jaci
