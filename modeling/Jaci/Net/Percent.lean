import Jaci.Lib.Strto
import Jaci.Lib.Wire

/-!
# Percent encoding

`net.urldecode` asks `strtol` whether the two bytes after a percent sign are hexadecimal digits.
`strtol` also takes white space and signs.

* `urlencode`, `urldecode` : the source;
* `percentDecode` : what decoding is;
* `urldecode_iff` : **when both are the same**, and what was encoded is decoded;
* `urldecode_sign` : a sign is taken for a digit.
-/

namespace Jaci

namespace Net

open Wire Strto

/-! ### The source -/

def isalnum (c : UInt8) : Bool :=
  (0x30 ≤ c && c ≤ 0x39) || (0x41 ≤ c && c ≤ 0x5a) || (0x61 ≤ c && c ≤ 0x7a)

/-- A digit of the format `%02X`. -/
def upperHex (n : ℕ) : UInt8 := if n < 10 then .ofNat (0x30 + n) else .ofNat (0x41 + (n - 10))

/-- A round of `net_urlencode`. -/
def encodeByte (c : UInt8) : Bytes :=
  if isalnum c || c == 0x2d || c == 0x5f || c == 0x2e || c == 0x7e then [c]
  else [0x25, upperHex (c.toNat / 16), upperHex (c.toNat % 16)]

/-- `net_urlencode`. -/
def urlencode (s : Bytes) : Bytes := s.flatMap encodeByte

/-- What a byte is copied as. -/
def plain (c : UInt8) : UInt8 := if c = 0x2b then 0x20 else c

/-- `net_urldecode`, from some byte on. -/
def urldecode : Bytes → Bytes
  | 0x25 :: c :: d :: rest =>
    let (val, read) := strtol [c, d] 16
    if read = 2 then UInt8.ofInt val :: urldecode rest else plain 0x25 :: urldecode (c :: d :: rest)
  | b :: rest => plain b :: urldecode rest
  | [] => []

/-! ### What decoding is -/

/-- The byte that two hexadecimal digits denote. -/
def hexByte (c d : UInt8) : Option UInt8 :=
  if isDigit 16 c ∧ isDigit 16 d then some (.ofNat (number 16 [c, d])) else none

/-- A percent sign and two hexadecimal digits are a byte, a plus sign is a space, and every other byte
stands for itself. -/
def percentDecode : Bytes → Bytes
  | 0x25 :: c :: d :: rest =>
    match hexByte c d with
    | some b => b :: percentDecode rest
    | none => 0x25 :: percentDecode (c :: d :: rest)
  | b :: rest => (if b = 0x2b then 0x20 else b) :: percentDecode rest
  | [] => []

/-- After a percent sign there is white space or a sign, and a digit. -/
def Lenient (s : Bytes) : Prop :=
  ∃ c d, isLead c = true ∧ isDigit 16 d = true ∧ [0x25, c, d] <:+: s

variable {s rest : Bytes} {b c d : UInt8}

/-! ### Where they differ -/

theorem lenient_cons : Lenient (b :: rest) ↔
    (∃ c d, isLead c = true ∧ isDigit 16 d = true ∧ [0x25, c, d] <+: b :: rest) ∨ Lenient rest := by
  simp only [Lenient, List.infix_cons_iff]
  constructor
  · rintro ⟨c, d, hc, hd, hbegins | hin⟩
    · exact .inl ⟨c, d, hc, hd, hbegins⟩
    · exact .inr ⟨c, d, hc, hd, hin⟩
  · rintro (⟨c, d, hc, hd, hbegins⟩ | ⟨c, d, hc, hd, hin⟩)
    · exact ⟨c, d, hc, hd, .inl hbegins⟩
    · exact ⟨c, d, hc, hd, .inr hin⟩

theorem lenient_cons_of_ne (h : b ≠ 0x25) : Lenient (b :: rest) ↔ Lenient rest := by
  rw [lenient_cons, or_iff_right]
  rintro ⟨c, d, -, -, hbegins⟩
  exact h (List.cons_prefix_cons.1 hbegins).1.symm

theorem lenient_percent : Lenient (0x25 :: c :: d :: rest) ↔
    (isLead c = true ∧ isDigit 16 d = true) ∨ Lenient (c :: d :: rest) := by
  rw [lenient_cons]
  refine or_congr_left ⟨?_, fun ⟨hc, hd⟩ => ⟨c, d, hc, hd, rest, rfl⟩⟩
  rintro ⟨c', d', hc, hd, hbegins⟩
  have hc' := (List.cons_prefix_cons.1 (List.cons_prefix_cons.1 hbegins).2).1
  have hd' := (List.cons_prefix_cons.1
    (List.cons_prefix_cons.1 (List.cons_prefix_cons.1 hbegins).2).2).1
  exact ⟨hc' ▸ hc, hd' ▸ hd⟩

theorem isDigit_ne_percent (h : isDigit 16 c = true) : c ≠ 0x25 := by
  rintro rfl
  exact absurd (isDigit_ge h) (by decide)

theorem urldecode_digits (hc : isDigit 16 c = true) (hd : isDigit 16 d = true) :
    urldecode (0x25 :: c :: d :: rest) = .ofNat (number 16 [c, d]) :: urldecode rest := by
  rw [urldecode]
  have hread := (@strtol_pair 16 c d).2 ⟨.inl hc, hd⟩
  have hval := strtol_digits hc hd
  have hbyte : UInt8.ofInt (number 16 [c, d] : ℤ) = .ofNat (number 16 [c, d]) := by
    rw [UInt8.ofInt]
    refine UInt8.toNat_inj.1 ?_
    rw [UInt8.toNat_ofNat', UInt8.toNat_ofNat']
    omega
  rw [← Prod.eta (strtol [c, d] 16), hread, hval, ← hbyte]
  rfl

theorem percentDecode_digits (hc : isDigit 16 c = true) (hd : isDigit 16 d = true) :
    percentDecode (0x25 :: c :: d :: rest) = .ofNat (number 16 [c, d]) :: percentDecode rest := by
  rw [percentDecode, hexByte, if_pos ⟨hc, hd⟩]

theorem lenient_digits (hc : isDigit 16 c = true) (hd : isDigit 16 d = true) :
    Lenient (0x25 :: c :: d :: rest) ↔ Lenient rest := by
  rw [lenient_percent, lenient_cons_of_ne (isDigit_ne_percent hc),
    lenient_cons_of_ne (isDigit_ne_percent hd), or_iff_right]
  rintro ⟨hlead, -⟩
  rw [not_isDigit_of_isLead hlead] at hc
  cases hc

/-- A digit after white space or a sign is read as a byte that is no percent sign. -/
theorem urldecode_lead (hc : isLead c = true) (hd : isDigit 16 d = true) :
    ∃ v, urldecode (0x25 :: c :: d :: rest) = v :: urldecode rest ∧ v ≠ 0x25 := by
  have hread := (@strtol_pair 16 c d).2 ⟨.inr hc, hd⟩
  obtain ⟨hlow, hhigh⟩ := strtol_lead hc hd
  refine ⟨.ofInt (strtol [c, d] 16).1, ?_, fun heq => ?_⟩
  · rw [urldecode, ← Prod.eta (strtol [c, d] 16), hread]
    rfl
  · have hnat := congrArg UInt8.toNat heq
    rw [UInt8.ofInt, UInt8.toNat_ofNat'] at hnat
    have h25 : (0x25 : UInt8).toNat = 37 := rfl
    omega

theorem percentDecode_none (h : ¬ (isDigit 16 c = true ∧ isDigit 16 d = true)) :
    percentDecode (0x25 :: c :: d :: rest) = 0x25 :: percentDecode (c :: d :: rest) := by
  rw [percentDecode, hexByte, if_neg h]

/-- Decoding is exact if no white space or sign stands for a digit. -/
theorem urldecode_eq_iff (s : Bytes) : urldecode s = percentDecode s ↔ ¬Lenient s := by
  induction s using urldecode.induct with
  | case1 c d rest val hread ih =>
    obtain ⟨hlead, hd⟩ := (@strtol_pair 16 c d).1 (by rw [hread])
    by_cases hc : isDigit 16 c = true
    · rw [urldecode_digits hc hd, percentDecode_digits hc hd, lenient_digits hc hd,
        List.cons_inj_right, ih]
    · have hl := hlead.resolve_left hc
      obtain ⟨v, hv, hne⟩ := @urldecode_lead rest c d hl hd
      rw [hv, percentDecode_none fun h => hc h.1, lenient_percent]
      exact ⟨fun heq => absurd (List.cons.inj heq).1 hne, fun h => absurd (.inl ⟨hl, hd⟩) h⟩
  | case2 c d rest val read hread hne ih =>
    have hnot : ¬ ((isDigit 16 c = true ∨ isLead c = true) ∧ isDigit 16 d = true) := by
      rw [← strtol_pair, hread]
      exact hne
    rw [percentDecode_none fun h => hnot ⟨.inl h.1, h.2⟩, lenient_percent,
      or_iff_right fun h => hnot ⟨.inr h.1, h.2⟩, ← ih, urldecode, hread]
    simp only [if_neg hne]
    rw [show plain 0x25 = 0x25 from rfl, List.cons_inj_right]
  | case3 b rest hnot ih =>
    rw [urldecode.eq_2 b rest hnot, percentDecode.eq_2 b rest hnot, lenient_cons, or_iff_right, ← ih,
      plain, List.cons_inj_right]
    rintro ⟨c, d, -, -, hbegins⟩
    obtain ⟨rfl, rest', rfl⟩ := List.cons_prefix_cons.1 hbegins
    exact hnot c d rest' rfl rfl
  | case4 =>
    refine ⟨fun _ => ?_, fun _ => rfl⟩
    rintro ⟨c, d, -, -, hin⟩
    exact absurd (List.eq_nil_of_infix_nil hin) (List.cons_ne_nil _ _)

/-! ### What was encoded -/

theorem upperHex_spec : ∀ n < 16, value (upperHex n) = some n := by
  decide

theorem isDigit_upperHex {n : ℕ} (h : n < 16) : isDigit 16 (upperHex n) = true :=
  isDigit_iff.2 ⟨n, upperHex_spec n h, h⟩

theorem urldecode_encodeByte (c : UInt8) (rest : Bytes) :
    urldecode (encodeByte c ++ rest) = c :: urldecode rest := by
  rw [encodeByte]
  split_ifs with hsafe
  · have hne : c ≠ 0x25 ∧ c ≠ 0x2b := by
      constructor <;> rintro rfl <;> exact absurd hsafe (by decide)
    rw [List.singleton_append, urldecode.eq_2 c rest fun _ _ _ heq => absurd heq hne.1, plain,
      if_neg hne.2]
  · have hlt := c.toNat_lt
    have hhigh : c.toNat / 16 < 16 := by omega
    have hlow : c.toNat % 16 < 16 := Nat.mod_lt _ (by decide)
    rw [List.cons_append, List.cons_append, List.cons_append, List.nil_append,
      urldecode_digits (isDigit_upperHex hhigh) (isDigit_upperHex hlow)]
    simp only [number, List.foldl_cons, List.foldl_nil, upperHex_spec _ hhigh, upperHex_spec _ hlow,
      Option.getD_some, Nat.zero_mul, Nat.zero_add]
    rw [Nat.mul_comm, Nat.div_add_mod, UInt8.ofNat_toNat]

theorem urldecode_encode (s : Bytes) : urldecode (urlencode s) = s := by
  induction s with
  | nil => rfl
  | cons c s ih => rw [urlencode, List.flatMap_cons, urldecode_encodeByte, ← urlencode, ih]

/-- **Percent decoding is exact if and only if** no percent sign is followed by white space or a sign
and a digit.  What `net.urlencode` writes is always decoded. -/
theorem urldecode_iff (s : Bytes) :
    (urldecode s = percentDecode s ↔ ¬Lenient s) ∧ urldecode (urlencode s) = s :=
  ⟨urldecode_eq_iff s, urldecode_encode s⟩

/-- `%+4` is decoded as the byte 4. -/
theorem urldecode_sign : urldecode [0x25, 0x2b, 0x34] = [4] ∧
    percentDecode [0x25, 0x2b, 0x34] = [0x25, 0x20, 0x34] := by
  decide

end Net

end Jaci
