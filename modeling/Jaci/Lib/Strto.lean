import Mathlib

/-!
# The numerals of the C library

`strtol`, `strtoul` and `atoi` read a numeral at the start of a string: white space, a sign, a prefix
`0x` for base 16, and digits.  What does not fit is clamped.

* `subject` : the numeral at the start;
* `strtol`, `strtoul`, `atoi` : the functions;
* `subject_digits` : digits are read, up to what follows them;
* `strtol_pair` : which strings of two bytes are read to their end.
-/

namespace Strto

def isspace (c : UInt8) : Bool := c == 0x20 || (0x09 ≤ c && c ≤ 0x0d)

/-- The value of a digit or a letter. -/
def value (c : UInt8) : Option ℕ :=
  if 0x30 ≤ c ∧ c ≤ 0x39 then some (c.toNat - 0x30)
  else if 0x41 ≤ c ∧ c ≤ 0x5a then some (c.toNat - 0x41 + 10)
  else if 0x61 ≤ c ∧ c ≤ 0x7a then some (c.toNat - 0x61 + 10)
  else none

def isDigit (base : ℕ) (c : UInt8) : Bool := (value c).any (· < base)

/-- The number that digits denote. -/
def number (base : ℕ) (s : List UInt8) : ℕ :=
  s.foldl (fun acc c => acc * base + (value c).getD 0) 0

/-- A string ends at its first zero. -/
def cstr (s : List UInt8) : List UInt8 := s.takeWhile (· ≠ 0)

/-- The sign, and what follows it. -/
def sign : List UInt8 → Bool × List UInt8
  | 0x2d :: s => (true, s)
  | 0x2b :: s => (false, s)
  | s => (false, s)

/-- What follows the prefix of base 16; there is none if no digit follows. -/
def skipPrefix (base : ℕ) : List UInt8 → List UInt8
  | 0x30 :: x :: d :: s =>
    if base = 16 ∧ (x = 0x78 ∨ x = 0x58) ∧ isDigit base d then d :: s else 0x30 :: x :: d :: s
  | s => s

/-- The numeral at the start: its sign, its digits, and what follows them. -/
def subject (base : ℕ) (s : List UInt8) : Option (Bool × List UInt8 × List UInt8) :=
  let (negative, rest) := sign (s.dropWhile isspace)
  let rest := skipPrefix base rest
  let digits := rest.takeWhile (isDigit base)
  if digits = [] then none else some (negative, digits, rest.dropWhile (isDigit base))

/-- `strtol`: the number, and how many bytes were read. -/
def strtol (s : List UInt8) (base : ℕ) : ℤ × ℕ :=
  match subject base (cstr s) with
  | none => (0, 0)
  | some (negative, digits, rest) =>
    (max (-2 ^ 63) (min (2 ^ 63 - 1) (if negative then -number base digits else number base digits)),
      (cstr s).length - rest.length)

/-- `strtoul`: a sign negates modulo `2 ^ 64`. -/
def strtoul (s : List UInt8) (base : ℕ) : ℕ :=
  match subject base (cstr s) with
  | none => 0
  | some (negative, digits, _) =>
    if number base digits ≥ 2 ^ 64 then 2 ^ 64 - 1
    else if negative then (2 ^ 64 - number base digits) % 2 ^ 64
    else number base digits

/-- `atoi`, with an `int` of 32 bits. -/
def atoi (s : List UInt8) : ℤ := (strtol s 10).1.bmod (2 ^ 32)

/-! ### Digits -/

variable {base : ℕ} {c d : UInt8} {s ds rest : List UInt8}

theorem value_cases {n : ℕ} (h : value c = some n) :
    (0x30 ≤ c ∧ c ≤ 0x39 ∧ n = c.toNat - 0x30) ∨ (0x41 ≤ c ∧ c ≤ 0x5a ∧ n = c.toNat - 0x41 + 10) ∨
      (0x61 ≤ c ∧ c ≤ 0x7a ∧ n = c.toNat - 0x61 + 10) := by
  rw [value] at h
  split_ifs at h with h1 h2 h3
  · exact .inl ⟨h1.1, h1.2, (Option.some.inj h).symm⟩
  · exact .inr (.inl ⟨h2.1, h2.2, (Option.some.inj h).symm⟩)
  · exact .inr (.inr ⟨h3.1, h3.2, (Option.some.inj h).symm⟩)

theorem isDigit_iff : isDigit base c = true ↔ ∃ n, value c = some n ∧ n < base := by
  cases h : value c <;> simp [isDigit, h]

/-- A digit is neither white space nor a sign nor a zero byte. -/
theorem isDigit_ge (h : isDigit base c = true) : 0x30 ≤ c := by
  obtain ⟨n, hn, -⟩ := isDigit_iff.1 h
  rcases value_cases hn with ⟨hc, -⟩ | ⟨hc, -⟩ | ⟨hc, -⟩
  · exact hc
  · exact UInt8.le_trans (by decide) hc
  · exact UInt8.le_trans (by decide) hc

theorem isDigit_ne_zero (h : isDigit base c = true) : c ≠ 0 := by
  rintro rfl
  exact absurd (isDigit_ge h) (by decide)

theorem not_isspace_of_isDigit (h : isDigit base c = true) : isspace c = false := by
  have hge := UInt8.le_iff_toNat_le.1 (isDigit_ge h)
  rw [Bool.eq_false_iff]
  intro hspace
  simp only [isspace, Bool.or_eq_true, beq_iff_eq, Bool.and_eq_true, decide_eq_true_eq] at hspace
  rcases hspace with rfl | ⟨-, hle⟩
  · exact absurd hge (by decide)
  · have hle := UInt8.le_iff_toNat_le.1 hle
    have h30 : (0x30 : UInt8).toNat = 48 := rfl
    have h0d : (0x0d : UInt8).toNat = 13 := rfl
    omega

theorem sign_of_isDigit (h : isDigit base c = true) : sign (c :: s) = (false, c :: s) := by
  have hge := isDigit_ge h
  rw [sign]
  · rintro rest heq
    obtain ⟨rfl, -⟩ := List.cons.inj heq
    exact absurd hge (by decide)
  · rintro rest heq
    obtain ⟨rfl, -⟩ := List.cons.inj heq
    exact absurd hge (by decide)

theorem skipPrefix_of_ne (h : ∀ x d rest, s = 0x30 :: x :: d :: rest →
    ¬ (base = 16 ∧ (x = 0x78 ∨ x = 0x58) ∧ isDigit base d)) : skipPrefix base s = s := by
  rw [skipPrefix.eq_def]
  split
  · next x d rest => rw [if_neg (h x d rest rfl)]
  · rfl

/-! ### Digits and what follows them -/

/-- What follows digits is neither a digit nor the letter of a prefix. -/
def Ends (base : ℕ) (rest : List UInt8) : Prop :=
  ∀ c ∈ rest.head?, isDigit base c = false ∧ c ≠ 0x78 ∧ c ≠ 0x58

theorem isDigit_ne_letter (hbase : base ≤ 16) (h : isDigit base c = true) : c ≠ 0x78 ∧ c ≠ 0x58 := by
  obtain ⟨n, hn, hlt⟩ := isDigit_iff.1 h
  constructor
  · rintro rfl
    have hval : value 0x78 = some 33 := by decide
    rw [hval] at hn
    cases hn
    omega
  · rintro rfl
    have hval : value 0x58 = some 33 := by decide
    rw [hval] at hn
    cases hn
    omega

theorem skipPrefix_digits (hbase : base ≤ 16) (hds : ∀ c ∈ ds, isDigit base c = true)
    (hends : Ends base rest) (hne : ds ≠ []) : skipPrefix base (ds ++ rest) = ds ++ rest := by
  refine skipPrefix_of_ne fun x d tail heq ⟨_, hx, _⟩ => ?_
  have hletter : x ≠ 0x78 ∧ x ≠ 0x58 := by
    rcases ds with _ | ⟨a, _ | ⟨b, ds⟩⟩
    · exact absurd rfl hne
    · obtain ⟨-, hrest⟩ := List.cons.inj heq
      have hhead : rest = x :: d :: tail := hrest
      exact (hends x (by rw [hhead]; rfl)).2
    · obtain ⟨-, hrest⟩ := List.cons.inj heq
      obtain ⟨rfl, -⟩ := List.cons.inj hrest
      exact isDigit_ne_letter hbase (hds b (by simp))
  exact hx.elim hletter.1 hletter.2

theorem takeWhile_digits (hds : ∀ c ∈ ds, isDigit base c = true) (hends : Ends base rest) :
    (ds ++ rest).takeWhile (isDigit base) = ds ∧ (ds ++ rest).dropWhile (isDigit base) = rest := by
  rw [List.takeWhile_append_of_pos hds, List.dropWhile_append_of_pos hds]
  cases rest with
  | nil => exact ⟨List.append_nil _, rfl⟩
  | cons c rest =>
    have hc := (hends c rfl).1
    rw [List.takeWhile_cons_of_neg (by simp [hc]), List.dropWhile_cons_of_neg (by simp [hc]),
      List.append_nil]
    exact ⟨rfl, rfl⟩

/-- **Digits are read**, up to what follows them. -/
theorem subject_digits (hbase : base ≤ 16) (hds : ∀ c ∈ ds, isDigit base c = true) (hne : ds ≠ [])
    (hends : Ends base rest) : subject base (ds ++ rest) = some (false, ds, rest) := by
  have hstart : ∃ c tail, ds ++ rest = c :: tail ∧ isDigit base c = true := by
    cases ds with
    | nil => exact absurd rfl hne
    | cons c ds => exact ⟨c, ds ++ rest, rfl, hds c List.mem_cons_self⟩
  obtain ⟨c, tail, heq, hc⟩ := hstart
  have hsign : sign ((ds ++ rest).dropWhile isspace) = (false, ds ++ rest) := by
    rw [heq, List.dropWhile_cons_of_neg (by simp [not_isspace_of_isDigit hc]), sign_of_isDigit hc]
  simp only [subject, hsign, skipPrefix_digits hbase hds hends hne,
    (takeWhile_digits hds hends).1, (takeWhile_digits hds hends).2, if_neg hne]

theorem cstr_digits (hds : ∀ c ∈ ds, isDigit base c = true) : cstr (ds ++ rest) = ds ++ cstr rest :=
  List.takeWhile_append_of_pos fun c hc => by simp [isDigit_ne_zero (hds c hc)]

theorem Ends.cstr (h : Ends base rest) : Ends base (cstr rest) := by
  cases rest with
  | nil => exact h
  | cons c rest =>
    by_cases hc : c = 0
    · subst hc
      intro d hd
      cases hd
    · rw [Strto.cstr, List.takeWhile_cons_of_pos (by simpa using hc)]
      exact fun d hd => h d hd

/-- A number that fits is read. -/
theorem strtoul_digits (hbase : base ≤ 16) (hds : ∀ c ∈ ds, isDigit base c = true) (hne : ds ≠ [])
    (hends : Ends base rest) (hlt : number base ds < 2 ^ 64) :
    strtoul (ds ++ rest) base = number base ds := by
  rw [strtoul, cstr_digits hds, subject_digits hbase hds hne hends.cstr]
  simp only [ge_iff_le, Nat.not_le.2 hlt, if_false, Bool.false_eq_true]

theorem strtoul_lt (s : List UInt8) (base : ℕ) : strtoul s base < 2 ^ 64 := by
  rw [strtoul]
  split
  · decide
  · split_ifs
    · decide
    · exact Nat.mod_lt _ (by decide)
    · omega

theorem atoi_nil : atoi [] = 0 := by decide

/-- A number is read by `atoi` exactly if it is an `int`. -/
theorem atoi_digits (hds : ∀ c ∈ ds, isDigit 10 c = true) (hne : ds ≠ []) :
    atoi ds = number 10 ds ↔ number 10 ds < 2 ^ 31 := by
  have hnil : Ends 10 [] := fun c hc => by cases hc
  have hsub := subject_digits (by decide) hds hne hnil
  have hcstr : cstr (ds ++ []) = ds ++ cstr [] := cstr_digits hds
  rw [List.append_nil] at hsub hcstr
  have hatoi : atoi ds = (max (-2 ^ 63) (min (2 ^ 63 - 1) (number 10 ds : ℤ))).bmod (2 ^ 32) := by
    rw [atoi, strtol, hcstr, show cstr [] = [] from rfl, List.append_nil, hsub]
    simp only [Bool.false_eq_true, if_false]
  rw [hatoi]
  constructor
  · intro h
    have hlt := Int.bmod_lt (x := max (-2 ^ 63) (min (2 ^ 63 - 1) (number 10 ds : ℤ)))
      (m := 2 ^ 32) (by decide)
    omega
  · intro h
    rw [Int.bmod_eq_of_le (by omega) (by omega)]
    omega

/-! ### Two bytes -/

def isLead (c : UInt8) : Bool := isspace c || c == 0x2b || c == 0x2d

theorem not_isDigit_of_isLead (h : isLead c = true) : isDigit base c = false := by
  rw [Bool.eq_false_iff]
  intro hd
  have hge := UInt8.le_iff_toNat_le.1 (isDigit_ge hd)
  have hspace := not_isspace_of_isDigit hd
  simp only [isLead, hspace, Bool.false_or, Bool.or_eq_true, beq_iff_eq] at h
  rcases h with rfl | rfl <;> exact absurd hge (by decide)

theorem isLead_ne_zero (h : isLead c = true) : c ≠ 0 := by
  rintro rfl
  exact absurd h (by decide)

theorem skipPrefix_pair : skipPrefix base [c, d] = [c, d] :=
  skipPrefix_of_ne fun x y rest h => by simp at h

theorem skipPrefix_singleton : skipPrefix base [c] = [c] :=
  skipPrefix_of_ne fun x y rest h => by simp at h

/-- What stands before a last digit is a digit, white space or a sign. -/
theorem subject_pair (hd : isDigit base d = true) :
    subject base [c, d] =
      if isDigit base c then some (false, [c, d], [])
      else if isLead c then some (c == 0x2d, [d], [])
      else none := by
  have hspace := not_isspace_of_isDigit hd
  by_cases hc : isDigit base c = true
  · rw [if_pos hc, subject, List.dropWhile_cons_of_neg (by simp [not_isspace_of_isDigit hc]),
      sign_of_isDigit hc]
    simp [skipPrefix_pair, hc, hd]
  · rw [if_neg hc]
    by_cases hspc : isspace c = true
    · have hne : (c == 0x2d) = false := by
        rw [beq_eq_false_iff_ne]
        rintro rfl
        exact absurd hspc (by decide)
      rw [if_pos (by simp [isLead, hspc]), subject, List.dropWhile_cons_of_pos hspc,
        List.dropWhile_cons_of_neg (by simp [hspace]), sign_of_isDigit hd, hne]
      simp [skipPrefix_singleton, hd]
    · rw [subject, List.dropWhile_cons_of_neg hspc]
      by_cases hminus : c = 0x2d
      · subst hminus
        simp [sign, skipPrefix_singleton, hd, isLead]
      · by_cases hplus : c = 0x2b
        · subst hplus
          simp [sign, skipPrefix_singleton, hd, isLead]
        · have hsign : sign [c, d] = (false, [c, d]) := by
            rw [sign]
            · rintro rest heq
              exact hminus (List.cons.inj heq).1
            · rintro rest heq
              exact hplus (List.cons.inj heq).1
          rw [hsign, if_neg (by simp [isLead, hspc, hminus, hplus])]
          simp [skipPrefix_pair, hc]

theorem sign_suffix (s : List UInt8) : (sign s).2 <:+ s := by
  rw [sign.eq_def]
  split
  · exact List.suffix_cons _ _
  · exact List.suffix_cons _ _
  · exact List.suffix_refl _

theorem skipPrefix_suffix (s : List UInt8) : skipPrefix base s <:+ s := by
  rw [skipPrefix.eq_def]
  split
  · split_ifs
    · exact ⟨[_, _], rfl⟩
    · exact List.suffix_refl _
  · exact List.suffix_refl _

/-- Every byte that was read from the digits on is a digit. -/
theorem subject_isDigit {negative : Bool} {ds : List UInt8}
    (h : subject base s = some (negative, ds, [])) (hs : s ≠ []) :
    isDigit base (s.getLast hs) = true := by
  simp only [subject] at h
  split_ifs at h with hnil
  obtain ⟨-, hds, hrest⟩ := by simpa only [Option.some.injEq, Prod.mk.injEq] using h
  set r := skipPrefix base (sign (s.dropWhile isspace)).2 with hr
  have hsuffix : r <:+ s :=
    ((skipPrefix_suffix _).trans (sign_suffix _)).trans (List.dropWhile_suffix _)
  have hne : r ≠ [] := by
    intro hnil'
    rw [hnil'] at hnil
    exact hnil rfl
  have hall := List.dropWhile_eq_nil_iff.1 hrest
  rw [← hsuffix.getLast hne]
  exact hall _ (List.getLast_mem hne)

/-- Which two bytes are read to their end. -/
theorem strtol_pair (c d : UInt8) :
    (strtol [c, d] base).2 = 2 ↔ (isDigit base c = true ∨ isLead c = true) ∧ isDigit base d = true := by
  constructor
  · intro h
    have hlen : (cstr [c, d]).length ≤ 2 := (List.takeWhile_prefix _).length_le
    rw [strtol] at h
    cases hsub : subject base (cstr [c, d]) with
    | none => rw [hsub] at h; cases h
    | some r =>
      obtain ⟨negative, ds, rest⟩ := r
      rw [hsub] at h
      dsimp only at h
      have hge : 2 ≤ (cstr [c, d]).length := by omega
      have hfull : cstr [c, d] = [c, d] := (List.takeWhile_prefix _).eq_of_length_le hge
      have hrest : rest = [] := List.length_eq_zero_iff.1 (by omega)
      rw [hfull, hrest] at hsub
      have hd : isDigit base d = true := subject_isDigit hsub (List.cons_ne_nil _ _)
      refine ⟨?_, hd⟩
      rw [subject_pair hd] at hsub
      split_ifs at hsub with hc hlead
      · exact .inl hc
      · exact .inr hlead
  · rintro ⟨hc, hd⟩
    have hne : c ≠ 0 := hc.elim isDigit_ne_zero isLead_ne_zero
    have hfull : cstr [c, d] = [c, d] := by simp [cstr, hne, isDigit_ne_zero hd]
    rw [strtol, hfull, subject_pair hd]
    by_cases hdigit : isDigit base c = true
    · rw [if_pos hdigit]
      rfl
    · rw [if_neg hdigit, if_pos (hc.resolve_left hdigit)]
      rfl

/-- Two digits are read as the number that they denote. -/
theorem strtol_digits (hc : isDigit 16 c = true) (hd : isDigit 16 d = true) :
    (strtol [c, d] 16).1 = number 16 [c, d] := by
  have hfull : cstr [c, d] = [c, d] := by simp [cstr, isDigit_ne_zero hc, isDigit_ne_zero hd]
  obtain ⟨n, hn, hlt⟩ := isDigit_iff.1 hc
  obtain ⟨m, hm, hlt'⟩ := isDigit_iff.1 hd
  have hnumber : number 16 [c, d] = n * 16 + m := by simp [number, hn, hm]
  rw [strtol, hfull, subject_pair hd, if_pos hc]
  simp only [hnumber, Bool.false_eq_true, if_false]
  omega

/-- After white space or a sign, one digit is read. -/
theorem strtol_lead (hc : isLead c = true) (hd : isDigit 16 d = true) :
    -16 < (strtol [c, d] 16).1 ∧ (strtol [c, d] 16).1 < 16 := by
  have hfull : cstr [c, d] = [c, d] := by simp [cstr, isLead_ne_zero hc, isDigit_ne_zero hd]
  obtain ⟨m, hm, hlt⟩ := isDigit_iff.1 hd
  have hnumber : number 16 [d] = m := by simp [number, hm]
  rw [strtol, hfull, subject_pair hd, if_neg (by simp [not_isDigit_of_isLead hc]), if_pos hc]
  simp only [hnumber]
  split_ifs <;> omega

end Strto
