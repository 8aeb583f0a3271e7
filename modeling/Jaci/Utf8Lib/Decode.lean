import Jaci.Lib.Utf8
import Jaci.Utf8Lib.Basic
import Mathlib.Tactic.IntervalCases

/-!
# Decoding

* `Gives` : what a call gives, with its rules for sequences and loops;
* `utf8_decode_spec` : **the decoder accepts exactly the encodings of scalar values**;
* `luaO_utf8esc_eq` : the encoder gives the encoding.
-/

namespace Jaci

namespace Utf8Lib

open Wire Utf8

/-! ### Calls -/

section Calls

variable {α β σ ρ : Type} {E : Fault → Prop}

/-- A call has such a result, or raises such an error. -/
def Gives (E : Fault → Prop) (x : Exec α) (Q : α → Prop) : Prop :=
  (∃ a, x = pure a ∧ Q a) ∨ ∃ e, x = throw e ∧ E e

/-- A call has such a result. -/
abbrev Returns (x : Exec α) (Q : α → Prop) : Prop := Gives (fun _ => False) x Q

theorem gives_pure {Q : α → Prop} {a : α} (h : Q a) : Gives E (pure a) Q := .inl ⟨a, rfl, h⟩

theorem gives_throw {Q : α → Prop} {e : Fault} (h : E e) : Gives E (throw e) Q := .inr ⟨e, rfl, h⟩

theorem Gives.mono {x : Exec α} {Q R : α → Prop} (h : Gives E x Q) (hQ : ∀ a, Q a → R a) :
    Gives E x R := by
  rcases h with ⟨a, hx, ha⟩ | he
  · exact .inl ⟨a, hx, hQ a ha⟩
  · exact .inr he

/-- The rule of sequences. -/
theorem Gives.bind {x : Exec α} {f : α → Exec β} {Q : α → Prop} {R : β → Prop} (h : Gives E x Q)
    (hf : ∀ a, Q a → Gives E (f a) R) : Gives E (x >>= f) R := by
  rcases h with ⟨a, rfl, ha⟩ | ⟨e, rfl, he⟩
  · rw [pure_bind]
    exact hf a ha
  · exact .inr ⟨e, rfl, he⟩

theorem Returns.exists {x : Exec α} {Q : α → Prop} (h : Returns x Q) : ∃ a, x = pure a ∧ Q a :=
  h.elim id fun ⟨_, _, he⟩ => he.elim

theorem Returns.gives {x : Exec α} {Q : α → Prop} (h : Returns x Q) : Gives E x Q :=
  h.elim .inl fun ⟨_, _, he⟩ => he.elim

/-- The rule of loops. -/
theorem gives_loop {body : σ → Exec (σ ⊕ ρ)} {I : σ → Prop} {μ : σ → ℕ} {Q : ρ → Prop}
    (hround : ∀ s, I s → Gives E (body s) (Sum.elim (fun s' => I s' ∧ μ s' < μ s) Q)) {n : ℕ} {s : σ}
    (hs : I s) (hn : μ s < n) : Gives E (loop body n s) Q := by
  suffices h : ∃ r, (loop body n s).run = some r ∧ Gives E (ExceptT.mk (some r)) Q by
    obtain ⟨r, hr, hQ⟩ := h
    rwa [← hr] at hQ
  refine Loop.run_spec (I := I) (μ := μ) (Q := fun r => Gives E (ExceptT.mk (some r)) Q)
    (fun s hs => ?_) hs hn
  rw [Loop.Round]
  rcases hround s hs with ⟨r, hbody, hr⟩ | ⟨e, hbody, he⟩ <;> rw [hbody]
  · cases r with
    | inl s' => exact .inl ⟨s', rfl, hr⟩
    | inr r => exact .inr ⟨_, rfl, .inl ⟨r, rfl, hr⟩⟩
  · exact .inr ⟨_, rfl, .inr ⟨e, rfl, he⟩⟩

end Calls

variable {s : Bytes} {o : ℕ}

theorem read_eq (ho : o ≤ s.length) : read s o = pure (s.getD o 0) := by
  rw [read]
  split_ifs with hlt heq
  · rfl
  · rw [List.getD_eq_getElem?_getD, List.getElem?_eq_none (Nat.le_of_not_lt hlt), Option.getD_none]
  · exact absurd (Nat.le_antisymm ho (Nat.le_of_not_lt hlt)) heq

theorem mask_iff (c : UInt8) : (c &&& 0xC0 = 0x80) ↔ IsTail c := by
  have h : ∀ n < 256, (UInt8.ofNat n &&& 0xC0 = 0x80) ↔
      0x80 ≤ (UInt8.ofNat n).toNat ∧ (UInt8.ofNat n).toNat < 0xC0 := by decide +kernel
  have hc := h c.toNat (UInt8.toNat_lt c)
  rwa [UInt8.ofNat_toNat] at hc

instance (c : UInt8) : Decidable (IsTail c) := inferInstanceAs (Decidable (_ ∧ _))

theorem iscont_eq (ho : o ≤ s.length) : iscont s o = pure (decide (IsTail (s.getD o 0))) := by
  rw [iscont, read_eq ho, pure_bind, beq_eq_decide]
  congr 1
  exact decide_eq_decide.2 (mask_iff _)

/-- A byte that continues an encoding is in the string. -/
theorem lt_of_isTail (h : IsTail (s.getD o 0)) : o < s.length := by
  by_contra hle
  rw [List.getD_eq_getElem?_getD, List.getElem?_eq_none (Nat.le_of_not_lt hle), Option.getD_none] at h
  exact absurd h.1 (by decide)

/-! ### The first byte -/

/-- The number of bytes that the first byte asks for. -/
def lead (b : UInt8) : ℕ :=
  if b < 0xC0 then 0 else if b < 0xE0 then 1 else if b < 0xF0 then 2 else if b < 0xF8 then 3
  else if b < 0xFC then 4 else if b < 0xFE then 5 else if b < 0xFF then 6 else 7

theorem shift_lead {b : UInt8} (hb : 0x80 ≤ b) {k : ℕ} (hk : k ≤ lead b) :
    (b.toUInt32 <<< UInt32.ofNat k &&& 0x40 = 0 ↔ k = lead b) ∧
    b.toUInt32 <<< UInt32.ofNat k <<< 1 = b.toUInt32 <<< UInt32.ofNat (k + 1) ∧ lead b < 8 := by
  have h : ∀ n < 256, 0x80 ≤ UInt8.ofNat n → ∀ k ≤ lead (UInt8.ofNat n),
      ((UInt8.ofNat n).toUInt32 <<< UInt32.ofNat k &&& 0x40 = 0 ↔ k = lead (UInt8.ofNat n)) ∧
      (UInt8.ofNat n).toUInt32 <<< UInt32.ofNat k <<< 1 =
        (UInt8.ofNat n).toUInt32 <<< UInt32.ofNat (k + 1) ∧ lead (UInt8.ofNat n) < 8 := by
    decide +kernel
  have hc := h b.toNat (UInt8.toNat_lt b)
  rw [UInt8.ofNat_toNat] at hc
  exact hc hb k hk

/-- The bits of the first byte, in their place. -/
theorem shift_head {b : UInt8} (hb : 0xC0 ≤ b) (hb' : b < 0xF8) :
    ((b.toUInt32 <<< UInt32.ofNat (lead b) &&& 0x7F) <<< UInt32.ofNat (lead b * 5)).toNat =
      2 ^ (6 * lead b) * (b.toNat % 2 ^ (6 - lead b)) := by
  have h : ∀ n < 256, 0xC0 ≤ UInt8.ofNat n → UInt8.ofNat n < 0xF8 →
      (((UInt8.ofNat n).toUInt32 <<< UInt32.ofNat (lead (UInt8.ofNat n)) &&& 0x7F) <<<
        UInt32.ofNat (lead (UInt8.ofNat n) * 5)).toNat =
      2 ^ (6 * lead (UInt8.ofNat n)) * ((UInt8.ofNat n).toNat % 2 ^ (6 - lead (UInt8.ofNat n))) := by
    decide +kernel
  have hc := h b.toNat (UInt8.toNat_lt b)
  rw [UInt8.ofNat_toNat] at hc
  exact hc hb hb'

/-! ### The bytes after it -/

/-- The bits of `k` bytes, in their place. -/
def tailBits (s : Bytes) (o : ℕ) : ℕ → ℕ
  | 0 => 0
  | k + 1 => 64 * tailBits s o k + (s.getD (o + k) 0).toNat % 64

theorem tailBits_lt (k : ℕ) : tailBits s o k < 2 ^ (6 * k) := by
  induction k with
  | zero => exact Nat.one_pos
  | succ k ih =>
    rw [tailBits, Nat.mul_succ, Nat.pow_add]
    omega

theorem shift_tail {res : UInt32} (h : res.toNat < 2 ^ 26) (c : UInt8) :
    (res <<< 6 ||| (c &&& 0x3F).toUInt32).toNat = 64 * res.toNat + c.toNat % 64 := by
  have hc : (c &&& 0x3F).toNat = c.toNat % 2 ^ 6 := by
    rw [UInt8.toNat_and]
    exact Nat.and_two_pow_sub_one_eq_mod _ 6
  have hres : (res <<< 6).toNat = 2 ^ 6 * res.toNat := by
    rw [UInt32.toNat_shiftLeft, Nat.shiftLeft_eq, Nat.mul_comm]
    exact Nat.mod_eq_of_lt (by simp; omega)
  rw [UInt32.toNat_or, hres, UInt8.toNat_toUInt32, hc,
    ← Nat.two_pow_add_eq_or_of_lt (Nat.mod_lt _ (by decide))]

/-- The bytes after the first one continue the encoding. -/
def Tails (s : Bytes) (o k : ℕ) : Prop := ∀ j < k, IsTail (s.getD (o + 1 + j) 0)

theorem decodeLoop_spec (ho : o < s.length) (hb : 0x80 ≤ s.getD o 0) :
    Returns (loop (decodeRound s o) 8 (0, (s.getD o 0).toUInt32, 0)) fun
      | none => ¬Tails s o (lead (s.getD o 0))
      | some (count, c, res) => count = lead (s.getD o 0) ∧ Tails s o count ∧
        c = (s.getD o 0).toUInt32 <<< UInt32.ofNat count ∧
        (count ≤ 3 → res.toNat = tailBits s (o + 1) count) := by
  obtain ⟨b, hbdef⟩ : ∃ b, b = s.getD o 0 := ⟨_, rfl⟩
  rw [← hbdef] at hb ⊢
  refine gives_loop (I := fun r : ℕ × UInt32 × UInt32 => r.1 ≤ lead b ∧ Tails s o r.1 ∧
    r.2.1 = b.toUInt32 <<< UInt32.ofNat r.1 ∧ (r.1 ≤ 3 → r.2.2.toNat = tailBits s (o + 1) r.1))
    (μ := fun r => lead b - r.1) ?_ ⟨Nat.zero_le _, fun j hj => absurd hj (Nat.not_lt_zero j), ?_,
      fun _ => rfl⟩ ?_
  · rintro ⟨count, c, res⟩ ⟨hcount, htails, hc, hres⟩
    dsimp only at hcount htails hc hres
    obtain ⟨hbit, hshift, -⟩ := shift_lead hb hcount
    rw [decodeRound]
    split_ifs with hzero
    · rw [hc, hbit] at hzero
      exact gives_pure ⟨hzero, htails, hc, hres⟩
    · have hlt : count < lead b := by
        rw [hc, hbit] at hzero
        omega
      have hinside : o + (count + 1) ≤ s.length := by
        cases count with
        | zero => exact ho
        | succ k => have := lt_of_isTail (htails k (Nat.lt_succ_self k)); omega
      rw [read_eq hinside, pure_bind]
      split_ifs with hmask
      · refine gives_pure fun hall => hmask ((mask_iff _).2 ?_)
        rw [show o + (count + 1) = o + 1 + count by omega]
        exact hall count hlt
      · rw [not_not, mask_iff] at hmask
        refine gives_pure ⟨⟨hlt, fun j hj => ?_, ?_, fun hle => ?_⟩, by dsimp only; omega⟩
        · rcases Nat.lt_succ_iff_lt_or_eq.1 hj with hj | rfl
          · exact htails j hj
          · rwa [show o + 1 + j = o + (j + 1) by omega]
        · dsimp only
          rw [hc, hshift]
        · dsimp only at hle ⊢
          have hbits := tailBits_lt (s := s) (o := o + 1) count
          rw [← hres (by omega)] at hbits
          have hpow : 2 ^ (6 * count) ≤ 2 ^ 26 := Nat.pow_le_pow_right (by decide) (by omega)
          rw [shift_tail (by omega), tailBits, hres (by omega),
            show o + (count + 1) = o + 1 + count by omega]
  · have h : ∀ n < 256, (UInt8.ofNat n).toUInt32 <<< UInt32.ofNat 0 = (UInt8.ofNat n).toUInt32 := by
      decide +kernel
    have hc := h b.toNat (UInt8.toNat_lt b)
    rw [UInt8.ofNat_toNat] at hc
    exact hc.symm
  · exact lt_of_le_of_lt (Nat.sub_le _ _) (shift_lead hb (Nat.zero_le _)).2.2

/-! ### The checks -/

/-- The number that the bytes denote. -/
def value (s : Bytes) (o k : ℕ) : ℕ :=
  2 ^ (6 * k) * ((s.getD o 0).toNat % 2 ^ (6 - k)) + tailBits s (o + 1) k

/-- The greatest number that has a shorter encoding. -/
def shorter (k : ℕ) : ℕ := (limits.getD k 0).toNat

theorem decodeEnd_eq {k : ℕ} {c res : UInt32} (hb : 0xC0 ≤ s.getD o 0) (hb' : s.getD o 0 < 0xF8)
    (hk : k = lead (s.getD o 0)) (hc : c = (s.getD o 0).toUInt32 <<< UInt32.ofNat k)
    (hres : res.toNat = tailBits s (o + 1) k) (hle : k ≤ 3) :
    decodeEnd o k c res = if Scalar (value s o k) ∧ shorter k < value s o k then
      some (value s o k, o + k + 1) else none := by
  have hvalue : (res ||| ((c &&& 0x7F) <<< UInt32.ofNat (k * 5))).toNat = value s o k := by
    rw [UInt32.toNat_or, Nat.or_comm, hres, hc, hk, shift_head hb hb',
      ← Nat.two_pow_add_eq_or_of_lt (tailBits_lt _), value]
  rw [decodeEnd]
  generalize res ||| ((c &&& 0x7F) <<< UInt32.ofNat (k * 5)) = v at hvalue
  have hlimit : v ≤ limits.getD k 0 ↔ value s o k ≤ shorter k := by
    rw [UInt32.le_iff_toNat_le, hvalue, shorter]
  have hsurrogate : v - 0xD800 < 0x800 ↔ 0xD800 ≤ value s o k ∧ value s o k < 0xE000 := by
    have hlt := UInt32.toNat_lt v
    rw [UInt32.lt_iff_toNat_lt, UInt32.toNat_sub, hvalue]
    rw [hvalue] at hlt
    simp only [UInt32.reduceToNat]
    omega
  rw [hvalue, MAXUNICODE]
  by_cases hvalid : Scalar (value s o k) ∧ shorter k < value s o k
  · obtain ⟨⟨hmax, hscalar⟩, hshorter⟩ := hvalid
    rw [if_neg (by rw [hlimit]; omega), if_neg (by rw [hsurrogate]; exact hscalar),
      if_pos ⟨⟨hmax, hscalar⟩, hshorter⟩]
  · rw [if_neg hvalid]
    split_ifs with h1 h2
    · rfl
    · rfl
    · rw [hlimit] at h1
      rw [hsurrogate] at h2
      exact absurd ⟨⟨by omega, h2⟩, by omega⟩ hvalid

/-- No encoding begins with such a byte. -/
theorem decodeEnd_none {k : ℕ} {c res : UInt32}
    (hb : ¬(0xC0 ≤ (s.getD o 0).toNat ∧ (s.getD o 0).toNat < 0xF8)) (hk : k = lead (s.getD o 0))
    (hc : c = (s.getD o 0).toUInt32 <<< UInt32.ofNat k)
    (hres : k ≤ 3 → res.toNat = tailBits s (o + 1) k) : decodeEnd o k c res = none := by
  have h : ∀ n < 256, ¬(0xC0 ≤ (UInt8.ofNat n).toNat ∧ (UInt8.ofNat n).toNat < 0xF8) →
      3 < lead (UInt8.ofNat n) ∨ lead (UInt8.ofNat n) = 0 ∧
        (0 ||| (((UInt8.ofNat n).toUInt32 <<< UInt32.ofNat 0 &&& 0x7F) <<< UInt32.ofNat (0 * 5)) :
          UInt32) ≤ limits.getD 0 0 := by
    decide +kernel
  have hlead := h (s.getD o 0).toNat (UInt8.toNat_lt _)
  rw [UInt8.ofNat_toNat, ← hk] at hlead
  rw [decodeEnd]
  rcases hlead hb with hlt | ⟨rfl, hle⟩
  · rw [if_pos (.inl hlt)]
  · obtain rfl : res = 0 := UInt32.toNat_inj.1 (hres (Nat.zero_le _))
    rw [if_pos (.inr (.inr (hc ▸ hle)))]

/-! ### Encodings -/

theorem prefix_cons {x : UInt8} {l : Bytes} : x :: l <+: (s ++ [0]).drop o ↔
    o ≤ s.length ∧ s.getD o 0 = x ∧ l <+: (s ++ [0]).drop (o + 1) := by
  by_cases ho : o ≤ s.length
  · have hlen : o < (s ++ [0]).length := by
      rw [List.length_append]
      exact Nat.lt_succ_of_le ho
    have hget : (s ++ [0])[o] = s.getD o 0 := by
      rcases Nat.lt_or_eq_of_le ho with hlt | heq
      · rw [List.getElem_append_left hlt, List.getD_eq_getElem?_getD, List.getElem?_eq_getElem hlt,
          Option.getD_some]
      · rw [List.getElem_append_right heq.ge, List.getD_eq_getElem?_getD,
          List.getElem?_eq_none heq.ge, Option.getD_none, List.getElem_singleton]
    rw [List.drop_eq_getElem_cons hlen, List.cons_prefix_cons, hget, eq_comm]
    exact ⟨fun h => ⟨ho, h⟩, fun h => h.2⟩
  · rw [List.drop_eq_nil_of_le (by rw [List.length_append]; exact Nat.lt_of_not_le ho)]
    exact ⟨fun h => absurd (List.prefix_nil.1 h) (List.cons_ne_nil _ _), fun h => absurd h.1 ho⟩

theorem prefix_nil : [] <+: (s ++ [0]).drop o := List.nil_prefix

theorem lead_one {b : UInt8} (h : 0xC0 ≤ b.toNat) (h' : b.toNat < 0xE0) : lead b = 1 := by
  rw [lead, if_neg (by rw [UInt8.lt_iff_toNat_lt, Nat.not_lt]; exact h),
    if_pos (by rw [UInt8.lt_iff_toNat_lt]; exact h')]

theorem lead_two {b : UInt8} (h : 0xE0 ≤ b.toNat) (h' : b.toNat < 0xF0) : lead b = 2 := by
  rw [lead, if_neg (by rw [UInt8.lt_iff_toNat_lt, Nat.not_lt]; exact le_trans (by decide) h),
    if_neg (by rw [UInt8.lt_iff_toNat_lt, Nat.not_lt]; exact h),
    if_pos (by rw [UInt8.lt_iff_toNat_lt]; exact h')]

theorem lead_three {b : UInt8} (h : 0xF0 ≤ b.toNat) (h' : b.toNat < 0xF8) : lead b = 3 := by
  rw [lead, if_neg (by rw [UInt8.lt_iff_toNat_lt, Nat.not_lt]; exact le_trans (by decide) h),
    if_neg (by rw [UInt8.lt_iff_toNat_lt, Nat.not_lt]; exact le_trans (by decide) h),
    if_neg (by rw [UInt8.lt_iff_toNat_lt, Nat.not_lt]; exact h),
    if_pos (by rw [UInt8.lt_iff_toNat_lt]; exact h')]

/-- The encoding at an offset asks for the bytes that it has. -/
structure Encoded (s : Bytes) (o n : ℕ) : Prop where
  head : 0xC0 ≤ (s.getD o 0).toNat ∧ (s.getD o 0).toNat < 0xF8
  tails : Tails s o (lead (s.getD o 0))
  value : n = value s o (lead (s.getD o 0))
  shortest : shorter (lead (s.getD o 0)) < n

theorem encoded_of_begins {n : ℕ} (hn : Scalar n) (hb : 0x80 ≤ (s.getD o 0).toNat)
    (h : encode n <+: (s ++ [0]).drop o) :
    Encoded s o n ∧ (encode n).length = lead (s.getD o 0) + 1 := by
  rcases encode_cases hn.1 with ⟨hlt, hencode⟩ | ⟨hle, b, t, hencode, h1, h2, ht, heq⟩ |
    ⟨hle, b, t, u, hencode, h1, h2, ht, hu, heq⟩ |
    ⟨hle, b, t, u, v, hencode, h1, h2, ht, hu, hv, heq⟩
  · rw [hencode, prefix_cons] at h
    rw [h.2.1, toNat_ofNat_of_lt (by omega)] at hb
    omega
  · simp only [hencode, prefix_cons] at h
    obtain ⟨-, rfl, -, rfl, -⟩ := h
    have hlead := lead_one h1 h2
    refine ⟨⟨⟨h1, by omega⟩, ?_, ?_, ?_⟩, by rw [hencode, hlead]; rfl⟩ <;> rw [hlead]
    · intro j hj
      obtain rfl : j = 0 := by omega
      exact ht
    · simp only [Utf8Lib.value, tailBits, Nat.add_assoc, Nat.reduceAdd] at *
      omega
    · rw [show shorter 1 = 0x7F by decide]
      omega
  · simp only [hencode, prefix_cons] at h
    obtain ⟨-, rfl, -, rfl, -, rfl, -⟩ := h
    have hlead := lead_two h1 h2
    refine ⟨⟨⟨by omega, by omega⟩, ?_, ?_, ?_⟩, by rw [hencode, hlead]; rfl⟩ <;> rw [hlead]
    · intro j hj
      interval_cases j
      · exact ht
      · exact hu
    · simp only [Utf8Lib.value, tailBits, Nat.add_assoc, Nat.reduceAdd] at *
      omega
    · rw [show shorter 2 = 0x7FF by decide]
      omega
  · simp only [hencode, prefix_cons] at h
    obtain ⟨-, rfl, -, rfl, -, rfl, -, rfl, -⟩ := h
    have hlead := lead_three h1 h2
    refine ⟨⟨⟨by omega, by omega⟩, ?_, ?_, ?_⟩, by rw [hencode, hlead]; rfl⟩ <;> rw [hlead]
    · intro j hj
      interval_cases j
      · exact ht
      · exact hu
      · exact hv
    · simp only [Utf8Lib.value, tailBits, Nat.add_assoc, Nat.reduceAdd] at *
      omega
    · rw [show shorter 3 = 0xFFFF by decide]
      omega

theorem Encoded.begins {n : ℕ} (h : Encoded s o n) :
    encode n <+: (s ++ [0]).drop o ∧ (encode n).length = lead (s.getD o 0) + 1 := by
  obtain ⟨⟨h1, h2⟩, htails, hvalue, hshortest⟩ := h
  have hle : ∀ {j}, IsTail (s.getD j 0) → j ≤ s.length := fun h => (lt_of_isTail h).le
  by_cases htwo : (s.getD o 0).toNat < 0xE0
  · have hlead := lead_one h1 htwo
    rw [hlead] at htails hvalue hshortest ⊢
    rw [show shorter 1 = 0x7F by decide] at hshortest
    have ht := htails 0 (by decide)
    have hencode : encode n = [s.getD o 0, s.getD (o + 1 + 0) 0] :=
      encode_two h1 htwo ht (by rw [hvalue, Utf8Lib.value]; simp only [tailBits]; omega) (by omega)
    rw [hencode, prefix_cons, prefix_cons]
    exact ⟨⟨Nat.le_of_succ_le (hle ht), rfl, hle ht, rfl, prefix_nil⟩, rfl⟩
  · by_cases hthree : (s.getD o 0).toNat < 0xF0
    · have hlead := lead_two (by omega) hthree
      rw [hlead] at htails hvalue hshortest ⊢
      rw [show shorter 2 = 0x7FF by decide] at hshortest
      have ht := htails 0 (by decide)
      have hu := htails 1 (by decide)
      have hencode : encode n = [s.getD o 0, s.getD (o + 1 + 0) 0, s.getD (o + 1 + 1) 0] :=
        encode_three (by omega) hthree ht hu
          (by rw [hvalue, Utf8Lib.value]; simp only [tailBits]; omega) (by omega)
      rw [hencode, prefix_cons, prefix_cons, prefix_cons]
      exact ⟨⟨Nat.le_of_succ_le (hle ht), rfl, hle ht, rfl, hle hu, rfl, prefix_nil⟩, rfl⟩
    · have hlead := lead_three (by omega) h2
      rw [hlead] at htails hvalue hshortest ⊢
      rw [show shorter 3 = 0xFFFF by decide] at hshortest
      have ht := htails 0 (by decide)
      have hu := htails 1 (by decide)
      have hv := htails 2 (by decide)
      have hencode : encode n =
          [s.getD o 0, s.getD (o + 1 + 0) 0, s.getD (o + 1 + 1) 0, s.getD (o + 1 + 2) 0] :=
        encode_four (by omega) h2 ht hu hv
          (by rw [hvalue, Utf8Lib.value]; simp only [tailBits]; omega) (by omega)
      rw [hencode, prefix_cons, prefix_cons, prefix_cons, prefix_cons]
      exact ⟨⟨Nat.le_of_succ_le (hle ht), rfl, hle ht, rfl, hle hu, rfl, hle hv, rfl, prefix_nil⟩,
        rfl⟩

/-- The decoder finds the encoding of a scalar value, and where it ends. -/
def Decodes (s : Bytes) (o : ℕ) (r : Option (ℕ × ℕ)) : Prop :=
  ∀ n p, r = some (n, p) ↔
    Scalar n ∧ encode n <+: (s ++ [0]).drop o ∧ p = o + (encode n).length

theorem decodes_ascii (ho : o ≤ s.length) (h : (s.getD o 0).toNat < 0x80) :
    Decodes s o (some ((s.getD o 0).toNat, o + 1)) := by
  intro n p
  rw [Option.some.injEq, Prod.mk.injEq]
  constructor
  · rintro ⟨rfl, rfl⟩
    have hencode : encode (s.getD o 0).toNat = [s.getD o 0] := by
      rw [encode, if_pos h, UInt8.ofNat_toNat]
    rw [hencode, prefix_cons]
    exact ⟨⟨by omega, by omega⟩, ⟨ho, rfl, prefix_nil⟩, rfl⟩
  · rintro ⟨hn, hbegins, rfl⟩
    rcases encode_cases hn.1 with ⟨hlt, hencode⟩ | ⟨-, b, t, hencode, h1, -⟩ |
      ⟨-, b, t, u, hencode, h1, -⟩ | ⟨-, b, t, u, v, hencode, h1, -⟩ <;>
      rw [hencode, prefix_cons] at hbegins <;> rw [hbegins.2.1] at h
    · rw [hencode, hbegins.2.1, toNat_ofNat_of_lt (by omega)]
      exact ⟨rfl, rfl⟩
    all_goals omega

/-- **The decoder accepts exactly the encodings of scalar values.** -/
theorem utf8_decode_spec (ho : o ≤ s.length) : Returns (utf8_decode s o) (Decodes s o) := by
  rw [utf8_decode, read_eq ho, pure_bind]
  dsimp only
  have hascii : (s.getD o 0).toUInt32 < 0x80 ↔ (s.getD o 0).toNat < 0x80 := by
    rw [UInt32.lt_iff_toNat_lt, UInt8.toNat_toUInt32]
    rfl
  split_ifs with h
  · rw [UInt8.toNat_toUInt32]
    exact gives_pure (decodes_ascii ho (hascii.1 h))
  · rw [hascii, Nat.not_lt] at h
    have hlt : o < s.length := by
      refine lt_of_le_of_ne ho fun heq => ?_
      rw [heq, List.getD_eq_getElem?_getD, List.getElem?_eq_none le_rfl, Option.getD_none] at h
      exact absurd h (by decide)
    refine (decodeLoop_spec hlt (UInt8.le_iff_toNat_le.2 h)).bind ?_
    -- a number is found exactly if the bytes are an encoding of it
    have hnone : (∀ n, ¬Encoded s o n) → Decodes s o none := by
      intro hno n p
      refine ⟨fun h => (by cases h), fun ⟨hn, hbegins, _⟩ => ?_⟩
      exact absurd (encoded_of_begins hn h hbegins).1 (hno n)
    rintro (_ | ⟨count, c, res⟩) hloop
    · exact gives_pure (hnone fun n hn => hloop hn.tails)
    · obtain ⟨hcount, htails, hc, hres⟩ := hloop
      by_cases hhead : 0xC0 ≤ (s.getD o 0).toNat ∧ (s.getD o 0).toNat < 0xF8
      · have hle : count ≤ 3 := by
          rw [hcount, lead]
          have h8 : s.getD o 0 < 0xF8 := UInt8.lt_iff_toNat_lt.2 hhead.2
          split_ifs <;> omega
        refine gives_pure ?_
        rw [decodeEnd_eq (UInt8.le_iff_toNat_le.2 hhead.1) (UInt8.lt_iff_toNat_lt.2 hhead.2) hcount
          hc (hres hle) hle]
        split_ifs with hvalid
        · have hencoded : Encoded s o (value s o count) :=
            ⟨hhead, hcount ▸ htails, by rw [hcount], hcount ▸ hvalid.2⟩
          intro n p
          rw [Option.some.injEq, Prod.mk.injEq]
          constructor
          · rintro ⟨rfl, rfl⟩
            exact ⟨hvalid.1, hencoded.begins.1, by rw [hencoded.begins.2, hcount]; rfl⟩
          · rintro ⟨hn, hbegins, rfl⟩
            obtain ⟨hencoded', hlength⟩ := encoded_of_begins hn h hbegins
            exact ⟨by rw [hencoded'.value, hcount], by rw [hlength, hcount]; rfl⟩
        · intro n p
          refine ⟨fun h => (by cases h), fun ⟨hn, hbegins, _⟩ => absurd ?_ hvalid⟩
          have hencoded := (encoded_of_begins hn h hbegins).1
          rw [hcount, ← hencoded.value]
          exact ⟨hn, hencoded.shortest⟩
      · refine gives_pure ?_
        rw [decodeEnd_none hhead hcount hc hres]
        exact hnone fun n hn => hhead hn.head

/-- The next character begins in the string, or where it ends. -/
theorem Decodes.le {r : Option (ℕ × ℕ)} {n p : ℕ} (h : Decodes s o r) (ho : o < s.length)
    (hr : r = some (n, p)) : o < p ∧ p ≤ s.length := by
  obtain ⟨hn, hbegins, rfl⟩ := (h n p).1 hr
  by_cases hascii : (s.getD o 0).toNat < 0x80
  · have hp := decodes_ascii ho.le hascii
    have heq := (hp n _).2 ⟨hn, hbegins, rfl⟩
    rw [Option.some.injEq, Prod.mk.injEq] at heq
    omega
  · obtain ⟨hencoded, hlength⟩ := encoded_of_begins hn (Nat.not_lt.1 hascii) hbegins
    rw [hlength]
    refine ⟨by omega, ?_⟩
    rcases hlead : lead (s.getD o 0) with _ | k
    · omega
    · have := lt_of_isTail (hencoded.tails k (by omega))
      omega

/-! ### Encoding -/

theorem escLoop_inl {n : ℕ} {r r' : Bytes × UInt64 × UInt32} (h : escRound r = .inl r') :
    loop (fun r => pure (escRound r)) (n + 1) r = loop (fun r => pure (escRound r)) n r' := by
  rw [loop, Loop.run, h]
  rfl

theorem escLoop_inr {n : ℕ} {r : Bytes × UInt64 × UInt32} {bytes : Bytes}
    (h : escRound r = .inr bytes) :
    loop (fun r => pure (escRound r)) (n + 1) r = pure bytes := by
  rw [loop, Loop.run, h]
  rfl

theorem toNat_mask {n : ℕ} (hn : n < 2 ^ 64) : (UInt64.ofNat n &&& 0x3F).toNat = n % 64 := by
  rw [UInt64.toNat_and, UInt64.toNat_ofNat', Nat.mod_eq_of_lt hn]
  exact Nat.and_two_pow_sub_one_eq_mod n 6

theorem tailByte_ofNat {n : ℕ} (hn : n < 2 ^ 64) :
    ((0x80 : UInt64) ||| (UInt64.ofNat n &&& 0x3F)).toUInt8 = tail 0 n := by
  refine UInt8.toNat_inj.1 ?_
  have hlt := Nat.mod_lt n (show 0 < 64 by decide)
  rw [toNat_tail, UInt64.toNat_toUInt8, UInt64.toNat_or, toNat_mask hn,
    show (0x80 : UInt64).toNat = 2 ^ 7 * 1 by rfl,
    ← Nat.two_pow_add_eq_or_of_lt (by omega)]
  omega

theorem shift_ofNat {n : ℕ} (hn : n < 2 ^ 64) : UInt64.ofNat n >>> 6 = UInt64.ofNat (n / 64) := by
  refine UInt64.toNat_inj.1 ?_
  rw [UInt64.toNat_shiftRight, UInt64.toNat_ofNat', UInt64.toNat_ofNat', Nat.mod_eq_of_lt hn,
    Nat.mod_eq_of_lt (by omega : n / 64 < 2 ^ 64)]
  exact Nat.shiftRight_eq_div_pow n 6

theorem tail_div (k n : ℕ) : tail k (n / 64) = tail (k + 1) n := by
  rw [tail, tail, Nat.div_div_eq_div_mul, Nat.pow_succ, Nat.mul_comm (64 ^ k)]

/-- The last round, where the rest fits into the first byte. -/
theorem escRound_last {n k m : ℕ} {mfb : UInt32} (buff : Bytes) (hn : n < 2 ^ 64)
    (hfits : n / 64 ≤ (mfb >>> 1).toNat) (hmark : (~~~(mfb >>> 1) <<< 1).toNat = 2 ^ k * m)
    (hk : n / 64 < 2 ^ k) : escRound (buff, .ofNat n, mfb) =
      .inr (UInt8.ofNat (2 ^ k * m + n / 64) :: tail 0 n :: buff) := by
  have hhead : ((~~~(mfb >>> 1) <<< 1).toUInt64 ||| UInt64.ofNat (n / 64)).toUInt8 =
      UInt8.ofNat (2 ^ k * m + n / 64) := by
    refine UInt8.toNat_inj.1 ?_
    rw [UInt64.toNat_toUInt8, UInt64.toNat_or, UInt32.toNat_toUInt64, hmark, UInt64.toNat_ofNat',
      Nat.mod_eq_of_lt (by omega : n / 64 < 2 ^ 64), ← Nat.two_pow_add_eq_or_of_lt hk,
      UInt8.toNat_ofNat']
  rw [escRound, shift_ofNat hn, tailByte_ofNat hn, hhead, if_neg]
  rw [gt_iff_lt, UInt64.lt_iff_toNat_lt, UInt32.toNat_toUInt64, UInt64.toNat_ofNat',
    Nat.mod_eq_of_lt (by omega), Nat.not_lt]
  exact hfits

/-- A round with more to come. -/
theorem escRound_more {n : ℕ} {mfb : UInt32} (buff : Bytes) (hn : n < 2 ^ 64)
    (hmore : (mfb >>> 1).toNat < n / 64) : escRound (buff, .ofNat n, mfb) =
      .inl (tail 0 n :: buff, .ofNat (n / 64), mfb >>> 1) := by
  rw [escRound, shift_ofNat hn, tailByte_ofNat hn, if_pos]
  rw [gt_iff_lt, UInt64.lt_iff_toNat_lt, UInt32.toNat_toUInt64, UInt64.toNat_ofNat',
    Nat.mod_eq_of_lt (by omega)]
  exact hmore

/-- **The encoder gives the encoding.** -/
theorem luaO_utf8esc_eq {n : ℕ} (hn : n < 0x110000) :
    luaO_utf8esc (.ofNat n) = pure (encode n) := by
  have hascii : UInt64.ofNat n < 0x80 ↔ n < 0x80 := by
    rw [UInt64.lt_iff_toNat_lt, UInt64.toNat_ofNat', Nat.mod_eq_of_lt (by omega)]
    rfl
  have h1 : ((0x3F : UInt32) >>> 1).toNat = 0x1F := rfl
  have h2 : ((0x3F : UInt32) >>> 1 >>> 1).toNat = 0xF := rfl
  have h3 : ((0x3F : UInt32) >>> 1 >>> 1 >>> 1).toNat = 7 := rfl
  have hbyte : ∀ a b : ℕ, a % 256 = b % 256 → UInt8.ofNat a = UInt8.ofNat b := by
    intro a b h
    refine UInt8.toNat_inj.1 ?_
    rw [UInt8.toNat_ofNat', UInt8.toNat_ofNat']
    exact h
  rw [luaO_utf8esc, encode, show UTF8BUFFSZ = 5 + 1 + 1 + 1 from rfl]
  by_cases h80 : n < 0x80
  · rw [if_pos (hascii.2 h80), if_pos h80]
    refine congrArg pure (congrArg (fun b => [b]) (UInt8.toNat_inj.1 ?_))
    rw [UInt64.toNat_toUInt8, UInt64.toNat_ofNat', UInt8.toNat_ofNat']
    omega
  rw [if_neg (fun h => h80 (hascii.1 h)), if_neg h80]
  by_cases h800 : n < 0x800
  · rw [if_pos h800, escLoop_inr (escRound_last (k := 6) (m := 0x3FFFFFF) [] (by omega) (by omega)
      rfl (by omega)), hbyte _ (0xC0 + n / 64) (by omega)]
  rw [if_neg h800]
  by_cases h10000 : n < 0x10000
  · rw [if_pos h10000, escLoop_inl (escRound_more [] (by omega) (by omega)),
      escLoop_inr (escRound_last (k := 5) (m := 0x7FFFFFF) _ (by omega) (by omega) rfl (by omega)),
      hbyte _ (0xE0 + n / 64 ^ 2) (by omega), tail_div]
  · rw [if_neg h10000, escLoop_inl (escRound_more [] (by omega) (by omega)),
      escLoop_inl (escRound_more _ (by omega) (by omega)),
      escLoop_inr (escRound_last (k := 4) (m := 0xFFFFFFF) _ (by omega) (by omega) rfl (by omega)),
      hbyte _ (0xF0 + n / 64 ^ 3) (by omega), tail_div, tail_div, tail_div]

end Utf8Lib

end Jaci
