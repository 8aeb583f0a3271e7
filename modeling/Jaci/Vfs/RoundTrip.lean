import Jaci.Vfs.Compress
import Mathlib.Data.List.GetD
import Mathlib.Tactic.IntervalCases

/-!
# When compression can be undone

The coder writes a stretch of 255 or more literals as blocks of 255 bytes with a length byte in
front of each, while the decoder takes a length byte of 255 as the start of a longer length and
consumes the first literals as its continuation.  So the round trip holds exactly when no stretch
of the input without a match reaches 255 bytes.

* `decompress_compress_iff` : the round trip holds if and only if every stretch without a match
  is shorter than 255 bytes.

If all stretches are short, the stream is a sequence of literals and matches that the decoder
replays (`decompressLoop_tail`).  Otherwise, at the first long stretch, the decoder would have to
write the stretch shifted by at most five bytes; if that were right, the stretch would be
periodic (`periodic_of_long`), and the search would have found a match in it
(`Quiet.not_shifted`): no two different rotations of such a period have the same hash.
-/

namespace Jaci

namespace Vfs

open Wire

variable {src : Bytes}

/-! ### Lengths and literals -/

theorem toNat_ofNat_short {n : ℕ} (h : n < 255) : (UInt8.ofNat n).toNat = n :=
  UInt8.toNat_ofNat_of_lt' (by unfold UInt8.size; omega)

theorem ofNat_ne_255 {n : ℕ} (h : n < 255) : UInt8.ofNat n ≠ 255 := by
  intro he
  have := congrArg UInt8.toNat he
  rw [toNat_ofNat_short h] at this
  exact absurd this h.ne

theorem readExt_emitLength {turns n : ℕ} (h : n ≤ turns) (base : ℕ) (rest : Bytes) :
    readExt (emitLength turns n ++ rest) base = (base + n, rest) := by
  induction turns generalizing n base with
  | zero =>
    obtain rfl : n = 0 := by omega
    simp [emitLength, readExt]
  | succ turns ih =>
    unfold emitLength
    split_ifs with hn
    · rw [List.singleton_append, readExt, if_neg (ofNat_ne_255 hn), toNat_ofNat_short hn]
    · rw [List.cons_append, readExt, if_pos rfl, ih (by omega),
        show base + 255 + (n - 255) = base + n by omega]

theorem readLength_emitLength {turns n : ℕ} (h : n ≤ turns) (base : ℕ) (rest : Bytes) :
    ∃ b bs, emitLength turns n = b :: bs ∧ readLength base b (bs ++ rest) = (base + n, rest) := by
  cases turns with
  | zero =>
    obtain rfl : n = 0 := by omega
    exact ⟨0, [], by simp [emitLength], by simp [readLength]⟩
  | succ turns =>
    unfold emitLength
    split_ifs with hn
    · refine ⟨_, [], rfl, ?_⟩
      rw [readLength, if_neg (ofNat_ne_255 hn), toNat_ofNat_short hn]
      rfl
    · refine ⟨_, _, rfl, ?_⟩
      rw [readLength, if_pos rfl, readExt_emitLength (by omega),
        show base + 255 + (n - 255) = base + n by omega]

theorem emitLiterals_short {turns : ℕ} {lits : Bytes} (h : lits.length < 255) :
    emitLiterals turns lits = UInt8.ofNat lits.length :: lits := by
  cases turns with
  | zero => rfl
  | succ turns => rw [emitLiterals, if_neg (by omega)]

theorem emitLiterals_long {turns : ℕ} {lits : Bytes} (ht : lits.length ≤ turns)
    (h : 255 ≤ lits.length) :
    emitLiterals turns lits = 255 :: lits.take 255 ++ emitLiterals (turns - 1) (lits.drop 255) := by
  obtain ⟨turns, rfl⟩ : ∃ k, turns = k + 1 := ⟨turns - 1, by omega⟩
  rw [emitLiterals, if_pos h]
  rfl

theorem readLength_literals {lits : Bytes} (h : lits.length < 255) (rest : Bytes) :
    readLength 0 (UInt8.ofNat lits.length) rest = (lits.length, rest) := by
  rw [readLength, if_neg (ofNat_ne_255 h), toNat_ofNat_short h, Nat.zero_add]

/-! ### Matches -/

theorem matchExtent_le (as bs : Bytes) : matchExtent as bs ≤ as.length := by
  induction as generalizing bs with
  | nil => simp [matchExtent]
  | cons a as ih =>
    cases bs with
    | nil => simp [matchExtent]
    | cons b bs =>
      rw [matchExtent]
      split_ifs
      · simpa using ih bs
      · exact Nat.zero_le _

theorem getD_of_lt_matchExtent {as bs : Bytes} {i : ℕ} (h : i < matchExtent as bs) :
    as.getD i 0 = bs.getD i 0 := by
  induction as generalizing bs i with
  | nil => simp [matchExtent] at h
  | cons a as ih =>
    cases bs with
    | nil => simp [matchExtent] at h
    | cons b bs =>
      rw [matchExtent] at h
      split_ifs at h with hab
      · cases i with
        | zero => simpa using hab
        | succ i => simpa using ih (by omega)
      · omega

theorem getD_drop (i j : ℕ) : (src.drop i).getD j 0 = src.getD (i + j) 0 := by
  simp [List.getD_eq_getElem?_getD]

theorem getD_window {i j : ℕ} (h : j < 4) : (window src i).getD j 0 = src.getD (i + j) 0 := by
  simp [window, List.getD_eq_getElem?_getD, h]

/-- A match is an earlier, near and equal part of the input. -/
theorem find_spec {f : MatchFinder} {m : Match} (hrun : f.Running src) (h : f.find src = some m) :
    m.ref < f.ip ∧ f.ip - m.ref < 65535 ∧ 4 ≤ m.length ∧ f.ip + m.length ≤ src.length ∧
      ∀ i < m.length, src.getD (f.ip + i) 0 = src.getD (m.ref + i) 0 := by
  simp only [MatchFinder.find] at h
  split_ifs at h with hc
  simp only [Option.some.injEq] at h
  subst h
  obtain ⟨h1, h2, h3⟩ := hc
  have hlen := matchExtent_le (src.drop (f.ip + 4))
    (src.drop (f.hashTable (hash4 src f.ip) + 4))
  simp only [List.length_drop] at hlen
  unfold MatchFinder.Running kMinMatch at hrun
  refine ⟨h1, h2, Nat.le_add_right _ _, by dsimp only; omega, fun i hi => ?_⟩
  dsimp only at hi ⊢
  by_cases hi4 : i < 4
  · rw [← getD_window hi4, h3, getD_window hi4]
  · have hex : i - 4 < matchExtent (src.drop (f.ip + 4))
        (src.drop (f.hashTable (hash4 src f.ip) + 4)) := by omega
    have := getD_of_lt_matchExtent hex
    rw [getD_drop, getD_drop] at this
    convert this using 2 <;> omega

theorem copyMatch_take {off j n : ℕ} (h0 : 0 < off) (hoff : off ≤ j) (hlen : j + n ≤ src.length)
    (h : ∀ i, j ≤ i → i < j + n → src.getD i 0 = src.getD (i - off) 0) :
    copyMatch off n (src.take j) = src.take (j + n) := by
  induction n generalizing j with
  | zero => rfl
  | succ n ih =>
    have hj : (src.take j).length = j := by simp; omega
    have hget : (src.take j).getD (j - off) 0 = src.getD j 0 := by
      rw [h j le_rfl (by omega), List.getD_eq_getElem?_getD, List.getD_eq_getElem?_getD,
        List.getElem?_take, if_pos (by omega)]
    have hsucc : src.take j ++ [src.getD j 0] = src.take (j + 1) := by
      rw [List.take_add_one, List.getElem?_eq_getElem (by omega)]
      simp [List.getD_eq_getElem?_getD, List.getElem?_eq_getElem (show j < src.length by omega)]
    rw [copyMatch, hj, hget, hsucc, ih (by omega) (by omega) fun i hi hi' => h i (by omega) (by omega)]
    congr 1
    omega

/-- The decoder replays one short stretch of literals and the match after it. -/
theorem decompressLoop_emitMatch {f : MatchFinder} {m : Match} (hrun : f.Running src)
    (hle : f.anchor ≤ f.ip) (hm : f.find src = some m) (hlit : f.ip - f.anchor < 255) (turns : ℕ)
    (rest : Bytes) :
    decompressLoop src.length (turns + 1) (emitMatch src f m ++ rest) (src.take f.anchor) =
      decompressLoop src.length turns rest (src.take (f.ip + m.length)) := by
  obtain ⟨h1, h2, h3, h4, h5⟩ := find_spec hrun hm
  set lits := (src.drop f.anchor).take (f.ip - f.anchor) with hlits
  have hll : lits.length = f.ip - f.anchor := by simp [hlits]; omega
  have htake : (src.take f.anchor).length = f.anchor := by simp; omega
  have happ : src.take f.anchor ++ lits = src.take f.ip := by
    rw [hlits, ← List.take_add]
    congr 1
    omega
  have htake' : (src.take f.ip).length = f.ip := by simp; omega
  obtain ⟨b, bs, hb, hread⟩ := readLength_emitLength (le_refl (m.length - kMinMatch)) kMinMatch rest
  have hoff : leNat (leBytes 2 (f.ip - m.ref : ℕ)) = f.ip - m.ref := leNat_leBytes_nat (by omega)
  obtain ⟨o₀, o₁, ho⟩ : ∃ o₀ o₁, leBytes 2 (f.ip - m.ref : ℕ) = [o₀, o₁] := ⟨_, _, rfl⟩
  rw [ho] at hoff
  have hoff' : o₀.toNat ||| o₁.toNat <<< 8 = f.ip - m.ref := by simpa [leNat] using hoff
  have hstream : emitMatch src f m ++ rest =
      UInt8.ofNat lits.length :: (lits ++ o₀ :: o₁ :: b :: (bs ++ rest)) := by
    simp [emitMatch, ← hlits, emitLiterals_short (hll ▸ hlit), ho, hb]
  unfold MatchFinder.Running kMinMatch at hrun
  rw [hstream, decompressLoop, if_pos (by omega), readLength_literals (hll ▸ hlit)]
  simp only [List.length_append, htake, List.take_left', List.drop_left', happ]
  rw [if_neg (by omega)]
  simp only [decodeMatch, hoff', hread, htake']
  unfold kMinMatch
  rw [if_neg (by omega), if_neg (by omega)]
  simp only
  rw [copyMatch_take (by omega) (by omega) (by omega)]
  · congr 2
    omega
  · intro i hi hi'
    have := h5 (i - f.ip) (by omega)
    rw [show f.ip + (i - f.ip) = i by omega] at this
    rw [this]
    congr 1
    omega

/-- The decoder replays the short stretch of literals at the end. -/
theorem decompressLoop_trailing {a : ℕ} (ha : a ≤ src.length) (hlit : src.length - a < 255)
    (turns n : ℕ) :
    decompressLoop src.length (turns + 1) (emitLiterals n (src.drop a) ++ [0, 0]) (src.take a) =
      src := by
  have hll : (src.drop a).length = src.length - a := by simp
  have htake : (src.take a).length = a := by simp; omega
  rw [emitLiterals_short (hll ▸ hlit), List.cons_append, decompressLoop, htake]
  by_cases h : a < src.length
  · rw [if_pos h, readLength_literals (hll ▸ hlit)]
    simp only [List.length_append, List.take_left', List.drop_left', List.take_append_drop]
    rw [if_neg (by omega)]
    rfl
  · rw [if_neg h, List.take_of_length_le (by omega)]

/-! ### The stream -/

/-- The stream from a state of the search on. -/
def MatchFinder.stream (src : Bytes) : ℕ → MatchFinder → Bytes
  | 0, f => emitLiterals (src.drop f.anchor).length (src.drop f.anchor) ++ [0, 0]
  | turns + 1, f =>
    if f.Running src then
      match f.find src with
      | some m => emitMatch src f m ++ stream src turns (f.advance src)
      | none => stream src turns (f.advance src)
    else emitLiterals (src.drop f.anchor).length (src.drop f.anchor) ++ [0, 0]

theorem compressLoop_stream (turns : ℕ) (f : MatchFinder) (out : Bytes) :
    (compressLoop src turns f out).2 ++
        emitLiterals (src.drop (compressLoop src turns f out).1.anchor).length
          (src.drop (compressLoop src turns f out).1.anchor) ++ [0, 0] =
      out ++ f.stream src turns := by
  induction turns generalizing f out with
  | zero => simp [compressLoop, MatchFinder.stream]
  | succ turns ih =>
    rw [compressLoop, MatchFinder.stream]
    split_ifs with hrun
    · cases hm : f.find src with
      | some m =>
        simp only
        rw [ih, List.append_assoc]
      | none =>
        simp only
        rw [ih]
    · simp

theorem compress_eq_stream (h : 8 ≤ src.length) :
    compress src = 1 :: MatchFinder.init.stream src src.length := by
  have hne : src ≠ [] := by
    rintro rfl
    simp at h
  unfold compress kMinMatch
  rw [if_neg hne, if_neg (by omega)]
  exact compressLoop_stream src.length .init [1]

/-- The state after a match. -/
theorem advance_some {f : MatchFinder} {m : Match} (hm : f.find src = some m) :
    (f.advance src).anchor = f.ip + m.length ∧ (f.advance src).ip = f.ip + m.length := by
  simp [MatchFinder.advance, hm]

/-- The state after a probe without a match. -/
theorem advance_none {f : MatchFinder} (hm : f.find src = none) :
    (f.advance src).anchor = f.anchor ∧ (f.advance src).ip = f.ip + 1 := by
  simp [MatchFinder.advance, hm]

theorem length_emitMatch (src : Bytes) (f : MatchFinder) (m : Match) : 1 ≤ (emitMatch src f m).length := by
  simp [emitMatch, length_leBytes]
  omega

/-- The decoder undoes a stream all of whose stretches are short. -/
theorem decompressLoop_stream {turns fuel : ℕ} {f : MatchFinder} (hle : f.anchor ≤ f.ip)
    (hip : f.ip ≤ src.length) (hruns : ∀ r ∈ f.runs src turns, r < 255)
    (hfuel : (f.stream src turns).length ≤ fuel) :
    decompressLoop src.length fuel (f.stream src turns) (src.take f.anchor) = src := by
  induction turns generalizing fuel f with
  | zero =>
    simp only [MatchFinder.stream, List.length_append, List.length_cons] at hfuel
    obtain ⟨fuel, rfl⟩ : ∃ k, fuel = k + 1 := ⟨fuel - 1, by omega⟩
    exact decompressLoop_trailing (by omega) (hruns _ (by simp [MatchFinder.runs])) _ _
  | succ turns ih =>
    rw [MatchFinder.stream] at hfuel ⊢
    rw [MatchFinder.runs] at hruns
    split_ifs at hruns hfuel ⊢ with hrun
    · cases hm : f.find src with
      | some m =>
        simp only [hm, List.mem_cons, forall_eq_or_imp] at hruns
        simp only [hm, List.length_append] at hfuel
        have hone := length_emitMatch src f m
        obtain ⟨fuel, rfl⟩ : ∃ k, fuel = k + 1 := ⟨fuel - 1, by omega⟩
        obtain ⟨ha, hi⟩ := advance_some hm
        have hspec := find_spec hrun hm
        rw [decompressLoop_emitMatch hrun hle hm hruns.1, ← ha]
        exact ih (by omega) (by omega) hruns.2 (by omega)
      | none =>
        simp only [hm] at hruns hfuel
        obtain ⟨ha, hi⟩ := advance_none hm
        unfold MatchFinder.Running at hrun
        simp only
        rw [← ha]
        exact ih (by omega) (by omega) hruns hfuel
    · simp only [List.length_append, List.length_cons] at hfuel
      obtain ⟨fuel, rfl⟩ : ∃ k, fuel = k + 1 := ⟨fuel - 1, by omega⟩
      exact decompressLoop_trailing (by omega) (hruns _ (by simp)) _ _

/-! ### Positions without a match -/

/-- Since the anchor no probe has found a match, and the table holds the last position probed for
each hash. -/
structure Quiet (src : Bytes) (f : MatchFinder) : Prop where
  anchor_le : f.anchor ≤ f.ip
  ip_le : f.ip ≤ src.length
  /-- The table leads to the last position with a hash. -/
  table : ∀ i, f.anchor ≤ i → i < f.ip → (∀ l, i < l → l < f.ip → hash4 src l ≠ hash4 src i) →
    f.hashTable (hash4 src i) = i
  /-- The last earlier position with the same hash has other bytes. -/
  quiet : ∀ j i, f.anchor ≤ i → i < j → j < f.ip → j - i < 65535 → hash4 src i = hash4 src j →
    (∀ l, i < l → l < j → hash4 src l ≠ hash4 src j) → window src j ≠ window src i

theorem Quiet.init : Quiet src .init :=
  ⟨le_rfl, Nat.zero_le _, fun _ _ h => absurd h (Nat.not_lt_zero _),
    fun _ _ _ _ h => absurd h (Nat.not_lt_zero _)⟩

theorem Quiet.advance {f : MatchFinder} (hq : Quiet src f) (hs : src.length < 2 ^ 32)
    (hrun : f.Running src) : Quiet src (f.advance src) := by
  cases hm : f.find src with
  | some m =>
    obtain ⟨ha, hi⟩ := advance_some hm
    have hspec := find_spec hrun hm
    exact ⟨by omega, by omega, fun i h1 h2 => by omega, fun j i h1 h2 h3 => by omega⟩
  | none =>
    obtain ⟨ha, hi⟩ := advance_none hm
    unfold MatchFinder.Running kMinMatch at hrun
    have htable : (f.advance src).hashTable =
        Function.update f.hashTable (hash4 src f.ip) (f.ip % 2 ^ 32) := by
      simp [MatchFinder.advance, hm]
    refine ⟨by have := hq.anchor_le; omega, by omega, ?_, ?_⟩
    · intro i h1 h2 hlast
      rw [htable]
      rcases Nat.lt_succ_iff_lt_or_eq.mp (hi ▸ h2) with hlt | rfl
      · have hne : hash4 src i ≠ hash4 src f.ip := (hlast f.ip hlt (by omega)).symm
        rw [Function.update_of_ne hne]
        exact hq.table i (by omega) hlt fun l hl hl' => hlast l hl (by omega)
      · rw [Function.update_self, Nat.mod_eq_of_lt (by omega)]
    · intro j i h1 h2 h3 hnear hhash hlast
      rcases Nat.lt_succ_iff_lt_or_eq.mp (hi ▸ h3) with hlt | rfl
      · exact hq.quiet j i (by omega) h2 hlt hnear hhash hlast
      · -- the table leads to `i`, so the probe compared these two windows
        have href : f.hashTable (hash4 src f.ip) = i := by
          rw [← hhash]
          refine hq.table i (by omega) h2 fun l hl hl' => ?_
          rw [hhash]
          exact hlast l hl hl'
        intro hwin
        have : f.find src ≠ none := by
          simp only [MatchFinder.find, href]
          rw [if_pos ⟨h2, hnear, hwin⟩]
          simp
        exact this hm

theorem exists_last {P : ℕ → Prop} [DecidablePred P] {a b : ℕ} (hab : a < b) (ha : P a) :
    ∃ i, a ≤ i ∧ i < b ∧ P i ∧ ∀ l, i < l → l < b → ¬ P l := by
  refine ⟨Nat.findGreatest P (b - 1), Nat.le_findGreatest (by omega) ha, ?_, ?_, ?_⟩
  · have := Nat.findGreatest_le (P := P) (b - 1)
    omega
  · exact Nat.findGreatest_spec (P := P) (by omega : a ≤ b - 1) ha
  · exact fun l hl hl' => Nat.findGreatest_is_greatest hl (by omega)

/-- A stretch without a match does not repeat its start after `p` bytes, if no other window in
between has the same hash. -/
theorem Quiet.not_shifted {f : MatchFinder} (hq : Quiet src f) {p : ℕ} (h0 : 0 < p)
    (hp : f.anchor + p < f.ip) (hnear : p < 65535)
    (hwin : window src (f.anchor + p) = window src f.anchor)
    (hcol : ∀ i < p, hash4 src (f.anchor + i) = hash4 src f.anchor →
      window src (f.anchor + i) = window src f.anchor) : False := by
  have hhash : hash4 src (f.anchor + p) = hash4 src f.anchor := congrArg hashBytes hwin
  obtain ⟨i, h1, h2, h3, hlast⟩ := exists_last (P := fun i => hash4 src i = hash4 src f.anchor)
    (show f.anchor < f.anchor + p by omega) rfl
  obtain ⟨d, rfl⟩ : ∃ d, i = f.anchor + d := ⟨i - f.anchor, by omega⟩
  refine hq.quiet (f.anchor + p) (f.anchor + d) h1 h2 hp (by omega) (h3.trans hhash.symm) ?_ ?_
  · intro l hl hl'
    rw [hhash]
    exact hlast l hl hl'
  · rw [hwin, hcol d (by omega) h3]

/-- A period of a stretch: `k` bytes of 255, and another byte. -/
def period (k : ℕ) (c : UInt8) : Bytes := List.replicate k 255 ++ [c]

/-- The window at the `i`-th position of a periodic stretch. -/
def rotation (k : ℕ) (c : UInt8) (i : ℕ) : Bytes :=
  (List.range 4).map fun j => (period k c).getD ((i + j) % (k + 1)) 0

/-- A byte of a period, as a number. -/
def periodByte (k c m : ℕ) : ℕ := if m < k then 255 else c

/-- The number that is hashed for a window of a periodic stretch. -/
def rotationNat (k c i : ℕ) : ℕ :=
  ((periodByte k c ((i + 3) % (k + 1)) * 256 + periodByte k c ((i + 2) % (k + 1))) * 256 +
    periodByte k c ((i + 1) % (k + 1))) * 256 + periodByte k c (i % (k + 1))

/-- No rotation of a short period has the hash of the period without being equal to it. -/
theorem rotationNat_eq_of_hash : ∀ k < 5, ∀ c < 256, ∀ i ≤ k,
    (rotationNat k c i * 2654435761 % 2 ^ 32) >>> 19 =
      (rotationNat k c 0 * 2654435761 % 2 ^ 32) >>> 19 → rotationNat k c i = rotationNat k c 0 := by
  intro k hk
  interval_cases k <;> decide +kernel

theorem toNat_period {k m : ℕ} (hm : m ≤ k) (c : UInt8) :
    ((period k c).getD m 0).toNat = periodByte k c.toNat m := by
  rw [periodByte]
  split_ifs with hlt
  · simp [period, List.getD_eq_getElem?_getD, List.getElem?_append, hlt]
  · obtain rfl : m = k := by omega
    simp [period, List.getD_eq_getElem?_getD]

theorem leNat_rotation (k : ℕ) (c : UInt8) (i : ℕ) :
    leNat (rotation k c i) = rotationNat k c.toNat i := by
  have hbyte : ∀ j, ((period k c).getD ((i + j) % (k + 1)) 0).toNat =
      periodByte k c.toNat ((i + j) % (k + 1)) := fun j =>
    toNat_period (Nat.le_of_lt_succ (Nat.mod_lt _ k.succ_pos)) c
  simp only [rotation, show List.range 4 = [0, 1, 2, 3] from rfl, List.map_cons, List.map_nil,
    leNat]
  rw [Nat.or_comm, shiftLeft_or_byte, Nat.or_comm, shiftLeft_or_byte, Nat.or_comm,
    shiftLeft_or_byte, Nat.or_comm, shiftLeft_or_byte, hbyte 0, hbyte 1, hbyte 2, hbyte 3]
  simp only [rotationNat, Nat.zero_mul, Nat.zero_add, Nat.add_zero]

theorem rotation_eq_of_hash {k : ℕ} (hk : k < 5) (c : UInt8) {i : ℕ} (hi : i ≤ k)
    (h : hashBytes (rotation k c i) = hashBytes (rotation k c 0)) :
    rotation k c i = rotation k c 0 := by
  rw [hashBytes, hashBytes, leNat_rotation, leNat_rotation] at h
  refine leNat_inj (by simp [rotation]) ?_
  rw [leNat_rotation, leNat_rotation]
  exact rotationNat_eq_of_hash k hk c.toNat c.toNat_lt i hi h

theorem window_eq {i : ℕ} (h : i + 4 ≤ src.length) :
    window src i = (List.range 4).map fun j => src.getD (i + j) 0 := by
  refine List.ext_getElem (by simp [window]; omega) fun j h1 h2 => ?_
  simp only [List.length_map, List.length_range] at h2
  simp [window, List.getD_eq_getElem?_getD, List.getElem?_eq_getElem (show i + j < src.length by omega)]

/-- A stretch that repeats after a short period `255, …, 255, c` is not without a match. -/
theorem Quiet.not_periodic {f : MatchFinder} (hq : Quiet src f) {k : ℕ} (hk : k < 5)
    (hp : f.anchor + 16 < f.ip) (hff : ∀ i < k, src.getD (f.anchor + i) 0 = 255)
    (hper : ∀ i < 16, src.getD (f.anchor + i + (k + 1)) 0 = src.getD (f.anchor + i) 0) : False := by
  have hip := hq.ip_le
  set c := src.getD (f.anchor + k) 0 with hc
  have hget : ∀ i < 16, src.getD (f.anchor + i) 0 = (period k c).getD (i % (k + 1)) 0 := by
    intro i
    induction i using Nat.strong_induction_on with
    | _ i ih =>
      intro hi
      rcases Nat.lt_trichotomy i k with hlt | rfl | hgt
      · rw [hff i hlt, Nat.mod_eq_of_lt (by omega)]
        simp [period, List.getD_eq_getElem?_getD, List.getElem?_append, hlt]
      · rw [Nat.mod_eq_of_lt (by omega), ← hc]
        simp [period, List.getD_eq_getElem?_getD]
      · have := hper (i - (k + 1)) (by omega)
        rw [show f.anchor + (i - (k + 1)) + (k + 1) = f.anchor + i by omega] at this
        rw [this, ih _ (by omega) (by omega), Nat.mod_eq_sub_mod (show k + 1 ≤ i by omega)]
  have hwindow : ∀ i < 12, window src (f.anchor + i) = rotation k c i := by
    intro i hi
    rw [window_eq (by omega)]
    refine List.map_congr_left fun j hj => ?_
    rw [Nat.add_assoc, hget (i + j) (by have := List.mem_range.mp hj; omega)]
  have hzero : window src f.anchor = rotation k c 0 := hwindow 0 (by omega)
  refine hq.not_shifted (Nat.succ_pos k) (by omega) (by omega) ?_ ?_
  · rw [hwindow _ (by omega), hzero]
    simp [rotation]
  · intro i hi hhash
    unfold hash4 at hhash
    rw [hwindow i (by omega), hzero] at hhash ⊢
    exact rotation_eq_of_hash hk c (by omega) hhash

/-! ### Long stretches -/

theorem prefix_copyMatch (offset n : ℕ) (out : Bytes) : out <+: copyMatch offset n out := by
  induction n generalizing out with
  | zero => exact List.prefix_refl _
  | succ n ih => exact (List.prefix_append _ _).trans (ih _)

theorem prefix_decodeMatch {size : ℕ} {rest out rest' out' : Bytes}
    (h : decodeMatch size rest out = some (rest', out')) : out <+: out' := by
  simp only [decodeMatch] at h
  split at h
  · split_ifs at h
    split at h
    · simp at h
    · split_ifs at h
      simp only [Option.some.injEq, Prod.mk.injEq] at h
      exact h.2 ▸ prefix_copyMatch _ _ _
  · simp at h

/-- What the decoder has written stays. -/
theorem prefix_decompressLoop (size turns : ℕ) (input out : Bytes) :
    out <+: decompressLoop size turns input out := by
  induction turns generalizing input out with
  | zero => exact List.prefix_refl _
  | succ turns ih =>
    cases input with
    | nil => exact List.prefix_refl _
    | cons b rest =>
      simp only [decompressLoop]
      split_ifs
      · exact List.prefix_refl _
      · cases hm : decodeMatch size ((readLength 0 b rest).2.drop (readLength 0 b rest).1)
            (out ++ (readLength 0 b rest).2.take (readLength 0 b rest).1) with
        | none => exact List.prefix_append _ _
        | some p =>
          obtain ⟨rest', out'⟩ := p
          exact (List.prefix_append _ _).trans ((prefix_decodeMatch hm).trans (ih _ _))
      · exact List.prefix_refl _

/-- A length byte of 255 followed by `k` more and another byte. -/
theorem readExt_replicate (k : ℕ) {c : UInt8} (hc : c ≠ 255) (rest : Bytes) (n : ℕ) :
    readExt (List.replicate k 255 ++ c :: rest) n = (n + 255 * k + c.toNat, rest) := by
  induction k generalizing n with
  | zero => rw [List.replicate_zero, List.nil_append, readExt, if_neg hc]; rfl
  | succ k ih =>
    rw [List.replicate_succ, List.cons_append, readExt, if_pos rfl, ih]
    rw [show n + 255 + 255 * k = n + 255 * (k + 1) by omega]

/-- The decoder stops at once, or writes the literals that it reads. -/
theorem decompressLoop_literals (size turns : ℕ) {b : UInt8} {input rest : Bytes} (out : Bytes)
    {n : ℕ} (hread : readLength 0 b input = (n, rest)) :
    decompressLoop size (turns + 1) (b :: input) out = out ∨
      out ++ rest.take n <+: decompressLoop size (turns + 1) (b :: input) out := by
  simp only [decompressLoop, hread]
  split_ifs
  · exact .inl rfl
  · right
    cases hm : decodeMatch size (rest.drop n) (out ++ rest.take n) with
    | none => exact List.prefix_refl _
    | some p =>
      obtain ⟨rest', out'⟩ := p
      exact (prefix_decodeMatch hm).trans (prefix_decompressLoop _ _ _ _)
  · exact .inl rfl

theorem getD_of_prefix {as bs : Bytes} (h : as <+: bs) {i : ℕ} (hi : i < as.length) :
    bs.getD i 0 = as.getD i 0 := by
  obtain ⟨cs, rfl⟩ := h
  rw [List.getD_append _ _ _ _ hi]

theorem take_anchor_ne {a : ℕ} (h : a < src.length) : src.take a ≠ src := by
  intro he
  have := congrArg List.length he
  rw [List.length_take] at this
  omega

/-- A stretch without a match whose decoding is right has a short period. -/
theorem periodic_of_long {a k : ℕ} {c : UInt8} (hc : c ≠ 255) {size turns n : ℕ} {rest : Bytes}
    (hn : k < n) (ha : a + n ≤ src.length)
    (hlits : (src.drop a).take n = List.replicate k 255 ++ c :: rest) (hn255 : n ≤ 255)
    {rest' : Bytes}
    (hdec : decompressLoop size (turns + 1) (255 :: ((src.drop a).take n ++ rest')) (src.take a) =
      src) (i : ℕ) (hi : i + k + 1 < n) :
    src.getD (a + i + (k + 1)) 0 = src.getD (a + i) 0 := by
  have hread : readLength 0 255 ((src.drop a).take n ++ rest') =
      (255 + 255 * k + c.toNat, rest ++ rest') := by
    rw [readLength, if_pos rfl, hlits, List.append_assoc, List.cons_append,
      readExt_replicate _ hc, Nat.zero_add]
  have hlen : ((src.drop a).take n).length = n := by simp; omega
  have hrest : rest.length + k + 1 = n := by
    rw [← hlen, hlits]
    simp
    omega
  rcases decompressLoop_literals size turns (src.take a) hread with h | h
  · exact absurd (h.symm.trans hdec) (take_anchor_ne (by omega))
  · rw [hdec] at h
    have htake : (src.take a).length = a := by simp; omega
    -- byte `i` of the output was byte `i + k + 1` of the stretch
    have hout := getD_of_prefix h (i := a + i) (by simp [htake]; omega)
    have hin : ((src.drop a).take n).getD (i + (k + 1)) 0 = src.getD (a + i + (k + 1)) 0 := by
      simp [List.getD_eq_getElem?_getD, show i + (k + 1) < n by omega, Nat.add_assoc]
    rw [hout, ← hin, hlits, List.getD_append_right _ _ _ _ (by simp; omega),
      List.getD_append_right _ _ _ _ (by omega), htake, List.length_replicate,
      show i + (k + 1) - k = i + 1 by omega, List.getD_cons_succ, Nat.add_sub_cancel_left,
      List.getD_eq_getElem?_getD, List.getD_eq_getElem?_getD, List.getElem?_take_of_lt (by omega),
      List.getElem?_append_left (by omega)]

theorem leading_255 (bs : Bytes) (n : ℕ) (hn : n < bs.length) :
    (∀ i ≤ n, bs.getD i 0 = 255) ∨
      ∃ k ≤ n, ∃ c rest, c ≠ 255 ∧ bs = List.replicate k 255 ++ c :: rest := by
  induction n generalizing bs with
  | zero =>
    obtain ⟨b, bs, rfl⟩ := List.exists_cons_of_length_pos hn
    by_cases hb : b = 255
    · exact .inl fun i hi => by simp [Nat.le_zero.mp hi, hb]
    · exact .inr ⟨0, le_rfl, b, bs, hb, rfl⟩
  | succ n ih =>
    obtain ⟨b, bs, rfl⟩ := List.exists_cons_of_length_pos (Nat.zero_lt_of_lt hn)
    by_cases hb : b = 255
    · rcases ih bs (by simpa using hn) with h | ⟨k, hk, c, rest, hc, rfl⟩
      · left
        rintro (_ | i) hi
        · simpa using hb
        · simpa using h i (by omega)
      · exact .inr ⟨k + 1, by omega, c, rest, hc, by simp [hb, List.replicate_succ]⟩
    · exact .inr ⟨0, by omega, b, bs, hb, rfl⟩

/-- The decoder does not undo a stretch of 255 bytes or more. -/
theorem decompressLoop_long {f : MatchFinder} (hq : Quiet src f) {e : ℕ} (turns fuel : ℕ)
    (rest : Bytes) (hlong : 255 ≤ e - f.anchor) (he : e ≤ src.length) (hip : e ≤ f.ip + 7)
    (hturns : e - f.anchor ≤ turns) :
    decompressLoop src.length fuel
      (emitLiterals turns ((src.drop f.anchor).take (e - f.anchor)) ++ rest)
      (src.take f.anchor) ≠ src := by
  intro hdec
  have hlen : ((src.drop f.anchor).take (e - f.anchor)).length = e - f.anchor := by simp; omega
  cases fuel with
  | zero => exact take_anchor_ne (by omega) hdec
  | succ fuel =>
    rw [emitLiterals_long (by rwa [hlen]) (by rwa [hlen]), List.take_take, Nat.min_eq_left hlong,
      List.cons_append, List.cons_append, List.append_assoc] at hdec
    have hblock : ((src.drop f.anchor).take 255).length = 255 := by simp; omega
    have hget : ∀ i < 255, ((src.drop f.anchor).take 255).getD i 0 = src.getD (f.anchor + i) 0 := by
      intro i hi
      simp [List.getD_eq_getElem?_getD, hi]
    rcases leading_255 ((src.drop f.anchor).take 255) 4 (by omega) with h | ⟨k, hk, c, lits, hc, hl⟩
    · -- five bytes of 255: the window repeats after one byte
      refine hq.not_shifted Nat.one_pos (by omega) (by omega) ?_ fun i hi _ => ?_
      · rw [window_eq (by omega), window_eq (by omega)]
        refine List.map_congr_left fun j hj => ?_
        have hj := List.mem_range.mp hj
        rw [Nat.add_assoc, ← hget _ (by omega), ← hget _ (by omega), h _ (by omega), h _ (by omega)]
      · obtain rfl : i = 0 := by omega
        rfl
    · refine hq.not_periodic (k := k) (by omega) (by omega) ?_ ?_
      · intro i hi
        rw [← hget i (by omega), hl, List.getD_append _ _ _ _ (by simpa using hi)]
        simp [List.getD_eq_getElem?_getD, hi]
      · intro i hi
        exact periodic_of_long hc (by omega) (by omega) hl le_rfl hdec i (by omega)

theorem trailing_short_of_decompressLoop {fuel : ℕ} {f : MatchFinder} (hq : Quiet src f)
    (hstop : ¬ f.Running src)
    (hdec : decompressLoop src.length fuel (emitLiterals (src.drop f.anchor).length
      (src.drop f.anchor) ++ [0, 0]) (src.take f.anchor) = src) :
    src.length - f.anchor < 255 := by
  have hle := hq.anchor_le
  unfold MatchFinder.Running kMinMatch at hstop
  by_contra hlong
  refine decompressLoop_long (e := src.length) hq (src.drop f.anchor).length fuel [0, 0]
    (by omega) le_rfl (by omega) (by simp) ?_
  rw [List.take_of_length_le (by simp)]
  exact hdec

/-- If the decoder undoes a stream, then its stretches are short. -/
theorem runs_short_of_decompressLoop {turns fuel : ℕ} {f : MatchFinder} (hq : Quiet src f)
    (hs : src.length < 2 ^ 32) (hturns : src.length ≤ turns + f.ip)
    (hfuel : (f.stream src turns).length ≤ fuel)
    (hdec : decompressLoop src.length fuel (f.stream src turns) (src.take f.anchor) = src) :
    ∀ r ∈ f.runs src turns, r < 255 := by
  induction turns generalizing fuel f with
  | zero =>
    have hstop : ¬ f.Running src := by
      unfold MatchFinder.Running kMinMatch
      omega
    simpa [MatchFinder.runs] using trailing_short_of_decompressLoop hq hstop hdec
  | succ turns ih =>
    rw [MatchFinder.stream] at hfuel hdec
    rw [MatchFinder.runs]
    split_ifs at hfuel hdec ⊢ with hrun
    · have hq' := hq.advance hs hrun
      cases hm : f.find src with
      | some m =>
        simp only [hm, List.length_append] at hfuel
        simp only [hm] at hdec
        simp only [List.mem_cons, forall_eq_or_imp]
        obtain ⟨ha, hi⟩ := advance_some hm
        have hspec := find_spec hrun hm
        have hshort : f.ip - f.anchor < 255 := by
          by_contra hlong
          unfold emitMatch at hdec
          rw [List.append_assoc, List.append_assoc] at hdec
          exact decompressLoop_long hq _ fuel _ (by omega) hq.ip_le (by omega) (by simp; omega) hdec
        have hone := length_emitMatch src f m
        obtain ⟨fuel, rfl⟩ : ∃ k, fuel = k + 1 := ⟨fuel - 1, by omega⟩
        rw [decompressLoop_emitMatch hrun hq.anchor_le hm hshort, ← ha] at hdec
        exact ⟨hshort, ih hq' (by omega) (by omega) hdec⟩
      | none =>
        simp only [hm] at hfuel hdec
        obtain ⟨ha, hi⟩ := advance_none hm
        rw [← ha] at hdec
        exact ih hq' (by omega) hfuel hdec
    · simpa using trailing_short_of_decompressLoop hq hrun hdec

/-! ### The round trip -/

theorem runs_of_stopped {f : MatchFinder} (hstop : ¬ f.Running src) (turns : ℕ) :
    f.runs src turns = [src.length - f.anchor] := by
  cases turns with
  | zero => rfl
  | succ turns => rw [MatchFinder.runs, if_neg hstop]

theorem le_length_of_mem_runs (turns : ℕ) (f : MatchFinder) :
    ∀ r ∈ f.runs src turns, r ≤ src.length := by
  induction turns generalizing f with
  | zero => simp [MatchFinder.runs]
  | succ turns ih =>
    rw [MatchFinder.runs]
    split_ifs with hrun
    · cases f.find src with
      | some m =>
        have hip : f.ip - f.anchor ≤ src.length := by
          unfold MatchFinder.Running at hrun
          omega
        exact List.forall_mem_cons.mpr ⟨hip, ih _⟩
      | none => exact ih _
    · simp

/-- There is no match where no byte occurs twice. -/
theorem find_of_nodup {f : MatchFinder} (hs : src.Nodup) (hrun : f.Running src) :
    f.find src = none := by
  unfold MatchFinder.find
  unfold MatchFinder.Running kMinMatch at hrun
  refine if_neg ?_
  rintro ⟨hlt, -, hwindow⟩
  have hhead := congrArg List.head? hwindow
  simp only [window, List.head?_take, List.head?_drop] at hhead
  rw [if_neg (by norm_num), if_neg (by norm_num)] at hhead
  exact hlt.ne' ((List.getElem?_inj (by omega) hs).mp hhead)

theorem runs_of_nodup (hs : src.Nodup) (turns : ℕ) (f : MatchFinder) :
    f.runs src turns = [src.length - f.anchor] := by
  induction turns generalizing f with
  | zero => rfl
  | succ turns ih =>
    rw [MatchFinder.runs]
    split_ifs with hrun
    · have hfind := find_of_nodup hs hrun
      simp only [hfind]
      rw [ih, (advance_none hfind).1]
    · rfl

theorem runs_short_of_decompress {s : Bytes} (hs : s.length < 2 ^ 32) (h8 : 8 ≤ s.length)
    (hdec : decompress (compress s) s.length = s) : ∀ r ∈ unmatchedRuns s, r < 255 := by
  rw [compress_eq_stream h8] at hdec
  simp only [decompress] at hdec
  rw [if_neg (by decide)] at hdec
  exact runs_short_of_decompressLoop .init hs (by simp [MatchFinder.init]) le_rfl hdec

/-- **The round trip of the compressor** holds exactly when every stretch of the input without a
match is shorter than 255 bytes. -/
theorem decompress_compress_iff (s : Bytes) (hs : s.length < 2 ^ 32) :
    decompress (compress s) s.length = s ↔ ∀ r ∈ unmatchedRuns s, r < 255 := by
  by_cases h8 : 8 ≤ s.length
  · refine ⟨runs_short_of_decompress hs h8, fun hruns => ?_⟩
    rw [compress_eq_stream h8]
    simp only [decompress]
    rw [if_neg (by decide)]
    exact decompressLoop_stream le_rfl (Nat.zero_le _) hruns le_rfl
  · -- a tiny input is stored as it is
    have hstop : ¬ MatchFinder.init.Running s := by
      unfold MatchFinder.Running kMinMatch
      omega
    have hruns : unmatchedRuns s = [s.length] := runs_of_stopped hstop s.length
    have hstored : decompress (compress s) s.length = s := by
      unfold compress kMinMatch
      split_ifs with hnil
      · rw [hnil]
        rfl
      · rfl
      · omega
    simp [hruns, hstored]
    omega

theorem decompress_compress_iff_short :
    decompress (compress (List.replicate 20 7)) 20 = List.replicate 20 7 := by
  refine (decompress_compress_iff (List.replicate 20 7) (by decide)).mpr fun r hr => ?_
  have hle := le_length_of_mem_runs 20 .init r hr
  rw [List.length_replicate] at hle
  omega

/-- The bytes from 0 to 255 do not come back. -/
theorem decompress_compress_ascending :
    ¬ ∀ s : Bytes, s.length < 2 ^ 32 → decompress (compress s) s.length = s := by
  intro h
  have hnodup : ((List.range 256).map UInt8.ofNat).Nodup := by
    refine List.nodup_range.map_on fun i hi j hj hij => ?_
    have hmod := congrArg UInt8.toNat hij
    rw [UInt8.toNat_ofNat', UInt8.toNat_ofNat'] at hmod
    have hi := List.mem_range.mp hi
    have hj := List.mem_range.mp hj
    omega
  have hlength : ((List.range 256).map UInt8.ofNat).length = 256 := by simp
  have hdec := h ((List.range 256).map UInt8.ofNat) (by omega)
  have hshort := runs_short_of_decompress (by omega) (by omega) hdec 256
  rw [unmatchedRuns, runs_of_nodup hnodup, hlength] at hshort
  have hlt := hshort (List.mem_singleton.mpr rfl)
  omega

end Vfs

end Jaci
