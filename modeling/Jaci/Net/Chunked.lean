import Jaci.Lib.Find
import Jaci.Lib.Loop
import Jaci.Lib.Strto
import Jaci.Lib.Wire

/-!
# Chunked bodies

`net_request` decodes a chunked body: it searches the end of the line with the size, checks that the
chunk is there, copies it and goes on after its line break.  The sums are those of `size_t`.

* `sizeLine`, `nextChunk`, `decodeChunked` : the source;
* `Chunked` : the encodings of a list of chunks;
* `decodeChunked_chunked` : **every encoding is decoded**, whatever the chunks contain;
* `Advances`, `NoBackwardSize` : the loop goes on, and the sizes that take it back;
* `advances_iff` : **when the loop goes on to its end**;
* `stuck` : a body that is never left.
-/

namespace Jaci

namespace Net

open Wire Strto StdString

/-! ### The source -/

def crlf : Bytes := [13, 10]

/-- The line with the size of a chunk: where the data starts, and the size.  Without a line break
there is none. -/
def sizeLine (response_body : Bytes) (chunk_start : ℕ) : Option (ℕ × ℕ) :=
  let rn := find response_body crlf chunk_start
  if rn = npos then none
  else some ((rn + 2) % 2 ^ 64, strtoul (substr response_body chunk_start (rn - chunk_start)) 16)

/-- A round of the loop: the chunk and the next `chunk_start`, unless the loop is left. -/
def nextChunk (response_body : Bytes) (chunk_start : ℕ) : Option (Bytes × ℕ) :=
  if chunk_start < response_body.length then
    match sizeLine response_body chunk_start with
    | none => none
    | some (data_start, size) =>
      if size = 0 then none
      else if (data_start + size) % 2 ^ 64 > response_body.length then none
      else some (substr response_body data_start size, (data_start + size + 2) % 2 ^ 64)
  else none

/-- The loop with what was decoded so far. -/
def chunkRound (response_body : Bytes) (s : ℕ × Bytes) : Option ((ℕ × Bytes) ⊕ Bytes) :=
  match nextChunk response_body s.1 with
  | none => some (.inr s.2)
  | some (chunk, chunk_start) => some (.inl (chunk_start, s.2 ++ chunk))

/-- The loop, if it is left after at most one round for each byte. -/
def decodeChunked (response_body : Bytes) : Option Bytes :=
  Loop.run (chunkRound response_body) (response_body.length + 1) (0, [])

/-- `chunk_start` after a number of rounds. -/
def chunkStart (response_body : Bytes) : ℕ → Option ℕ
  | 0 => some 0
  | n + 1 => (chunkStart response_body n).bind fun p => (nextChunk response_body p).map Prod.snd

/-! ### Encodings -/

/-- A line with a size: digits with any leading zeros and of any case, and an extension. -/
structure SizeLine (size : ℕ) where
  digits : Bytes
  extension : Bytes
  nonempty : digits ≠ []
  isDigit : ∀ c ∈ digits, isDigit 16 c = true
  number : number 16 digits = size
  begins : ∀ c ∈ extension.head?, c = 0x3b ∨ c = 0x20 ∨ c = 0x09
  noBreak : ¬ crlf <:+: extension

namespace SizeLine

variable {size : ℕ}

def bytes (line : SizeLine size) : Bytes := line.digits ++ line.extension

end SizeLine

/-- The encodings of a list of chunks: each with its size, a chunk of size zero, and any trailer. -/
inductive Chunked : List Bytes → Bytes → Prop where
  | last (line : SizeLine 0) (trailer : Bytes) : Chunked [] (line.bytes ++ crlf ++ trailer)
  | chunk {data : Bytes} {chunks : List Bytes} {body : Bytes} (hne : data ≠ [])
      (line : SizeLine data.length) (h : Chunked chunks body) :
      Chunked (data :: chunks) (line.bytes ++ crlf ++ (data ++ crlf ++ body))

/-! ### Going on -/

/-- The loop is left after at most one round for each byte, and every round raises `chunk_start`. -/
def Advances (response_body : Bytes) : Prop :=
  (decodeChunked response_body).isSome ∧
    ∀ n p q, chunkStart response_body n = some p → chunkStart response_body (n + 1) = some q → p < q

/-- No line that the loop comes to has a size that takes the sum past `2 ^ 64` and back to the start
of the line or before it: one from `2 ^ 64 - data_start` to `2 ^ 64 - data_start + chunk_start - 2`. -/
def NoBackwardSize (response_body : Bytes) : Prop :=
  ∀ n p data_start size, chunkStart response_body n = some p →
    sizeLine response_body p = some (data_start, size) →
    ¬ (2 ^ 64 ≤ data_start + size ∧ data_start + size + 2 ≤ 2 ^ 64 + p)

/-! ### Lines with sizes -/

variable {body pre rest data : Bytes} {chunks : List Bytes} {p q n size : ℕ}

theorem crlf_ne_nil : crlf ≠ [] := List.cons_ne_nil _ _

theorem occurs_crlf {s : Bytes} {i : ℕ} :
    occurs s crlf i = true ↔ s[i]? = some 13 ∧ s[i + 1]? = some 10 := by
  rw [occurs_iff, ← List.head?_drop, ← List.head?_drop, ← List.tail_drop]
  rcases s.drop i with _ | ⟨a, _ | ⟨b, s⟩⟩
  · simp [crlf]
  · simp [crlf]
  · simp [crlf, eq_comm]

/-- A digit is no part of a line break. -/
theorem isDigit_ne_break {c : UInt8} (h : isDigit 16 c = true) : c ≠ 13 ∧ c ≠ 10 := by
  have hge := isDigit_ge h
  constructor
  · rintro rfl
    exact absurd hge (by decide)
  · rintro rfl
    exact absurd hge (by decide)

/-- Before the end of a line there is no line break. -/
theorem SizeLine.occurs_false (line : SizeLine size) (rest : Bytes) {j : ℕ}
    (hj : j < line.bytes.length) : occurs (line.bytes ++ crlf ++ rest) crlf j = false := by
  rw [Bool.eq_false_iff]
  intro hocc
  obtain ⟨h1, h2⟩ := occurs_crlf.1 hocc
  rw [List.append_assoc, List.getElem?_append_left hj] at h1
  have hdigits : line.digits.length ≤ j := by
    by_contra hlt
    have hmem : (13 : UInt8) ∈ line.digits := by
      rw [SizeLine.bytes, List.getElem?_append_left (by omega)] at h1
      exact List.mem_of_getElem? h1
    exact (isDigit_ne_break (line.isDigit _ hmem)).1 rfl
  by_cases hlast : j + 1 < line.bytes.length
  · -- The line break would be one of the extension.
    rw [List.append_assoc, List.getElem?_append_left hlast] at h2
    obtain ⟨i, rfl⟩ := Nat.exists_eq_add_of_le hdigits
    rw [SizeLine.bytes, List.getElem?_append_right (by omega)] at h1 h2
    have hin : occurs line.extension crlf i = true := by
      rw [occurs_crlf]
      refine ⟨?_, ?_⟩
      · rwa [Nat.add_sub_cancel_left] at h1
      · rwa [show line.digits.length + i + 1 - line.digits.length = i + 1 by omega] at h2
    exact line.noBreak ((occurs_iff.1 hin).isInfix.trans (List.drop_suffix _ _).isInfix)
  · -- After the last byte of the line stands a carriage return.
    have hend : j + 1 = line.bytes.length := by omega
    rw [List.append_assoc, hend, List.getElem?_append_right (Nat.le_refl _), Nat.sub_self] at h2
    cases h2

theorem SizeLine.ends (line : SizeLine size) : Ends 16 line.extension := by
  intro c hc
  rcases line.begins c hc with rfl | rfl | rfl <;> decide

/-- The line of a chunk is read. -/
theorem sizeLine_line (line : SizeLine size) (hsize : size < 2 ^ 64)
    (hlen : (pre ++ (line.bytes ++ crlf ++ rest)).length ≤ max_size) :
    sizeLine (pre ++ (line.bytes ++ crlf ++ rest)) pre.length =
      some ((pre ++ line.bytes ++ crlf).length, size) := by
  have hfind : find (pre ++ (line.bytes ++ crlf ++ rest)) crlf pre.length =
      pre.length + line.bytes.length :=
    find_append crlf_ne_nil fun j hj => line.occurs_false rest hj
  have hle : pre.length + line.bytes.length ≤ (pre ++ (line.bytes ++ crlf ++ rest)).length := by
    simp only [List.length_append]
    omega
  have hlt := lt_npos (s := ⟨_, hlen⟩) hle
  have hsub : substr (pre ++ (line.bytes ++ crlf ++ rest)) pre.length
      (pre.length + line.bytes.length - pre.length) = line.bytes := by
    rw [Nat.add_sub_cancel_left, List.append_assoc]
    exact substr_append _ _ _
  have hnumber : strtoul line.bytes 16 = size := by
    rw [SizeLine.bytes, strtoul_digits (Nat.le_refl _) line.isDigit line.nonempty line.ends
      (line.number.trans_lt hsize), line.number]
  simp only [sizeLine, hfind, hsub, hnumber]
  rw [if_neg (Nat.ne_of_lt hlt), Nat.mod_eq_of_lt]
  · simp [crlf, Nat.add_assoc]
  · have hmax : (pre ++ (line.bytes ++ crlf ++ rest)).length ≤ 2 ^ 63 - 1 := hlen
    omega

/-! ### Decoding -/

theorem nextChunk_last (line : SizeLine 0)
    (hlen : (pre ++ (line.bytes ++ crlf ++ rest)).length ≤ max_size) :
    nextChunk (pre ++ (line.bytes ++ crlf ++ rest)) pre.length = none := by
  rw [nextChunk, sizeLine_line line (by decide) hlen]
  simp

/-- A chunk is read, and the next one starts after its line break. -/
theorem nextChunk_chunk (hne : data ≠ []) (line : SizeLine data.length)
    (hlen : (pre ++ (line.bytes ++ crlf ++ (data ++ crlf ++ rest))).length ≤ max_size) :
    nextChunk (pre ++ (line.bytes ++ crlf ++ (data ++ crlf ++ rest))) pre.length =
      some (data, (pre ++ (line.bytes ++ crlf ++ (data ++ crlf))).length) := by
  have hmax : (pre ++ (line.bytes ++ crlf ++ (data ++ crlf ++ rest))).length ≤ 2 ^ 63 - 1 := hlen
  have htwo : crlf.length = 2 := rfl
  have hpos := List.length_pos_iff.2 hne
  simp only [List.length_append, htwo] at hmax
  have hsub : substr (pre ++ (line.bytes ++ crlf ++ (data ++ crlf ++ rest)))
      (pre ++ line.bytes ++ crlf).length data.length = data := by
    have h := substr_append (pre ++ line.bytes ++ crlf) data (crlf ++ rest)
    simpa only [List.append_assoc] using h
  rw [nextChunk, sizeLine_line line (by omega) hlen]
  simp only [hsub]
  simp only [List.length_append, htwo]
  rw [if_pos (by omega), if_neg (by omega), Nat.mod_eq_of_lt (by omega), if_neg (by omega),
    Nat.mod_eq_of_lt (by omega)]
  simp only [Nat.add_assoc]

/-- The loop decodes what is left of a body. -/
theorem run_chunked (h : Chunked chunks body) (decoded : Bytes)
    (hlen : (pre ++ body).length ≤ max_size) (hn : body.length ≤ n) :
    Loop.run (chunkRound (pre ++ body)) (n + 1) (pre.length, decoded) =
      some (decoded ++ chunks.flatten) := by
  induction h generalizing pre decoded n with
  | last line trailer =>
    rw [Loop.run, chunkRound, nextChunk_last line hlen, List.flatten_nil, List.append_nil]
    rfl
  | @chunk data chunks rest hne line h ih =>
    have hle : rest.length + 1 ≤ n := by
      have hpos := List.length_pos_iff.2 hne
      simp only [List.length_append] at hn
      omega
    obtain ⟨m, rfl⟩ := Nat.exists_eq_add_of_le' (Nat.le_of_add_left_le hle)
    have hsplit : pre ++ (line.bytes ++ crlf ++ (data ++ crlf ++ rest)) =
        pre ++ (line.bytes ++ crlf ++ (data ++ crlf)) ++ rest := by
      simp only [List.append_assoc]
    have hih := @ih (pre ++ (line.bytes ++ crlf ++ (data ++ crlf))) m (decoded ++ data)
      (by rwa [← hsplit]) (by omega)
    rw [Loop.run, chunkRound, nextChunk_chunk hne line hlen]
    simp only [Option.bind_some]
    rw [hsplit, hih, List.flatten_cons, List.append_assoc]

/-- **Chunked bodies are decoded**: the loop is left, and what it has copied are the chunks. -/
theorem decodeChunked_chunked (response_body : Text UInt8) (h : Chunked chunks response_body.1) :
    decodeChunked response_body.1 = some chunks.flatten := by
  exact @run_chunked _ [] _ _ h [] response_body.2 (Nat.le_refl _)

/-- A chunk with a line break and a digit, with a leading zero and an extension. -/
theorem decodeChunked_line_break :
    decodeChunked ([48, 53, 59, 97] ++ crlf ++ ([88, 13, 10, 49, 13] ++ crlf ++
      ([48] ++ crlf ++ [13, 10]))) = some [88, 13, 10, 49, 13] := by
  have hlast := Chunked.last
    ⟨[48], [], by decide, by decide +kernel, rfl, by decide +kernel, by decide⟩ [13, 10]
  have hchunk := @Chunked.chunk [88, 13, 10, 49, 13] _ _ (by decide)
    ⟨[48, 53], [59, 97], by decide, by decide +kernel, rfl, by decide +kernel, by decide⟩ hlast
  exact decodeChunked_chunked ⟨_, by decide⟩ hchunk

/-! ### The next chunk -/

theorem sizeLine_bounds {data_start : ℕ} (hlen : body.length ≤ max_size)
    (h : sizeLine body p = some (data_start, size)) :
    p + 2 ≤ data_start ∧ data_start ≤ body.length ∧ size < 2 ^ 64 := by
  have hmax : body.length ≤ 2 ^ 63 - 1 := hlen
  simp only [sizeLine] at h
  split_ifs at h with hnpos
  obtain ⟨rfl, rfl⟩ := Prod.mk.inj (Option.some.inj h)
  obtain ⟨hle, hend⟩ := find_length crlf_ne_nil hnpos
  have htwo : crlf.length = 2 := rfl
  rw [htwo] at hend
  rw [Nat.mod_eq_of_lt (by omega)]
  exact ⟨by omega, hend, strtoul_lt _ _⟩

/-- What a round does. -/
theorem nextChunk_cases {next : Bytes × ℕ} (hlen : body.length ≤ max_size)
    (h : nextChunk body p = some next) :
    ∃ data_start size, sizeLine body p = some (data_start, size) ∧ p < body.length ∧ size ≠ 0 ∧
      (data_start + size) % 2 ^ 64 ≤ body.length ∧
      next.2 = (data_start + size) % 2 ^ 64 + 2 := by
  have hmax : body.length ≤ 2 ^ 63 - 1 := hlen
  rw [nextChunk] at h
  split_ifs at h with hp
  cases hline : sizeLine body p with
  | none => rw [hline] at h; cases h
  | some line =>
    obtain ⟨data_start, size⟩ := line
    simp only [hline] at h
    split_ifs at h with hsize hend
    obtain rfl := Option.some.inj h
    refine ⟨data_start, size, rfl, hp, hsize, Nat.not_lt.1 hend, ?_⟩
    dsimp only
    omega

/-- **A round goes back** exactly for a size that wraps around far enough. -/
theorem nextChunk_le {data_start : ℕ} (hlen : body.length ≤ max_size) (hp : p < body.length)
    (hline : sizeLine body p = some (data_start, size)) :
    (∃ chunk q, nextChunk body p = some (chunk, q) ∧ q ≤ p) ↔
      2 ^ 64 ≤ data_start + size ∧ data_start + size + 2 ≤ 2 ^ 64 + p := by
  have hmax : body.length ≤ 2 ^ 63 - 1 := hlen
  obtain ⟨hstart, hin, hsize⟩ := sizeLine_bounds hlen hline
  constructor
  · rintro ⟨chunk, q, hnext, hle⟩
    obtain ⟨_, _, hline', -, -, hend, hq⟩ := nextChunk_cases hlen hnext
    obtain ⟨rfl, rfl⟩ := Prod.mk.inj (Option.some.inj (hline.symm.trans hline'))
    dsimp only at hq
    omega
  · rintro ⟨hwrap, hback⟩
    have hnext : nextChunk body p =
        some (substr body data_start size, (data_start + size + 2) % 2 ^ 64) := by
      rw [nextChunk, if_pos hp, hline]
      dsimp only
      rw [if_neg (by omega), if_neg (by omega)]
    exact ⟨_, _, hnext, by omega⟩

theorem chunkStart_succ (h : chunkStart body n = some p) :
    chunkStart body (n + 1) = (nextChunk body p).map Prod.snd := by
  rw [chunkStart, h, Option.bind_some]

/-- **The loop goes on to its end** exactly if no size that it comes to takes it back. -/
theorem advances_iff (response_body : Text UInt8) :
    Advances response_body.1 ↔ NoBackwardSize response_body.1 := by
  obtain ⟨body, hlen⟩ := response_body
  constructor
  · rintro ⟨-, hup⟩ n p data_start size hn hline hback
    obtain ⟨hstart, hin, -⟩ := sizeLine_bounds hlen hline
    obtain ⟨chunk, q, hnext, hle⟩ := (nextChunk_le hlen (by omega) hline).2 hback
    have hlt := hup n p q hn (by rw [chunkStart_succ hn, hnext]; rfl)
    omega
  · intro hsizes
    have hup : ∀ n p chunk q, chunkStart body n = some p → nextChunk body p = some (chunk, q) →
        p < q := by
      intro n p chunk q hn hnext
      obtain ⟨data_start, size, hline, hp, -⟩ := nextChunk_cases hlen hnext
      by_contra hle
      exact hsizes n p data_start size hn hline
        ((nextChunk_le hlen hp hline).1 ⟨chunk, q, hnext, Nat.not_lt.1 hle⟩)
    refine ⟨?_, ?_⟩
    · -- The measure is what is left of the body.
      have hround : ∀ s : ℕ × Bytes, (∃ n, chunkStart body n = some s.1) →
          Loop.Round (chunkRound body) (fun s => ∃ n, chunkStart body n = some s.1)
            (fun s => body.length - s.1) (fun _ => True) s := by
        rintro ⟨p, decoded⟩ ⟨n, hn⟩
        cases hnext : nextChunk body p with
        | none => exact .inr ⟨decoded, by rw [chunkRound, hnext], trivial⟩
        | some next =>
          obtain ⟨chunk, q⟩ := next
          obtain ⟨_, _, -, hp, -⟩ := nextChunk_cases hlen hnext
          have hlt := hup n p chunk q hn hnext
          refine .inl ⟨(q, decoded ++ chunk), by rw [chunkRound, hnext], ⟨n + 1, ?_⟩, ?_⟩
          · rw [chunkStart_succ hn, hnext]
            rfl
          · dsimp only at hp ⊢
            omega
      obtain ⟨r, hr, -⟩ := Loop.run_spec hround (s := (0, [])) ⟨0, rfl⟩
        (Nat.lt_succ_of_le (Nat.sub_le _ _))
      exact Option.isSome_iff_exists.2 ⟨r, hr⟩
    · intro n p q hn hq
      rw [chunkStart_succ hn, Option.map_eq_some_iff] at hq
      obtain ⟨⟨chunk, q'⟩, hnext, rfl⟩ := hq
      exact hup n p chunk q' hn hnext

/-- The second size is `-6`: the loop comes back to its line again and again. -/
theorem stuck :
    ¬ ∀ response_body : Text UInt8, Advances response_body.1 := by
  intro h
  have hbody := h ⟨[49, 13, 10, 88, 13, 10, 45, 54, 13, 10], by decide⟩
  have hlt := hbody.2 1 6 6 (by decide) (by decide)
  exact absurd hlt (Nat.lt_irrefl _)

end Net

end Jaci
