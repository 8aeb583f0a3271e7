import Jaci.Lib.Loop
import Jaci.Vfs.Compress
import Mathlib.Data.List.GetD
import Mathlib.Logic.Relation

/-!
# Memory accesses of the decompressor

`decompress` reads lengths that runs of 255 extend, compares sums with the two sizes and copies.
Here it is followed byte by byte: the positions are `size_t`, and every access is recorded.

* `Decoder`, `literals`, `backReference`, `round`, `decode` : the code with its accesses;
* `Allowed` : accesses that stay inside the two strings and load only what was written;
* `Overflows` : a sum wraps around;
* **`safe_iff`** : decompression is safe exactly when no sum wraps around;
* `steady_of_length` : none does for strings of at most `2 ^ 56` bytes;
* `decode_eq` : the result is that of `decompress`.
-/

namespace Jaci

namespace Vfs

open Wire

/-! ### The code -/

/-- An access to memory. -/
inductive Access where
  | read (i : ℕ)
  | write (i : ℕ)
  | load (i : ℕ)
deriving DecidableEq

/-- A `size_t`. -/
def word (n : ℕ) : ℕ := n % 2 ^ 64

/-- The local variables of `decompress`; `out` is the output up to `op`. -/
structure Decoder where
  ip : ℕ
  op : ℕ
  out : Bytes
  trace : List Access

section Code

variable (src : Bytes) (originalSize : ℕ)

/-- The byte of the string that `src[i]` is: `src` starts after the marker. -/
def srcRead (i : ℕ) : Access := .read (i + 1)

/-- The loop over bytes of 255 and the byte after them, for so many bytes: the length, the position
and the accesses. -/
def extend : ℕ → ℕ → ℕ → List Access → ℕ × ℕ × List Access
  | 0, len, ip, trace => (len, ip, trace)
  | n + 1, len, ip, trace =>
    if ip < src.length then
      if src.getD ip 0 = 255 then extend n (word (len + 255)) (ip + 1) (trace ++ [srcRead ip])
      else (word (len + (src.getD ip 0).toNat), ip + 1, trace ++ [srcRead ip, srcRead ip])
    else (len, ip, trace)

/-- A length on top of `base`. -/
def lengthAt (base ip : ℕ) (trace : List Access) : ℕ × ℕ × List Access :=
  let len := base + (src.getD ip 0).toNat
  if len = base + 255 then extend src (src.length - (ip + 1)) len (ip + 1) (trace ++ [srcRead ip])
  else (len, ip + 1, trace ++ [srcRead ip])

/-- The accesses of `memcpy`. -/
def copied (ip op n : ℕ) : List Access :=
  ((List.range n).map fun i => srcRead (word (ip + i))) ++
    (List.range n).map fun i => .write (word (op + i))

/-- The accesses of the loop that copies a match. -/
def repeated (ref op n : ℕ) : List Access :=
  (List.range n).flatMap fun i => [.load (word (ref + i)), .write (word (op + i))]

/-- The first half of a turn, or the end of the loop. -/
def literals (s : Decoder) : Except Decoder Decoder :=
  let (litLen, ip, trace) := lengthAt src 0 s.ip s.trace
  if litLen > 0 then
    if word (ip + litLen) > src.length ∨ word (s.op + litLen) > originalSize then
      .error { s with ip, trace }
    else
      .ok ⟨word (ip + litLen), word (s.op + litLen), s.out ++ (src.drop ip).take litLen,
        trace ++ copied ip s.op litLen⟩
  else .ok { s with ip, trace }

/-- The distance of a match. -/
def offsetAt (ip : ℕ) : ℕ := (src.getD ip 0).toNat ||| (src.getD (ip + 1) 0).toNat <<< 8

/-- The second half of a turn, or the end of the loop. -/
def backReference (s : Decoder) : Except Decoder Decoder :=
  if word (s.ip + 2) > src.length then .error s
  else
    let trace := s.trace ++ [srcRead s.ip, srcRead (s.ip + 1)]
    if offsetAt src s.ip = 0 ∨ s.ip + 2 ≥ src.length then .error { s with ip := s.ip + 2, trace }
    else
      let (matchLen, ip, trace) := lengthAt src kMinMatch (s.ip + 2) trace
      if offsetAt src s.ip > s.op ∨ word (s.op + matchLen) > originalSize then
        .error { s with ip, trace }
      else
        .ok ⟨ip, word (s.op + matchLen), copyMatch (offsetAt src s.ip) matchLen s.out,
          trace ++ repeated (s.op - offsetAt src s.ip) s.op matchLen⟩

/-- The condition of the loop. -/
def Decoder.Running (s : Decoder) : Prop := s.ip < src.length ∧ s.op < originalSize

instance (s : Decoder) : Decidable (s.Running src originalSize) :=
  inferInstanceAs (Decidable (_ ∧ _))

def turn (s : Decoder) : Except Decoder Decoder := do
  let s ← literals src originalSize s
  backReference src originalSize s

def round (s : Decoder) : Option (Decoder ⊕ Decoder) :=
  if s.Running src originalSize then
    match turn src originalSize s with
    | .ok s => some (.inl s)
    | .error s => some (.inr s)
  else some (.inr s)

end Code

/-- The decoder before the first turn: the marker was read. -/
def Decoder.init : Decoder := ⟨0, 0, [], [.read 0]⟩

/-- `decompress` with its accesses, for so many turns: the result and the accesses. -/
def decode (turns : ℕ) (compressed : Bytes) (originalSize : ℕ) : Option (Bytes × List Access) :=
  match compressed with
  | [] => some ([], [])
  | marker :: src =>
    if marker = 0 then some (src, .read 0 :: (List.range src.length).map srcRead)
    else (Loop.run (round src originalSize) turns .init).map fun s => (s.out, s.trace)

/-! ### Safety -/

/-- An access inside the strings, after the accesses `before`; only what was written is loaded. -/
def Access.Allowed (size originalSize : ℕ) (before : List Access) : Access → Prop
  | .read i => i < size
  | .write i => i < originalSize
  | .load i => .write i ∈ before

/-- All accesses of a list are allowed, after others. -/
def Allowed (size originalSize : ℕ) : List Access → List Access → Prop
  | _, [] => True
  | before, a :: rest => a.Allowed size originalSize before ∧
      Allowed size originalSize (before ++ [a]) rest

/-- Decompression ends, its accesses are allowed, and the result is not longer than it should be
unless the string is marked as not compressed. -/
def Safe (compressed : Bytes) (originalSize : ℕ) : Prop :=
  ∃ turns result trace, decode turns compressed originalSize = some (result, trace) ∧
    Allowed compressed.length originalSize [] trace ∧
    (compressed.head? ≠ some 0 → result.length ≤ originalSize)

section Overflow

variable (src : Bytes) (originalSize : ℕ)

/-- The sums for the literals wrap around. -/
def LiteralOverflow (s : Decoder) : Prop :=
  let (litLen, ip, _) := lengthAt src 0 s.ip s.trace
  2 ^ 64 ≤ ip + litLen ∧ 2 ^ 64 ≤ s.op + litLen

/-- There is a match, and the sum for it wraps around. -/
def MatchOverflow (s : Decoder) : Prop :=
  s.ip + 2 < src.length ∧ offsetAt src s.ip ≠ 0 ∧ offsetAt src s.ip ≤ s.op ∧
    2 ^ 64 ≤ s.op + (lengthAt src kMinMatch (s.ip + 2) []).1

/-- A sum wraps around in the turn from a state. -/
def Overflows (s : Decoder) : Prop :=
  LiteralOverflow src s ∨ ∃ s', literals src originalSize s = .ok s' ∧ MatchOverflow src s'

/-- A state at the start of a turn. -/
def Reachable : Decoder → Prop :=
  Relation.ReflTransGen (fun s s' => round src originalSize s = some (.inl s')) .init

end Overflow

/-- No sum wraps around in the decompression of a string. -/
def Steady (compressed : Bytes) (originalSize : ℕ) : Prop :=
  ∀ marker src, compressed = marker :: src → marker ≠ 0 → ∀ s, Reachable src originalSize s →
    s.Running src originalSize → ¬ Overflows src originalSize s

/-! ### Lists of accesses -/

section Lists

variable {size originalSize : ℕ}

theorem allowed_append {before l l' : List Access} :
    Allowed size originalSize before (l ++ l') ↔
      Allowed size originalSize before l ∧ Allowed size originalSize (before ++ l) l' := by
  induction l generalizing before with
  | nil => simp [Allowed]
  | cons a l ih =>
    rw [List.cons_append, Allowed, Allowed, ih, and_assoc, List.append_cons before a l]

theorem Allowed.earlier {l l' : List Access} (h : l <+: l')
    (hl : Allowed size originalSize [] l') : Allowed size originalSize [] l := by
  obtain ⟨r, rfl⟩ := h
  exact (allowed_append.mp hl).1

/-- Reads are allowed whatever came before, and writes are. -/
theorem allowed_of_forall {before l : List Access}
    (h : ∀ a ∈ l, ∀ before', a.Allowed size originalSize before') :
    Allowed size originalSize before l := by
  induction l generalizing before with
  | nil => trivial
  | cons a l ih =>
    exact ⟨h a List.mem_cons_self _, ih fun a' ha' => h a' (List.mem_cons_of_mem _ ha')⟩

theorem Allowed.of_mem {before l : List Access} (h : Allowed size originalSize before l)
    {a : Access} (ha : a ∈ l) : ∃ before', a.Allowed size originalSize before' := by
  induction l generalizing before with
  | nil => cases ha
  | cons b l ih =>
    obtain rfl | ha := List.mem_cons.mp ha
    · exact ⟨_, h.1⟩
    · exact ih h.2 ha

end Lists

/-! ### Lengths -/

section Lengths

variable {src : Bytes}

/-- What the bytes of a length are: reads up to a position of the string. -/
structure Extends (src : Bytes) (base ip : ℕ) (trace : List Access) (r : ℕ × ℕ × List Access) :
    Prop where
  le : ip ≤ r.2.1
  le_length : r.2.1 ≤ src.length
  bound : r.1 ≤ base + 255 * (r.2.1 - ip)
  reads : ∃ l, r.2.2 = trace ++ l ∧ ∀ a ∈ l, ∃ i < src.length, a = srcRead i

theorem word_le (n : ℕ) : word n ≤ n := Nat.mod_le _ _

theorem extends_extend (n : ℕ) {len ip : ℕ} (trace : List Access) (hip : ip ≤ src.length) :
    Extends src len ip trace (extend src n len ip trace) := by
  induction n generalizing len ip trace with
  | zero => exact ⟨le_rfl, hip, by simp [extend], [], by simp [extend], by simp⟩
  | succ n ih =>
    rw [extend]
    by_cases hlt : ip < src.length
    · rw [if_pos hlt]
      split
      · obtain ⟨hle, hlength, hbound, l, hl, hreads⟩ := @ih (word (len + 255)) (ip + 1)
          (trace ++ [srcRead ip]) hlt
        have hword := word_le (len + 255)
        refine ⟨by omega, hlength, by omega, srcRead ip :: l, ?_, ?_⟩
        · rw [hl, List.append_assoc, List.singleton_append]
        · intro a ha
          obtain rfl | ha := List.mem_cons.mp ha
          · exact ⟨ip, hlt, rfl⟩
          · exact hreads a ha
      · have hword := word_le (len + (src.getD ip 0).toNat)
        have hbyte := (src.getD ip 0).toNat_lt
        refine ⟨Nat.le_succ ip, hlt, ?_, _, rfl, ?_⟩
        · dsimp only
          omega
        · simp only [List.mem_cons, List.not_mem_nil, or_false, or_self, forall_eq]
          exact ⟨ip, hlt, rfl⟩
    · rw [if_neg hlt]
      exact ⟨le_rfl, hip, by simp, [], by simp, by simp⟩

theorem extends_lengthAt (base : ℕ) {ip : ℕ} (trace : List Access) (hip : ip < src.length) :
    Extends src base ip trace (lengthAt src base ip trace) ∧
      ip < (lengthAt src base ip trace).2.1 := by
  have hbyte := (src.getD ip 0).toNat_lt
  rw [lengthAt]
  split
  case isTrue hlen =>
    obtain ⟨hle, hlength, hbound, l, hl, hreads⟩ := @extends_extend src (src.length - (ip + 1))
      (base + (src.getD ip 0).toNat) (ip + 1) (trace ++ [srcRead ip]) hip
    refine ⟨⟨by omega, hlength, by omega, srcRead ip :: l, ?_, ?_⟩, by omega⟩
    · rw [hl, List.append_assoc, List.singleton_append]
    · intro a ha
      obtain rfl | ha := List.mem_cons.mp ha
      · exact ⟨ip, hip, rfl⟩
      · exact hreads a ha
  case isFalse hlen =>
    refine ⟨⟨by dsimp only; omega, hip, by dsimp only; omega, _, rfl, ?_⟩, Nat.lt_succ_self _⟩
    simp only [List.mem_cons, List.not_mem_nil, or_false, forall_eq]
    exact ⟨ip, hip, rfl⟩

/-- The accesses so far do not change a length. -/
theorem lengthAt_trace (base ip : ℕ) (trace : List Access) :
    (lengthAt src base ip trace).1 = (lengthAt src base ip []).1 ∧
      (lengthAt src base ip trace).2.1 = (lengthAt src base ip []).2.1 := by
  have hextend : ∀ n len ip trace trace', (extend src n len ip trace).1 =
      (extend src n len ip trace').1 ∧
      (extend src n len ip trace).2.1 = (extend src n len ip trace').2.1 := by
    intro n
    induction n with
    | zero => exact fun _ _ _ _ => ⟨rfl, rfl⟩
    | succ n ih =>
      intro len ip trace trace'
      rw [extend, extend]
      split
      · split
        · exact ih _ _ _ _
        · exact ⟨rfl, rfl⟩
      · exact ⟨rfl, rfl⟩
  rw [lengthAt, lengthAt]
  split
  · exact hextend _ _ _ _ _
  · exact ⟨rfl, rfl⟩

end Lengths

/-! ### One turn -/

section Turns

variable {src : Bytes} {originalSize : ℕ}

/-- The positions are in the two strings, and the output up to `op` was written. -/
structure Inv (src : Bytes) (originalSize : ℕ) (s : Decoder) : Prop where
  ip_le : s.ip ≤ src.length
  op_le : s.op ≤ originalSize
  length_out : s.out.length = s.op
  allowed : Allowed (src.length + 1) originalSize [] s.trace
  written : ∀ j < s.op, .write j ∈ s.trace

theorem allowed_srcRead {i : ℕ} (h : i < src.length) (before : List Access) :
    (srcRead i).Allowed (src.length + 1) originalSize before := Nat.succ_lt_succ h

/-- Reads of the input keep the invariant. -/
theorem Inv.reads {s : Decoder} (h : Inv src originalSize s) {ip : ℕ} (hip : ip ≤ src.length)
    {l : List Access} (hl : ∀ a ∈ l, ∃ i < src.length, a = srcRead i) :
    Inv src originalSize { s with ip, trace := s.trace ++ l } where
  ip_le := hip
  op_le := h.op_le
  length_out := h.length_out
  allowed := by
    refine allowed_append.mpr ⟨h.allowed, allowed_of_forall fun a ha before => ?_⟩
    obtain ⟨i, hi, rfl⟩ := hl a ha
    exact allowed_srcRead hi before
  written j hj := List.mem_append_left l (h.written j hj)

theorem word_of_lt {n : ℕ} (h : n < 2 ^ 64) : word n = n := Nat.mod_eq_of_lt h

theorem allowed_copied {ip op n : ℕ} (hip : ip + n ≤ src.length) (hop : op + n ≤ originalSize)
    (hsrc : src.length < 2 ^ 63) (hsize : originalSize < 2 ^ 63) (before : List Access) :
    Allowed (src.length + 1) originalSize before (copied ip op n) := by
  refine allowed_of_forall fun a ha before' => ?_
  obtain ha | ha := List.mem_append.mp ha
  · obtain ⟨i, hi, rfl⟩ := List.mem_map.mp ha
    rw [List.mem_range] at hi
    rw [word_of_lt (by omega)]
    exact allowed_srcRead (by omega) before'
  · obtain ⟨i, hi, rfl⟩ := List.mem_map.mp ha
    rw [List.mem_range] at hi
    rw [word_of_lt (by omega)]
    show op + i < originalSize
    omega

/-- The literals, when the sums do not wrap around. -/
theorem literals_steady (hsrc : src.length < 2 ^ 63) (hsize : originalSize < 2 ^ 63) {s : Decoder}
    (h : Inv src originalSize s) (hrun : s.Running src originalSize)
    (hno : ¬ LiteralOverflow src s) :
    (∃ s', literals src originalSize s = .ok s' ∧ Inv src originalSize s' ∧ s.ip < s'.ip) ∨
      ∃ s', literals src originalSize s = .error s' ∧ Inv src originalSize s' := by
  obtain ⟨hextends, hlt⟩ := extends_lengthAt 0 s.trace hrun.1
  obtain ⟨-, hlength, -, l, hl, hreads⟩ := hextends
  rw [LiteralOverflow] at hno
  rw [literals]
  generalize lengthAt src 0 s.ip s.trace = r at *
  obtain ⟨litLen, ip, trace⟩ := r
  dsimp only at *
  subst hl
  split
  case isTrue hpos =>
    split
    case isTrue => exact .inr ⟨_, rfl, h.reads hlength hreads⟩
    case isFalse hfits =>
      have hop := h.op_le
      have hwords : word (ip + litLen) = ip + litLen ∧ word (s.op + litLen) = s.op + litLen := by
        simp only [word, not_or, not_lt, not_and_or, not_le] at hfits hno ⊢
        omega
      rw [hwords.1, hwords.2] at hfits ⊢
      have hfit : ip + litLen ≤ src.length ∧ s.op + litLen ≤ originalSize := by omega
      have hinv := h.reads hlength hreads
      refine .inl ⟨_, rfl, ⟨hfit.1, hfit.2, ?_, ?_, ?_⟩, by dsimp only; omega⟩
      · dsimp only
        rw [List.length_append, List.length_take, List.length_drop, h.length_out]
        omega
      · exact allowed_append.mpr ⟨hinv.allowed, allowed_copied hfit.1 hfit.2 hsrc hsize _⟩
      · intro j hj
        dsimp only at hj
        by_cases hj' : j < s.op
        · exact List.mem_append_left _ (hinv.written j hj')
        · refine List.mem_append_right _ (List.mem_append_right _ (List.mem_map.mpr
            ⟨j - s.op, List.mem_range.mpr (by omega), ?_⟩))
          rw [word_of_lt (by omega)]
          congr 1
          omega
  case isFalse hzero => exact .inl ⟨_, rfl, h.reads hlength hreads, hlt⟩

/-- A match loads bytes that were written before it or by it. -/
theorem allowed_repeated {offset op n : ℕ} (hpos : 0 < offset) (hle : offset ≤ op)
    (hop : op + n ≤ originalSize) (hsize : originalSize < 2 ^ 63) {before : List Access}
    (hbefore : ∀ j < op, .write j ∈ before) :
    Allowed (src.length + 1) originalSize before (repeated (op - offset) op n) ∧
      ∀ j < op + n, .write j ∈ before ++ repeated (op - offset) op n := by
  induction n with
  | zero => exact ⟨trivial, fun j hj => by simpa [repeated] using hbefore j hj⟩
  | succ n ih =>
    obtain ⟨hallowed, hwritten⟩ := ih (by omega)
    have hsplit : repeated (op - offset) op (n + 1) = repeated (op - offset) op n ++
        [.load (op - offset + n), .write (op + n)] := by
      rw [repeated, repeated, List.range_succ, List.flatMap_append, List.flatMap_singleton,
        word_of_lt (by omega), word_of_lt (by omega)]
    rw [hsplit]
    refine ⟨allowed_append.mpr ⟨hallowed, ?_, ?_, trivial⟩, fun j hj => ?_⟩
    · exact hwritten _ (by omega)
    · show op + n < originalSize
      omega
    · rw [← List.append_assoc]
      by_cases hj' : j < op + n
      · exact List.mem_append_left _ (hwritten j hj')
      · obtain rfl : j = op + n := by omega
        exact List.mem_append_right _ (by simp)

theorem length_copyMatch (offset n : ℕ) (out : Bytes) :
    (copyMatch offset n out).length = out.length + n := by
  induction n generalizing out with
  | zero => rfl
  | succ n ih =>
    rw [copyMatch, ih, List.length_append, List.length_singleton]
    omega

/-- The match, when its sum does not wrap around. -/
theorem backReference_steady (hsrc : src.length < 2 ^ 63) (hsize : originalSize < 2 ^ 63)
    {s : Decoder} (h : Inv src originalSize s) (hno : ¬ MatchOverflow src s) :
    (∃ s', backReference src originalSize s = .ok s' ∧ Inv src originalSize s' ∧ s.ip < s'.ip) ∨
      ∃ s', backReference src originalSize s = .error s' ∧ Inv src originalSize s' := by
  have hip := h.ip_le
  rw [backReference, word_of_lt (by omega)]
  dsimp only
  split
  case isTrue => exact .inr ⟨s, rfl, h⟩
  case isFalse htwo =>
    have hbytes := @Inv.reads src originalSize s h (s.ip + 2) (by omega)
      [srcRead s.ip, srcRead (s.ip + 1)]
      (by
        simp only [List.mem_cons, List.not_mem_nil, or_false, forall_eq_or_imp, forall_eq]
        exact ⟨⟨s.ip, by omega, rfl⟩, s.ip + 1, by omega, rfl⟩)
    split
    case isTrue => exact .inr ⟨_, rfl, hbytes⟩
    case isFalse hoffset =>
      rw [not_or, not_le] at hoffset
      obtain ⟨hextends, hlt⟩ := extends_lengthAt kMinMatch
        (s.trace ++ [srcRead s.ip, srcRead (s.ip + 1)]) hoffset.2
      have htrace := (@lengthAt_trace src kMinMatch (s.ip + 2)
        (s.trace ++ [srcRead s.ip, srcRead (s.ip + 1)])).1
      rw [MatchOverflow, ← htrace] at hno
      obtain ⟨-, hlength, -, l, hl, hreads⟩ := hextends
      generalize lengthAt src kMinMatch (s.ip + 2)
        (s.trace ++ [srcRead s.ip, srcRead (s.ip + 1)]) = r at *
      obtain ⟨matchLen, ip, trace⟩ := r
      dsimp only at *
      subst hl
      have hinv := hbytes.reads hlength hreads
      split
      case isTrue => exact .inr ⟨_, rfl, hinv⟩
      case isFalse hfits =>
        have hop := h.op_le
        have hsum : s.op + matchLen < 2 ^ 64 := by
          by_contra hge
          exact hno ⟨hoffset.2, hoffset.1, by omega, by omega⟩
        rw [word_of_lt hsum] at hfits ⊢
        obtain ⟨hallowed, hwritten⟩ := @allowed_repeated src originalSize (offsetAt src s.ip) s.op
          matchLen (Nat.pos_of_ne_zero hoffset.1) (by omega) (by omega) hsize _ hinv.written
        refine .inl ⟨_, rfl, ⟨hlength, by dsimp only; omega, ?_, ?_, hwritten⟩, ?_⟩
        · rw [length_copyMatch, h.length_out]
        · exact allowed_append.mpr ⟨hinv.allowed, hallowed⟩
        · dsimp only
          omega

theorem extend_lt (n : ℕ) {len : ℕ} (ip : ℕ) (trace : List Access) (h : len < 2 ^ 64) :
    (extend src n len ip trace).1 < 2 ^ 64 := by
  induction n generalizing len ip trace with
  | zero => exact h
  | succ n ih =>
    rw [extend]
    split
    · split
      · exact ih _ _ (Nat.mod_lt _ (by norm_num))
      · exact Nat.mod_lt _ (by norm_num)
    · exact h

theorem lengthAt_lt (base ip : ℕ) (trace : List Access) (h : base < 2 ^ 32) :
    (lengthAt src base ip trace).1 < 2 ^ 64 := by
  have hbyte := (src.getD ip 0).toNat_lt
  rw [lengthAt]
  split
  · exact extend_lt _ _ _ (by omega)
  · dsimp only
    omega

/-- Where the sums for the literals wrap around, bytes behind the input are read. -/
theorem literals_overflow (hsrc : src.length < 2 ^ 63) {s : Decoder}
    (h : Inv src originalSize s) (hrun : s.Running src originalSize) (ho : LiteralOverflow src s) :
    ∃ s', literals src originalSize s = .ok s' ∧
      ¬ Allowed (src.length + 1) originalSize [] s'.trace := by
  obtain ⟨⟨-, hlength, -, -⟩, -⟩ := extends_lengthAt 0 s.trace hrun.1
  have hlen := @lengthAt_lt src 0 s.ip s.trace (by norm_num)
  rw [LiteralOverflow] at ho
  rw [literals]
  generalize lengthAt src 0 s.ip s.trace = r at *
  obtain ⟨litLen, ip, trace⟩ := r
  dsimp only at *
  have hop := h.op_le
  have hfits : ¬ (word (ip + litLen) > src.length ∨ word (s.op + litLen) > originalSize) := by
    simp only [word]
    omega
  rw [if_pos (by omega), if_neg hfits]
  refine ⟨_, rfl, fun hallowed => ?_⟩
  have hmem : srcRead src.length ∈ trace ++ copied ip s.op litLen := by
    refine List.mem_append_right _ (List.mem_append_left _ (List.mem_map.mpr
      ⟨src.length - ip, List.mem_range.mpr (by omega), ?_⟩))
    rw [word_of_lt (by omega)]
    congr 1
    omega
  obtain ⟨_, hread⟩ := hallowed.of_mem hmem
  exact absurd hread (Nat.lt_irrefl _)

/-- Where the sum for a match wraps around, bytes behind the output are written. -/
theorem backReference_overflow (hsrc : src.length < 2 ^ 63) (hsize : originalSize < 2 ^ 63)
    {s : Decoder} (h : Inv src originalSize s) (ho : MatchOverflow src s) :
    ∃ s', backReference src originalSize s = .ok s' ∧
      ¬ Allowed (src.length + 1) originalSize [] s'.trace := by
  have hip := h.ip_le
  have hop := h.op_le
  have hlen := @lengthAt_lt src kMinMatch (s.ip + 2) [] (by decide)
  obtain ⟨hroom, hoffset, hle, hwrap⟩ := ho
  rw [backReference, word_of_lt (by omega), if_neg (by omega)]
  dsimp only
  rw [if_neg (by omega)]
  have htrace := (@lengthAt_trace src kMinMatch (s.ip + 2)
    (s.trace ++ [srcRead s.ip, srcRead (s.ip + 1)])).1
  rw [← htrace] at hwrap hlen
  generalize lengthAt src kMinMatch (s.ip + 2)
    (s.trace ++ [srcRead s.ip, srcRead (s.ip + 1)]) = r at *
  obtain ⟨matchLen, ip, trace⟩ := r
  dsimp only at *
  have hfits : ¬ (offsetAt src s.ip > s.op ∨ word (s.op + matchLen) > originalSize) := by
    simp only [word]
    omega
  rw [if_neg hfits]
  refine ⟨_, rfl, fun hallowed => ?_⟩
  have hmem : .write originalSize ∈ trace ++ repeated (s.op - offsetAt src s.ip) s.op matchLen := by
    refine List.mem_append_right _ (List.mem_flatMap.mpr
      ⟨originalSize - s.op, List.mem_range.mpr (by omega), ?_⟩)
    rw [show s.op + (originalSize - s.op) = originalSize by omega,
      word_of_lt (n := originalSize) (by omega)]
    simp
  obtain ⟨_, hwrite⟩ := hallowed.of_mem hmem
  exact absurd hwrite (Nat.lt_irrefl _)

theorem prefix_lengthAt (base ip : ℕ) (trace : List Access) :
    trace <+: (lengthAt src base ip trace).2.2 := by
  have hextend : ∀ n len ip trace, trace <+: (extend src n len ip trace).2.2 := by
    intro n
    induction n with
    | zero => exact fun _ _ _ => List.prefix_rfl
    | succ n ih =>
      intro len ip trace
      rw [extend]
      split
      · split
        · exact (List.prefix_append _ _).trans (ih _ _ _)
        · exact List.prefix_append _ _
      · exact List.prefix_rfl
  rw [lengthAt]
  split
  · exact (List.prefix_append _ _).trans (hextend _ _ _ _)
  · exact List.prefix_append _ _

/-- The state at the end of half a turn. -/
def endOf : Except Decoder Decoder → Decoder
  | .ok s => s
  | .error s => s

theorem prefix_literals (s : Decoder) :
    s.trace <+: (endOf (literals src originalSize s)).trace := by
  have hlength := @prefix_lengthAt src 0 s.ip s.trace
  rw [literals]
  generalize lengthAt src 0 s.ip s.trace = r at *
  obtain ⟨litLen, ip, trace⟩ := r
  dsimp only at *
  split
  · split
    · exact hlength
    · exact hlength.trans (List.prefix_append _ _)
  · exact hlength

theorem prefix_backReference (s : Decoder) :
    s.trace <+: (endOf (backReference src originalSize s)).trace := by
  have hlength := (List.prefix_append _ _).trans (@prefix_lengthAt src kMinMatch (s.ip + 2)
    (s.trace ++ [srcRead s.ip, srcRead (s.ip + 1)]))
  rw [backReference]
  split
  · exact List.prefix_rfl
  · dsimp only
    split
    · exact List.prefix_append _ _
    · split
      · exact hlength
      · exact hlength.trans (List.prefix_append _ _)

theorem turn_of_ok {s s' : Decoder} (h : literals src originalSize s = .ok s') :
    turn src originalSize s = backReference src originalSize s' := by
  rw [turn, h]
  rfl

theorem turn_of_error {s s' : Decoder} (h : literals src originalSize s = .error s') :
    turn src originalSize s = .error s' := by
  rw [turn, h]
  rfl

theorem prefix_turn (s : Decoder) : s.trace <+: (endOf (turn src originalSize s)).trace := by
  have hfirst := @prefix_literals src originalSize s
  cases h : literals src originalSize s with
  | ok s' =>
    rw [h] at hfirst
    rw [turn_of_ok h]
    exact hfirst.trans (prefix_backReference s')
  | error s' =>
    rw [h] at hfirst
    rw [turn_of_error h]
    exact hfirst

/-- A turn in which no sum wraps around keeps the invariant. -/
theorem turn_steady (hsrc : src.length < 2 ^ 63) (hsize : originalSize < 2 ^ 63) {s : Decoder}
    (h : Inv src originalSize s) (hrun : s.Running src originalSize)
    (hno : ¬ Overflows src originalSize s) :
    (∃ s', turn src originalSize s = .ok s' ∧ Inv src originalSize s' ∧ s.ip < s'.ip) ∨
      ∃ s', turn src originalSize s = .error s' ∧ Inv src originalSize s' := by
  rw [Overflows, not_or] at hno
  obtain ⟨s₁, hok, hinv, hlt⟩ | ⟨s₁, herror, hinv⟩ := literals_steady hsrc hsize h hrun hno.1
  · rw [turn_of_ok hok]
    obtain ⟨s₂, hok', hinv', hlt'⟩ | hend :=
      backReference_steady hsrc hsize hinv fun ho => hno.2 ⟨s₁, hok, ho⟩
    · exact .inl ⟨s₂, hok', hinv', hlt.trans hlt'⟩
    · exact .inr hend
  · exact .inr ⟨s₁, turn_of_error herror, hinv⟩

/-- A turn in which a sum wraps around makes an access that is not allowed. -/
theorem turn_overflow (hsrc : src.length < 2 ^ 63) (hsize : originalSize < 2 ^ 63) {s : Decoder}
    (h : Inv src originalSize s) (hrun : s.Running src originalSize)
    (ho : Overflows src originalSize s) :
    ¬ Allowed (src.length + 1) originalSize [] (endOf (turn src originalSize s)).trace := by
  by_cases hliteral : LiteralOverflow src s
  · obtain ⟨s₁, hok, hbad⟩ := literals_overflow hsrc h hrun hliteral
    rw [turn_of_ok hok]
    exact fun hallowed => hbad (Allowed.earlier (prefix_backReference s₁) hallowed)
  · obtain ⟨s₁, hok, hmatch⟩ := ho.resolve_left hliteral
    rw [turn_of_ok hok]
    have hinv : Inv src originalSize s₁ := by
      obtain ⟨s', hok', hinv, -⟩ | ⟨s', herror, -⟩ := literals_steady hsrc hsize h hrun hliteral
      · rw [hok, Except.ok.injEq] at hok'
        exact hok' ▸ hinv
      · rw [hok] at herror
        cases herror
    obtain ⟨s₂, hok', hbad⟩ := backReference_overflow hsrc hsize hinv hmatch
    rw [hok']
    exact hbad

end Turns

/-! ### The whole string -/

section Strings

variable {src : Bytes} {originalSize : ℕ}

theorem inv_init : Inv src originalSize .init where
  ip_le := Nat.zero_le _
  op_le := Nat.zero_le _
  length_out := rfl
  allowed := ⟨Nat.succ_pos _, trivial⟩
  written _ hj := absurd hj (Nat.not_lt_zero _)

theorem round_of_running {s : Decoder} (h : s.Running src originalSize) :
    round src originalSize s = some (match turn src originalSize s with
      | .ok s => .inl s
      | .error s => .inr s) := by
  rw [round, if_pos h]
  cases turn src originalSize s <;> rfl

/-- Without a sum that wraps around the loop ends, with the invariant. -/
theorem run_steady (hsrc : src.length < 2 ^ 63) (hsize : originalSize < 2 ^ 63)
    (hno : ∀ s, Reachable src originalSize s → s.Running src originalSize →
      ¬ Overflows src originalSize s) :
    ∃ s, Loop.run (round src originalSize) (src.length + 1) .init = some s ∧
      Inv src originalSize s := by
  refine Loop.run_spec (I := fun s => Inv src originalSize s ∧ Reachable src originalSize s)
    (μ := fun s => src.length - s.ip) (fun s ⟨hinv, hreach⟩ => ?_) ⟨inv_init, .refl⟩
    (Nat.lt_succ_of_le (Nat.sub_le _ _))
  by_cases hrun : s.Running src originalSize
  · obtain ⟨s', hok, hinv', hlt⟩ | ⟨s', herror, hinv'⟩ :=
      turn_steady hsrc hsize hinv hrun (hno s hreach hrun)
    · have hround : round src originalSize s = some (.inl s') := by
        rw [round_of_running hrun, hok]
      have hip := hrun.1
      exact .inl ⟨s', hround, ⟨hinv', hreach.tail hround⟩, by dsimp only; omega⟩
    · exact .inr ⟨s', by rw [round_of_running hrun, herror], hinv'⟩
  · exact .inr ⟨s, by rw [round, if_neg hrun], hinv⟩

theorem prefix_round {s s' : Decoder}
    (h : round src originalSize s = some (.inl s') ∨ round src originalSize s = some (.inr s')) :
    s.trace <+: s'.trace := by
  by_cases hrun : s.Running src originalSize
  · have hturn := @prefix_turn src originalSize s
    rw [round_of_running hrun] at h
    cases hend : turn src originalSize s with
    | ok s₁ =>
      rw [hend] at h hturn
      obtain h | h := h
      · obtain rfl := Sum.inl.inj (Option.some.inj h)
        exact hturn
      · cases Option.some.inj h
    | error s₁ =>
      rw [hend] at h hturn
      obtain h | h := h
      · cases Option.some.inj h
      · obtain rfl := Sum.inr.inj (Option.some.inj h)
        exact hturn
  · rw [round, if_neg hrun] at h
    obtain h | h := h
    · cases Option.some.inj h
    · obtain rfl := Sum.inr.inj (Option.some.inj h)
      exact List.prefix_rfl

theorem prefix_run {turns : ℕ} {s r : Decoder}
    (h : Loop.run (round src originalSize) turns s = some r) : s.trace <+: r.trace :=
  Loop.run_partial (I := fun s' => s.trace <+: s'.trace) (Q := fun r => s.trace <+: r.trace)
    (fun _ _ hs hround => hs.trans (prefix_round (.inl hround)))
    (fun _ _ hs hround => hs.trans (prefix_round (.inr hround))) List.prefix_rfl h

/-- A state at the start of a turn has the invariant, unless an access before it was not allowed. -/
theorem inv_of_reachable (hsrc : src.length < 2 ^ 63) (hsize : originalSize < 2 ^ 63) {s : Decoder}
    (hreach : Reachable src originalSize s)
    (hallowed : Allowed (src.length + 1) originalSize [] s.trace) : Inv src originalSize s := by
  induction hreach with
  | refl => exact inv_init
  | @tail s s' _ hround ih =>
    have hinv := ih (Allowed.earlier (prefix_round (.inl hround)) hallowed)
    have hrun : s.Running src originalSize := by
      by_contra hnot
      rw [round, if_neg hnot] at hround
      cases Option.some.inj hround
    have hturn : turn src originalSize s = .ok s' := by
      rw [round_of_running hrun] at hround
      cases hend : turn src originalSize s with
      | ok s₁ =>
        rw [hend] at hround
        rw [Sum.inl.inj (Option.some.inj hround)]
      | error s₁ =>
        rw [hend] at hround
        cases Option.some.inj hround
    by_cases ho : Overflows src originalSize s
    · have hbad := turn_overflow hsrc hsize hinv hrun ho
      rw [hturn] at hbad
      exact absurd hallowed hbad
    · obtain ⟨s₁, hok, hinv', -⟩ | ⟨s₁, herror, -⟩ := turn_steady hsrc hsize hinv hrun ho
      · rw [hturn, Except.ok.injEq] at hok
        exact hok ▸ hinv'
      · rw [hturn] at herror
        cases herror

/-- Where a sum wraps around, the accesses of the whole run are not all allowed. -/
theorem run_overflow (hsrc : src.length < 2 ^ 63) (hsize : originalSize < 2 ^ 63) {s : Decoder}
    (hreach : Reachable src originalSize s) (hrun : s.Running src originalSize)
    (ho : Overflows src originalSize s) {turns : ℕ} {r : Decoder}
    (hr : Loop.run (round src originalSize) turns .init = some r) :
    ¬ Allowed (src.length + 1) originalSize [] r.trace := by
  intro hallowed
  obtain ⟨m, hm⟩ := Loop.run_of_reaches hr hreach
  have hinv := inv_of_reachable hsrc hsize hreach (Allowed.earlier (prefix_run hm) hallowed)
  refine turn_overflow hsrc hsize hinv hrun ho (Allowed.earlier ?_ hallowed)
  cases m with
  | zero => cases hm
  | succ m =>
    rw [Loop.run, round_of_running hrun, Option.bind_some] at hm
    cases hend : turn src originalSize s with
    | ok s₁ =>
      rw [hend] at hm
      exact prefix_run hm
    | error s₁ =>
      rw [hend] at hm
      obtain rfl := Option.some.inj hm
      exact List.prefix_rfl

end Strings

section Short

variable {src : Bytes} {originalSize : ℕ}

/-- A byte of the input makes at most 255 bytes of output. -/
def Slow (s : Decoder) : Prop := s.op ≤ 255 * s.ip

theorem literals_slow (hsrc : src.length < 2 ^ 56) {s : Decoder} (h : Slow s)
    (hrun : s.Running src originalSize) : ¬ LiteralOverflow src s ∧
      ∀ s', literals src originalSize s = .ok s' → Slow s' := by
  obtain ⟨⟨-, hlength, hbound, -⟩, hlt⟩ := extends_lengthAt 0 s.trace hrun.1
  rw [LiteralOverflow, literals]
  generalize lengthAt src 0 s.ip s.trace = r at *
  obtain ⟨litLen, ip, trace⟩ := r
  simp only [Slow] at *
  refine ⟨by omega, fun s' hs' => ?_⟩
  rw [word_of_lt (by omega), word_of_lt (by omega)] at hs'
  split at hs'
  · split at hs'
    · cases hs'
    · obtain rfl := Except.ok.inj hs'
      dsimp only
      omega
  · obtain rfl := Except.ok.inj hs'
    dsimp only
    omega

theorem backReference_slow (hsrc : src.length < 2 ^ 56) {s : Decoder} (h : Slow s) :
    ¬ MatchOverflow src s ∧ ∀ s', backReference src originalSize s = .ok s' → Slow s' := by
  by_cases hroom : s.ip + 2 < src.length
  · obtain ⟨⟨-, hlength, hbound, -⟩, hlt⟩ := extends_lengthAt kMinMatch
      (s.trace ++ [srcRead s.ip, srcRead (s.ip + 1)]) hroom
    rw [MatchOverflow, ← (@lengthAt_trace src kMinMatch (s.ip + 2)
      (s.trace ++ [srcRead s.ip, srcRead (s.ip + 1)])).1, backReference]
    dsimp only
    generalize lengthAt src kMinMatch (s.ip + 2)
      (s.trace ++ [srcRead s.ip, srcRead (s.ip + 1)]) = r at *
    obtain ⟨matchLen, ip, trace⟩ := r
    simp only [Slow, kMinMatch] at *
    refine ⟨by omega, fun s' hs' => ?_⟩
    rw [word_of_lt (n := s.op + matchLen) (by omega)] at hs'
    split at hs'
    · cases hs'
    · split at hs'
      · cases hs'
      · split at hs'
        · cases hs'
        · obtain rfl := Except.ok.inj hs'
          dsimp only
          omega
  · refine ⟨fun ho => hroom ho.1, fun s' hs' => ?_⟩
    rw [backReference] at hs'
    dsimp only at hs'
    rw [if_pos (c := offsetAt src s.ip = 0 ∨ s.ip + 2 ≥ src.length) (.inr (by omega))] at hs'
    split at hs' <;> cases hs'

theorem slow_of_reachable (hsrc : src.length < 2 ^ 56) {s : Decoder}
    (hreach : Reachable src originalSize s) : Slow s := by
  induction hreach with
  | refl => exact Nat.zero_le _
  | @tail s s' _ hround ih =>
    by_cases hrun : s.Running src originalSize
    · rw [round_of_running hrun] at hround
      cases hliterals : literals src originalSize s with
      | error s₁ =>
        rw [turn_of_error hliterals] at hround
        cases Option.some.inj hround
      | ok s₁ =>
        rw [turn_of_ok hliterals] at hround
        have hslow := (literals_slow hsrc ih hrun).2 s₁ hliterals
        cases hback : backReference src originalSize s₁ with
        | error s₂ =>
          rw [hback] at hround
          cases Option.some.inj hround
        | ok s₂ =>
          rw [hback] at hround
          obtain rfl := Sum.inl.inj (Option.some.inj hround)
          exact (backReference_slow hsrc hslow).2 s₂ hback
    · rw [round, if_neg hrun] at hround
      cases Option.some.inj hround

/-- **No sum wraps around for a string of at most `2 ^ 56` bytes**, and longer ones do not fit in
memory. -/
theorem steady_of_length {compressed : Bytes} (hc : compressed.length ≤ 2 ^ 56) :
    Steady compressed originalSize := by
  rintro marker src rfl - s hreach hrun ho
  have hsrc : src.length < 2 ^ 56 := hc
  have hslow := slow_of_reachable hsrc hreach
  obtain hliteral | ⟨s₁, hok, hmatch⟩ := ho
  · exact (literals_slow hsrc hslow hrun).1 hliteral
  · exact (@backReference_slow src originalSize hsrc s₁
      ((literals_slow hsrc hslow hrun).2 s₁ hok)).1 hmatch

/-! ### The same result as without accesses -/

theorem drop_cons {ip : ℕ} (h : ip < src.length) :
    src.drop ip = src.getD ip 0 :: src.drop (ip + 1) := by
  rw [List.getD_eq_getElem src 0 h, ← List.drop_eq_getElem_cons h]

theorem word_of_le {n m : ℕ} (h : n ≤ m) (hm : m < 2 ^ 64) : word n = n :=
  word_of_lt (h.trans_lt hm)

theorem readExt_drop (n : ℕ) {len ip : ℕ} (trace : List Access) (hn : src.length ≤ ip + n)
    (hsum : len + 255 * (n + 1) < 2 ^ 64) :
    readExt (src.drop ip) len = ((extend src n len ip trace).1,
      src.drop (extend src n len ip trace).2.1) := by
  induction n generalizing len ip trace with
  | zero =>
    rw [extend, List.drop_eq_nil_of_le (by omega)]
    rfl
  | succ n ih =>
    have hbyte := (src.getD ip 0).toNat_lt
    have hmore : word (len + 255) = len + 255 := word_of_le (by omega) hsum
    have hlast : word (len + (src.getD ip 0).toNat) = len + (src.getD ip 0).toNat :=
      word_of_le (by omega) hsum
    rw [extend, hmore, hlast]
    split
    case isTrue hlt =>
      rw [drop_cons hlt, readExt]
      split
      · exact ih _ (by omega) (Nat.lt_of_le_of_lt (by omega) hsum)
      · rfl
    case isFalse hge =>
      rw [List.drop_eq_nil_of_le (by omega)]
      rfl

theorem readLength_drop (hsrc : src.length < 2 ^ 56) {base ip : ℕ} (trace : List Access)
    (hbase : base ≤ 4) (hip : ip < src.length) :
    readLength base (src.getD ip 0) (src.drop (ip + 1)) = ((lengthAt src base ip trace).1,
      src.drop (lengthAt src base ip trace).2.1) := by
  rw [readLength, lengthAt]
  by_cases h255 : src.getD ip 0 = 255
  · have hlen : base + (src.getD ip 0).toNat = base + 255 := by rw [h255]; rfl
    rw [if_pos h255]
    simp only [if_pos hlen]
    rw [hlen]
    refine readExt_drop (src.length - (ip + 1)) _ (by omega) (Nat.lt_of_le_of_lt ?_
      (show 259 + 255 * src.length < 2 ^ 64 by omega))
    omega
  · have hne : base + (src.getD ip 0).toNat ≠ base + 255 := fun heq =>
      h255 (UInt8.toNat_inj.mp (by rw [Nat.add_left_cancel heq]; rfl))
    rw [if_neg h255]
    simp only [if_neg hne]

/-- The second halves of the two decoders. -/
theorem decodeMatch_drop (hsrc : src.length < 2 ^ 56) {s : Decoder} (hslow : Slow s)
    (hlength : s.out.length = s.op) (hip : s.ip ≤ src.length) :
    (∃ s', backReference src originalSize s = .ok s' ∧
      decodeMatch originalSize (src.drop s.ip) s.out = some (src.drop s'.ip, s'.out)) ∨
    ∃ s', backReference src originalSize s = .error s' ∧ s'.out = s.out ∧
      decodeMatch originalSize (src.drop s.ip) s.out = none := by
  have htwo : word (s.ip + 2) = s.ip + 2 := word_of_lt (by omega)
  rw [backReference, htwo]
  dsimp only
  by_cases hshort : s.ip + 2 > src.length
  · have hdrop : (src.drop s.ip).length ≤ 1 := by
      rw [List.length_drop]
      omega
    rw [if_pos hshort]
    refine .inr ⟨s, rfl, rfl, ?_⟩
    rcases hrest : src.drop s.ip with _ | ⟨b, _ | ⟨c, rest⟩⟩
    · rfl
    · rfl
    · simp [hrest] at hdrop
  have hbytes : src.drop s.ip =
      src.getD s.ip 0 :: src.getD (s.ip + 1) 0 :: src.drop (s.ip + 2) := by
    rw [drop_cons (by omega), @drop_cons src (s.ip + 1) (by omega)]
  rw [if_neg hshort, hbytes]
  by_cases hoffset : offsetAt src s.ip = 0 ∨ s.ip + 2 ≥ src.length
  · rw [if_pos hoffset]
    refine .inr ⟨_, rfl, rfl, ?_⟩
    obtain hzero | hend := hoffset
    · exact if_pos hzero
    · rw [List.drop_eq_nil_of_le hend]
      exact ite_self (c := offsetAt src s.ip = 0) none
  have hmatch (b : UInt8) (rest : Bytes) :
      decodeMatch originalSize (src.getD s.ip 0 :: src.getD (s.ip + 1) 0 :: b :: rest) s.out =
        if offsetAt src s.ip > s.op ∨ s.op + (readLength kMinMatch b rest).1 > originalSize then none
        else some ((readLength kMinMatch b rest).2,
          copyMatch (offsetAt src s.ip) (readLength kMinMatch b rest).1 s.out) := by
    rw [← hlength]
    exact if_neg fun h => hoffset (.inl h)
  rw [if_neg hoffset, drop_cons (by omega), hmatch]
  have hroom : s.ip + 2 < src.length := by omega
  have hread := @readLength_drop src hsrc kMinMatch (s.ip + 2)
    (s.trace ++ [srcRead s.ip, srcRead (s.ip + 1)]) (by decide) hroom
  obtain ⟨⟨-, hle, hbound, -⟩, hlt⟩ := extends_lengthAt kMinMatch
    (s.trace ++ [srcRead s.ip, srcRead (s.ip + 1)]) hroom
  rw [hread]
  generalize lengthAt src kMinMatch (s.ip + 2)
    (s.trace ++ [srcRead s.ip, srcRead (s.ip + 1)]) = r at *
  obtain ⟨matchLen, ip, trace⟩ := r
  have hsum : word (s.op + matchLen) = s.op + matchLen := by
    refine word_of_le (m := 4 + 255 * src.length) ?_ (by omega)
    simp only [Slow, kMinMatch] at hslow hbound hlt hle
    omega
  rw [hsum]
  by_cases hfits : offsetAt src s.ip > s.op ∨ s.op + matchLen > originalSize
  · rw [if_pos hfits, if_pos hfits]
    exact .inr ⟨_, rfl, rfl, rfl⟩
  · rw [if_neg hfits, if_neg hfits]
    exact .inl ⟨_, rfl, rfl⟩

/-- One turn of the two decoders. -/
theorem decompressLoop_turn (hsrc : src.length < 2 ^ 56) {s : Decoder} (hslow : Slow s)
    (hlength : s.out.length = s.op) (hrun : s.Running src originalSize) (n : ℕ) :
    decompressLoop originalSize (n + 1) (src.drop s.ip) s.out =
      match turn src originalSize s with
      | .ok s' => decompressLoop originalSize n (src.drop s'.ip) s'.out
      | .error s' => s'.out := by
  obtain ⟨⟨-, hle, hbound, -⟩, hlt⟩ := extends_lengthAt 0 s.trace hrun.1
  obtain ⟨-, hslow'⟩ := literals_slow hsrc hslow hrun
  have hread := @readLength_drop src hsrc 0 s.ip s.trace (Nat.zero_le _) hrun.1
  rw [drop_cons hrun.1, decompressLoop, hlength, if_pos hrun.2]
  dsimp only
  rw [hread, List.length_drop, List.drop_drop]
  rw [literals] at hslow'
  cases hliterals : literals src originalSize s with
  | error s₁ =>
    rw [turn_of_error hliterals]
    rw [literals] at hliterals
    generalize lengthAt src 0 s.ip s.trace = r at *
    obtain ⟨litLen, ip, trace⟩ := r
    simp only [Slow] at *
    rw [word_of_lt (n := ip + litLen) (by omega), word_of_lt (n := s.op + litLen) (by omega)]
      at hliterals
    split at hliterals
    case isFalse => cases hliterals
    case isTrue hpos =>
      split at hliterals
      case isFalse => cases hliterals
      case isTrue hfits =>
        obtain rfl := Except.error.inj hliterals
        rw [if_pos ⟨hpos, by omega⟩]
  | ok s₁ =>
    rw [turn_of_ok hliterals]
    have hstart : ∃ litLen ip trace, lengthAt src 0 s.ip s.trace = (litLen, ip, trace) ∧
        ¬ (litLen > 0 ∧ (litLen > src.length - ip ∨ s.op + litLen > originalSize)) ∧
        s₁.ip = ip + litLen ∧ s₁.out = s.out ++ (src.drop ip).take litLen ∧
        s₁.op = s.op + litLen ∧ s₁.ip ≤ src.length := by
      rw [literals] at hliterals
      generalize lengthAt src 0 s.ip s.trace = r at *
      obtain ⟨litLen, ip, trace⟩ := r
      simp only [Slow] at *
      rw [word_of_lt (n := ip + litLen) (by omega), word_of_lt (n := s.op + litLen) (by omega)]
        at hliterals
      refine ⟨litLen, ip, trace, rfl, ?_⟩
      split at hliterals
      case isTrue hpos =>
        split at hliterals
        case isTrue => cases hliterals
        case isFalse hfits =>
          obtain rfl := Except.ok.inj hliterals
          exact ⟨by omega, rfl, rfl, rfl, by dsimp only; omega⟩
      case isFalse hzero =>
        obtain rfl := Except.ok.inj hliterals
        obtain rfl : litLen = 0 := by omega
        exact ⟨by omega, rfl, by simp, rfl, hle⟩
    obtain ⟨litLen, ip, trace, hlen, hnot, hip, hout, hop, hin⟩ := hstart
    have hlength₁ : s₁.out.length = s₁.op := by
      rw [hout, hop, List.length_append, List.length_take, List.length_drop, hlength]
      omega
    rw [hlen]
    dsimp only
    rw [if_neg hnot, ← hip, ← hout]
    obtain ⟨s₂, hok, hsome⟩ | ⟨s₂, herror, hsame, hnone⟩ := @decodeMatch_drop src originalSize hsrc
      s₁ (hslow' s₁ (by rw [← hliterals, literals])) hlength₁ hin
    · rw [hok, hsome]
    · rw [herror, hnone]
      exact hsame.symm

/-- The decoder with accesses has the result of the one without, when no sum can wrap around. -/
theorem decode_eq {compressed : Bytes} (hc : compressed.length ≤ 2 ^ 56)
    (hsize : originalSize < 2 ^ 63) : ∃ turns trace,
      decode turns compressed originalSize = some (decompress compressed originalSize, trace) := by
  cases compressed with
  | nil => exact ⟨0, [], rfl⟩
  | cons marker src =>
    have hsrc : src.length < 2 ^ 56 := hc
    have hsrc' : src.length < 2 ^ 63 := hsrc.trans (by decide)
    have hsteady := @steady_of_length originalSize _ hc
    rw [decompress]
    by_cases hmarker : marker = 0
    · exact ⟨0, _, by rw [if_pos hmarker, decode, if_pos hmarker]⟩
    rw [if_neg hmarker]
    obtain ⟨r, hrun, hr⟩ : ∃ r, Loop.run (round src originalSize) (src.length + 1) .init = some r ∧
        r.out = decompressLoop originalSize src.length src [] := by
      refine Loop.run_spec (I := fun s => Inv src originalSize s ∧ Reachable src originalSize s ∧
          ∃ t, src.length ≤ s.ip + t ∧ decompressLoop originalSize t (src.drop s.ip) s.out =
            decompressLoop originalSize src.length src [])
        (μ := fun s => src.length - s.ip) (fun s hs => ?_)
        ⟨inv_init, .refl, src.length, Nat.le_add_left _ _, rfl⟩ (Nat.lt_succ_of_le (Nat.sub_le _ _))
      obtain ⟨hinv, hreach, t, ht, heq⟩ := hs
      by_cases hrunning : s.Running src originalSize
      · have hip := hrunning.1
        obtain ⟨t, rfl⟩ : ∃ t', t = t' + 1 := ⟨t - 1, by omega⟩
        have hslow := slow_of_reachable hsrc hreach
        rw [decompressLoop_turn hsrc hslow hinv.length_out hrunning] at heq
        obtain ⟨s', hok, hinv', hlt⟩ | ⟨s', herror, hinv'⟩ := turn_steady hsrc' hsize hinv hrunning
          (hsteady marker src rfl hmarker s hreach hrunning)
        · have hround : round src originalSize s = some (.inl s') := by
            rw [round_of_running hrunning, hok]
          rw [hok] at heq
          exact .inl ⟨s', hround, ⟨hinv', hreach.tail hround, t, by omega, heq⟩,
            by dsimp only; omega⟩
        · rw [herror] at heq
          exact .inr ⟨s', by rw [round_of_running hrunning, herror], heq⟩
      · refine .inr ⟨s, by rw [round, if_neg hrunning], ?_⟩
        rw [← heq]
        by_cases hip : s.ip < src.length
        · obtain ⟨t, rfl⟩ : ∃ t', t = t' + 1 := ⟨t - 1, by omega⟩
          rw [drop_cons hip, decompressLoop, if_neg]
          rw [hinv.length_out]
          exact fun hop => hrunning ⟨hip, hop⟩
        · rw [List.drop_eq_nil_of_le (by omega)]
          cases t <;> rfl
    exact ⟨src.length + 1, r.trace, by rw [decode, if_neg hmarker, hrun, ← hr]; rfl⟩

theorem decode_eq_literal : ([1, 0x10, 65] : Bytes).length ≤ 2 ^ 56 ∧ 1 < 2 ^ 63 ∧
    ∃ turns trace, decode turns [1, 0x10, 65] 1 = some (decompress [1, 0x10, 65] 1, trace) :=
  ⟨by decide, by decide, decode_eq (by decide) (by decide)⟩

end Short

/-- A length of many bytes of 255 and another one. -/
theorem extend_run {src : Bytes} (k : ℕ) {n len ip : ℕ} {b : UInt8} (trace : List Access)
    (hn : k < n) (hrun : ∀ j < k, src.getD (ip + j) 0 = 255) (hlast : src.getD (ip + k) 0 = b)
    (hb : b ≠ 255) (hlength : ip + k < src.length) (hsum : len + 255 * k + b.toNat < 2 ^ 64) :
    (extend src n len ip trace).1 = len + 255 * k + b.toNat := by
  induction k generalizing n len ip trace with
  | zero =>
    obtain ⟨n, rfl⟩ : ∃ m, n = m + 1 := ⟨n - 1, by omega⟩
    rw [Nat.add_zero] at hlast
    rw [extend, if_pos (by omega), hlast, if_neg hb, word_of_lt (by omega)]
    rfl
  | succ k ih =>
    obtain ⟨n, rfl⟩ : ∃ m, n = m + 1 := ⟨n - 1, by omega⟩
    have hfirst := hrun 0 (Nat.succ_pos k)
    rw [Nat.add_zero] at hfirst
    rw [extend, if_pos (by omega), if_pos hfirst, word_of_lt (by omega)]
    have hrest := @ih n (len + 255) (ip + 1) (trace ++ [srcRead ip]) (by omega)
      (fun j hj => by rw [← hrun (j + 1) (by omega)]; congr 1; omega)
      (by rw [← hlast]; congr 1; omega) (by omega) (by omega)
    rw [hrest]
    omega

/-- A byte, and a match that goes on for `k` bytes of 255 and another one. -/
def longMatch (k : ℕ) : Bytes :=
  1 :: 1 :: 0x41 :: 1 :: 0 :: 255 :: (List.replicate k 255 ++ [251])

theorem length_longMatch (k : ℕ) : (longMatch k).length = k + 7 := by
  simp [longMatch]

/-- A match that is long enough for the sum to wrap around is written behind the output. -/
theorem not_safe_longMatch {k : ℕ} (hk : 259 + 255 * k + 251 = 2 ^ 64 - 1) :
    ¬ Safe (longMatch k) 2 := by
  obtain ⟨src, hsrc⟩ : ∃ src : Bytes,
      src = 1 :: 0x41 :: 1 :: 0 :: 255 :: (List.replicate k 255 ++ [251]) := ⟨_, rfl⟩
  have hlength : src.length = k + 6 := by simp [hsrc]
  have hliterals : literals src 2 .init =
      .ok ⟨2, 1, [0x41], [.read 0] ++ [srcRead 0] ++ copied 1 0 1⟩ := by
    have hlen : lengthAt src 0 0 [.read 0] = (1, 1, [.read 0] ++ [srcRead 0]) := by
      rw [hsrc]
      rfl
    have hfits : ¬ (word (1 + 1) > src.length ∨ word (0 + 1) > 2) := by
      rw [word_of_lt (by decide), word_of_lt (by decide)]
      omega
    simp only [literals, Decoder.init, hlen, if_neg hfits]
    rw [hsrc]
    rfl
  have hmatch : (lengthAt src kMinMatch 4 []).1 = 2 ^ 64 - 1 := by
    have hbyte : src.getD 4 0 = 255 := by
      rw [hsrc]
      rfl
    have htail : ∀ j, src.getD (5 + j) 0 = (List.replicate k (255 : UInt8) ++ [251]).getD j 0 :=
      fun j => by
        rw [hsrc, Nat.add_comm]
        rfl
    have hrun : ∀ j < k, src.getD (5 + j) 0 = 255 := fun j hj => by
      rw [htail, List.getD_append _ _ _ _ (by simpa using hj)]
      exact List.getD_replicate _ hj
    have hlast : src.getD (5 + k) 0 = 251 := by
      rw [htail, List.getD_append_right _ _ _ _ (by simp)]
      simp
    have hextend : (extend src (src.length - 5) 259 5 [srcRead 4]).1 = 259 + 255 * k + 251 :=
      extend_run k _ (by omega) hrun hlast (by decide) (by omega) (by
        show 259 + 255 * k + 251 < 2 ^ 64
        rw [hk]
        decide)
    rw [lengthAt, hbyte]
    exact hextend.trans hk
  rintro ⟨turns, result, trace, hdecode, hallowed, -⟩
  rw [longMatch, ← hsrc, decode, if_neg (by decide), Option.map_eq_some_iff] at hdecode
  obtain ⟨r, hr, heq⟩ := hdecode
  rw [Prod.mk.injEq] at heq
  rw [← heq.2, longMatch, ← hsrc, List.length_cons] at hallowed
  have hoffset : offsetAt src 2 = 1 := by
    simp [offsetAt, hsrc]
  have hoverflow : MatchOverflow src ⟨2, 1, [0x41], [.read 0] ++ [srcRead 0] ++ copied 1 0 1⟩ := by
    refine ⟨by dsimp only; omega, ?_, ?_, ?_⟩
    · rw [hoffset]
      exact Nat.one_ne_zero
    · rw [hoffset]
    · dsimp only
      rw [hmatch]
      omega
  exact run_overflow (by omega) (by decide) .refl ⟨by show 0 < src.length; omega, Nat.succ_pos 1⟩
    (.inr ⟨_, hliterals, hoverflow⟩) hr hallowed

end Vfs

end Jaci
