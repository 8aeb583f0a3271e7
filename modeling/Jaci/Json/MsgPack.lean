import Jaci.Json.Value
import Mathlib.Tactic.IntervalCases

/-!
# MessagePack transport of JSON values

`encodeMsgPack` writes a value with the shortest of nine integer forms, four string forms and
three forms for arrays and for maps; `MsgPackDecoder.decode` reads one value and leaves the rest
of the input.  The decoder's state is the input that is still to be read, so a position of the
source is the length of what has been consumed; a failed read keeps the state it failed in, which
`parseBinaryMsgPack` reports.

The decoder recurses into containers after it has consumed their header, so the length of the
input bounds the depth of the recursion: `decode` takes that bound as fuel, and `decode_stable`
shows that more fuel never changes the result.

* `MsgPackDecoder.run_toBinaryMsgPack` : reading an encoded value gives it back and stops at its
  end.
* `MsgPackDecoder.encodeMsgPack_prefixFree` : no encoding starts the encoding of another value.
* `MsgPackDecoder.decode_stable` : the bound on the recursion is never reached.
-/

namespace Jaci

namespace Json

open Wire

/-! ### Encoder -/

/-- An integer in the shortest of its forms. -/
def encodeInteger (n : ℤ) : Bytes :=
  if n ≥ 0 ∧ n ≤ 127 then [UInt8.ofInt n]
  else if n ≥ -32 ∧ n < 0 then [UInt8.ofInt n]
  else if n ≥ 0 ∧ n ≤ 0xFF then [0xcc, UInt8.ofInt n]
  else if n ≥ -128 ∧ n ≤ 127 then [0xd0, UInt8.ofInt n]
  else if n ≥ 0 ∧ n ≤ 0xFFFF then 0xcd :: beBytes 2 n
  else if n ≥ -32768 ∧ n ≤ 32767 then 0xd1 :: beBytes 2 n
  else if n ≥ 0 ∧ n ≤ 0xFFFFFFFF then 0xce :: beBytes 4 n
  else if n ≥ -2147483648 ∧ n ≤ 2147483647 then 0xd2 :: beBytes 4 n
  else 0xd3 :: beBytes 8 n

/-- A string: its length in the shortest form, then its bytes. -/
def encodeString (s : Bytes) : Bytes :=
  (if s.length < 32 then [UInt8.ofNat (0xa0 ||| s.length)]
    else if s.length ≤ 0xFF then [0xd9, UInt8.ofNat s.length]
    else if s.length ≤ 0xFFFF then 0xda :: beBytes 2 s.length
    else 0xdb :: beBytes 4 s.length) ++ s

/-- The header of a container with `len` members: `fix` carries up to 15 in its low bits, `h16`
and `h32` announce a 16-bit and a 32-bit count. -/
def containerHeader (fix h16 h32 : UInt8) (len : ℕ) : Bytes :=
  if len < 16 then [UInt8.ofNat (fix.toNat ||| len)]
  else if len ≤ 0xFFFF then h16 :: beBytes 2 len
  else h32 :: beBytes 4 len

/-- The header of an array. -/
def arrayHeader (len : ℕ) : Bytes := containerHeader 0x90 0xdc 0xdd len

/-- The header of an object. -/
def mapHeader (len : ℕ) : Bytes := containerHeader 0x80 0xde 0xdf len

mutual

/-- The MessagePack encoding of a value. -/
def encodeMsgPack : Value → Bytes
  | .null => [0xc0]
  | .boolean b => [if b then 0xc3 else 0xc2]
  | .integer n => encodeInteger n.toInt
  | .double bits => 0xcb :: beBytes 8 bits.toNat
  | .string s => encodeString s
  | .array xs => arrayHeader xs.length ++ encodeItems xs
  | .object kvs => mapHeader kvs.length ++ encodePairs kvs

/-- The items of an array, one after the other. -/
def encodeItems : List Value → Bytes
  | [] => []
  | v :: vs => encodeMsgPack v ++ encodeItems vs

/-- The pairs of an object, each key before its value. -/
def encodePairs : List (Bytes × Value) → Bytes
  | [] => []
  | (k, v) :: kvs => encodeString k ++ encodeMsgPack v ++ encodePairs kvs

end

def Value.toBinaryMsgPack (v : Value) : Bytes := encodeMsgPack v

/-! ### Decoder -/

/-- The double that a 32-bit float converts to, on bit patterns. -/
def floatToDouble (bits : ℕ) : ℕ :=
  let sign := bits >>> 31 <<< 63
  let exponent := bits >>> 23 &&& 0xff
  let fraction := bits &&& 0x7fffff
  if exponent = 0xff then
    -- infinity, or a NaN, which the conversion makes quiet
    sign ||| 0x7ff <<< 52 ||| (if fraction = 0 then 0 else fraction <<< 29 ||| 1 <<< 51)
  else if exponent = 0 then
    -- zero, or a subnormal, which is normal as a double
    if fraction = 0 then sign
    else
      let k := fraction.log2
      sign ||| (k + 874) <<< 52 ||| (fraction - 2 ^ k) <<< (52 - k)
  else sign ||| (exponent + 896) <<< 52 ||| fraction <<< 29

namespace MsgPackDecoder

/-- The result of a read: the value, unless the read failed, and the input left. -/
abbrev Result (α : Type) := Option α × Bytes

/-- Read a big-endian word of `k` bytes and continue with it. -/
def readWord (k : ℕ) (input : Bytes) (next : ℕ → Bytes → Result Value) : Result Value :=
  match takeN k input with
  | none => (none, input)
  | some (w, rest) => next (beNat w) rest

/-- Read `len` bytes as a string. -/
def readString (len : ℕ) (input : Bytes) : Result Value :=
  match takeN len input with
  | none => (none, input)
  | some (s, rest) => (some (.string s), rest)

/-- Read `count` values with `dec`. -/
def readItems (dec : Bytes → Result Value) : ℕ → Bytes → Result (List Value)
  | 0, input => (some [], input)
  | count + 1, input =>
    match dec input with
    | (none, rest) => (none, rest)
    | (some v, rest) =>
      match readItems dec count rest with
      | (none, rest) => (none, rest)
      | (some vs, rest) => (some (v :: vs), rest)

/-- Read `count` pairs with `dec`; a key must be a string. -/
def readPairs (dec : Bytes → Result Value) : ℕ → Bytes → Result (List (Bytes × Value))
  | 0, input => (some [], input)
  | count + 1, input =>
    match dec input with
    | (some (.string k), rest) =>
      match dec rest with
      | (none, rest) => (none, rest)
      | (some v, rest) =>
        match readPairs dec count rest with
        | (none, rest) => (none, rest)
        | (some kvs, rest) => (some ((k, v) :: kvs), rest)
    | (_, rest) => (none, rest)

/-- Read an array of `count` values. -/
def readArray (dec : Bytes → Result Value) (count : ℕ) (input : Bytes) : Result Value :=
  (readItems dec count input).map (Option.map .array) id

/-- Read an object of `count` pairs. -/
def readObject (dec : Bytes → Result Value) (count : ℕ) (input : Bytes) : Result Value :=
  (readPairs dec count input).map (Option.map .object) id

/-- An integer result; the source casts it to `int64_t`. -/
def integer (n : ℤ) : Value := .integer (Int64.ofInt n)

/-- The body of `decode` after its first byte `b`: `dec` decodes the members of containers. -/
def decodeTag (dec : Bytes → Result Value) (b : UInt8) (input : Bytes) : Result Value :=
  if b ≤ 0x7f then (some (integer b.toNat), input)
  else if b &&& 0xf0 = 0x80 then readObject dec (b &&& 0x0f).toNat input
  else if b &&& 0xf0 = 0x90 then readArray dec (b &&& 0x0f).toNat input
  else if b &&& 0xe0 = 0xa0 then readString (b &&& 0x1f).toNat input
  else if b ≥ 0xe0 then (some (integer ((b.toNat : ℤ).bmod (2 ^ 8))), input)
  else if b = 0xc0 then (some .null, input)
  else if b = 0xc2 then (some (.boolean false), input)
  else if b = 0xc3 then (some (.boolean true), input)
  else if b = 0xca then
    readWord 4 input fun bits rest => (some (.double (UInt64.ofNat (floatToDouble bits))), rest)
  else if b = 0xcb then
    readWord 8 input fun bits rest => (some (.double (UInt64.ofNat bits)), rest)
  else if b = 0xcc then readWord 1 input fun n rest => (some (integer n), rest)
  else if b = 0xcd then readWord 2 input fun n rest => (some (integer n), rest)
  else if b = 0xce then readWord 4 input fun n rest => (some (integer n), rest)
  else if b = 0xcf then readWord 8 input fun n rest => (some (integer n), rest)
  else if b = 0xd0 then
    readWord 1 input fun n rest => (some (integer ((n : ℤ).bmod (2 ^ 8))), rest)
  else if b = 0xd1 then
    readWord 2 input fun n rest => (some (integer ((n : ℤ).bmod (2 ^ 16))), rest)
  else if b = 0xd2 then
    readWord 4 input fun n rest => (some (integer ((n : ℤ).bmod (2 ^ 32))), rest)
  else if b = 0xd3 then
    readWord 8 input fun n rest => (some (integer ((n : ℤ).bmod (2 ^ 64))), rest)
  else if b = 0xd9 then readWord 1 input readString
  else if b = 0xda then readWord 2 input readString
  else if b = 0xdb then readWord 4 input readString
  else if b = 0xdc then readWord 2 input (readArray dec)
  else if b = 0xdd then readWord 4 input (readArray dec)
  else if b = 0xde then readWord 2 input (readObject dec)
  else if b = 0xdf then readWord 4 input (readObject dec)
  else (none, input)

/-- `MsgPackDecoder::decode`, with a bound on the depth of its recursion. -/
def decode : ℕ → Bytes → Result Value
  | 0, input => (none, input)
  | _ + 1, [] => (none, [])
  | fuel + 1, b :: input => decodeTag (decode fuel) b input

/-- Run the decoder on an input; its length bounds the recursion. -/
def run (input : Bytes) : Result Value := decode (input.length + 1) input

end MsgPackDecoder

/-- `parseBinaryMsgPack`: the value, or the message with the offset at which decoding stopped. -/
def parseBinaryMsgPack (bytes : Bytes) : Except String Value :=
  match MsgPackDecoder.run bytes with
  | (some v, _) => .ok v
  | (none, rest) => .error
      ("Failed to decode MessagePack binary at offset " ++ toString (bytes.length - rest.length))

/-! ### The prefix byte

Each form of the encoder is announced by a byte of its own class of the decoder. -/

namespace MsgPackDecoder

variable {dec : Bytes → Result Value} {input : Bytes}

theorem decodeTag_fixint {n : ℤ} (h0 : n ≥ 0) (h1 : n ≤ 127) :
    decodeTag dec (UInt8.ofInt n) input = (some (integer n), input) := by
  have hb : ((UInt8.ofInt n).toNat : ℤ) = n := by rw [toNat_ofInt]; omega
  have hle : UInt8.ofInt n ≤ 0x7f := by
    rw [UInt8.le_iff_toNat_le]
    change _ ≤ 127
    omega
  rw [decodeTag, if_pos hle, hb]

theorem high_byte {k : ℕ} (h0 : 0xe0 ≤ k) (h1 : k < 0x100) :
    ¬ UInt8.ofNat k ≤ 0x7f ∧ UInt8.ofNat k &&& 0xf0 ≠ 0x80 ∧ UInt8.ofNat k &&& 0xf0 ≠ 0x90 ∧
      UInt8.ofNat k &&& 0xe0 ≠ 0xa0 ∧ UInt8.ofNat k ≥ 0xe0 := by
  interval_cases k <;> decide

theorem decodeTag_negFixint {n : ℤ} (h0 : n ≥ -32) (h1 : n < 0) :
    decodeTag dec (UInt8.ofInt n) input = (some (integer n), input) := by
  have hb : ((UInt8.ofInt n).toNat : ℤ) = n + 256 := by rw [toNat_ofInt]; omega
  obtain ⟨c1, c2, c3, c4, c5⟩ := high_byte (k := (UInt8.ofInt n).toNat) (by omega) (by omega)
  rw [UInt8.ofNat_toNat] at c1 c2 c3 c4 c5
  have hm : (n + 256).bmod (2 ^ 8) = n := by rw [Int.bmod_def]; omega
  rw [decodeTag, if_neg c1, if_neg c2, if_neg c3, if_neg c4, if_pos c5, hb, hm]

theorem decodeTag_fixmap {len : ℕ} (h : len < 16) :
    decodeTag dec (UInt8.ofNat (0x80 ||| len)) input = readObject dec len input := by
  interval_cases len <;> rfl

theorem decodeTag_fixarray {len : ℕ} (h : len < 16) :
    decodeTag dec (UInt8.ofNat (0x90 ||| len)) input = readArray dec len input := by
  interval_cases len <;> rfl

theorem decodeTag_fixstr {len : ℕ} (h : len < 32) :
    decodeTag dec (UInt8.ofNat (0xa0 ||| len)) input = readString len input := by
  interval_cases len <;> rfl

theorem readWord_beBytes (k : ℕ) (n : ℤ) (rest : Bytes) (next : ℕ → Bytes → Result Value) :
    readWord k (beBytes k n ++ rest) next = next (beNat (beBytes k n)) rest := by
  rw [readWord, takeN_append_of_length (length_beBytes k n)]

theorem readWord_beBytes_nat {k n : ℕ} (h : n < 256 ^ k) (rest : Bytes)
    (next : ℕ → Bytes → Result Value) : readWord k (beBytes k n ++ rest) next = next n rest := by
  rw [readWord_beBytes, beNat_beBytes_nat h]

theorem readWord_unsigned {k : ℕ} {n : ℤ} (h0 : n ≥ 0) (h1 : n < 256 ^ k) (rest : Bytes) :
    readWord k (beBytes k n ++ rest) (fun m rest => (some (integer m), rest)) =
      (some (integer n), rest) := by
  rw [readWord_beBytes, beNat_beBytes, Int.emod_eq_of_lt h0 h1]

theorem readWord_signed {k : ℕ} {n : ℤ} (h0 : -(256 ^ k : ℤ) ≤ n * 2) (h1 : n * 2 < 256 ^ k)
    (rest : Bytes) :
    readWord k (beBytes k n ++ rest)
        (fun m rest => (some (integer ((m : ℤ).bmod (256 ^ k))), rest)) =
      (some (integer n), rest) := by
  rw [readWord_beBytes, bmod_beNat_beBytes h0 h1]

/-- The nine integer ranges of the encoder meet the decoder's classes. -/
theorem decode_encodeInteger (n : ℤ) (h0 : -2 ^ 63 ≤ n) (h1 : n < 2 ^ 63) (fuel : ℕ)
    (rest : Bytes) :
    decode (fuel + 1) (encodeInteger n ++ rest) = (some (integer n), rest) := by
  have hsingle : [UInt8.ofInt n] = beBytes 1 n := by simp [beBytes]
  unfold encodeInteger
  split_ifs with c1 c2 c3 c4 c5 c6 c7 c8
  · exact decodeTag_fixint c1.1 c1.2
  · exact decodeTag_negFixint c2.1 c2.2
  · rw [hsingle]
    exact readWord_unsigned (k := 1) c3.1 (by omega) rest
  · rw [hsingle]
    exact readWord_signed (k := 1) (by omega) (by omega) rest
  · exact readWord_unsigned (k := 2) c5.1 (by omega) rest
  · exact readWord_signed (k := 2) (by omega) (by omega) rest
  · exact readWord_unsigned (k := 4) c7.1 (by omega) rest
  · exact readWord_signed (k := 4) (by omega) (by omega) rest
  · exact readWord_signed (k := 8) (by omega) (by omega) rest

/-- The four string forms of the encoder meet the decoder's classes. -/
theorem decode_encodeString {s : Bytes} (h : s.length < 2 ^ 32) (fuel : ℕ) (rest : Bytes) :
    decode (fuel + 1) (encodeString s ++ rest) = (some (.string s), rest) := by
  have hread : readString s.length (s ++ rest) = (some (.string s), rest) := by
    rw [readString, takeN_append]
  have h1 : [UInt8.ofNat s.length] = beBytes 1 s.length := by
    simp only [beBytes, List.cons.injEq, and_true]
    apply UInt8.toNat_inj.1
    have := toNat_ofInt (s.length >>> (8 * 0) : ℤ)
    simp at this ⊢
    omega
  unfold encodeString
  split_ifs with c1 c2 c3 <;> rw [List.append_assoc]
  · exact (decodeTag_fixstr c1).trans hread
  · rw [show ([0xd9, UInt8.ofNat s.length] : Bytes) = 0xd9 :: [UInt8.ofNat s.length] from rfl, h1]
    exact (readWord_beBytes_nat (k := 1) (by omega) _ _).trans hread
  · exact (readWord_beBytes_nat (k := 2) (by omega) _ _).trans hread
  · exact (readWord_beBytes_nat (k := 4) (by omega) _ _).trans hread

theorem decode_arrayHeader {len : ℕ} (h : len < 2 ^ 32) (fuel : ℕ) (rest : Bytes) :
    decode (fuel + 1) (arrayHeader len ++ rest) = readArray (decode fuel) len rest := by
  unfold arrayHeader containerHeader
  split_ifs with c1 c2
  · exact decodeTag_fixarray c1
  · exact readWord_beBytes_nat (k := 2) (by omega) _ (readArray (decode fuel))
  · exact readWord_beBytes_nat (k := 4) (by omega) _ (readArray (decode fuel))

theorem decode_mapHeader {len : ℕ} (h : len < 2 ^ 32) (fuel : ℕ) (rest : Bytes) :
    decode (fuel + 1) (mapHeader len ++ rest) = readObject (decode fuel) len rest := by
  unfold mapHeader containerHeader
  split_ifs with c1 c2
  · exact decodeTag_fixmap c1
  · exact readWord_beBytes_nat (k := 2) (by omega) _ (readObject (decode fuel))
  · exact readWord_beBytes_nat (k := 4) (by omega) _ (readObject (decode fuel))

/-! ### The bound on the recursion -/

theorem length_readWord_le {k : ℕ} {next : ℕ → Bytes → Result Value}
    (h : ∀ n rest, (next n rest).2.length ≤ rest.length) (input : Bytes) :
    (readWord k input next).2.length ≤ input.length := by
  unfold readWord
  split
  · exact le_rfl
  · rename_i w rest hw
    have := congrArg List.length (takeN_eq_some hw).1
    have := h (beNat w) rest
    simp only [List.length_append] at *
    omega

theorem length_readString_le (len : ℕ) (input : Bytes) :
    (readString len input).2.length ≤ input.length := by
  unfold readString
  split
  · exact le_rfl
  · rename_i s rest hs
    have := congrArg List.length (takeN_eq_some hs).1
    simp only [List.length_append] at this
    exact this ▸ Nat.le_add_left _ _

theorem length_readItems_le (h : ∀ i, (dec i).2.length ≤ i.length) (count : ℕ) (input : Bytes) :
    (readItems dec count input).2.length ≤ input.length := by
  induction count generalizing input with
  | zero => exact le_rfl
  | succ count ih =>
    rw [readItems]
    have hd := h input
    split
    · rename_i rest heq
      rwa [heq] at hd
    · rename_i v rest heq
      rw [heq] at hd
      have hi := ih rest
      split <;> rename_i heq' <;> rw [heq'] at hi <;> exact hi.trans hd

theorem length_readPairs_le (h : ∀ i, (dec i).2.length ≤ i.length) (count : ℕ) (input : Bytes) :
    (readPairs dec count input).2.length ≤ input.length := by
  induction count generalizing input with
  | zero => exact le_rfl
  | succ count ih =>
    rw [readPairs]
    have hd := h input
    split
    · rename_i k rest heq
      rw [heq] at hd
      have hd' := h rest
      split
      · rename_i rest' heq'
        rw [heq'] at hd'
        exact hd'.trans hd
      · rename_i v rest' heq'
        rw [heq'] at hd'
        have hi := ih rest'
        split <;> rename_i heq'' <;> rw [heq''] at hi <;> exact (hi.trans hd').trans hd
    · rename_i rest _ heq
      rwa [heq] at hd

theorem length_ite_le {c : Prop} [Decidable c] {a b : Result Value} {n : ℕ}
    (ha : a.2.length ≤ n) (hb : b.2.length ≤ n) : (if c then a else b).2.length ≤ n := by
  split_ifs
  · exact ha
  · exact hb

theorem length_decodeTag_le (h : ∀ i, (dec i).2.length ≤ i.length) (b : UInt8) (input : Bytes) :
    (decodeTag dec b input).2.length ≤ input.length := by
  have harr := length_readItems_le h
  have hobj := length_readPairs_le h
  have hword : ∀ k (f : ℕ → Value),
      (readWord k input fun n rest => (some (f n), rest)).2.length ≤ input.length :=
    fun k f => length_readWord_le (fun _ _ => le_rfl) input
  have hstr := length_readString_le
  exact length_ite_le le_rfl <| length_ite_le (hobj _ _) <| length_ite_le (harr _ _) <|
    length_ite_le (hstr _ _) <| length_ite_le le_rfl <| length_ite_le le_rfl <|
    length_ite_le le_rfl <| length_ite_le le_rfl <| length_ite_le (hword 4 _) <|
    length_ite_le (hword 8 _) <| length_ite_le (hword 1 _) <| length_ite_le (hword 2 _) <|
    length_ite_le (hword 4 _) <| length_ite_le (hword 8 _) <| length_ite_le (hword 1 _) <|
    length_ite_le (hword 2 _) <| length_ite_le (hword 4 _) <| length_ite_le (hword 8 _) <|
    length_ite_le (length_readWord_le hstr _) <| length_ite_le (length_readWord_le hstr _) <|
    length_ite_le (length_readWord_le hstr _) <| length_ite_le (length_readWord_le harr _) <|
    length_ite_le (length_readWord_le harr _) <| length_ite_le (length_readWord_le hobj _) <|
    length_ite_le (length_readWord_le hobj _) le_rfl

/-- The decoder only consumes its input. -/
theorem length_decode_le (fuel : ℕ) (input : Bytes) :
    (decode fuel input).2.length ≤ input.length := by
  induction fuel generalizing input with
  | zero => exact le_rfl
  | succ fuel ih =>
    cases input with
    | nil => exact le_rfl
    | cons b input => exact (length_decodeTag_le ih b input).trans (Nat.le_succ _)

variable {dec' : Bytes → Result Value}

theorem readWord_congr {k : ℕ} {next next' : ℕ → Bytes → Result Value} {input : Bytes}
    (h : ∀ n rest, rest.length ≤ input.length → next n rest = next' n rest) :
    readWord k input next = readWord k input next' := by
  unfold readWord
  split
  · rfl
  · rename_i w rest hw
    have := congrArg List.length (takeN_eq_some hw).1
    exact h _ _ (by simp only [List.length_append] at this; omega)

theorem readItems_congr (hle : ∀ i, (dec i).2.length ≤ i.length) {count : ℕ} {input : Bytes}
    (h : ∀ i, i.length ≤ input.length → dec i = dec' i) :
    readItems dec count input = readItems dec' count input := by
  induction count generalizing input with
  | zero => rfl
  | succ count ih =>
    have hd := hle input
    have hi := @ih (dec input).2 fun i hi => h i (hi.trans hd)
    rw [readItems, readItems, ← h input le_rfl]
    grind

theorem readPairs_congr (hle : ∀ i, (dec i).2.length ≤ i.length) {count : ℕ} {input : Bytes}
    (h : ∀ i, i.length ≤ input.length → dec i = dec' i) :
    readPairs dec count input = readPairs dec' count input := by
  induction count generalizing input with
  | zero => rfl
  | succ count ih =>
    have hd := hle input
    have hd' := (hle (dec input).2).trans hd
    have h₂ := h _ hd
    have hi := @ih (dec (dec input).2).2 fun i hi => h i (hi.trans hd')
    rw [readPairs, readPairs, ← h input le_rfl]
    grind

theorem decodeTag_congr (hle : ∀ i, (dec i).2.length ≤ i.length) {b : UInt8} {input : Bytes}
    (h : ∀ i, i.length ≤ input.length → dec i = dec' i) :
    decodeTag dec b input = decodeTag dec' b input := by
  have harr : ∀ n rest, rest.length ≤ input.length → readArray dec n rest = readArray dec' n rest :=
    fun n rest hr => by
      rw [readArray, readArray, readItems_congr hle fun i hi => h i (hi.trans hr)]
  have hobj : ∀ n rest, rest.length ≤ input.length →
      readObject dec n rest = readObject dec' n rest := fun n rest hr => by
    rw [readObject, readObject, readPairs_congr hle fun i hi => h i (hi.trans hr)]
  unfold decodeTag
  rw [harr _ _ le_rfl, hobj _ _ le_rfl, readWord_congr (k := 2) harr, readWord_congr (k := 4) harr,
    readWord_congr (k := 2) hobj, readWord_congr (k := 4) hobj]

/-- More fuel than the length of the input never changes the result. -/
theorem decode_stable {f g : ℕ} {input : Bytes} (hf : input.length < f) (hg : input.length < g) :
    decode f input = decode g input := by
  induction f generalizing g input with
  | zero => exact absurd hf (Nat.not_lt_zero _)
  | succ f ih =>
    obtain ⟨g, rfl⟩ : ∃ k, g = k + 1 := ⟨g - 1, by omega⟩
    cases input with
    | nil => rfl
    | cons b input =>
      simp only [List.length_cons] at hf hg
      exact decodeTag_congr (length_decode_le f) fun i hi => ih (by omega) (by omega)

/-! ### Round trip -/

theorem readItems_encodeItems {xs : List Value}
    (h : ∀ v ∈ xs, ∀ rest, dec (encodeMsgPack v ++ rest) = (some v, rest)) (rest : Bytes) :
    readItems dec xs.length (encodeItems xs ++ rest) = (some xs, rest) := by
  induction xs with
  | nil => simp [readItems, encodeItems]
  | cons v vs ih =>
    have hv := h v List.mem_cons_self
    have hvs := ih fun w hw => h w (List.mem_cons_of_mem _ hw)
    simp only [List.length_cons, readItems, encodeItems, List.append_assoc, hv, hvs]

theorem readPairs_encodePairs {kvs : List (Bytes × Value)}
    (hk : ∀ kv ∈ kvs, ∀ rest, dec (encodeString kv.1 ++ rest) = (some (.string kv.1), rest))
    (hv : ∀ kv ∈ kvs, ∀ rest, dec (encodeMsgPack kv.2 ++ rest) = (some kv.2, rest))
    (rest : Bytes) :
    readPairs dec kvs.length (encodePairs kvs ++ rest) = (some kvs, rest) := by
  induction kvs with
  | nil => simp [readPairs, encodePairs]
  | cons p kvs ih =>
    obtain ⟨k, v⟩ := p
    have hk₀ := hk (k, v) List.mem_cons_self
    have hv₀ := hv (k, v) List.mem_cons_self
    have hrest := ih (fun q hq => hk q (List.mem_cons_of_mem _ hq))
      fun q hq => hv q (List.mem_cons_of_mem _ hq)
    simp only [List.length_cons, readPairs, encodePairs, List.append_assoc, hk₀, hv₀, hrest]

theorem length_encodeInteger_pos (n : ℤ) : 0 < (encodeInteger n).length := by
  unfold encodeInteger
  split_ifs <;> simp

theorem length_encodeString_pos (s : Bytes) : 0 < (encodeString s).length := by
  unfold encodeString
  split_ifs <;> simp

theorem length_containerHeader_pos (fix h16 h32 : UInt8) (len : ℕ) :
    0 < (containerHeader fix h16 h32 len).length := by
  unfold containerHeader
  split_ifs <;> simp

theorem length_le_encodeItems {xs : List Value} {v : Value} (hv : v ∈ xs) :
    (encodeMsgPack v).length ≤ (encodeItems xs).length := by
  induction xs with
  | nil => cases hv
  | cons w ws ih =>
    simp only [encodeItems, List.length_append]
    rcases List.mem_cons.1 hv with rfl | hv
    · omega
    · have := ih hv
      omega

theorem length_le_encodePairs {kvs : List (Bytes × Value)} {kv : Bytes × Value} (h : kv ∈ kvs) :
    (encodeString kv.1).length + (encodeMsgPack kv.2).length ≤ (encodePairs kvs).length := by
  induction kvs with
  | nil => cases h
  | cons p kvs ih =>
    simp only [encodePairs, List.length_append]
    rcases List.mem_cons.1 h with rfl | h
    · omega
    · have := ih h
      omega

/-- Every bound on the depth that covers the length of the encoding is enough. -/
theorem decode_encodeMsgPack {v : Value} (hs : v.Sized) {fuel : ℕ}
    (hf : (encodeMsgPack v).length ≤ fuel) (rest : Bytes) :
    decode fuel (encodeMsgPack v ++ rest) = (some v, rest) := by
  induction v using Value.induct generalizing fuel rest with
  | null => obtain ⟨fuel, rfl⟩ := Nat.exists_eq_add_of_le' hf; rfl
  | boolean b => obtain ⟨fuel, rfl⟩ := Nat.exists_eq_add_of_le' hf; cases b <;> rfl
  | integer n =>
    have := length_encodeInteger_pos n.toInt
    obtain ⟨fuel, rfl⟩ : ∃ k, fuel = k + 1 := ⟨fuel - 1, by simp only [encodeMsgPack] at hf; omega⟩
    have := decode_encodeInteger n.toInt n.le_toInt n.toInt_lt fuel rest
    rwa [integer, Int64.ofInt_toInt] at this
  | double d =>
    obtain ⟨fuel, rfl⟩ : ∃ k, fuel = k + 1 := ⟨fuel - 1, by simp [encodeMsgPack] at hf; omega⟩
    refine (readWord_beBytes_nat (k := 8) (n := d.toNat) ?_ rest
      fun bits rest => (some (.double (UInt64.ofNat bits)), rest)).trans ?_
    · have := d.toNat_lt
      omega
    · simp
  | string s =>
    have := length_encodeString_pos s
    obtain ⟨fuel, rfl⟩ : ∃ k, fuel = k + 1 := ⟨fuel - 1, by simp only [encodeMsgPack] at hf; omega⟩
    cases hs with
    | string h => exact decode_encodeString h fuel rest
  | array xs ih =>
    have := length_containerHeader_pos 0x90 0xdc 0xdd xs.length
    simp only [encodeMsgPack, List.length_append, arrayHeader] at hf
    obtain ⟨fuel, rfl⟩ : ∃ k, fuel = k + 1 := ⟨fuel - 1, by omega⟩
    cases hs with
    | array h hall =>
      rw [encodeMsgPack, List.append_assoc, decode_arrayHeader h, readArray,
        readItems_encodeItems fun v hv rest => ih v hv (hall v hv) ?_ rest]
      · rfl
      · have := length_le_encodeItems hv
        omega
  | object kvs ih =>
    have := length_containerHeader_pos 0x80 0xde 0xdf kvs.length
    simp only [encodeMsgPack, List.length_append, mapHeader] at hf
    obtain ⟨fuel, rfl⟩ : ∃ k, fuel = k + 1 := ⟨fuel - 1, by omega⟩
    cases hs with
    | object h hall =>
      rw [encodeMsgPack, List.append_assoc, decode_mapHeader h.1, readObject,
        readPairs_encodePairs (fun kv hkv rest => ?_)
          fun kv hkv rest => ih kv hkv (hall kv hkv) ?_ rest]
      · rfl
      · have := length_le_encodePairs hkv
        have := length_encodeString_pos kv.1
        obtain ⟨k, rfl⟩ : ∃ k, fuel = k + 1 := ⟨fuel - 1, by omega⟩
        exact decode_encodeString (h.2 kv hkv) k rest
      · have := length_le_encodePairs hkv
        omega

/-- **MessagePack round trip.**  Running the decoder on an encoded value followed by any bytes
gives the value back and stops exactly where these bytes start. -/
theorem run_toBinaryMsgPack (v : Value) (hs : v.Sized) (rest : Bytes) :
    run (v.toBinaryMsgPack ++ rest) = (some v, rest) := by
  refine decode_encodeMsgPack hs ?_ rest
  simp only [Value.toBinaryMsgPack, List.length_append]
  omega

theorem run_toBinaryMsgPack_nested :
    run ((Value.object [([0x61], .array [.integer (-2 ^ 63), .double 1]), ([], .string [0])]
        ).toBinaryMsgPack ++ [0xc0]) =
      (some (.object [([0x61], .array [.integer (-2 ^ 63), .double 1]), ([], .string [0])]),
        [0xc0]) := by
  refine run_toBinaryMsgPack _ (.object ⟨by decide, by simp⟩ ?_) _
  simp only [List.mem_cons, List.not_mem_nil, or_false, forall_eq_or_imp, forall_eq]
  refine ⟨.array (by simp [Value.sized]) ?_, .string (by simp [Value.sized])⟩
  simp only [List.mem_cons, List.not_mem_nil, or_false, forall_eq_or_imp, forall_eq]
  exact ⟨.integer trivial, .double trivial⟩

/-- No encoding of a value is the beginning of the encoding of another one. -/
theorem encodeMsgPack_prefixFree {v w : Value} (hv : v.Sized) (hw : w.Sized) {r r' : Bytes}
    (h : encodeMsgPack v ++ r = encodeMsgPack w ++ r') : v = w ∧ r = r' := by
  have h₁ := decode_encodeMsgPack hv (Nat.le_add_right _ (encodeMsgPack w).length) r
  have h₂ := decode_encodeMsgPack hw (Nat.le_add_left _ (encodeMsgPack v).length) r'
  rw [h, h₂] at h₁
  simp only [Prod.mk.injEq, Option.some.injEq] at h₁
  exact ⟨h₁.1.symm, h₁.2.symm⟩

theorem encodeMsgPack_ne_nil {v : Value} (hv : v.Sized) : encodeMsgPack v ≠ [] := by
  intro hnil
  have hdecode := decode_encodeMsgPack hv le_rfl []
  rw [hnil] at hdecode
  cases hdecode

/-- **A stream of messages is read in one way:** values that are written one after the other are
determined by the bytes, without anything between them. -/
theorem encodeMsgPack_stream {vs ws : List Value} (hvs : ∀ v ∈ vs, v.Sized)
    (hws : ∀ w ∈ ws, w.Sized) (h : vs.flatMap encodeMsgPack = ws.flatMap encodeMsgPack) :
    vs = ws := by
  induction vs generalizing ws with
  | nil =>
    cases ws with
    | nil => rfl
    | cons w ws =>
      have hw := encodeMsgPack_ne_nil (hws w List.mem_cons_self)
      simp [hw] at h
  | cons v vs ih =>
    have hv := hvs v List.mem_cons_self
    cases ws with
    | nil => simp [encodeMsgPack_ne_nil hv] at h
    | cons w ws =>
      obtain ⟨rfl, hrest⟩ := encodeMsgPack_prefixFree hv (hws w List.mem_cons_self) h
      rw [ih (fun u hu => hvs u (List.mem_cons_of_mem v hu))
        (fun u hu => hws u (List.mem_cons_of_mem v hu)) hrest]

theorem encodeMsgPack_stream_two :
    [Value.integer 1, .null].flatMap encodeMsgPack = [.integer 1, .null].flatMap encodeMsgPack ∧
      [Value.integer 1, .null] = [.integer 1, .null] := by
  have hsized : ∀ v ∈ [Value.integer 1, .null], v.Sized := by
    simp only [List.mem_cons, List.not_mem_nil, or_false, forall_eq_or_imp, forall_eq]
    exact ⟨.integer trivial, .null trivial⟩
  exact ⟨rfl, encodeMsgPack_stream hsized hsized rfl⟩

end MsgPackDecoder

end Json

end Jaci
