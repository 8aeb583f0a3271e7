import Jaci.Lib.Bits

/-!
# Base64 and hexadecimal text

`hash.base64_encode` works on three bytes at a time, `hash.base64_decode` on one character at a
time: it shifts six bits into a buffer and takes a byte out of it when there are eight.

* `Rfc4648.encode` : the encoding of RFC 4648, by the bits of the bytes;
* `base64_encode_eq` : the encoder;
* `decodeLoop_spec` : the bits that the decoder has read are those of its output and the last ones
  of its buffer;
* `codecs_round_trip` : **both decoders undo their encoders**.
-/

namespace Jaci

namespace Hash

open Wire

def chr (c : Char) : UInt8 := c.toUInt8

/-! ### Base64 -/

def b64_table : Bytes :=
  "ABCDEFGHIJKLMNOPQRSTUVWXYZabcdefghijklmnopqrstuvwxyz0123456789+/".toList.map chr

/-- `b64_table[n & 0x3F]`. -/
def b64 (n : UInt32) : UInt8 := b64_table.getD (n &&& 0x3F).toNat 0

/-- A byte, or zero behind the end. -/
def octet (data : Bytes) (i : ℕ) : UInt32 := (data[i]?.getD 0).toUInt32

/-- The loop of `hash_base64_encode`. -/
def encodeLoop (data : Bytes) (i : ℕ) : Bytes :=
  if i < data.length then
    let triple := octet data i <<< 16 ||| octet data (i + 1) <<< 8 ||| octet data (i + 2)
    b64 (triple >>> 18) :: b64 (triple >>> 12) ::
      (if i + 1 < data.length then b64 (triple >>> 6) else chr '=') ::
      (if i + 2 < data.length then b64 triple else chr '=') :: encodeLoop data (i + 3)
  else []
termination_by data.length - i

/-- `hash_base64_encode`. -/
def base64_encode (data : Bytes) : Bytes := encodeLoop data 0

def dtable : UInt8 → ℤ :=
  (List.range 64).foldl (fun dtable i => Function.update dtable (b64_table.getD i 0) i) fun _ => -1

/-- The loop of `hash_base64_decode`, and what it pushes. -/
def decodeLoop : Bytes → UInt32 → ℕ → Bytes
  | [], _, _ => []
  | c :: data, buffer, bits_collected =>
    if c = chr '=' then []
    else if dtable c < 0 then decodeLoop data buffer bits_collected
    else
      let buffer := buffer <<< 6 ||| UInt32.ofInt (dtable c)
      let bits_collected := bits_collected + 6
      if bits_collected ≥ 8 then
        let bits_collected := bits_collected - 8
        ((buffer >>> UInt32.ofNat bits_collected) &&& 0xFF).toUInt8 ::
          decodeLoop data buffer bits_collected
      else decodeLoop data buffer bits_collected

/-- `hash_base64_decode`. -/
def base64_decode (data : Bytes) : Bytes := decodeLoop data 0 0

/-! ### Hexadecimal -/

def hex_chars : Bytes := "0123456789abcdef".toList.map chr

def bytes_to_hex (bytes : Bytes) : Bytes :=
  bytes.flatMap fun b : UInt8 =>
    [hex_chars.getD (b >>> 4).toNat 0, hex_chars.getD (b &&& 0x0F).toNat 0]

/-- `hash_hex_encode`. -/
def hex_encode (data : Bytes) : Bytes := bytes_to_hex data

def hex_char_to_val (c : UInt8) : ℤ :=
  if c ≥ chr '0' ∧ c ≤ chr '9' then c.toNat - (chr '0').toNat
  else if c ≥ chr 'a' ∧ c ≤ chr 'f' then c.toNat - (chr 'a').toNat + 10
  else if c ≥ chr 'A' ∧ c ≤ chr 'F' then c.toNat - (chr 'A').toNat + 10
  else -1

/-- The loop of `hash_hex_decode`. -/
def hexLoop : Bytes → Except String Bytes
  | hi :: lo :: data =>
    let hi := hex_char_to_val hi
    let lo := hex_char_to_val lo
    if hi < 0 ∨ lo < 0 then .error "invalid hex character in string"
    else (hexLoop data).map (UInt8.ofNat (hi.toNat <<< 4 ||| lo.toNat) :: ·)
  | _ => .ok []

/-- `hash_hex_decode`. -/
def hex_decode (data : Bytes) : Except String Bytes :=
  if data.length % 2 ≠ 0 then .error "invalid hex string length" else hexLoop data

/-! ### RFC 4648 -/

namespace Rfc4648

def char (n : ℕ) : UInt8 :=
  if n < 26 then chr 'A' + UInt8.ofNat n
  else if n < 52 then chr 'a' + UInt8.ofNat (n - 26)
  else if n < 62 then chr '0' + UInt8.ofNat (n - 52)
  else if n = 62 then chr '+' else chr '/'

/-- The characters of the groups of six bits. -/
def chars (s : Bytes) : Bytes := (Bits.groups 5 (Bits.ofBytes s)).map fun g => char (Bits.toNat g)

/-- The base 64 encoding, padded to a multiple of four characters. -/
def encode (s : Bytes) : Bytes :=
  chars s ++ List.replicate ((4 - (chars s).length % 4) % 4) (chr '=')

end Rfc4648

/-! ### Tables -/

theorem b64_chars : "ABCDEFGHIJKLMNOPQRSTUVWXYZabcdefghijklmnopqrstuvwxyz0123456789+/" =
    String.ofList ((List.range 64).map fun n => Char.ofNat (Rfc4648.char n).toNat) := by
  -- a literal is compared with a list of characters, without its bytes
  rw [show (List.range 64).map (fun n => Char.ofNat (Rfc4648.char n).toNat) =
    ['A', 'B', 'C', 'D', 'E', 'F', 'G', 'H', 'I', 'J', 'K', 'L', 'M', 'N', 'O', 'P', 'Q', 'R', 'S',
      'T', 'U', 'V', 'W', 'X', 'Y', 'Z', 'a', 'b', 'c', 'd', 'e', 'f', 'g', 'h', 'i', 'j', 'k', 'l',
      'm', 'n', 'o', 'p', 'q', 'r', 's', 't', 'u', 'v', 'w', 'x', 'y', 'z', '0', '1', '2', '3', '4',
      '5', '6', '7', '8', '9', '+', '/'] by decide]

/-- The table of the encoder is the alphabet. -/
theorem b64_table_eq : b64_table = (List.range 64).map Rfc4648.char := by
  have h : b64_table =
      "ABCDEFGHIJKLMNOPQRSTUVWXYZabcdefghijklmnopqrstuvwxyz0123456789+/".toList.map chr := by
    delta b64_table
    exact Eq.refl _
  rw [h, b64_chars, String.toList_ofList, List.map_map]
  decide

theorem b64_table_getD {i : ℕ} (hi : i < 64) : b64_table.getD i 0 = Rfc4648.char i := by
  simp [b64_table_eq, List.getD_eq_getElem?_getD, hi]

theorem b64_eq (n : UInt32) : b64 n = Rfc4648.char (Bits.toNat (Bits.ofNat 6 n.toNat)) := by
  rw [b64, Bits.toNat_ofNat, UInt32.toNat_and,
    ← b64_table_getD (i := n.toNat % 2 ^ 6) (Nat.mod_lt _ (by norm_num))]
  exact congrArg (b64_table.getD · 0) (Nat.and_two_pow_sub_one_eq_mod n.toNat 6)

/-- The place of a character in the alphabet. -/
def Rfc4648.place (c : UInt8) : ℕ :=
  if chr 'a' ≤ c then c.toNat - 71 else if chr 'A' ≤ c then c.toNat - 65
  else if chr '0' ≤ c then c.toNat + 4 else if c = chr '+' then 62 else 63

theorem place_char : ∀ n < 64, Rfc4648.place (Rfc4648.char n) = n := by decide

/-- The table of the decoder has the place of a character in the alphabet. -/
theorem dtable_char (n : ℕ) (hn : n < 64) : dtable (Rfc4648.char n) = n := by
  have h (k : ℕ) (hk : k ≤ 64) : (List.range k).foldl
      (fun (dtable : UInt8 → ℤ) (i : ℕ) => Function.update dtable (b64_table.getD i 0) i)
      (fun _ => -1) (Rfc4648.char n) = if n < k then (n : ℤ) else -1 := by
    induction k with
    | zero => rfl
    | succ k ih =>
      rw [List.range_succ, List.foldl_append, List.foldl_cons, List.foldl_nil, b64_table_getD hk]
      by_cases hnk : n = k
      · rw [hnk, Function.update_self, if_pos (Nat.lt_succ_self k)]
      · rw [Function.update_of_ne fun h => hnk ?_, ih (Nat.le_of_succ_le hk)]
        · exact if_congr (by omega) rfl rfl
        · rw [← place_char n hn, h, place_char k hk]
  exact (h 64 le_rfl).trans (if_pos hn)

theorem char_ne_pad : ∀ n < 64, Rfc4648.char n ≠ chr '=' := by decide

theorem hex_char_to_val_hex_chars : ∀ n < 16, hex_char_to_val (hex_chars.getD n 0) = n := by decide

/-! ### The base64 encoder -/

/-- The bits of three bytes. -/
theorem ofNat_triple (a b c : UInt8) :
    Bits.ofNat 24 (a.toUInt32 <<< 16 ||| b.toUInt32 <<< 8 ||| c.toUInt32).toNat =
      Bits.ofBytes [a, b, c] := by
  have ha := a.toNat_lt
  have hb := b.toNat_lt
  have hab : (a.toUInt32 <<< 16 ||| b.toUInt32 <<< 8 ||| c.toUInt32).toNat =
      (a.toNat <<< 8 ||| b.toNat) <<< 8 ||| c.toNat := by
    have h16 : a.toNat <<< 16 % 2 ^ 32 = a.toNat <<< 16 :=
      Nat.mod_eq_of_lt (by rw [Nat.shiftLeft_eq]; omega)
    have h8 : b.toNat <<< 8 % 2 ^ 32 = b.toNat <<< 8 :=
      Nat.mod_eq_of_lt (by rw [Nat.shiftLeft_eq]; omega)
    rw [Nat.shiftLeft_or_distrib, ← Nat.shiftLeft_add, ← h16, ← h8]
    rfl
  rw [hab, Bits.ofNat_shiftLeft_or (j := 16) (k := 8) c.toNat_lt,
    Bits.ofNat_shiftLeft_or (j := 8) (k := 8) b.toNat_lt, Bits.ofBytes_cons, Bits.ofBytes_cons,
    Bits.ofBytes_cons, List.append_assoc]
  simp only [Bits.ofBytes, List.flatMap_nil, List.append_nil]

/-- The four groups of three bytes. -/
def quad (t : ℕ) : List (List Bool) :=
  [Bits.ofNat 6 (t >>> 18), Bits.ofNat 6 (t >>> 12), Bits.ofNat 6 (t >>> 6), Bits.ofNat 6 t]

theorem flatten_quad (t : ℕ) : (quad t).flatten = Bits.ofNat 24 t := by
  rw [Bits.ofNat_add 6 18, Bits.ofNat_add 6 12, Bits.ofNat_add 6 6]
  simp only [quad, List.flatten_cons, List.flatten_nil, List.append_nil]

theorem length_of_mem_quad {t : ℕ} {g : List Bool} (h : g ∈ quad t) : g.length = 5 + 1 := by
  simp only [quad, List.mem_cons, List.not_mem_nil, or_false] at h
  rcases h with rfl | rfl | rfl | rfl <;> rw [Bits.length_ofNat]

/-- The groups of three bytes come before those of the rest. -/
theorem chars_triple {a b c : UInt8} {t : ℕ} (s : Bytes)
    (h : Bits.ofNat 24 t = Bits.ofBytes [a, b, c]) :
    Rfc4648.chars (a :: b :: c :: s) =
      (quad t).map (fun g => Rfc4648.char (Bits.toNat g)) ++ Rfc4648.chars s := by
  have hbits : Bits.ofBytes (a :: b :: c :: s) = (quad t).flatten ++ Bits.ofBytes s := by
    rw [flatten_quad, h, ← Bits.ofBytes_append]
    rfl
  rw [Rfc4648.chars, hbits]
  simp only [quad, List.flatten_cons, List.flatten_nil, List.append_assoc, List.append_nil,
    Bits.groups_append (Bits.length_ofNat 6 _), List.map_cons, List.map_nil, Rfc4648.chars,
    List.cons_append, List.nil_append]

/-- The groups of the last bytes. -/
theorem chars_tail {s : Bytes} {t z m : ℕ} (hm : (8 * s.length + 5) / 6 = m)
    (h : Bits.ofNat 24 t = Bits.ofBytes s ++ List.replicate z false) :
    Rfc4648.chars s = ((quad t).take m).map fun g => Rfc4648.char (Bits.toNat g) := by
  rw [← flatten_quad] at h
  subst hm
  rw [Rfc4648.chars, Bits.groups_eq_take (fun g hg => length_of_mem_quad hg) h.symm,
    Bits.length_ofBytes]

theorem octet_drop {data s : Bytes} {i : ℕ} (h : data.drop i = s) (j : ℕ) :
    octet data (i + j) = (s[j]?.getD 0).toUInt32 := by
  rw [octet, ← h, List.getElem?_drop]

/-- The encoding of three bytes comes before that of the rest. -/
theorem encode_triple {a b c : UInt8} {t : ℕ} (s : Bytes)
    (h : Bits.ofNat 24 t = Bits.ofBytes [a, b, c]) :
    Rfc4648.encode (a :: b :: c :: s) =
      (quad t).map (fun g => Rfc4648.char (Bits.toNat g)) ++ Rfc4648.encode s := by
  have hpad : (4 - (4 + (Rfc4648.chars s).length) % 4) % 4 =
      (4 - (Rfc4648.chars s).length % 4) % 4 := by rw [Nat.add_mod_left]
  rw [Rfc4648.encode, chars_triple s h, List.length_append, List.length_map, List.append_assoc,
    Rfc4648.encode, ← hpad]
  rfl

/-- A round of the loop. -/
theorem encodeLoop_round {data : Bytes} {i t : ℕ} (hlt : i < data.length)
    (ht : (octet data i <<< 16 ||| octet data (i + 1) <<< 8 ||| octet data (i + 2)).toNat = t) :
    encodeLoop data i = Rfc4648.char (Bits.toNat (Bits.ofNat 6 (t >>> 18))) ::
      Rfc4648.char (Bits.toNat (Bits.ofNat 6 (t >>> 12))) ::
      (if i + 1 < data.length then Rfc4648.char (Bits.toNat (Bits.ofNat 6 (t >>> 6)))
        else chr '=') ::
      (if i + 2 < data.length then Rfc4648.char (Bits.toNat (Bits.ofNat 6 t)) else chr '=') ::
      encodeLoop data (i + 3) := by
  rw [encodeLoop, if_pos hlt]
  simp only [b64_eq, ← ht]
  rfl

theorem encodeLoop_end {data : Bytes} {i : ℕ} (hge : data.length ≤ i) : encodeLoop data i = [] := by
  rw [encodeLoop, if_neg (Nat.not_lt.2 hge)]

/-- The loop computes the encoding of RFC 4648: a round for three bytes, or for the last ones. -/
theorem encodeLoop_eq {data : Bytes} : ∀ {s : Bytes} {i : ℕ}, data.drop i = s →
    encodeLoop data i = Rfc4648.encode s
  | [], i, h => by
    rw [encodeLoop_end (List.drop_eq_nil_iff.1 h), Rfc4648.encode, Rfc4648.chars, Bits.ofBytes,
      List.flatMap_nil, Bits.groups_nil]
    rfl
  | [a], i, h => by
    have hlength := congrArg List.length h
    rw [List.length_drop, List.length_singleton] at hlength
    have htail := chars_tail (s := [a]) (z := 16) (m := 2) (by rw [List.length_singleton]) (ofNat_triple a 0 0)
    have h0 : octet data i = a.toUInt32 := octet_drop h 0
    have h1 : octet data (i + 1) = UInt8.toUInt32 0 := octet_drop h 1
    have h2 : octet data (i + 2) = UInt8.toUInt32 0 := octet_drop h 2
    rw [encodeLoop_round (by omega) rfl, if_neg (by omega), if_neg (by omega),
      encodeLoop_end (by omega), h0, h1, h2, Rfc4648.encode, htail]
    rfl
  | [a, b], i, h => by
    have hlength := congrArg List.length h
    rw [List.length_drop, List.length_cons, List.length_singleton] at hlength
    have htail := chars_tail (s := [a, b]) (z := 8) (m := 3) (by rw [List.length_cons, List.length_singleton]) (ofNat_triple a b 0)
    have h0 : octet data i = a.toUInt32 := octet_drop h 0
    have h1 : octet data (i + 1) = b.toUInt32 := octet_drop h 1
    have h2 : octet data (i + 2) = UInt8.toUInt32 0 := octet_drop h 2
    rw [encodeLoop_round (by omega) rfl, if_pos (by omega), if_neg (by omega),
      encodeLoop_end (by omega), h0, h1, h2, Rfc4648.encode, htail]
    rfl
  | a :: b :: c :: s, i, h => by
    have hlength := congrArg List.length h
    rw [List.length_drop] at hlength
    simp only [List.length_cons] at hlength
    have hrest : data.drop (i + 3) = s := by rw [← List.drop_drop, h]; rfl
    have h0 : octet data i = a.toUInt32 := octet_drop h 0
    have h1 : octet data (i + 1) = b.toUInt32 := octet_drop h 1
    have h2 : octet data (i + 2) = c.toUInt32 := octet_drop h 2
    rw [encodeLoop_round (by omega) rfl, if_pos (by omega), if_pos (by omega),
      encodeLoop_eq hrest, encode_triple s (ofNat_triple a b c), h0, h1, h2]
    rfl

/-! ### The base64 decoder -/

/-- A character gives six bits. -/
theorem ofNat_buffer (buffer : UInt32) {k n : ℕ} (hk : k + 6 ≤ 32) (hn : n < 64) :
    Bits.ofNat (k + 6) (buffer <<< 6 ||| UInt32.ofInt n).toNat =
      Bits.ofNat k buffer.toNat ++ Bits.ofNat 6 n := by
  have hnat : (buffer <<< 6 ||| UInt32.ofInt n).toNat = (buffer.toNat <<< 6 ||| n) % 2 ^ 32 := by
    have hlow : (UInt32.ofInt n).toNat = n % 2 ^ 32 := by
      simp only [UInt32.ofInt, UInt32.toNat_ofNat']
      omega
    rw [UInt32.toNat_or, hlow, UInt32.toNat_shiftLeft, Nat.or_mod_two_pow]
    rfl
  rw [hnat, Bits.ofNat_mod hk, Bits.ofNat_shiftLeft_or (k := 6) hn]

/-- A byte taken out of the buffer. -/
theorem ofNat_taken (buffer : UInt32) {k : ℕ} (hk : k < 32) :
    Bits.ofNat (8 + k) buffer.toNat =
      Bits.ofBytes [((buffer >>> UInt32.ofNat k) &&& 0xFF).toUInt8] ++
        Bits.ofNat k buffer.toNat := by
  have hnat : ((buffer >>> UInt32.ofNat k) &&& 0xFF).toUInt8.toNat = (buffer.toNat >>> k) % 2 ^ 8 := by
    have hshift : (UInt32.ofNat k).toNat % 32 = k := by
      rw [UInt32.toNat_ofNat', Nat.mod_eq_of_lt (hk.trans (by decide)), Nat.mod_eq_of_lt hk]
    have hmask := Nat.and_two_pow_sub_one_eq_mod (buffer.toNat >>> k) 8
    rw [UInt32.toNat_toUInt8, UInt32.toNat_and, UInt32.toNat_shiftRight, hshift]
    exact (congrArg (· % 2 ^ 8) hmask).trans (Nat.mod_mod _ _)
  rw [Bits.ofNat_add, Bits.ofBytes_cons, hnat, Bits.ofNat_mod (Nat.le_refl 8)]
  simp only [Bits.ofBytes, List.flatMap_nil, List.append_nil]

/-- The bits that the loop has read are those of its output and the last ones of its buffer. -/
theorem decodeLoop_spec {ns : List ℕ} (hns : ∀ n ∈ ns, n < 64) (buffer : UInt32) {k : ℕ}
    (hk : k < 8) (rest : Bytes) :
    ∃ out buffer' k', k' < 8 ∧
      decodeLoop (ns.map Rfc4648.char ++ rest) buffer k = out ++ decodeLoop rest buffer' k' ∧
      Bits.ofNat k buffer.toNat ++ ns.flatMap (Bits.ofNat 6) =
        Bits.ofBytes out ++ Bits.ofNat k' buffer'.toNat := by
  induction ns generalizing buffer k with
  | nil => exact ⟨[], buffer, k, hk, rfl, by rw [List.flatMap_nil, List.append_nil]; rfl⟩
  | cons n ns ih =>
    have hn := hns n List.mem_cons_self
    have ih' := fun buffer k hk =>
      ih (fun n hmem => hns n (List.mem_cons_of_mem _ hmem)) buffer (k := k) hk
    rw [List.map_cons, List.cons_append, decodeLoop, if_neg (char_ne_pad n hn), dtable_char n hn,
      if_neg (by omega), List.flatMap_cons, ← List.append_assoc,
      ← ofNat_buffer buffer (k := k) (by omega) hn]
    dsimp only
    generalize buffer <<< 6 ||| UInt32.ofInt n = buffer'
    by_cases hbyte : k + 6 ≥ 8
    · -- a byte is complete
      obtain ⟨out, buffer'', k', hk', hrun, hbits⟩ := ih' buffer' (k + 6 - 8) (by omega)
      refine ⟨_ :: out, buffer'', k', hk', by rw [if_pos hbyte, hrun]; rfl, ?_⟩
      have htaken := ofNat_taken buffer' (k := k + 6 - 8) (by omega)
      rw [Nat.add_sub_cancel' hbyte] at htaken
      rw [htaken, List.append_assoc, hbits, ← List.append_assoc, ← Bits.ofBytes_append]
      rfl
    · obtain ⟨out, buffer'', k', hk', hrun, hbits⟩ := ih' buffer' (k + 6) (by omega)
      exact ⟨out, buffer'', k', hk', by rw [if_neg hbyte, hrun], hbits⟩

/-- The decoder reads no padding. -/
theorem decodeLoop_pad (z : ℕ) (buffer : UInt32) (k : ℕ) :
    decodeLoop (List.replicate z (chr '=')) buffer k = [] := by
  cases z with
  | zero => rfl
  | succ z => rw [List.replicate_succ, decodeLoop, if_pos rfl]

theorem flatMap_groups (s : Bytes) :
    (((Bits.groups 5 (Bits.ofBytes s)).map Bits.toNat).flatMap (Bits.ofNat 6)) =
      (Bits.groups 5 (Bits.ofBytes s)).flatten := by
  rw [List.flatMap_def, List.map_map]
  congr 1
  refine (List.map_congr_left fun g hg => ?_).trans (List.map_id _)
  have hg := Bits.length_of_mem_groups hg
  have hbits := Bits.ofNat_toNat g
  rwa [hg] at hbits

/-- **The decoder** undoes the encoding of RFC 4648. -/
theorem base64_decode_encode (s : Bytes) : base64_decode (Rfc4648.encode s) = s := by
  have hns : ∀ n ∈ (Bits.groups 5 (Bits.ofBytes s)).map Bits.toNat, n < 64 := by
    intro n hn
    obtain ⟨g, hg, rfl⟩ := List.mem_map.1 hn
    have hlen := Bits.length_of_mem_groups hg
    rw [← Bits.ofNat_toNat g, Bits.toNat_ofNat, hlen]
    exact Nat.mod_lt _ (by norm_num)
  obtain ⟨out, buffer, k, hk, hrun, hbits⟩ := decodeLoop_spec hns 0 (k := 0) (by norm_num)
    (List.replicate ((4 - (Rfc4648.chars s).length % 4) % 4) (chr '='))
  obtain ⟨z, hz, hflat⟩ := Bits.flatten_groups 5 (Bits.ofBytes s)
  rw [flatMap_groups, hflat] at hbits
  rw [decodeLoop_pad, List.append_nil, List.map_map] at hrun
  refine hrun.trans (Bits.ofBytes_prefix hbits ?_ ?_).symm
  · rw [List.length_replicate]
    omega
  · rw [Bits.length_ofNat]
    exact hk

/-! ### Hexadecimal text -/

theorem hexLoop_bytes_to_hex (s : Bytes) : hexLoop (bytes_to_hex s) = .ok s := by
  induction s with
  | nil => rfl
  | cons b s ih =>
    have hb := b.toNat_lt
    have hhi : (b >>> 4).toNat = b.toNat / 16 := by
      rw [UInt8.toNat_shiftRight]
      exact Nat.shiftRight_eq_div_pow _ 4
    have hlo : (b &&& 0x0F).toNat = b.toNat % 16 := by
      rw [UInt8.toNat_and]
      exact Nat.and_two_pow_sub_one_eq_mod _ 4
    have hbyte : (b.toNat / 16) <<< 4 ||| b.toNat % 16 = b.toNat := by
      rw [← Nat.shiftLeft_add_eq_or_of_lt (Nat.mod_lt _ (by norm_num)), Nat.shiftLeft_eq]
      omega
    rw [bytes_to_hex, List.flatMap_cons, ← bytes_to_hex, List.cons_append, List.cons_append,
      List.nil_append, hexLoop, hhi, hlo, hex_char_to_val_hex_chars _ (by omega),
      hex_char_to_val_hex_chars _ (by omega), if_neg (by omega), ih, Int.toNat_natCast, Int.toNat_natCast, hbyte, UInt8.ofNat_toNat]
    rfl

theorem length_bytes_to_hex (s : Bytes) : (bytes_to_hex s).length = 2 * s.length := by
  induction s with
  | nil => rfl
  | cons b s ih =>
    rw [bytes_to_hex, List.flatMap_cons, ← bytes_to_hex, List.length_append, ih]
    simp only [List.length_cons, List.length_nil]
    omega

/-- **Base64 and hexadecimal text**: both decoders undo their encoders, and the base64 encoder
computes the encoding of RFC 4648. -/
theorem codecs_round_trip (s : Bytes) :
    base64_decode (base64_encode s) = s ∧ hex_decode (hex_encode s) = .ok s ∧
      base64_encode s = Rfc4648.encode s := by
  have hencode : base64_encode s = Rfc4648.encode s := encodeLoop_eq rfl
  refine ⟨by rw [hencode, base64_decode_encode], ?_, hencode⟩
  rw [hex_encode, hex_decode, if_neg (by rw [length_bytes_to_hex]; omega), hexLoop_bytes_to_hex]

end Hash

end Jaci
