import Jaci.Lib.Loop
import Jaci.Lib.Wire
import Mathlib.Data.List.Infix

/-!
# WebSocket frames

`ws_send_frame` writes a frame: a byte with the opcode, a byte with the mask bit and a short length,
a longer length, four mask bytes and the payload.  `ws_receive_async` gathers what the socket has in
a buffer and takes frames from it.

* `ws_send_frame`, `ws_parse`, `ws_read_available`, `ws_receive_async` : the source;
* `activations` : successive calls, a suspended one being resumed;
* `ws_parse_send` : a frame is read back, and what follows is left;
* `ws_parse_append` : more bytes do not change what was read;
* `ws_parse_size` : how many bytes a frame takes.
-/

namespace Jaci

namespace Net

open Wire

/-! ### Sending -/

abbrev Mask := { m : Bytes // m.length = 4 }

/-- A payload under a mask. -/
def masked (mask payload : Bytes) : Bytes := payload.mapIdx fun i b => b ^^^ mask.getD (i % 4) 0

/-- The bit of the second byte that announces a mask. -/
def maskBit (is_client : Bool) : UInt8 := if is_client then 0x80 else 0x00

/-- The length of a payload, with the mask bit. -/
def lengthBytes (mask_bit : UInt8) (len : ℕ) : Bytes :=
  if len < 126 then [mask_bit ||| UInt8.ofNat len]
  else if len ≤ 0xFFFF then (mask_bit ||| 126) :: beBytes 2 len
  else (mask_bit ||| 127) :: beBytes 8 len

/-- `ws_send_frame`: the bytes that it sends.  A client draws a mask, a server has none. -/
def ws_send_frame (opcode : UInt8) (payload : Bytes) (mask : Option Mask) : Bytes :=
  (0x80 ||| (opcode &&& 0x0F)) :: lengthBytes (maskBit mask.isSome) payload.length ++
    match mask with
    | some m => m.1 ++ masked m.1 payload
    | none => payload

/-! ### Receiving -/

/-- What one call of `recv` gives. -/
inductive Recv where
  | data (b : UInt8) (bs : Bytes)
  | wouldBlock
  | interrupted
  | closed
  | failed

inductive WebSocketReadStatus where
  | data
  | wouldBlock
  | closed
deriving DecidableEq

/-- `ws_read_available`, from the results of `recv` that are still to come: the status, the buffer,
and the results that are left.  After the last result nothing more arrives. -/
def ws_read_available : List Recv → Bytes → Bool → WebSocketReadStatus × Bytes × List Recv
  | .data b bs :: script, buffer, _ => ws_read_available script (buffer ++ b :: bs) true
  | .interrupted :: script, buffer, readAny => ws_read_available script buffer readAny
  | .closed :: script, buffer, readAny =>
    (if readAny then .data else .closed, buffer, .closed :: script)
  | .failed :: script, buffer, _ => (.closed, buffer, script)
  | .wouldBlock :: script, buffer, readAny =>
    (if readAny then .data else .wouldBlock, buffer, script)
  | [], buffer, readAny => (if readAny then .data else .wouldBlock, buffer, [])

/-- What is found at the front of the buffer. -/
inductive Parsed where
  | wait
  | tooLarge
  | frame (opcode : UInt8) (payload rest : Bytes)
deriving DecidableEq

/-- The length of the payload, from the seven bits of the second byte and what follows it. -/
def payloadLength (short : UInt8) (rest : Bytes) : Option (ℕ × Bytes) :=
  if short = 126 then (takeN 2 rest).map (Prod.map beNat id)
  else if short = 127 then (takeN 8 rest).map (Prod.map beNat id)
  else some (short.toNat, rest)

/-- The frame at the front of the buffer of `ws_receive_async`. -/
def ws_parse : Bytes → Parsed
  | b0 :: b1 :: rest =>
    match payloadLength (b1 &&& 0x7f) rest with
    | none => .wait
    | some (len, rest) =>
      if len > 16 * 1024 * 1024 then .tooLarge
      else if b1 &&& 0x80 ≠ 0 then
        match takeN 4 rest with
        | none => .wait
        | some (mask, rest) =>
          match takeN len rest with
          | none => .wait
          | some (payload, rest) => .frame (b0 &&& 0x0f) (masked mask payload) rest
      else
        match takeN len rest with
        | none => .wait
        | some (payload, rest) => .frame (b0 &&& 0x0f) payload rest
  | _ => .wait

/-- A `WebSocket`, with its socket. -/
structure WebSocket where
  receive_buffer : Bytes
  is_open : Bool
  is_server : Bool
  /-- What the calls of `recv` will give. -/
  script : List Recv
  sent : Bytes
  masks : ℕ → Mask

def WebSocket.pong (ws : WebSocket) (payload : Bytes) : WebSocket :=
  if ws.is_server then { ws with sent := ws.sent ++ ws_send_frame 0x0a payload none }
  else { ws with
    sent := ws.sent ++ ws_send_frame 0x0a payload (some (ws.masks 0))
    masks := fun i => ws.masks (i + 1) }

/-- What a call of `ws_receive_async` ends with. -/
inductive Received where
  /-- A message: its payload, and whether it is binary. -/
  | message (payload : Bytes) (binary : Bool)
  /-- The coroutine waits until the socket is readable. -/
  | suspended
  /-- nil and `closed`. -/
  | closed
  /-- nil and `connection closed`. -/
  | connectionClosed
  | tooLarge
deriving DecidableEq

/-- One round of the loop of `ws_receive_async`. -/
def receiveRound (ws : WebSocket) : Option (WebSocket ⊕ Received × WebSocket) :=
  let (status, buffer, script) := ws_read_available ws.script ws.receive_buffer false
  let ws := { ws with receive_buffer := buffer, script := script }
  if status = .closed then some (.inr (.connectionClosed, { ws with is_open := false }))
  else
    match ws_parse buffer with
    | .wait => some (.inr (.suspended, ws))
    | .tooLarge => some (.inr (.tooLarge, ws))
    | .frame opcode payload rest =>
      let ws := { ws with receive_buffer := rest }
      if opcode = 0x08 then some (.inr (.closed, { ws with is_open := false }))
      else if opcode = 0x09 then some (.inl (ws.pong payload))
      else if opcode = 0x0a then some (.inl ws)
      else if opcode = 0x01 ∨ opcode = 0x02 then
        some (.inr (.message payload (opcode = 0x02), ws))
      else some (.inl ws)

/-- The bytes that `recv` will give. -/
def received : List Recv → Bytes
  | [] => []
  | .data b bs :: script => b :: bs ++ received script
  | _ :: script => received script

/-- The bytes that are not yet taken. -/
def WebSocket.pending (ws : WebSocket) : ℕ := ws.receive_buffer.length + (received ws.script).length

theorem WebSocket.pending_pong (ws : WebSocket) (payload : Bytes) :
    (ws.pong payload).pending = ws.pending := by
  unfold WebSocket.pong
  split_ifs <;> rfl

def ws_receive_async (ws : WebSocket) : Option (Received × WebSocket) :=
  if ws.is_open then Loop.run receiveRound (ws.pending + 1) ws else some (.closed, ws)

/-- Successive calls of `ws_receive_async`: a suspended call is resumed and starts again.  The
results with the buffer that was left, and the connection at the end. -/
def activations : ℕ → WebSocket → Option (List (Received × Bytes) × WebSocket)
  | 0, ws => some ([], ws)
  | n + 1, ws =>
    (ws_receive_async ws).bind fun (r, ws) =>
      (activations n ws).map fun (l, last) => ((r, ws.receive_buffer) :: l, last)

/-- The message that is returned. -/
def Received.toMessage : Received → Option (Bytes × Bool)
  | .message payload binary => some (payload, binary)
  | _ => none

/-- The messages that were returned. -/
def messages (l : List (Received × Bytes)) : List (Bytes × Bool) :=
  l.filterMap fun r => r.1.toMessage

theorem messages_cons (r : Received) (buffer : Bytes) (l : List (Received × Bytes)) :
    messages ((r, buffer) :: l) = r.toMessage.toList ++ messages l := by
  rw [messages, List.filterMap_cons]
  cases r <;> rfl

/-! ### Frames are read back -/

theorem length_masked (mask payload : Bytes) : (masked mask payload).length = payload.length :=
  List.length_mapIdx

theorem masked_masked (mask payload : Bytes) : masked mask (masked mask payload) = payload := by
  refine List.ext_getElem (by simp [masked]) fun i h1 h2 => ?_
  simp [masked, UInt8.xor_assoc]

theorem header_opcode (opcode : UInt8) :
    (0x80 ||| (opcode &&& 0x0F)) &&& 0x0f = opcode &&& 0x0f := by
  have hall : ∀ x : BitVec 8, (0x80 ||| (x &&& 0x0F)) &&& 0x0f = x &&& 0x0f := by decide
  exact UInt8.toBitVec_inj.mp (hall opcode.toBitVec)

theorem header_length : ∀ n : Fin 128, ∀ mask : Bool,
    (maskBit mask ||| UInt8.ofNat n) &&& 0x7f = UInt8.ofNat n ∧
      ((maskBit mask ||| UInt8.ofNat n) &&& 0x80 ≠ 0 ↔ mask = true) := by
  decide

/-- The second byte and the longer length, read back. -/
theorem lengthBytes_cons {len : ℕ} (hlen : len < 256 ^ 8) (mask : Bool) (rest : Bytes) :
    ∃ b1 ext, lengthBytes (maskBit mask) len = b1 :: ext ∧
      (b1 &&& 0x80 ≠ 0 ↔ mask = true) ∧
      payloadLength (b1 &&& 0x7f) (ext ++ rest) = some (len, rest) := by
  unfold lengthBytes
  split_ifs with h1 h2
  · obtain ⟨hlow, hbit⟩ := header_length ⟨len, by omega⟩ mask
    refine ⟨_, [], rfl, hbit, ?_⟩
    have hnat : (UInt8.ofNat len).toNat = len := by
      rw [UInt8.toNat_ofNat']
      omega
    have hne : ∀ k : UInt8, 126 ≤ k.toNat → UInt8.ofNat len ≠ k := by
      rintro k hk rfl
      omega
    rw [hlow, payloadLength, if_neg (hne 126 (by decide)), if_neg (hne 127 (by decide)), hnat]
    rfl
  · obtain ⟨hlow, hbit⟩ := header_length 126 mask
    refine ⟨_, _, rfl, hbit, ?_⟩
    rw [show (maskBit mask ||| 126) &&& 0x7f = 126 from hlow, payloadLength,
      if_pos rfl, takeN_append_of_length (length_beBytes 2 _), Option.map_some,
      Prod.map_apply, beNat_beBytes_nat (by omega), id]
  · obtain ⟨hlow, hbit⟩ := header_length 127 mask
    refine ⟨_, _, rfl, hbit, ?_⟩
    rw [show (maskBit mask ||| 127) &&& 0x7f = 127 from hlow, payloadLength,
      if_neg (by decide), if_pos rfl, takeN_append_of_length (length_beBytes 8 _), Option.map_some,
      Prod.map_apply, beNat_beBytes_nat hlen, id]

/-- A frame with any first byte. -/
def wireFrame (b0 : UInt8) (payload : Bytes) (mask : Option Mask) : Bytes :=
  b0 :: lengthBytes (maskBit mask.isSome) payload.length ++
    match mask with
    | some m => m.1 ++ masked m.1 payload
    | none => payload

/-- The parts of a frame, and what follows it. -/
theorem wireFrame_append {payload : Bytes} (hlen : payload.length < 256 ^ 8) (b0 : UInt8)
    (mask : Option Mask) (rest : Bytes) :
    ∃ b1 ext, wireFrame b0 payload mask ++ rest = b0 :: b1 :: (ext ++
        (mask.elim payload (fun m => m.1 ++ masked m.1 payload) ++ rest)) ∧
      (b1 &&& 0x80 ≠ 0 ↔ mask.isSome = true) ∧
      ∀ rest, payloadLength (b1 &&& 0x7f) (ext ++ rest) = some (payload.length, rest) := by
  obtain ⟨b1, ext, hb, hbit, -⟩ := lengthBytes_cons hlen mask.isSome []
  refine ⟨b1, ext, ?_, hbit, fun rest => ?_⟩
  · rw [wireFrame.eq_def, hb]
    cases mask <;> simp
  · obtain ⟨b1', ext', hb', -, hread⟩ := lengthBytes_cons hlen mask.isSome rest
    obtain ⟨rfl, rfl⟩ := List.cons.inj (hb.symm.trans hb')
    exact hread

/-- **A frame is read**, whatever its first byte, and what follows it is left. -/
theorem ws_parse_wireFrame (b0 : UInt8) {payload : Bytes} (h : payload.length ≤ 16 * 1024 * 1024)
    (mask : Option Mask) (rest : Bytes) :
    ws_parse (wireFrame b0 payload mask ++ rest) = .frame (b0 &&& 0x0f) payload rest := by
  have hlen : payload.length < 256 ^ 8 := by omega
  obtain ⟨b1, ext, hframe, hbit, hread⟩ := wireFrame_append hlen b0 mask rest
  rw [hframe]
  cases mask with
  | none =>
    simp only [ws_parse, Option.elim_none, hread, if_neg (Nat.not_lt.mpr h), takeN_append]
    rw [if_neg (fun hm => by simpa using hbit.mp hm)]
  | some m =>
    simp only [ws_parse, Option.elim_some, List.append_assoc, hread, if_neg (Nat.not_lt.mpr h),
      if_pos (hbit.mpr rfl), takeN_append_of_length m.2,
      takeN_append_of_length (length_masked m.1 payload), masked_masked]

/-- A frame that is too large. -/
theorem ws_parse_large (b0 : UInt8) {payload : Bytes} (h : 16 * 1024 * 1024 < payload.length)
    (hlen : payload.length < 256 ^ 8) (mask : Option Mask) (rest : Bytes) :
    ws_parse (wireFrame b0 payload mask ++ rest) = .tooLarge := by
  obtain ⟨b1, ext, hframe, -, hread⟩ := wireFrame_append hlen b0 mask rest
  rw [hframe]
  simp only [ws_parse, hread, if_pos h]

/-- **A frame is read back**, and what follows it is left. -/
theorem ws_parse_send (opcode : UInt8) {payload : Bytes} (h : payload.length ≤ 16 * 1024 * 1024)
    (mask : Option Mask) (rest : Bytes) :
    ws_parse (ws_send_frame opcode payload mask ++ rest) =
      .frame (opcode &&& 0x0f) payload rest := by
  have hparse := ws_parse_wireFrame (0x80 ||| (opcode &&& 0x0F)) h mask rest
  rwa [header_opcode] at hparse

/-! ### Parts of frames -/

theorem takeN_extend {k : ℕ} {bs xs rest : Bytes} (h : takeN k bs = some (xs, rest)) (t : Bytes) :
    takeN k (bs ++ t) = some (xs, rest ++ t) := by
  obtain ⟨hbs, hk⟩ := takeN_eq_some h
  rw [hbs, List.append_assoc, takeN_append_of_length hk]

theorem payloadLength_extend {short : UInt8} {bs rest : Bytes} {len : ℕ}
    (h : payloadLength short bs = some (len, rest)) (t : Bytes) :
    payloadLength short (bs ++ t) = some (len, rest ++ t) := by
  unfold payloadLength at h ⊢
  split_ifs at h ⊢
  · obtain ⟨⟨xs, r⟩, hx, hr⟩ := Option.map_eq_some_iff.mp h
    obtain ⟨rfl, rfl⟩ := Prod.mk.inj hr
    rw [takeN_extend hx, Option.map_some]
    rfl
  · obtain ⟨⟨xs, r⟩, hx, hr⟩ := Option.map_eq_some_iff.mp h
    obtain ⟨rfl, rfl⟩ := Prod.mk.inj hr
    rw [takeN_extend hx, Option.map_some]
    rfl
  · obtain ⟨rfl, rfl⟩ := Prod.mk.inj (Option.some.inj h)
    rfl

/-- More bytes do not change a frame that was read. -/
theorem ws_parse_append {bs payload rest : Bytes} {opcode : UInt8}
    (h : ws_parse bs = .frame opcode payload rest) (t : Bytes) :
    ws_parse (bs ++ t) = .frame opcode payload (rest ++ t) := by
  rcases bs with _ | ⟨b0, _ | ⟨b1, bs⟩⟩
  · cases h
  · cases h
  simp only [ws_parse, List.cons_append] at h ⊢
  cases hlen : payloadLength (b1 &&& 0x7f) bs with
  | none => simp [hlen] at h
  | some p =>
    obtain ⟨len, bs'⟩ := p
    simp only [hlen] at h
    simp only [payloadLength_extend hlen t]
    split_ifs at h ⊢ with hlarge hmask
    · cases hm : takeN 4 bs' with
      | none => simp [hm] at h
      | some q =>
        simp only [hm, takeN_extend hm t] at h ⊢
        cases hp : takeN len q.2 with
        | none => simp [hp] at h
        | some r =>
          simp only [hp, takeN_extend hp t, Parsed.frame.injEq] at h ⊢
          exact ⟨h.1, h.2.1, by rw [h.2.2]⟩
    · cases hp : takeN len bs' with
      | none => simp [hp] at h
      | some r =>
        simp only [hp, takeN_extend hp t, Parsed.frame.injEq] at h ⊢
        exact ⟨h.1, h.2.1, by rw [h.2.2]⟩

theorem ws_parse_tooLarge_append {bs : Bytes} (h : ws_parse bs = .tooLarge) (t : Bytes) :
    ws_parse (bs ++ t) = .tooLarge := by
  rcases bs with _ | ⟨b0, _ | ⟨b1, bs⟩⟩
  · cases h
  · cases h
  simp only [ws_parse, List.cons_append] at h ⊢
  cases hlen : payloadLength (b1 &&& 0x7f) bs with
  | none => simp [hlen] at h
  | some p =>
    simp only [hlen] at h
    simp only [payloadLength_extend hlen t]
    split_ifs at h ⊢ with hlarge hmask
    · rfl
    · repeat' split at h
      all_goals cases h
    · repeat' split at h
      all_goals cases h

/-- A part of a frame is not a frame. -/
theorem ws_parse_part {bs t : Bytes} {opcode : UInt8} {payload : Bytes} {mask : Option Mask}
    (h : payload.length ≤ 16 * 1024 * 1024) (hbs : bs ++ t = ws_send_frame opcode payload mask)
    (ht : t ≠ []) : ws_parse bs = .wait := by
  have hsend := ws_parse_send opcode h mask []
  rw [List.append_nil, ← hbs] at hsend
  cases hparse : ws_parse bs with
  | wait => rfl
  | tooLarge =>
    rw [ws_parse_tooLarge_append hparse] at hsend
    cases hsend
  | frame op p rest =>
    rw [ws_parse_append hparse, Parsed.frame.injEq] at hsend
    exact absurd (List.append_eq_nil_iff.mp hsend.2.2).2 ht

/-! ### Sizes -/

/-- The least size of a frame with that many bytes of payload. -/
def frameSize (len : ℕ) : ℕ :=
  2 + (if len < 126 then 0 else if len ≤ 0xFFFF then 2 else 8) + len

theorem length_ws_send_frame (opcode : UInt8) (payload : Bytes) :
    (ws_send_frame opcode payload none).length = frameSize payload.length := by
  simp only [ws_send_frame, lengthBytes, frameSize]
  split_ifs <;> simp <;> omega

theorem beNat_lt (bs : Bytes) : beNat bs < 256 ^ bs.length := by
  induction bs with
  | nil => decide
  | cons b bs ih =>
    have hb : b.toNat < 256 := b.toNat_lt
    calc beNat (b :: bs) = b.toNat * 256 ^ bs.length + beNat bs := beNat_cons b bs
      _ < b.toNat * 256 ^ bs.length + 256 ^ bs.length := Nat.add_lt_add_left ih _
      _ = (b.toNat + 1) * 256 ^ bs.length := (Nat.succ_mul _ _).symm
      _ ≤ 256 * 256 ^ bs.length := Nat.mul_le_mul_right _ hb
      _ = 256 ^ (bs.length + 1) := (Nat.pow_succ' ).symm

theorem payloadLength_size {short : UInt8} {bs rest : Bytes} {len : ℕ} (hshort : short.toNat < 128)
    (h : payloadLength short bs = some (len, rest)) :
    frameSize len + rest.length ≤ bs.length + 2 + len := by
  unfold payloadLength at h
  split_ifs at h with h1 h2
  · obtain ⟨⟨xs, r⟩, hx, hr⟩ := Option.map_eq_some_iff.mp h
    obtain ⟨rfl, rfl⟩ := Prod.mk.inj hr
    obtain ⟨rfl, hk⟩ := takeN_eq_some hx
    have hlt := beNat_lt xs
    rw [hk] at hlt
    rw [frameSize, List.length_append, hk]
    split_ifs <;> simp only [id] <;> omega
  · obtain ⟨⟨xs, r⟩, hx, hr⟩ := Option.map_eq_some_iff.mp h
    obtain ⟨rfl, rfl⟩ := Prod.mk.inj hr
    obtain ⟨rfl, hk⟩ := takeN_eq_some hx
    rw [frameSize, List.length_append, hk]
    split_ifs <;> simp only [id] <;> omega
  · obtain ⟨rfl, rfl⟩ := Prod.mk.inj (Option.some.inj h)
    have h126 : short.toNat ≠ 126 := fun e => h1 (UInt8.toNat_inj.mp e)
    have h127 : short.toNat ≠ 127 := fun e => h2 (UInt8.toNat_inj.mp e)
    rw [frameSize, if_pos (by omega)]
    omega

/-- **A frame takes at least its least size**, and its payload is not too large. -/
theorem ws_parse_size {bs payload rest : Bytes} {opcode : UInt8}
    (h : ws_parse bs = .frame opcode payload rest) :
    frameSize payload.length + rest.length ≤ bs.length ∧ payload.length ≤ 16 * 1024 * 1024 := by
  rcases bs with _ | ⟨b0, _ | ⟨b1, bs⟩⟩
  · cases h
  · cases h
  have hshort : (b1 &&& 0x7f).toNat < 128 := by
    rw [UInt8.toNat_and]
    exact Nat.lt_succ_of_le Nat.and_le_right
  simp only [ws_parse] at h
  cases hlen : payloadLength (b1 &&& 0x7f) bs with
  | none => simp [hlen] at h
  | some p =>
    obtain ⟨len, bs'⟩ := p
    have hsize := payloadLength_size hshort hlen
    simp only [hlen] at h
    simp only [List.length_cons]
    split_ifs at h with hlarge hmask
    · cases hm : takeN 4 bs' with
      | none => simp [hm] at h
      | some q =>
        simp only [hm] at h
        cases hp : takeN len q.2 with
        | none => simp [hp] at h
        | some r =>
          simp only [hp, Parsed.frame.injEq] at h
          obtain ⟨-, rfl, rfl⟩ := h
          obtain ⟨hq, h4⟩ := takeN_eq_some hm
          obtain ⟨hr, hlen'⟩ := takeN_eq_some hp
          have hq' := congrArg List.length hq
          have hr' := congrArg List.length hr
          rw [List.length_append] at hq' hr'
          rw [length_masked, hlen']
          omega
    · cases hp : takeN len bs' with
      | none => simp [hp] at h
      | some r =>
        simp only [hp, Parsed.frame.injEq] at h
        obtain ⟨-, rfl, rfl⟩ := h
        obtain ⟨hr, hlen'⟩ := takeN_eq_some hp
        have hr' := congrArg List.length hr
        rw [List.length_append] at hr'
        rw [hlen']
        omega

end Net

end Jaci
