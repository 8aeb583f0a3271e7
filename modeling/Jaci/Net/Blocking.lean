import Jaci.Net.Receive

/-!
# Blocking calls

`ws_receive` reads a frame from the socket, part by part, and does not know the buffer of
`ws_receive_async`.

* `ws_recv_exact`, `blockingRound` : the source;
* `Plain` : what arrives when nothing fails;
* `recvLoop_of_le`, `recvLoop_of_lt` : bytes are read as they were sent, if they arrive;
* `blockingRound_takes` : **a round takes the first frame of the stream**.
-/

namespace Jaci

namespace Net

open Wire

/-! ### The source -/

/-- What `ws_recv_exact` ends with. -/
inductive Exact where
  | bytes (bs : Bytes)
  /-- `recv` gave nothing. -/
  | failed
  | waits
  /-- The length is no `int`. -/
  | overflow

/-- The bytes of a `recv` that were not asked for stay in the socket. -/
def keep : Bytes → List Recv → List Recv
  | [], script => script
  | b :: bs, script => .data b bs :: script

/-- The loop of `ws_recv_exact`, on a socket that waits. -/
def recvLoop : List Recv → ℕ → Exact × List Recv
  | script, 0 => (.bytes [], script)
  | [], _ + 1 => (.waits, [])
  | .wouldBlock :: script, n + 1 => recvLoop script (n + 1)
  | .data b bs :: script, n + 1 =>
    if bs.length < n then
      match recvLoop script (n - bs.length) with
      | (.bytes rest, script) => (.bytes (b :: bs ++ rest), script)
      | (r, script) => (r, script)
    else (.bytes (b :: bs.take n), keep (bs.drop n) script)
  | .closed :: script, _ + 1 => (.failed, .closed :: script)
  | _ :: script, _ + 1 => (.failed, script)

def ws_recv_exact (script : List Recv) (len : ℕ) : Exact × List Recv :=
  if len < 2 ^ 31 then recvLoop script len else (.overflow, script)

/-- What a call of `ws_receive` or `ws_receive_scheduled` ends with. -/
inductive Returned where
  /-- A message: its payload, and whether it is binary. -/
  | message (payload : Bytes) (binary : Bool)
  /-- nil and `closed`. -/
  | closed
  /-- nil and `connection closed`. -/
  | connectionClosed
  | nothing
  | waits
  | error
deriving DecidableEq

/-- The message that is returned. -/
def Returned.toMessage : Returned → Option (Bytes × Bool)
  | .message payload binary => some (payload, binary)
  | _ => none

/-- A round goes on or ends. -/
abbrev Round := WebSocket ⊕ Returned × WebSocket

/-- Some bytes are read, or the call ends. -/
def recvExact (ws : WebSocket) (len : ℕ) (failed : WebSocket → Returned × WebSocket)
    (next : Bytes → WebSocket → Round) : Round :=
  match ws_recv_exact ws.script len with
  | (.bytes bs, script) => next bs { ws with script := script }
  | (.failed, script) => .inr (failed { ws with script := script })
  | (.waits, script) => .inr (.waits, { ws with script := script })
  | (.overflow, script) => .inr (.error, { ws with script := script })

/-- The length of the payload, read after the second byte. -/
def readLength (ws : WebSocket) (short : UInt8) (next : ℕ → WebSocket → Round) : Round :=
  if short = 126 then recvExact ws 2 (.nothing, ·) fun ext ws => next (beNat ext) ws
  else if short = 127 then recvExact ws 8 (.nothing, ·) fun ext ws => next (beNat ext) ws
  else next short.toNat ws

/-- What is done with a frame. -/
def handleFrame (ws : WebSocket) (opcode : UInt8) (payload : Bytes) : Round :=
  if opcode = 0x08 then .inr (.closed, { ws with is_open := false })
  else if opcode = 0x09 then .inl (ws.pong payload)
  else if opcode = 0x0a then .inl ws
  else if opcode = 0x01 ∨ opcode = 0x02 then .inr (.message payload (opcode = 0x02), ws)
  else .inl ws

/-- The payload, and what is done with the frame. -/
def readPayload (ws : WebSocket) (opcode : UInt8) (len : ℕ) (mask : Option Bytes) : Round :=
  recvExact ws len (.nothing, ·) fun payload ws =>
    handleFrame ws opcode (mask.elim payload fun m => masked m payload)

/-- The mask, if there is one, and the rest of the frame. -/
def readMask (ws : WebSocket) (opcode : UInt8) (has_mask : Bool) (len : ℕ) : Round :=
  if has_mask then
    recvExact ws 4 (.nothing, ·) fun mask ws => readPayload ws opcode len (some mask)
  else readPayload ws opcode len none

/-- One round of the loop of `ws_receive`. -/
def blockingRound (ws : WebSocket) : Round :=
  recvExact ws 2 (fun ws => (.connectionClosed, { ws with is_open := false })) fun header ws =>
    let b0 := header.getD 0 0
    let b1 := header.getD 1 0
    readLength ws (b1 &&& 0x7f) fun len ws => readMask ws (b0 &&& 0x0f) (b1 &&& 0x80 ≠ 0) len

/-! ### Bytes that arrive -/

/-- Nothing fails: bytes come in parts, and the stream may end. -/
inductive Plain : List Recv → Prop where
  | nil : Plain []
  | closed : Plain [.closed]
  | data (b : UInt8) (bs : Bytes) {script : List Recv} (h : Plain script) :
    Plain (.data b bs :: script)
  | wouldBlock {script : List Recv} (h : Plain script) : Plain (.wouldBlock :: script)

variable {script : List Recv} {bs rest S : Bytes} {n : ℕ}

theorem received_keep (bs : Bytes) (script : List Recv) :
    received (keep bs script) = bs ++ received script := by
  cases bs <;> rfl

theorem plain_keep (h : Plain script) (bs : Bytes) : Plain (keep bs script) := by
  cases bs with
  | nil => exact h
  | cons b bs => exact .data b bs h

/-- **Bytes that arrive are read.** -/
theorem recvLoop_of_le (h : Plain script) (hn : n ≤ (received script).length) :
    ∃ script', recvLoop script n = (.bytes ((received script).take n), script') ∧ Plain script' ∧
      received script' = (received script).drop n := by
  induction h generalizing n with
  | nil =>
    obtain rfl : n = 0 := Nat.le_zero.1 hn
    exact ⟨[], rfl, .nil, rfl⟩
  | closed =>
    obtain rfl : n = 0 := Nat.le_zero.1 hn
    exact ⟨[.closed], rfl, .closed, rfl⟩
  | @wouldBlock script h ih =>
    cases n with
    | zero => exact ⟨_, rfl, .wouldBlock h, rfl⟩
    | succ n => exact ih hn
  | @data b bs script h ih =>
    cases n with
    | zero => exact ⟨_, rfl, .data b bs h, rfl⟩
    | succ n =>
      rw [received, List.length_append, List.length_cons] at hn
      rw [recvLoop, received]
      split_ifs with hlt
      · obtain ⟨script', hloop, hplain, hreceived⟩ := ih (n := n - bs.length) (by omega)
        refine ⟨script', ?_, hplain, ?_⟩
        · rw [hloop, List.cons_append, List.take_succ_cons, List.take_append,
            List.take_of_length_le hlt.le]
          rfl
        · rw [hreceived, List.cons_append, List.drop_succ_cons, List.drop_append,
            List.drop_eq_nil_of_le hlt.le, List.nil_append]
      · have hle : n ≤ bs.length := Nat.not_lt.1 hlt
        refine ⟨keep (bs.drop n) script, ?_, plain_keep h _, ?_⟩
        · rw [List.cons_append, List.take_succ_cons, List.take_append_of_le_length hle]
        · rw [received_keep, List.cons_append, List.drop_succ_cons, List.drop_append_of_le_length hle]

/-- Bytes that do not arrive are not read, and nothing more is to come. -/
theorem recvLoop_of_lt (h : Plain script) (hn : (received script).length < n) :
    ∃ r script', recvLoop script n = (r, script') ∧ (r = .failed ∨ r = .waits) ∧ Plain script' ∧
      received script' = [] := by
  induction h generalizing n with
  | nil =>
    obtain ⟨n, rfl⟩ := Nat.exists_eq_add_of_lt hn
    exact ⟨.waits, [], rfl, .inr rfl, .nil, rfl⟩
  | closed =>
    obtain ⟨n, rfl⟩ := Nat.exists_eq_add_of_lt hn
    exact ⟨.failed, [.closed], rfl, .inl rfl, .closed, rfl⟩
  | @wouldBlock script h ih =>
    obtain ⟨m, rfl⟩ : ∃ m, n = m + 1 := ⟨n - 1, by omega⟩
    exact ih hn
  | @data b bs script h ih =>
    obtain ⟨m, rfl⟩ : ∃ m, n = m + 1 := ⟨n - 1, by omega⟩
    rw [received, List.length_append, List.length_cons] at hn
    obtain ⟨r, script', hloop, hr, hplain, hnil⟩ := ih (n := m - bs.length) (by omega)
    refine ⟨r, script', ?_, hr, hplain, hnil⟩
    rw [recvLoop, if_pos (by omega), hloop]
    rcases hr with rfl | rfl <;> rfl

/-! ### Parts of a frame -/

variable {ws : WebSocket} {failed : WebSocket → Returned × WebSocket} {next : Bytes → WebSocket → Round}

/-- A part that arrives is read, and the round goes on. -/
theorem recvExact_of_takeN (h : Plain ws.script) (hn : n < 2 ^ 31)
    (htake : takeN n (received ws.script) = some (bs, rest)) :
    ∃ script', Plain script' ∧ received script' = rest ∧ ∀ failed next,
      recvExact ws n failed next = next bs { ws with script := script' } := by
  rw [takeN] at htake
  split_ifs at htake with hle
  obtain ⟨rfl, rfl⟩ := Prod.mk.inj (Option.some.inj htake)
  obtain ⟨script', hloop, hplain, hreceived⟩ := recvLoop_of_le h hle
  refine ⟨script', hplain, hreceived, fun failed next => ?_⟩
  rw [recvExact, ws_recv_exact, if_pos hn, hloop]

/-- A call that ends without a message, when nothing more is to come. -/
def Ended (ws : WebSocket) (r : Round) : Prop :=
  ∃ returned ws', r = .inr (returned, ws') ∧ returned.toMessage = none ∧ Plain ws'.script ∧
    received ws'.script = [] ∧ ws'.receive_buffer = ws.receive_buffer

/-- A failed call returns no message, and leaves the socket and the buffer. -/
def Fails (failed : WebSocket → Returned × WebSocket) : Prop :=
  ∀ ws, (failed ws).1.toMessage = none ∧ (failed ws).2.script = ws.script ∧
    (failed ws).2.receive_buffer = ws.receive_buffer

/-- The round ends with a part that does not arrive. -/
theorem recvExact_of_none (h : Plain ws.script) (hn : n < 2 ^ 31)
    (hfailed : Fails failed) (htake : takeN n (received ws.script) = none) :
    Ended ws (recvExact ws n failed next) := by
  rw [takeN] at htake
  split_ifs at htake with hle
  obtain ⟨r, script', hloop, hr, hplain, hnil⟩ := recvLoop_of_lt h (Nat.not_le.1 hle)
  rw [recvExact, ws_recv_exact, if_pos hn, hloop]
  rcases hr with rfl | rfl
  · obtain ⟨hmessage, hscript, hbuffer⟩ := hfailed { ws with script := script' }
    refine ⟨_, _, rfl, hmessage, ?_, ?_, hbuffer⟩
    · rw [hscript]
      exact hplain
    · rw [hscript]
      exact hnil
  · exact ⟨_, _, rfl, rfl, hplain, hnil, rfl⟩

theorem fails_nothing : Fails (.nothing, ·) := fun _ => ⟨rfl, rfl, rfl⟩

theorem readLength_of_some {short : UInt8} {len : ℕ} (h : Plain ws.script)
    (hlength : payloadLength short (received ws.script) = some (len, rest)) :
    ∃ script', Plain script' ∧ received script' = rest ∧ ∀ next,
      readLength ws short next = next len { ws with script := script' } := by
  rw [payloadLength] at hlength
  split_ifs at hlength with h126 h127
  · obtain ⟨⟨ext, rest'⟩, htake, heq⟩ := Option.map_eq_some_iff.1 hlength
    obtain ⟨rfl, rfl⟩ := Prod.mk.inj heq
    obtain ⟨script', hplain, hreceived, hread⟩ := recvExact_of_takeN h (by decide) htake
    exact ⟨script', hplain, hreceived, fun next => by rw [readLength, if_pos h126, hread]⟩
  · obtain ⟨⟨ext, rest'⟩, htake, heq⟩ := Option.map_eq_some_iff.1 hlength
    obtain ⟨rfl, rfl⟩ := Prod.mk.inj heq
    obtain ⟨script', hplain, hreceived, hread⟩ := recvExact_of_takeN h (by decide) htake
    exact ⟨script', hplain, hreceived, fun next => by
      rw [readLength, if_neg h126, if_pos h127, hread]⟩
  · obtain ⟨rfl, rfl⟩ := Prod.mk.inj (Option.some.inj hlength)
    exact ⟨ws.script, h, rfl, fun next => by rw [readLength, if_neg h126, if_neg h127]⟩

theorem readLength_of_none {short : UInt8} {next : ℕ → WebSocket → Round} (h : Plain ws.script)
    (hlength : payloadLength short (received ws.script) = none) :
    Ended ws (readLength ws short next) := by
  rw [payloadLength] at hlength
  rw [readLength]
  split_ifs at hlength ⊢
  · exact recvExact_of_none h (by decide) fails_nothing (Option.map_eq_none_iff.1 hlength)
  · exact recvExact_of_none h (by decide) fails_nothing (Option.map_eq_none_iff.1 hlength)

/-- What a round does with the first frame of the stream. -/
def Takes (ws : WebSocket) (r : Round) : Parsed → Prop
  | .frame opcode payload rest =>
    ∃ script', Plain script' ∧ received script' = rest ∧
      r = handleFrame { ws with script := script' } opcode payload
  | .wait => Ended ws r
  | .tooLarge => True

theorem readPayload_takes {len : ℕ} (h : Plain ws.script) (hlen : len ≤ 16 * 1024 * 1024)
    (opcode : UInt8) (mask : Option Bytes) :
    Takes ws (readPayload ws opcode len mask)
      (match takeN len (received ws.script) with
        | none => .wait
        | some (payload, rest) =>
          .frame opcode (mask.elim payload fun m => masked m payload) rest) := by
  have hint : len < 2 ^ 31 := by omega
  cases htake : takeN len (received ws.script) with
  | none => exact recvExact_of_none h hint fails_nothing htake
  | some p =>
    obtain ⟨script', hplain, hreceived, hread⟩ := recvExact_of_takeN h hint htake
    exact ⟨script', hplain, hreceived, hread _ _⟩

theorem Takes.of_script {script' : List Recv} {r : Round} {parsed : Parsed}
    (h : Takes { ws with script := script' } r parsed) : Takes ws r parsed := by
  cases parsed with
  | frame opcode payload rest => exact h
  | wait => exact h
  | tooLarge => trivial

theorem readMask_takes {len : ℕ} (h : Plain ws.script) (hlen : len ≤ 16 * 1024 * 1024)
    (opcode : UInt8) (has_mask : Bool) :
    Takes ws (readMask ws opcode has_mask len)
      (if has_mask then
        match takeN 4 (received ws.script) with
        | none => .wait
        | some (mask, rest) =>
          match takeN len rest with
          | none => .wait
          | some (payload, rest) => .frame opcode (masked mask payload) rest
      else
        match takeN len (received ws.script) with
        | none => .wait
        | some (payload, rest) => .frame opcode payload rest) := by
  rw [readMask]
  split_ifs with hmask
  · cases htake : takeN 4 (received ws.script) with
    | none => exact recvExact_of_none h (by decide) fails_nothing htake
    | some p =>
      obtain ⟨mask, rest⟩ := p
      obtain ⟨script', hplain, rfl, hread⟩ := recvExact_of_takeN h (by decide) htake
      have htakes := @readPayload_takes { ws with script := script' } len hplain hlen opcode
        (some mask)
      rw [hread]
      exact htakes.of_script
  · exact readPayload_takes h hlen opcode none

/-- **A round takes the first frame of the stream**, or ends when it does not arrive. -/
theorem blockingRound_takes (h : Plain ws.script) :
    Takes ws (blockingRound ws) (ws_parse (received ws.script)) := by
  rcases hbytes : received ws.script with _ | ⟨b0, _ | ⟨b1, bs⟩⟩
  · exact recvExact_of_none h (by decide) (fun _ => ⟨rfl, rfl, rfl⟩) (by rw [hbytes]; rfl)
  · exact recvExact_of_none h (by decide) (fun _ => ⟨rfl, rfl, rfl⟩) (by rw [hbytes]; rfl)
  have htake : takeN 2 (received ws.script) = some ([b0, b1], bs) := by
    rw [hbytes]
    exact takeN_append [b0, b1] bs
  obtain ⟨script1, hplain1, rfl, hround⟩ := recvExact_of_takeN h (by decide) htake
  rw [blockingRound, hround, ws_parse]
  change Takes ws (readLength { ws with script := script1 } (b1 &&& 0x7f) fun len ws =>
    readMask ws (b0 &&& 0x0f) (b1 &&& 0x80 ≠ 0) len) _
  cases hlen : payloadLength (b1 &&& 0x7f) (received script1) with
  | none => exact @readLength_of_none { ws with script := script1 } _ _ hplain1 hlen
  | some p =>
    obtain ⟨len, rest⟩ := p
    obtain ⟨script2, hplain2, rfl, hread⟩ :=
      @readLength_of_some _ { ws with script := script1 } _ _ hplain1 hlen
    rw [hread]
    dsimp only
    by_cases hlarge : len > 16 * 1024 * 1024
    · rw [if_pos hlarge]
      trivial
    · rw [if_neg hlarge]
      have htakes := @readMask_takes { ws with script := script2 } len hplain2 (Nat.not_lt.1 hlarge)
        (b0 &&& 0x0f) (b1 &&& 0x80 ≠ 0)
      simp only [decide_eq_true_eq] at htakes
      exact htakes.of_script

end Net

end Jaci
