import Jaci.Net.WebSocket

/-!
# Receiving a stream of frames

However the bytes of a sequence of frames are split when they arrive, `ws_receive_async` returns
the messages in order and answers the pings, and a call waits only as long as no whole frame is
there.

* `Frame`, `stream`, `pongs` : what is sent, and what is answered;
* `Reads` : how far a connection has read;
* `receiveRound_reads` : one round takes one frame, or waits for more of it;
* `activations_read` : **the round trip**.
-/

namespace Jaci

namespace Net

open Wire

/-! ### What is sent -/

/-- The kinds of frames. -/
inductive Kind where
  | text
  | binary
  | ping
  | pong
deriving DecidableEq

def Kind.opcode : Kind → UInt8
  | .text => 0x01
  | .binary => 0x02
  | .ping => 0x09
  | .pong => 0x0a

/-- A frame that `ws_send_frame` is called for. -/
structure Frame where
  kind : Kind
  payload : Bytes
  mask : Option Mask

namespace Frame

/-- The bytes of the frame. -/
def bytes (f : Frame) : Bytes := ws_send_frame f.kind.opcode f.payload f.mask

/-- The message that a call returns for the frame. -/
def message (f : Frame) : Option (Bytes × Bool) :=
  match f.kind with
  | .text => some (f.payload, false)
  | .binary => some (f.payload, true)
  | _ => none

/-- The payload that is to be answered. -/
def ping (f : Frame) : Option Bytes := if f.kind = .ping then some f.payload else none

/-- The payload has at most 16 MiB. -/
def Small (f : Frame) : Prop := f.payload.length ≤ 16 * 1024 * 1024

end Frame

/-- The bytes of a sequence of frames. -/
def stream (fs : List Frame) : Bytes := fs.flatMap Frame.bytes

/-- The pongs with these payloads: those of a client draw one mask after the other. -/
def pongs (is_server : Bool) (masks : ℕ → Mask) (payloads : List Bytes) : Bytes :=
  (payloads.mapIdx fun i p =>
    ws_send_frame 0x0a p (if is_server then none else some (masks i))).flatten

/-- The connection stays open. -/
def StaysOpen (script : List Recv) : Prop := ∀ r ∈ script, r ≠ .closed ∧ r ≠ .failed

/-- The buffer does not start with a whole frame. -/
def NoFrame (buffer : Bytes) : Prop := ∀ f : Frame, f.Small → ¬ f.bytes <+: buffer

/-! ### Frames at the front of the buffer -/

theorem stream_cons (f : Frame) (fs : List Frame) : stream (f :: fs) = f.bytes ++ stream fs := rfl

theorem opcode_low (k : Kind) : k.opcode &&& 0x0f = k.opcode := by
  cases k <;> decide

theorem ws_parse_bytes {f : Frame} (h : f.Small) (rest : Bytes) :
    ws_parse (f.bytes ++ rest) = .frame f.kind.opcode f.payload rest := by
  rw [Frame.bytes, ws_parse_send _ h, opcode_low]

theorem bytes_ne_nil (f : Frame) : f.bytes ≠ [] := List.cons_ne_nil _ _

theorem noFrame_of_wait {buffer : Bytes} (h : ws_parse buffer = .wait) : NoFrame buffer := by
  rintro f hf ⟨rest, rfl⟩
  rw [ws_parse_bytes hf] at h
  cases h

/-- What is at the front of a part of a stream: the first frame, or not yet all of it. -/
theorem ws_parse_stream {fs : List Frame} (hsmall : ∀ f ∈ fs, f.Small) {buffer t : Bytes}
    (h : buffer ++ t = stream fs) :
    (ws_parse buffer = .wait ∧ (t = [] → fs = [])) ∨
      ∃ f fs' rest, fs = f :: fs' ∧ rest ++ t = stream fs' ∧ f.bytes.length + rest.length = buffer.length ∧
        ws_parse buffer = .frame f.kind.opcode f.payload rest := by
  cases fs with
  | nil =>
    obtain ⟨rfl, rfl⟩ := List.append_eq_nil_iff.mp h
    exact .inl ⟨rfl, fun _ => rfl⟩
  | cons f fs =>
    have hf := hsmall f List.mem_cons_self
    rw [stream_cons] at h
    rcases List.append_eq_append_iff.mp h with ⟨part, hpart, ht⟩ | ⟨rest, rfl, hrest⟩
    · -- The buffer ends within the frame, or just with it.
      by_cases hnil : part = []
      · subst hnil
        refine .inr ⟨f, fs, [], rfl, by simpa using ht, ?_, ?_⟩
        · simp [hpart]
        · rw [← ws_parse_bytes hf, hpart]
          simp
      · refine .inl ⟨ws_parse_part hf hpart.symm hnil, ?_⟩
        rintro rfl
        exact absurd (List.append_eq_nil_iff.mp ht.symm).1 hnil
    · refine .inr ⟨f, fs, rest, rfl, hrest.symm, by simp, ws_parse_bytes hf rest⟩

/-! ### Reading what is there -/

/-- On an open connection `ws_read_available` moves bytes to the buffer and takes a result. -/
theorem ws_read_available_open {script : List Recv} (h : StaysOpen script) (buffer : Bytes)
    (readAny : Bool) :
    ∃ status buffer' script', ws_read_available script buffer readAny = (status, buffer', script') ∧
      status ≠ .closed ∧ StaysOpen script' ∧
      buffer' ++ received script' = buffer ++ received script ∧
      (script'.length < script.length ∨ script' = []) ∧ script'.length ≤ script.length := by
  induction script generalizing buffer readAny with
  | nil =>
    refine ⟨_, buffer, [], rfl, ?_, h, rfl, .inr rfl, Nat.le_refl _⟩
    cases readAny <;> decide
  | cons r script ih =>
    have htail : StaysOpen script := fun r hr => h r (List.mem_cons_of_mem _ hr)
    cases r with
    | data b bs =>
      obtain ⟨status, buffer', script', heq, hne, ho, hb, -, hle⟩ := ih htail (buffer ++ b :: bs) true
      refine ⟨status, buffer', script', heq, hne, ho, ?_, .inl (Nat.lt_succ_of_le hle),
        Nat.le_succ_of_le hle⟩
      rw [hb, received, List.append_assoc]
    | interrupted =>
      obtain ⟨status, buffer', script', heq, hne, ho, hb, -, hle⟩ := ih htail buffer readAny
      exact ⟨status, buffer', script', heq, hne, ho, hb, .inl (Nat.lt_succ_of_le hle),
        Nat.le_succ_of_le hle⟩
    | wouldBlock =>
      refine ⟨_, buffer, script, rfl, ?_, htail, rfl, .inl (Nat.lt_succ_self _), Nat.le_succ _⟩
      cases readAny <;> decide
    | closed => exact absurd rfl (h _ List.mem_cons_self).1
    | failed => exact absurd rfl (h _ List.mem_cons_self).2

/-! ### One call -/

/-- A connection has read the frames `read` of those that are sent, and `left` are to come. -/
structure Reads (ws₀ ws : WebSocket) (read left : List Frame) : Prop where
  is_open : ws.is_open = true
  stays : StaysOpen ws.script
  left : ws.receive_buffer ++ received ws.script = stream left
  sent : ws.sent = ws₀.sent ++ pongs ws₀.is_server ws₀.masks (read.filterMap Frame.ping)
  is_server : ws.is_server = ws₀.is_server
  masks : ws.is_server = false →
    ∀ i, ws.masks i = ws₀.masks ((read.filterMap Frame.ping).length + i)
  script : ws.script.length ≤ ws₀.script.length

theorem pongs_append (is_server : Bool) (masks : ℕ → Mask) (ps qs : List Bytes) :
    pongs is_server masks (ps ++ qs) =
      pongs is_server masks ps ++ pongs is_server (fun i => masks (ps.length + i)) qs := by
  rw [pongs, pongs, pongs, List.mapIdx_append, List.flatten_append]
  simp only [Nat.add_comm]

theorem Reads.pending {ws₀ ws : WebSocket} {read left : List Frame} (h : Reads ws₀ ws read left) :
    ws.pending = (stream left).length := by
  rw [← h.left, List.length_append, WebSocket.pending]

/-- The state after more bytes are read, and a frame that needs no answer is taken. -/
theorem Reads.take {ws₀ ws : WebSocket} {read left left' : List Frame} {buffer : Bytes}
    {script : List Recv} (h : Reads ws₀ ws read left) (fs : List Frame) (hopen : StaysOpen script)
    (hle : script.length ≤ ws.script.length) (hleft : buffer ++ received script = stream left')
    (hping : fs.filterMap Frame.ping = []) :
    Reads ws₀ { ws with receive_buffer := buffer, script := script } (read ++ fs) left' := by
  have hsame : (read ++ fs).filterMap Frame.ping = read.filterMap Frame.ping := by
    rw [List.filterMap_append, hping, List.append_nil]
  refine ⟨h.is_open, hopen, hleft, ?_, h.is_server, ?_, hle.trans h.script⟩
  · rw [hsame]
    exact h.sent
  · rw [hsame]
    exact h.masks

/-- The state after a pong. -/
theorem Reads.pong {ws₀ ws : WebSocket} {read left : List Frame} (h : Reads ws₀ ws read left)
    {f : Frame} (hf : f.kind = .ping) : Reads ws₀ (ws.pong f.payload) (read ++ [f]) left := by
  have hpings : (read ++ [f]).filterMap Frame.ping = read.filterMap Frame.ping ++ [f.payload] := by
    rw [List.filterMap_append]
    simp [Frame.ping, hf]
  have hserver := h.is_server
  cases hs : ws.is_server with
  | true =>
    have hws : ws.pong f.payload =
        { ws with sent := ws.sent ++ ws_send_frame 0x0a f.payload none } := by
      simp [WebSocket.pong, hs]
    rw [hws]
    refine ⟨h.is_open, h.stays, h.left, ?_, hserver, fun hc => ?_, h.script⟩
    · rw [hpings, pongs_append, ← List.append_assoc, ← h.sent, ← hserver, hs]
      simp [pongs]
    · exact absurd (hs.symm.trans hc) (by decide)
  | false =>
    have hws : ws.pong f.payload = { ws with
        sent := ws.sent ++ ws_send_frame 0x0a f.payload (some (ws.masks 0))
        masks := fun i => ws.masks (i + 1) } := by
      simp [WebSocket.pong, hs]
    rw [hws]
    refine ⟨h.is_open, h.stays, h.left, ?_, hserver, fun _ i => ?_, h.script⟩
    · rw [hpings, pongs_append, ← List.append_assoc, ← h.sent, ← hserver, hs, h.masks hs]
      simp [pongs]
    · show ws.masks (i + 1) = _
      rw [h.masks hs, hpings, List.length_append, List.length_singleton]
      congr 1
      omega

/-- What one round does. -/
theorem receiveRound_reads {ws₀ ws : WebSocket} {read left : List Frame}
    (hsmall : ∀ f ∈ left, f.Small) (h : Reads ws₀ ws read left) :
    (∃ ws' f left', receiveRound ws = some (.inl ws') ∧ left = f :: left' ∧ f.message = none ∧
      Reads ws₀ ws' (read ++ [f]) left') ∨
    (∃ ws', receiveRound ws = some (.inr (.suspended, ws')) ∧ Reads ws₀ ws' read left ∧
      NoFrame ws'.receive_buffer ∧ (ws'.script.length < ws.script.length ∨ left = [])) ∨
    ∃ ws' f left' p b, receiveRound ws = some (.inr (.message p b, ws')) ∧ left = f :: left' ∧
      f.message = some (p, b) ∧ Reads ws₀ ws' (read ++ [f]) left' := by
  obtain ⟨status, buffer, script, hread, hne, hopen, hbytes, hless, hle⟩ :=
    ws_read_available_open h.stays ws.receive_buffer false
  rw [h.left] at hbytes
  rcases ws_parse_stream hsmall hbytes with ⟨hwait, hdone⟩ | ⟨f, left', rest, rfl, hrest, -, hframe⟩
  · refine .inr (.inl ⟨{ ws with receive_buffer := buffer, script := script }, ?_, ?_, ?_, ?_⟩)
    · simp only [receiveRound, hread, if_neg hne, hwait]
    · have hsame := h.take [] hopen hle hbytes rfl
      rwa [List.append_nil] at hsame
    · exact noFrame_of_wait hwait
    · rcases hless with hless | rfl
      · exact .inl hless
      · exact .inr (hdone rfl)
  -- The first frame is taken: what follows depends on its kind.
  have hround := fun hping => h.take [f] hopen hle hrest hping
  obtain ⟨kind, payload, mask⟩ := f
  cases kind with
  | text =>
    refine .inr (.inr ⟨_, _, left', payload, false, ?_, rfl, rfl, hround rfl⟩)
    simp only [receiveRound, hread, if_neg hne, hframe]
    rfl
  | binary =>
    refine .inr (.inr ⟨_, _, left', payload, true, ?_, rfl, rfl, hround rfl⟩)
    simp only [receiveRound, hread, if_neg hne, hframe]
    rfl
  | ping =>
    have hping := (h.take [] hopen hle hrest rfl).pong (f := ⟨.ping, payload, mask⟩) rfl
    rw [List.append_nil] at hping
    refine .inl ⟨_, _, left', ?_, rfl, rfl, hping⟩
    simp only [receiveRound, hread, if_neg hne, hframe]
    rfl
  | pong =>
    refine .inl ⟨_, _, left', ?_, rfl, rfl, hround rfl⟩
    simp only [receiveRound, hread, if_neg hne, hframe]
    rfl

/-- What a call ends with: it returned the next message, or it is suspended without a whole frame in
the buffer. -/
def Outcome (ws : WebSocket) (fs : List Frame) (result : Received × WebSocket) : Prop :=
  ∃ read left, fs = read ++ left ∧ Reads ws result.2 read left ∧
    ((result.1 = .suspended ∧ read.filterMap Frame.message = [] ∧ NoFrame result.2.receive_buffer ∧
      (result.2.script.length < ws.script.length ∨ left = [])) ∨
    ∃ p b, result.1 = .message p b ∧ read.filterMap Frame.message = [(p, b)])

/-- **One call.** -/
theorem ws_receive_async_reads {ws : WebSocket} {fs : List Frame} (hsmall : ∀ f ∈ fs, f.Small)
    (h : Reads ws ws [] fs) :
    ∃ result, ws_receive_async ws = some result ∧ Outcome ws fs result := by
  rw [ws_receive_async, if_pos h.is_open]
  refine Loop.run_spec (μ := WebSocket.pending)
    (I := fun ws' => ∃ read left, fs = read ++ left ∧ read.filterMap Frame.message = [] ∧
      Reads ws ws' read left)
    ?_ ⟨[], fs, rfl, rfl, h⟩ (Nat.lt_succ_self _)
  rintro ws' ⟨read, left, rfl, hnone, hreads⟩
  have hleft : ∀ f ∈ left, f.Small := fun f hf => hsmall f (List.mem_append_right _ hf)
  have hmessages : ∀ f : Frame, (read ++ [f]).filterMap Frame.message = f.message.toList := by
    intro f
    rw [List.filterMap_append, hnone]
    cases hm : f.message <;> simp [hm]
  rcases receiveRound_reads hleft hreads with
    ⟨ws'', f, left', hround, rfl, hf, hreads'⟩ | ⟨ws'', hround, hreads', hno, hless⟩ |
    ⟨ws'', f, left', p, b, hround, rfl, hf, hreads'⟩
  · refine .inl ⟨ws'', hround, ⟨read ++ [f], left', by simp, by rw [hmessages, hf]; rfl, hreads'⟩, ?_⟩
    rw [hreads.pending, hreads'.pending, stream_cons, List.length_append]
    have hpos := List.length_pos_iff.mpr (bytes_ne_nil f)
    omega
  · refine .inr ⟨_, hround, read, left, rfl, hreads', .inl ⟨rfl, hnone, hno, ?_⟩⟩
    rcases hless with hless | hless
    · exact .inl (hless.trans_le hreads.script)
    · exact .inr hless
  · refine .inr ⟨_, hround, read ++ [f], left', by simp, hreads', .inr ⟨p, b, rfl, ?_⟩⟩
    rw [hmessages, hf]
    rfl

/-! ### Successive calls -/

theorem Reads.refl {ws : WebSocket} {fs : List Frame} (hopen : ws.is_open = true)
    (hstays : StaysOpen ws.script) (hbytes : ws.receive_buffer ++ received ws.script = stream fs) :
    Reads ws ws [] fs := by
  refine ⟨hopen, hstays, hbytes, by simp [pongs], rfl, fun _ i => ?_, Nat.le_refl _⟩
  rw [List.filterMap_nil, List.length_nil, Nat.zero_add]

/-- What successive calls have done: the results are messages or suspensions without a whole frame
in the buffer, and they are those of the frames `read`, as are the pongs. -/
structure Delivered (ws : WebSocket) (read : List Frame) (l : List (Received × Bytes))
    (last : WebSocket) : Prop where
  messages : messages l = read.filterMap Frame.message
  sent : last.sent = ws.sent ++ pongs ws.is_server ws.masks (read.filterMap Frame.ping)
  /-- A call returns a message, or there is no whole frame in the buffer. -/
  results : ∀ r buffer, (r, buffer) ∈ l →
    (∃ p b, r = .message p b) ∨ r = .suspended ∧ NoFrame buffer

theorem activations_reads {ws : WebSocket} {fs : List Frame} (hsmall : ∀ f ∈ fs, f.Small)
    (h : Reads ws ws [] fs) (n : ℕ) :
    ∃ l last read left, activations n ws = some (l, last) ∧ fs = read ++ left ∧
      Delivered ws read l last ∧ (ws.script.length + fs.length ≤ n → left = []) := by
  induction n generalizing ws fs with
  | zero =>
    refine ⟨[], ws, [], fs, rfl, rfl, ⟨rfl, by simp [pongs], by simp⟩, fun hn => ?_⟩
    exact List.eq_nil_of_length_eq_zero (by omega)
  | succ n ih =>
    obtain ⟨⟨r, ws'⟩, hcall, read, left, rfl, hreads, hcase⟩ := ws_receive_async_reads hsmall h
    obtain ⟨l, last, read', left', hact, rfl, hdel, hall⟩ :=
      ih (fun f hf => hsmall f (List.mem_append_right _ hf))
        (.refl hreads.is_open hreads.stays hreads.left)
    refine ⟨(r, ws'.receive_buffer) :: l, last, read ++ read', left', ?_, by simp, ⟨?_, ?_, ?_⟩, ?_⟩
    · rw [activations, hcall, Option.bind_some]
      simp only [hact, Option.map_some]
    · rw [messages_cons, hdel.messages, List.filterMap_append]
      rcases hcase with ⟨hr, hnone, -⟩ | ⟨p, b, hr, hone⟩
      · rw [show r = .suspended from hr, hnone]
        rfl
      · rw [show r = .message p b from hr, hone]
        rfl
    · -- The masks of the later pongs are drawn after those of the first call.
      have hmasks : pongs ws'.is_server ws'.masks (read'.filterMap Frame.ping) =
          pongs ws.is_server (fun i => ws.masks ((read.filterMap Frame.ping).length + i))
            (read'.filterMap Frame.ping) := by
        rw [hreads.is_server]
        cases hs : ws.is_server with
        | true => rfl
        | false => rw [funext (hreads.masks (hreads.is_server.trans hs))]
      rw [hdel.sent, hreads.sent, hmasks, List.filterMap_append, pongs_append, List.append_assoc]
    · intro r' buffer hm
      rcases List.mem_cons.mp hm with he | hm
      · obtain ⟨rfl, rfl⟩ := Prod.mk.inj he
        rcases hcase with ⟨hr, -, hno, -⟩ | ⟨p, b, hr, -⟩
        · exact .inr ⟨hr, hno⟩
        · exact .inl ⟨p, b, hr⟩
      · exact hdel.results r' buffer hm
    · intro hn
      have hscript : ws'.script.length ≤ ws.script.length := hreads.script
      simp only [List.length_append] at hn hall
      rcases hcase with ⟨-, -, -, hless | hnil⟩ | ⟨p, b, -, hone⟩
      · exact hall (by simp only at hless; omega)
      · exact (List.append_eq_nil_iff.mp hnil).2
      · have hpos : read ≠ [] := by
          rintro rfl
          cases hone
        have hlen := List.length_pos_iff.mpr hpos
        exact hall (by omega)

/-- **The round trip.**  For every sequence of frames that `ws_send_frame` writes and every way in
which its bytes arrive on a connection that stays open, successive calls return the texts and the
binary data of a part `read` of the frames, in order, and have sent a pong for each ping of it.  A
call is suspended only without a whole frame in the buffer.  With enough calls, `read` is all. -/
theorem activations_read (fs : List Frame) (hsmall : ∀ f ∈ fs, f.Small) (ws : WebSocket)
    (hopen : ws.is_open = true) (hempty : ws.receive_buffer = []) (hstays : StaysOpen ws.script)
    (hbytes : received ws.script = stream fs) (n : ℕ) :
    ∃ l last read left, activations n ws = some (l, last) ∧ fs = read ++ left ∧
      Delivered ws read l last ∧ (ws.script.length + fs.length ≤ n → read = fs) := by
  have hreads : Reads ws ws [] fs := .refl hopen hstays (by rw [hempty, hbytes]; rfl)
  obtain ⟨l, last, read, left, hact, hfs, hdel, hall⟩ := activations_reads hsmall hreads n
  refine ⟨l, last, read, left, hact, hfs, hdel, fun hn => ?_⟩
  rw [hfs, hall hn, List.append_nil]

/-- A ping, and the header and the masked payload of a text in three parts. -/
def sampleScript : List Recv :=
  [.data 0x89 [1, 7, 0x81], .wouldBlock, .interrupted, .data 0x82 [1, 2, 3], .wouldBlock,
    .data 4 [105, 107]]

theorem activations_read_sample : ∃ l last,
    activations 8 ⟨[], true, true, sampleScript, [], fun _ => ⟨[0, 0, 0, 0], rfl⟩⟩ = some (l, last) ∧
      messages l = [([104, 105], false)] ∧ last.sent = ws_send_frame 0x0a [7] none := by
  obtain ⟨l, last, read, left, hact, -, hdel, hall⟩ := activations_read
    [⟨.ping, [7], none⟩, ⟨.text, [104, 105], some ⟨[1, 2, 3, 4], rfl⟩⟩]
    (by simp [Frame.Small]) ⟨[], true, true, sampleScript, [], fun _ => ⟨[0, 0, 0, 0], rfl⟩⟩ rfl rfl
    (by simp [StaysOpen, sampleScript]) (by decide) 8
  obtain rfl := hall (by decide)
  exact ⟨l, last, hact, hdel.messages, hdel.sent⟩

end Net

end Jaci
