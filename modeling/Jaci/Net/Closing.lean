import Jaci.Net.Receive

/-!
# Messages at the ends of a connection

The client reads the response of the handshake and drops what came with it.  A call of
`ws_receive_async` that finds the end of the stream, and nothing before it, drops the frames that
are still in the buffer.

* `net_websocket_connect` : the handshake of the source;
* `Session` : what a server sends, and how it arrives;
* `groups`, `KeepsUp` : what arrives for each call, and whether one message a call is enough;
* `returns_closing` : the messages before a close;
* `allDelivered_iff` : **when no message is lost.**
-/

namespace Jaci

namespace Net

open Wire

/-! ### The handshake -/

def responseEnd : Bytes := [13, 10, 13, 10]

/-- The loop that reads the response: the response, and the results of `recv` that are left. -/
def readResponse : List Recv → Bytes → Bytes × List Recv
  | [], resp => (resp, [])
  | r :: script, resp =>
    if responseEnd <:+: resp then (resp, r :: script)
    else
      match r with
      | .data b bs => readResponse script (resp ++ b :: bs)
      | .closed => (resp, .closed :: script)
      | _ => (resp, script)

/-- `net_websocket_connect`, from the response on.  Bytes after the response are not kept. -/
def net_websocket_connect (script : List Recv) (masks : ℕ → Mask) : Option WebSocket :=
  let (resp, script) := readResponse script []
  if [49, 48, 49] <:+: resp then some ⟨[], true, false, script, [], masks⟩ else none

/-- What a server sends after a request, and how the client receives it. -/
structure Session where
  response : Bytes
  frames : List Frame
  first : List Recv
  later : List Recv
  closes : Bool
  accepts : [49, 48, 49] <:+: response
  ends : responseEnd <:+: response ∧ ∀ part, part <+: response → part ≠ response →
    ¬ responseEnd <:+: part
  data : ∀ f ∈ frames, f.mask = none ∧ (f.kind = .text ∨ f.kind = .binary)
  blocking : ∀ r ∈ first, ∃ b bs, r = .data b bs
  stays : StaysOpen later
  bytes : received first ++ received later = response ++ stream frames
  whole : response.length ≤ (received first).length
  needed : (received first.dropLast).length < response.length

namespace Session

/-- The results of `recv`. -/
def script (s : Session) : List Recv :=
  s.first ++ (s.later ++ if s.closes then [.closed] else [])

/-- What arrives with the end of the response. -/
def early (s : Session) : Bytes := (received s.first).drop s.response.length

/-- The calls of the client return the messages of the server, in order, before they report a
closed connection. -/
def AllDelivered (s : Session) (masks : ℕ → Mask) : Prop :=
  ∃ ws n l last, net_websocket_connect s.script masks = some ws ∧
    activations n ws = some (l, last) ∧ messages l = s.frames.filterMap Frame.message

end Session

/-! ### What arrives for each call -/

/-- What each call of `ws_read_available` reads: the bytes up to where it would block. -/
def groups : List Recv → List Bytes
  | [] => [[]]
  | .data b bs :: script => (groups script).modifyHead (b :: bs ++ ·)
  | .wouldBlock :: script => [] :: groups script
  | _ :: script => groups script

/-- The number of calls that can return a message before the end of the stream is reported: the
last one cannot if it reads nothing. -/
def served : List Bytes → ℕ
  | [] => 0
  | [g] => if g = [] then 0 else 1
  | _ :: gs => served gs + 1

/-- The number of frames that are not whole in a number of bytes. -/
def unfinished : List Frame → ℕ → ℕ
  | [], _ => 0
  | f :: fs, n => if f.bytes.length ≤ n then unfinished fs (n - f.bytes.length) else fs.length + 1

/-- Before each call, the frames that are not yet whole are not more than the calls that are left,
where `n` bytes have arrived before. -/
def KeepsUp (fs : List Frame) : ℕ → List Bytes → Prop
  | _, [] => True
  | n, g :: gs => unfinished fs n ≤ served (g :: gs) ∧ KeepsUp fs (n + g.length) gs

/-! ### Sizes -/

theorem ws_read_available_bytes (script : List Recv) (buffer : Bytes) (readAny : Bool) :
    (ws_read_available script buffer readAny).2.1 ++
      received (ws_read_available script buffer readAny).2.2 = buffer ++ received script := by
  induction script generalizing buffer readAny with
  | nil => rfl
  | cons r script ih =>
    cases r with
    | data b bs =>
      rw [ws_read_available, ih, received, List.append_assoc]
    | interrupted => exact ih buffer readAny
    | wouldBlock => rfl
    | closed => rfl
    | failed => rfl

/-- The least number of bytes that a result takes. -/
def Received.size : Received → ℕ
  | .message payload _ => frameSize payload.length
  | _ => 0

/-- A round takes at least the bytes of its message, and a message is not too large. -/
theorem receiveRound_size (ws : WebSocket) :
    (∃ ws', receiveRound ws = some (.inl ws') ∧ ws'.pending < ws.pending) ∨
    ∃ r ws', receiveRound ws = some (.inr (r, ws')) ∧ r.size + ws'.pending ≤ ws.pending ∧
      ∀ p b, r = .message p b → p.length ≤ 16 * 1024 * 1024 := by
  have hbytes := congrArg List.length (ws_read_available_bytes ws.script ws.receive_buffer false)
  rcases hread : ws_read_available ws.script ws.receive_buffer false with ⟨status, buffer, script⟩
  simp only [hread, List.length_append] at hbytes
  have hpending : ws.pending = buffer.length + (received script).length := hbytes.symm
  by_cases hclosed : status = .closed
  · refine .inr ⟨.connectionClosed,
      { ws with receive_buffer := buffer, script := script, is_open := false },
      by simp only [receiveRound, hread, if_pos hclosed], ?_, ?_⟩
    · rw [hpending]
      exact (Nat.zero_add _).le
    · rintro p b ⟨⟩
  cases hparse : ws_parse buffer with
  | wait =>
    refine .inr ⟨.suspended, { ws with receive_buffer := buffer, script := script },
      by simp only [receiveRound, hread, if_neg hclosed, hparse], ?_, ?_⟩
    · rw [hpending]
      exact (Nat.zero_add _).le
    · rintro p b ⟨⟩
  | tooLarge =>
    refine .inr ⟨.tooLarge, { ws with receive_buffer := buffer, script := script },
      by simp only [receiveRound, hread, if_neg hclosed, hparse], ?_, ?_⟩
    · rw [hpending]
      exact (Nat.zero_add _).le
    · rintro p b ⟨⟩
  | frame opcode payload rest =>
    obtain ⟨hsize, hsmall⟩ := ws_parse_size hparse
    have hpos : 0 < frameSize payload.length := by
      unfold frameSize
      omega
    -- What is left after the frame is taken.
    have hrest : frameSize payload.length + (rest.length + (received script).length) ≤ ws.pending := by
      omega
    have hless : rest.length + (received script).length < ws.pending := by omega
    simp only [receiveRound, hread, if_neg hclosed, hparse]
    split_ifs with h8 h9 ha hdata
    · refine .inr ⟨.closed, _, rfl, ?_, ?_⟩
      · exact (Nat.zero_add _).le.trans hless.le
      · rintro p b ⟨⟩
    · refine .inl ⟨_, rfl, ?_⟩
      rw [WebSocket.pending_pong]
      exact hless
    · exact .inl ⟨_, rfl, hless⟩
    · refine .inr ⟨_, _, rfl, hrest, ?_⟩
      rintro p b ⟨⟩
      exact hsmall
    · exact .inl ⟨_, rfl, hless⟩

theorem ws_receive_async_size (ws : WebSocket) :
    ∃ r ws', ws_receive_async ws = some (r, ws') ∧ r.size + ws'.pending ≤ ws.pending ∧
      ∀ p b, r = .message p b → p.length ≤ 16 * 1024 * 1024 := by
  unfold ws_receive_async
  split_ifs with hopen
  · have hrun : ∃ result : Received × WebSocket,
        Loop.run receiveRound (ws.pending + 1) ws = some result ∧
          (result.1.size + result.2.pending ≤ ws.pending ∧
            ∀ p b, result.1 = .message p b → p.length ≤ 16 * 1024 * 1024) := by
      refine Loop.run_spec (I := fun ws' => ws'.pending ≤ ws.pending) (μ := WebSocket.pending)
        (fun ws' hle => ?_) (Nat.le_refl _) (Nat.lt_succ_self _)
      rcases receiveRound_size ws' with ⟨ws'', hr, hlt⟩ | ⟨r, ws'', hr, hsize, hsmall⟩
      · exact .inl ⟨ws'', hr, hlt.le.trans hle, hlt⟩
      · exact .inr ⟨(r, ws''), hr, hsize.trans hle, hsmall⟩
    obtain ⟨⟨r, ws'⟩, hr, hsize, hsmall⟩ := hrun
    exact ⟨r, ws', hr, hsize, hsmall⟩
  · refine ⟨.closed, ws, rfl, (Nat.zero_add _).le, ?_⟩
    rintro p b ⟨⟩

/-- All calls together take at least the bytes of their messages. -/
theorem activations_size (n : ℕ) (ws : WebSocket) :
    ∃ l last, activations n ws = some (l, last) ∧
      ((messages l).map fun m => frameSize m.1.length).sum ≤ ws.pending ∧
      ∀ m ∈ messages l, m.1.length ≤ 16 * 1024 * 1024 := by
  induction n generalizing ws with
  | zero => exact ⟨[], ws, rfl, Nat.zero_le _, by simp [messages]⟩
  | succ n ih =>
    obtain ⟨r, ws', hcall, hsize, hsmall⟩ := ws_receive_async_size ws
    obtain ⟨l, last, hact, hsum, hall⟩ := ih ws'
    refine ⟨(r, ws'.receive_buffer) :: l, last, ?_, ?_, ?_⟩
    · rw [activations, hcall, Option.bind_some]
      simp only [hact, Option.map_some]
    · rw [messages_cons, List.map_append, List.sum_append]
      have hr : (r.toMessage.toList.map fun m => frameSize m.1.length).sum = r.size := by
        cases r <;> simp [Received.toMessage, Received.size]
      omega
    · intro m hm
      rw [messages_cons, List.mem_append] at hm
      rcases hm with hm | hm
      · cases r with
        | message p b =>
          obtain rfl : m = (p, b) := by simpa [Received.toMessage] using hm
          exact hsmall p b rfl
        | _ => simp [Received.toMessage] at hm
      · exact hall m hm

/-! ### After the handshake -/

theorem readResponse_done {resp : Bytes} (h : responseEnd <:+: resp) (script : List Recv) :
    readResponse script resp = (resp, script) := by
  cases script with
  | nil => rfl
  | cons r script =>
    rw [readResponse.eq_def]
    exact if_pos h

section Handshake

variable (s : Session)

/-- The handshake takes the results up to the one with the end of the response. -/
theorem readResponse_first {first : List Recv} {acc : Bytes} (tail : List Recv)
    (hdata : ∀ r ∈ first, ∃ b bs, r = .data b bs)
    (hpart : acc ++ received first = s.response ++ s.early)
    (hneeded : (acc ++ received first.dropLast).length < s.response.length) (hne : first ≠ []) :
    readResponse (first ++ tail) acc = (s.response ++ s.early, tail) := by
  induction first generalizing acc with
  | nil => exact absurd rfl hne
  | cons r first ih =>
    obtain ⟨b, bs, rfl⟩ := hdata r List.mem_cons_self
    -- The response is not over before this result.
    have hacc : ¬ responseEnd <:+: acc := by
      have hlen : acc.length < s.response.length := by
        rw [List.length_append] at hneeded
        omega
      refine s.ends.2 acc ?_ (fun e => absurd hlen (by rw [e]; exact lt_irrefl _))
      exact List.prefix_of_prefix_length_le ⟨_, hpart⟩ ⟨_, rfl⟩ hlen.le
    rw [received, ← List.append_assoc] at hpart
    rw [List.cons_append, readResponse, if_neg hacc]
    cases first with
    | nil =>
      rw [received, List.append_nil] at hpart
      rw [List.nil_append, hpart]
      exact readResponse_done (s.ends.1.trans (List.prefix_append _ _).isInfix) tail
    | cons r' first =>
      refine ih (fun r hr => hdata r (List.mem_cons_of_mem _ hr)) hpart ?_ (List.cons_ne_nil _ _)
      rw [List.dropLast_cons_cons, received, ← List.append_assoc] at hneeded
      exact hneeded

namespace Session

/-- The results of `recv` after the handshake. -/
def rest : List Recv := s.later ++ if s.closes then [.closed] else []

theorem received_first : received s.first = s.response ++ s.early := by
  have hprefix : s.response <+: received s.first :=
    List.prefix_of_prefix_length_le ⟨_, rfl⟩ ⟨_, s.bytes⟩ s.whole
  obtain ⟨t, ht⟩ := hprefix
  rw [early, ← ht, List.drop_left]

theorem early_append : s.early ++ received s.later = stream s.frames := by
  have hbytes := s.bytes
  rw [s.received_first, List.append_assoc] at hbytes
  exact List.append_cancel_left hbytes

theorem connect (masks : ℕ → Mask) :
    net_websocket_connect s.script masks = some ⟨[], true, false, s.rest, [], masks⟩ := by
  have hne : s.first ≠ [] := by
    intro hnil
    have hpos := s.needed
    have hwhole := s.whole
    rw [hnil] at hpos hwhole
    exact absurd hpos (not_lt.mpr hwhole)
  have hread : readResponse s.script [] = (s.response ++ s.early, s.rest) :=
    readResponse_first s s.rest s.blocking s.received_first s.needed hne
  have hok : [49, 48, 49] <:+: s.response ++ s.early :=
    s.accepts.trans (List.prefix_append _ _).isInfix
  simp only [net_websocket_connect, hread, if_pos hok]

end Session

theorem received_append (a b : List Recv) : received (a ++ b) = received a ++ received b := by
  induction a with
  | nil => rfl
  | cons r a ih => cases r <;> simp [received, ih]

theorem Session.received_rest : received s.rest = received s.later := by
  rw [Session.rest, received_append]
  split_ifs <;> simp [received]

/-- The messages of data frames, and the bytes that they take. -/
theorem sum_frameSize {fs : List Frame}
    (h : ∀ f ∈ fs, f.mask = none ∧ (f.kind = .text ∨ f.kind = .binary)) :
    ((fs.filterMap Frame.message).map fun m => frameSize m.1.length).sum = (stream fs).length ∧
      (fs.filterMap Frame.message).map Prod.fst = fs.map Frame.payload := by
  induction fs with
  | nil => exact ⟨rfl, rfl⟩
  | cons f fs ih =>
    obtain ⟨ih1, ih2⟩ := ih fun g hg => h g (List.mem_cons_of_mem _ hg)
    obtain ⟨hmask, hkind⟩ := h f List.mem_cons_self
    have hbytes : f.bytes.length = frameSize f.payload.length := by
      rw [Frame.bytes, hmask, length_ws_send_frame]
    obtain ⟨b, hmessage⟩ : ∃ b, f.message = some (f.payload, b) := by
      rcases hkind with hk | hk
      · exact ⟨false, by simp only [Frame.message, hk]⟩
      · exact ⟨true, by simp only [Frame.message, hk]⟩
    rw [List.filterMap_cons_some hmessage, stream_cons, List.length_append, hbytes]
    simp only [List.map_cons, List.sum_cons, ih1, ih2, and_self]

end Handshake

/-- What comes with the end of the response is lost. -/
theorem early_of_allDelivered {s : Session} {masks : ℕ → Mask} (h : s.AllDelivered masks) :
    s.early = [] := by
  obtain ⟨ws, n, l, last, hconnect, hact, hl⟩ := h
  rw [s.connect, Option.some.injEq] at hconnect
  obtain ⟨l', last', hact', hsum, -⟩ := activations_size n ws
  obtain ⟨rfl, rfl⟩ := Prod.mk.inj (Option.some.inj (hact'.symm.trans hact))
  have hpending : ws.pending = (received s.later).length := by
    rw [← hconnect, WebSocket.pending, s.received_rest]
    exact Nat.zero_add _
  have hbytes := congrArg List.length s.early_append
  rw [List.length_append] at hbytes
  rw [hl, (sum_frameSize s.data).1, hpending] at hsum
  exact List.eq_nil_of_length_eq_zero (by omega)

/-- A frame that is too large is not delivered. -/
theorem small_of_allDelivered {s : Session} {masks : ℕ → Mask} (h : s.AllDelivered masks) :
    ∀ f ∈ s.frames, f.Small := by
  obtain ⟨ws, n, l, last, -, hact, hl⟩ := h
  obtain ⟨l', last', hact', -, hsmall⟩ := activations_size n ws
  obtain ⟨rfl, rfl⟩ := Prod.mk.inj (Option.some.inj (hact'.symm.trans hact))
  intro f hf
  have hmem : f.payload ∈ (s.frames.filterMap Frame.message).map Prod.fst := by
    rw [(sum_frameSize s.data).2]
    exact List.mem_map_of_mem hf
  obtain ⟨m, hm, hp⟩ := List.mem_map.mp hmem
  rw [← hl] at hm
  rw [Frame.Small, ← hp]
  exact hsmall m hm

/-! ### Before the end of the stream -/

/-- Some number of calls returns the messages of the frames. -/
def Returns (ws : WebSocket) (fs : List Frame) : Prop :=
  ∃ n l last, activations n ws = some (l, last) ∧ messages l = fs.filterMap Frame.message

section Calls

variable {ws ws' : WebSocket} {fs : List Frame}

theorem activations_succ {r : Received} (h : ws_receive_async ws = some (r, ws')) (n : ℕ) :
    activations (n + 1) ws =
      (activations n ws').map fun (l, last) => ((r, ws'.receive_buffer) :: l, last) := by
  rw [activations, h, Option.bind_some]

theorem Returns.nil (ws : WebSocket) : Returns ws [] := ⟨0, [], ws, rfl, rfl⟩

/-- A call returns the first message, or none. -/
theorem returns_iff_of_call {r : Received} (fs' : List Frame)
    (h : ws_receive_async ws = some (r, ws'))
    (hr : fs.filterMap Frame.message = r.toMessage.toList ++ fs'.filterMap Frame.message) :
    Returns ws fs ↔ Returns ws' fs' := by
  constructor
  · rintro ⟨n, l, last, hact, hl⟩
    rw [hr] at hl
    cases n with
    | zero =>
      obtain ⟨rfl, rfl⟩ := Prod.mk.inj (Option.some.inj hact)
      exact ⟨0, [], ws', rfl, (List.append_eq_nil_iff.mp hl.symm).2.symm⟩
    | succ n =>
      rw [activations_succ h] at hact
      obtain ⟨⟨l', last'⟩, hact', he⟩ := Option.map_eq_some_iff.mp hact
      obtain ⟨rfl, rfl⟩ := Prod.mk.inj he
      rw [messages_cons] at hl
      exact ⟨n, l', last', hact', List.append_cancel_left hl⟩
  · rintro ⟨n, l, last, hact, hl⟩
    refine ⟨n + 1, (r, ws'.receive_buffer) :: l, last, ?_, ?_⟩
    · rw [activations_succ h, hact, Option.map_some]
    · rw [messages_cons, hl, hr]

/-- A closed connection returns nothing. -/
theorem not_returns_of_closed (hclosed : ws.is_open = false) (h : Returns ws fs) :
    fs.filterMap Frame.message = [] := by
  obtain ⟨n, l, last, hact, hl⟩ := h
  rw [← hl]
  clear hl
  have hcall : ws_receive_async ws = some (.closed, ws) := by
    rw [ws_receive_async, if_neg (by simp [hclosed])]
  induction n generalizing l with
  | zero =>
    obtain ⟨rfl, rfl⟩ := Prod.mk.inj (Option.some.inj hact)
    rfl
  | succ n ih =>
    rw [activations_succ hcall] at hact
    obtain ⟨⟨l', last'⟩, hact', he⟩ := Option.map_eq_some_iff.mp hact
    obtain ⟨rfl, rfl⟩ := Prod.mk.inj he
    rw [messages_cons, ih l' hact']
    rfl

theorem filterMap_message (f : Frame) (fs : List Frame) :
    (f :: fs).filterMap Frame.message = f.message.toList ++ fs.filterMap Frame.message := by
  rw [List.filterMap_cons]
  cases f.message <;> rfl

theorem unfinished_le (fs : List Frame) (n : ℕ) : unfinished fs n ≤ fs.length := by
  induction fs generalizing n with
  | nil => exact Nat.le_refl _
  | cons f fs ih =>
    rw [unfinished]
    split_ifs
    · exact (ih _).trans (Nat.le_succ _)
    · exact Nat.le_refl _

theorem unfinished_add (f : Frame) (fs : List Frame) (n : ℕ) :
    unfinished (f :: fs) (f.bytes.length + n) = unfinished fs n := by
  rw [unfinished, if_pos (Nat.le_add_right _ _), Nat.add_sub_cancel_left]

theorem keepsUp_add (f : Frame) (fs : List Frame) (n : ℕ) (gs : List Bytes) :
    KeepsUp (f :: fs) (f.bytes.length + n) gs ↔ KeepsUp fs n gs := by
  induction gs generalizing n with
  | nil => exact Iff.rfl
  | cons g gs ih => rw [KeepsUp, KeepsUp, unfinished_add, Nat.add_assoc, ih]

/-- What a call does with a part of a stream of data frames. -/
theorem ws_receive_async_data {status : WebSocketReadStatus} {buffer t : Bytes} {script : List Recv}
    (hopen : ws.is_open = true)
    (hread : ws_read_available ws.script ws.receive_buffer false = (status, buffer, script))
    (hne : status ≠ .closed) (hbytes : buffer ++ t = stream fs)
    (hsmall : ∀ f ∈ fs, f.Small)
    (hdata : ∀ f ∈ fs, f.mask = none ∧ (f.kind = .text ∨ f.kind = .binary)) :
    ∃ r ws', ws_receive_async ws = some (r, ws') ∧ ws'.is_open = true ∧ ws'.script = script ∧
      ((r = .suspended ∧ ws'.receive_buffer = buffer ∧
        unfinished fs buffer.length = fs.length ∧ (t = [] → fs = [])) ∨
      ∃ f fs', fs = f :: fs' ∧ r.toMessage = f.message ∧ ws'.receive_buffer ++ t = stream fs' ∧
        f.bytes.length + ws'.receive_buffer.length = buffer.length) := by
  have hone : ∀ result, receiveRound ws = some (.inr result) → ws_receive_async ws = some result := by
    intro result hround
    rw [ws_receive_async, if_pos hopen, Loop.run, hround]
    rfl
  rcases ws_parse_stream hsmall hbytes with ⟨hwait, hdone⟩ | ⟨f, fs', rest, rfl, hrest, hlen, hframe⟩
  · refine ⟨.suspended, { ws with receive_buffer := buffer, script := script },
      hone _ (by simp only [receiveRound, hread, if_neg hne, hwait]), hopen, rfl,
      .inl ⟨rfl, rfl, ?_, hdone⟩⟩
    cases fs with
    | nil => rfl
    | cons f fs =>
      rw [unfinished, if_neg, List.length_cons]
      intro hle
      refine noFrame_of_wait hwait f (hsmall f List.mem_cons_self) ?_
      exact List.prefix_of_prefix_length_le ⟨_, rfl⟩ ⟨_, hbytes⟩ hle
  · obtain ⟨kind, payload, mask⟩ := f
    rcases (hdata _ List.mem_cons_self).2 with hk | hk <;> simp only at hk <;> subst hk
    · refine ⟨.message payload false, { ws with receive_buffer := rest, script := script },
        hone _ ?_, hopen, rfl, .inr ⟨_, fs', rfl, rfl, hrest, hlen⟩⟩
      simp only [receiveRound, hread, if_neg hne, hframe]
      rfl
    · refine ⟨.message payload true, { ws with receive_buffer := rest, script := script },
        hone _ ?_, hopen, rfl, .inr ⟨_, fs', rfl, rfl, hrest, hlen⟩⟩
      simp only [receiveRound, hread, if_neg hne, hframe]
      rfl

/-- What a call reads of a script that ends with the end of the stream. -/
theorem ws_read_available_groups {evs : List Recv} (h : StaysOpen evs) (buffer : Bytes)
    (readAny : Bool) :
    (∃ g, groups evs = [g] ∧ received evs = g ∧
      ws_read_available (evs ++ [.closed]) buffer readAny =
        (if readAny = true ∨ g ≠ [] then .data else .closed, buffer ++ g, [.closed])) ∨
    ∃ g status evs', groups evs = g :: groups evs' ∧ received evs = g ++ received evs' ∧
      StaysOpen evs' ∧ status ≠ .closed ∧
      ws_read_available (evs ++ [.closed]) buffer readAny =
        (status, buffer ++ g, evs' ++ [.closed]) := by
  induction evs generalizing buffer readAny with
  | nil =>
    refine .inl ⟨[], rfl, rfl, ?_⟩
    cases readAny <;> simp [ws_read_available]
  | cons r evs ih =>
    have htail : StaysOpen evs := fun r hr => h r (List.mem_cons_of_mem _ hr)
    cases r with
    | data b bs =>
      rcases ih htail (buffer ++ b :: bs) true with ⟨g, hg, hbytes, hread⟩ |
        ⟨g, status, evs', hg, hbytes, ho, hne, hread⟩
      · refine .inl ⟨b :: bs ++ g, by rw [groups, hg]; rfl, by rw [received, hbytes], ?_⟩
        rw [List.cons_append, ws_read_available, hread]
        simp
      · refine .inr ⟨b :: bs ++ g, status, evs', by rw [groups, hg]; rfl, ?_, ho, hne, ?_⟩
        · rw [received, hbytes, List.append_assoc]
        · rw [List.cons_append, ws_read_available, hread, List.append_assoc]
    | interrupted => exact ih htail buffer readAny
    | wouldBlock =>
      refine .inr ⟨[], if readAny then .data else .wouldBlock, evs, rfl, rfl, htail, ?_, ?_⟩
      · cases readAny <;> decide
      · rw [List.cons_append, ws_read_available, List.append_nil]
    | closed => exact absurd rfl (h _ List.mem_cons_self).1
    | failed => exact absurd rfl (h _ List.mem_cons_self).2

theorem groups_ne_nil (evs : List Recv) : groups evs ≠ [] := by
  induction evs with
  | nil => exact List.cons_ne_nil _ _
  | cons r evs ih => cases r <;> simp [groups, ih]

/-- The end of the stream alone closes the connection. -/
theorem ws_receive_async_closed (hopen : ws.is_open = true) {buffer : Bytes} {script : List Recv}
    (hread : ws_read_available ws.script ws.receive_buffer false = (.closed, buffer, script)) :
    ∃ ws', ws_receive_async ws = some (.connectionClosed, ws') ∧ ws'.is_open = false := by
  refine ⟨{ ws with receive_buffer := buffer, script := script, is_open := false }, ?_, rfl⟩
  rw [ws_receive_async, if_pos hopen, Loop.run]
  simp only [receiveRound, hread]
  rfl

theorem eq_nil_of_messages
    (hdata : ∀ f ∈ fs, f.mask = none ∧ (f.kind = .text ∨ f.kind = .binary))
    (h : fs.filterMap Frame.message = []) : fs = [] := by
  have hmap := (sum_frameSize hdata).2
  rw [h] at hmap
  exact List.map_eq_nil_iff.mp hmap.symm

theorem returns_closed_iff (hopen : ws.is_open = true) {buffer : Bytes} {script : List Recv}
    (hread : ws_read_available ws.script ws.receive_buffer false = (.closed, buffer, script))
    (hdata : ∀ f ∈ fs, f.mask = none ∧ (f.kind = .text ∨ f.kind = .binary)) :
    Returns ws fs ↔ fs = [] := by
  obtain ⟨ws', hcall, hclosed⟩ := ws_receive_async_closed hopen hread
  constructor
  · intro h
    rw [returns_iff_of_call fs hcall rfl] at h
    exact eq_nil_of_messages hdata (not_returns_of_closed hclosed h)
  · rintro rfl
    exact Returns.nil ws

/-- **The messages before a close** are returned if and only if one message a call is enough. -/
theorem returns_closing {evs : List Recv} {g : Bytes} {gs : List Bytes} (hgroups : groups evs = g :: gs)
    (hopen : ws.is_open = true) (hscript : ws.script = evs ++ [.closed]) (hstays : StaysOpen evs)
    (hbytes : ws.receive_buffer ++ received evs = stream fs) (hsmall : ∀ f ∈ fs, f.Small)
    (hdata : ∀ f ∈ fs, f.mask = none ∧ (f.kind = .text ∨ f.kind = .binary)) :
    Returns ws fs ↔
      fs.length ≤ served (g :: gs) ∧ KeepsUp fs (ws.receive_buffer.length + g.length) gs := by
  induction gs generalizing evs g ws fs with
  | nil =>
    rcases ws_read_available_groups hstays ws.receive_buffer false with ⟨g', hg, hall, hread⟩ |
      ⟨g', status, evs', hg, -⟩
    · obtain rfl : g = g' := (List.cons.inj (hgroups.symm.trans hg)).1
      rw [← hscript] at hread
      rw [hall] at hbytes
      simp only [served, KeepsUp, and_true]
      by_cases hnil : g = []
      · rw [if_neg (by simp [hnil])] at hread
        rw [returns_closed_iff hopen hread hdata, if_pos hnil, Nat.le_zero, List.length_eq_zero_iff]
      · rw [if_pos (.inr hnil)] at hread
        rw [if_neg hnil]
        -- Everything is in the buffer, and only one frame of it is taken.
        obtain ⟨r, ws', hcall, hopen', hscript', hcase⟩ := ws_receive_async_data hopen hread
          (by decide) ((List.append_nil _).trans hbytes) hsmall hdata
        rcases hcase with ⟨-, -, -, hdone⟩ | ⟨f, fs', rfl, hr, -, -⟩
        · obtain rfl := hdone rfl
          exact iff_of_true (Returns.nil ws) (Nat.zero_le _)
        · have hread' : ws_read_available ws'.script ws'.receive_buffer false =
              (.closed, ws'.receive_buffer, [.closed]) := by
            rw [hscript']
            rfl
          rw [returns_iff_of_call fs' hcall (by rw [hr, filterMap_message]),
            returns_closed_iff hopen' hread' fun f hm => hdata f (List.mem_cons_of_mem _ hm)]
          simp
    · exact absurd (List.cons.inj (hgroups.symm.trans hg)).2.symm (groups_ne_nil evs')
  | cons g' gs ih =>
    rcases ws_read_available_groups hstays ws.receive_buffer false with ⟨g'', hg, -⟩ |
      ⟨g'', status, evs', hg, hall, hstays', hne, hread⟩
    · exact absurd (List.cons.inj (hgroups.symm.trans hg)).2 (List.cons_ne_nil _ _)
    obtain ⟨rfl, hgs⟩ := List.cons.inj (hgroups.symm.trans hg)
    rw [← hscript] at hread
    rw [hall, ← List.append_assoc] at hbytes
    have hserved : served (g :: g' :: gs) = served (g' :: gs) + 1 := rfl
    rw [hserved, KeepsUp, ← List.length_append]
    obtain ⟨r, ws', hcall, hopen', hscript', hcase⟩ :=
      ws_receive_async_data hopen hread hne hbytes hsmall hdata
    rcases hcase with ⟨rfl, hb, hwait, -⟩ | ⟨f, fs', rfl, hr, hrest, hlen⟩
    · rw [← hb] at hbytes hwait ⊢
      rw [returns_iff_of_call fs hcall rfl,
        ih hgs.symm hopen' hscript' hstays' hbytes hsmall hdata, hwait]
      constructor
      · rintro ⟨h1, h2⟩
        exact ⟨by omega, h1, h2⟩
      · rintro ⟨-, h1, h2⟩
        exact ⟨h1, h2⟩
    · have hless := unfinished_le fs' ws'.receive_buffer.length
      rw [returns_iff_of_call fs' hcall (by rw [hr, filterMap_message]),
        ih hgs.symm hopen' hscript' hstays' hrest (fun f hm => hsmall f (List.mem_cons_of_mem _ hm))
          (fun f hm => hdata f (List.mem_cons_of_mem _ hm)),
        ← hlen, unfinished_add, Nat.add_assoc, keepsUp_add, List.length_cons]
      constructor
      · rintro ⟨h1, h2⟩
        exact ⟨by omega, by omega, h2⟩
      · rintro ⟨h1, -, h2⟩
        exact ⟨by omega, h2⟩

end Calls

/-! ### Sessions -/

theorem unfinished_zero (fs : List Frame) : unfinished fs 0 = fs.length := by
  cases fs with
  | nil => rfl
  | cons f fs =>
    rw [unfinished, if_neg, List.length_cons]
    exact not_le.mpr (List.length_pos_iff.mpr (bytes_ne_nil f))

/-- **When no message is lost.**  The messages of the server are all returned before a close is
reported if and only if none is too large, nothing of them comes with the end of the response, and,
if the server closes the connection, the calls that read before its end are enough for the frames
that arrive. -/
theorem allDelivered_iff (s : Session) (masks : ℕ → Mask) :
    s.AllDelivered masks ↔
      (∀ f ∈ s.frames, f.Small) ∧ s.early = [] ∧
        (s.closes = true → KeepsUp s.frames 0 (groups s.later)) := by
  have hreturns : s.AllDelivered masks ↔
      Returns ⟨[], true, false, s.rest, [], masks⟩ s.frames := by
    constructor
    · rintro ⟨ws, n, l, last, hconnect, hact, hl⟩
      rw [s.connect, Option.some.injEq] at hconnect
      subst hconnect
      exact ⟨n, l, last, hact, hl⟩
    · rintro ⟨n, l, last, hact, hl⟩
      exact ⟨_, n, l, last, s.connect masks, hact, hl⟩
  -- Without losses in the handshake, what arrives is what was sent.
  have hclosing : (∀ f ∈ s.frames, f.Small) → s.early = [] →
      (s.AllDelivered masks ↔ (s.closes = true → KeepsUp s.frames 0 (groups s.later))) := by
    intro hsmall hearly
    have hbytes : received s.later = stream s.frames := by
      rw [← s.early_append, hearly]
      rfl
    rw [hreturns]
    cases hcloses : s.closes with
    | false =>
      refine iff_of_true ?_ (fun hc => absurd hc (by decide))
      have hrest : s.rest = s.later := by
        rw [Session.rest, hcloses]
        exact List.append_nil _
      rw [hrest]
      have hreads : Reads ⟨[], true, false, s.later, [], masks⟩ _ [] s.frames :=
        .refl rfl s.stays hbytes
      obtain ⟨l, last, read, left, hact, hfs, hdel, hall⟩ :=
        activations_reads hsmall hreads (s.later.length + s.frames.length)
      rw [hall (Nat.le_refl _), List.append_nil] at hfs
      exact ⟨_, l, last, hact, by rw [hdel.messages, hfs]⟩
    | true =>
      obtain ⟨g, gs, hg⟩ := List.exists_cons_of_ne_nil (groups_ne_nil s.later)
      have hrest : s.rest = s.later ++ [.closed] := by
        rw [Session.rest, hcloses]
        rfl
      have hreturn : Returns ⟨[], true, false, s.rest, [], masks⟩ s.frames ↔ _ :=
        returns_closing hg rfl hrest s.stays hbytes hsmall s.data
      rw [hreturn, hg, KeepsUp, unfinished_zero]
      exact ⟨fun h _ => h, fun h => h rfl⟩
  constructor
  · intro h
    have hsmall := small_of_allDelivered h
    have hearly := early_of_allDelivered h
    exact ⟨hsmall, hearly, (hclosing hsmall hearly).mp h⟩
  · rintro ⟨hsmall, hearly, hkeeps⟩
    exact (hclosing hsmall hearly).mpr hkeeps

/-- A text of one letter that arrives together with the response. -/
def earlySession : Session where
  response := [49, 48, 49, 13, 10, 13, 10]
  frames := [⟨.text, [97], none⟩]
  first := [.data 49 [48, 49, 13, 10, 13, 10, 0x81, 1, 97]]
  later := []
  closes := false
  accepts := by decide
  ends := by
    refine ⟨by decide, fun part hpart => ?_⟩
    have hall : ∀ part ∈ ([49, 48, 49, 13, 10, 13, 10] : Bytes).inits,
        part ≠ [49, 48, 49, 13, 10, 13, 10] → ¬ responseEnd <:+: part := by decide
    exact hall part (List.mem_inits _ _ |>.mpr hpart)
  data := by simp
  blocking := by simp
  stays := by simp [StaysOpen]
  bytes := by decide
  whole := by decide
  needed := by decide

/-- The text that comes with the response is lost. -/
theorem not_allDelivered : ¬ ∀ (s : Session) (masks : ℕ → Mask), s.AllDelivered masks := by
  intro h
  have hearly := early_of_allDelivered (h earlySession fun _ => ⟨[0, 0, 0, 0], rfl⟩)
  exact absurd hearly (by decide)

end Net

end Jaci
