import Jaci.Net.Sessions
import Mathlib

/-!
# Fragmented messages

A peer may send a message as several frames: the first one has the opcode of the message, the others
have opcode 0, and the last one has the bit FIN.  Neither loop looks at the bit, and both skip a frame
with opcode 0.

* `Fragmented` : a message in fragments, with control frames between them;
* `Reassembled` : it is returned as one message, once;
* `Steady` : what the calls of one kind keep;
* `session_fragments` : only the first fragment is returned;
* `reassembled_iff` : **when the message is returned**;
* `two_fragments` : a message that is not.
-/

namespace Jaci

namespace Net

open Wire

/-! ### Fragments -/

/-- The payload of a frame, and how it is masked. -/
structure Fragment where
  payload : Bytes
  mask : Option Mask
  fits : payload.length < 2 ^ 63

/-- A ping or a pong between two fragments. -/
structure Control where
  ping : Bool
  payload : Bytes
  mask : Option Mask
  /-- The payload of a control frame has at most 125 bytes. -/
  short : payload.length ≤ 125

/-- The bytes of a control frame. -/
def Control.bytes (c : Control) : Bytes :=
  wireFrame (0x80 ||| if c.ping then 0x09 else 0x0a) c.payload c.mask

/-- The first byte of a fragment. -/
def fragmentByte (fin : Bool) (opcode : UInt8) : UInt8 := (if fin then 0x80 else 0) ||| opcode

/-- The bytes of the later fragments, each after its control frames. -/
def continuation : List (List Control × Fragment) → Bytes
  | [] => []
  | (cs, f) :: rest =>
    cs.flatMap Control.bytes ++
      (wireFrame (fragmentByte rest.isEmpty 0x00) f.payload f.mask ++ continuation rest)

/-- A message in fragments. -/
structure Fragmented where
  binary : Bool
  first : Fragment
  /-- The later fragments, each with the control frames before it. -/
  rest : List (List Control × Fragment)

namespace Fragmented

/-- The opcode of the message. -/
def opcode (m : Fragmented) : UInt8 := if m.binary then 0x02 else 0x01

/-- The bytes that are sent. -/
def bytes (m : Fragmented) : Bytes :=
  wireFrame (fragmentByte m.rest.isEmpty m.opcode) m.first.payload m.first.mask ++
    continuation m.rest

def whole (m : Fragmented) : Bytes :=
  m.first.payload ++ m.rest.flatMap fun p => p.2.payload

/-- The bytes are what arrives on a connection that stays open. -/
structure Arrives (m : Fragmented) (ws : WebSocket) : Prop where
  is_open : ws.is_open = true
  empty : ws.receive_buffer = []
  plain : Plain ws.script
  stays : StaysOpen ws.script
  bytes : received ws.script = m.bytes

/-- However its bytes arrive, calls of either kind return the message, once. -/
def Reassembled (m : Fragmented) : Prop :=
  ∀ (mode : Mode) (ws : WebSocket) (n : ℕ), m.Arrives ws →
    ∃ l, session (List.replicate (n + 1) mode) ws = some l ∧
      returnedMessages l = [(m.whole, m.binary)]

/-- The later fragments are empty, and the first one has at most 16 MiB. -/
def OnlyFirst (m : Fragmented) : Prop :=
  (∀ p ∈ m.rest, p.2.payload = []) ∧ m.first.payload.length ≤ 16 * 1024 * 1024

end Fragmented

/-! ### What the calls of one kind keep -/

/-- What is left of a stream after some frames. -/
inductive Remainder : Bytes → Bytes → Prop where
  | refl (bs : Bytes) : Remainder bs bs
  | frame {bs payload rest last : Bytes} {opcode : UInt8}
      (h : ws_parse bs = .frame opcode payload rest) (hrest : Remainder rest last) :
    Remainder bs last

/-- No frame of the stream is too large. -/
def AllSmall (bs : Bytes) : Prop := ∀ last, Remainder bs last → ws_parse last ≠ .tooLarge

variable {bs rest payload : Bytes} {opcode : UInt8} {n : ℕ} {ws ws' : WebSocket} {mode mode' : Mode}
  {m : Fragmented}

theorem AllSmall.frame (h : AllSmall bs) (hparse : ws_parse bs = .frame opcode payload rest) :
    AllSmall rest := fun last hlast => h last (.frame hparse hlast)

theorem allSmall_of_wait (h : ws_parse bs = .wait) : AllSmall bs := by
  intro last hlast
  cases hlast with
  | refl => simp [h]
  | frame hparse _ =>
    rw [h] at hparse
    cases hparse

theorem allSmall_cons (h : ws_parse bs = .frame opcode payload rest) (hrest : AllSmall rest) :
    AllSmall bs := by
  intro last hlast
  cases hlast with
  | refl => simp [h]
  | frame hparse hlast' =>
    obtain ⟨-, -, rfl⟩ := Parsed.frame.inj (h.symm.trans hparse)
    exact hrest last hlast'

/-- A connection that stays open, with frames that are not too large, and with nothing in the buffer
where the calls block. -/
structure Steady (mode : Mode) (ws : WebSocket) : Prop where
  plain : Plain ws.script
  stays : mode = .async → StaysOpen ws.script
  small : AllSmall ws.bytes
  empty : mode = .blocking → ws.receive_buffer = []

theorem Steady.finds (h : Steady mode ws) : FindsStream mode ws := by
  refine ⟨h.small _ (.refl _), h.empty, fun hm hlast => ?_⟩
  exact absurd rfl (h.stays hm _ (List.mem_of_head? hlast)).1

/-- The state that a round ends in. -/
def Round.state : Round → WebSocket
  | .inl ws => ws
  | .inr (_, ws) => ws

theorem handleFrame_state (ws : WebSocket) (opcode : UInt8) (payload : Bytes) :
    (Round.state (handleFrame ws opcode payload)).script = ws.script ∧
      (Round.state (handleFrame ws opcode payload)).receive_buffer = ws.receive_buffer := by
  rw [handleFrame]
  split_ifs
  · exact ⟨rfl, rfl⟩
  · exact ⟨(pong_same ws payload).2.1, (pong_same ws payload).2.2⟩
  · exact ⟨rfl, rfl⟩
  · exact ⟨rfl, rfl⟩
  · exact ⟨rfl, rfl⟩

theorem blockingRound_steady (h : Steady .blocking ws) :
    Steady .blocking (Round.state (blockingRound ws)) := by
  have hempty := h.empty rfl
  have hbytes : ws.bytes = received ws.script := by rw [WebSocket.bytes, hempty]; rfl
  have htakes := blockingRound_takes h.plain
  rw [← hbytes] at htakes
  have hasync : Mode.blocking = .async → ∀ P : Prop, P := fun hm => by cases hm
  cases hparse : ws_parse ws.bytes with
  | tooLarge => exact absurd hparse (h.small _ (.refl _))
  | wait =>
    rw [hparse] at htakes
    obtain ⟨r, ws', hround, -, hplain, hnil, hbuffer⟩ := htakes
    rw [hround]
    refine ⟨hplain, fun hm => hasync hm _, ?_, fun _ => hbuffer.trans hempty⟩
    rw [Round.state, WebSocket.bytes, hbuffer, hempty, hnil]
    exact allSmall_of_wait rfl
  | frame opcode payload rest =>
    rw [hparse] at htakes
    obtain ⟨script', hplain, rfl, hround⟩ := htakes
    obtain ⟨hscript, hbuffer⟩ := handleFrame_state { ws with script := script' } opcode payload
    rw [hround]
    refine ⟨hscript ▸ hplain, fun hm => hasync hm _, ?_, fun _ => hbuffer.trans hempty⟩
    rw [WebSocket.bytes, hscript, hbuffer, hempty]
    exact h.small.frame hparse

theorem asyncRound_steady (h : Steady .async ws) {r : Round} (hround : asyncRound ws = some r) :
    Steady .async (Round.state r) := by
  obtain ⟨status, buffer, script, hread, hplain, hbytes, -⟩ :=
    ws_read_available_plain h.plain ws.receive_buffer false
  obtain ⟨status', buffer', script', hread', hopen, hstays, -⟩ :=
    ws_read_available_open (h.stays rfl) ws.receive_buffer false
  obtain ⟨rfl, rfl, rfl⟩ : status = status' ∧ buffer = buffer' ∧ script = script' := by
    simpa only [Prod.mk.injEq] using hread.symm.trans hread'
  have hall : buffer ++ received script = ws.bytes := hbytes
  have hblocking : Mode.async = .blocking → ∀ P : Prop, P := fun hm => by cases hm
  rw [asyncRound_eq hread, if_neg hopen] at hround
  obtain rfl := Option.some.inj hround
  cases hparse : ws_parse buffer with
  | tooLarge =>
    have hlarge := ws_parse_tooLarge_append hparse (received script)
    rw [hall] at hlarge
    exact absurd hlarge (h.small _ (.refl _))
  | wait =>
    have hsame : AllSmall (buffer ++ received script) := hall ▸ h.small
    dsimp only
    split_ifs
    · exact ⟨hplain, fun _ => hstays, hsame, fun hm => hblocking hm _⟩
    · exact ⟨hplain, fun _ => hstays, hsame, fun hm => hblocking hm _⟩
  | frame opcode payload rest =>
    have hframe := ws_parse_append hparse (received script)
    rw [hall] at hframe
    obtain ⟨hscript, hbuffer⟩ :=
      handleFrame_state { ws with receive_buffer := rest, script := script } opcode payload
    dsimp only
    refine ⟨hscript ▸ hplain, fun _ => hscript ▸ hstays, ?_, fun hm => hblocking hm _⟩
    rw [WebSocket.bytes, hscript, hbuffer]
    exact h.small.frame hframe

theorem round_steady (h : Steady mode ws) {r : Round} (hround : mode.round ws = some r) :
    Steady mode r.state := by
  cases mode with
  | async => exact asyncRound_steady h hround
  | blocking =>
    obtain rfl := Option.some.inj hround
    exact blockingRound_steady h

/-- **Calls of one kind find the stream.** -/
theorem clean_of_steady (h : Steady mode ws) (n : ℕ) : Clean (List.replicate n mode) ws := by
  intro mode' ws' hstarts
  generalize hmodes : List.replicate n mode = modes at hstarts
  induction hstarts generalizing n with
  | first _ =>
    cases n with
    | zero => cases hmodes
    | succ n =>
      obtain ⟨rfl, -⟩ := List.cons.inj hmodes
      exact h.finds
  | round _ hround _ ih =>
    cases n with
    | zero => cases hmodes
    | succ n =>
      obtain ⟨rfl, hmodes'⟩ := List.cons.inj hmodes
      exact ih (round_steady h hround) (n + 1) (by rw [List.replicate_succ, hmodes'])
  | next _ hround _ _ ih =>
    cases n with
    | zero => cases hmodes
    | succ n =>
      obtain ⟨rfl, hmodes'⟩ := List.cons.inj hmodes
      exact ih (round_steady h hround) n hmodes'

/-! ### What the calls return -/

theorem fragmentByte_opcode (fin : Bool) : fragmentByte fin 0x00 &&& 0x0f = 0x00 ∧
    fragmentByte fin 0x01 &&& 0x0f = 0x01 ∧ fragmentByte fin 0x02 &&& 0x0f = 0x02 := by
  cases fin <;> decide

/-- Later fragments and control frames are skipped. -/
theorem ws_parse_control (c : Control) (rest : Bytes) :
    ∃ opcode, ws_parse (c.bytes ++ rest) = .frame opcode c.payload rest ∧
      (opcode = 0x09 ∨ opcode = 0x0a) := by
  have hsmall : c.payload.length ≤ 16 * 1024 * 1024 := c.short.trans (by decide)
  refine ⟨_, ws_parse_wireFrame _ hsmall c.mask rest, ?_⟩
  cases c.ping
  · exact .inr (by decide)
  · exact .inl (by decide)

theorem controls_skipped (cs : List Control) (h : NoNext rest ∧ AllSmall rest) :
    NoNext (cs.flatMap Control.bytes ++ rest) ∧ AllSmall (cs.flatMap Control.bytes ++ rest) := by
  induction cs with
  | nil => exact h
  | cons c cs ih =>
    obtain ⟨opcode, hparse, hopcode⟩ := ws_parse_control c (cs.flatMap Control.bytes ++ rest)
    rw [List.flatMap_cons, List.append_assoc]
    have hdata : ¬ IsData opcode := by rcases hopcode with rfl | rfl <;> rw [IsData] <;> decide
    have hclose : opcode ≠ 0x08 := by rcases hopcode with rfl | rfl <;> decide
    exact ⟨fun m last hnext => ih.1 m last ((next_skip_iff hparse hdata hclose).2 hnext),
      allSmall_cons hparse ih.2⟩

/-- The later fragments are no messages. -/
theorem continuation_skipped {rest : List (List Control × Fragment)}
    (h : ∀ p ∈ rest, p.2.payload.length ≤ 16 * 1024 * 1024) :
    NoNext (continuation rest) ∧ AllSmall (continuation rest) := by
  induction rest with
  | nil =>
    refine ⟨noNext_of_parse fun _ _ _ hparse => ?_, allSmall_of_wait rfl⟩
    cases hparse
  | cons p rest ih =>
    obtain ⟨cs, f⟩ := p
    obtain ⟨hnone, hsmall⟩ := ih fun q hq => h q (List.mem_cons_of_mem _ hq)
    have hparse := ws_parse_wireFrame (fragmentByte rest.isEmpty 0x00)
      (h (cs, f) List.mem_cons_self) f.mask (continuation rest)
    rw [(fragmentByte_opcode rest.isEmpty).1] at hparse
    have hdata : ¬ IsData 0x00 := by rw [IsData]; decide
    exact controls_skipped cs
      ⟨fun m last hnext => hnone m last ((next_skip_iff hparse hdata (by decide)).2 hnext),
        allSmall_cons hparse hsmall⟩

theorem ws_parse_first (m : Fragmented) (h : m.first.payload.length ≤ 16 * 1024 * 1024) :
    ws_parse m.bytes = .frame m.opcode m.first.payload (continuation m.rest) := by
  have hparse := ws_parse_wireFrame (fragmentByte m.rest.isEmpty m.opcode) h m.first.mask
    (continuation m.rest)
  have hopcode : fragmentByte m.rest.isEmpty m.opcode &&& 0x0f = m.opcode := by
    rw [Fragmented.opcode]
    cases m.binary
    · exact (fragmentByte_opcode _).2.1
    · exact (fragmentByte_opcode _).2.2
  rwa [hopcode] at hparse

theorem opcode_isData (m : Fragmented) :
    IsData m.opcode ∧ decide (m.opcode = 0x02) = m.binary := by
  rw [Fragmented.opcode]
  cases m.binary
  · exact ⟨.inl rfl, by decide⟩
  · exact ⟨.inr rfl, by decide⟩

/-- **Only the first fragment is returned.** -/
theorem session_fragments (hsmall : ∀ p ∈ m.rest, p.2.payload.length ≤ 16 * 1024 * 1024)
    (hfirst : m.first.payload.length ≤ 16 * 1024 * 1024) (harrives : m.Arrives ws) (mode : Mode)
    (n : ℕ) :
    ∃ l, session (List.replicate (n + 1) mode) ws = some l ∧
      returnedMessages l = [(m.first.payload, m.binary)] := by
  have hbytes : ws.bytes = m.bytes := by
    rw [WebSocket.bytes, harrives.empty, harrives.bytes]
    rfl
  have hparse := ws_parse_first m hfirst
  obtain ⟨hnone, hrest⟩ := continuation_skipped hsmall
  have hsteady : Steady mode ws :=
    ⟨harrives.plain, fun _ => harrives.stays, hbytes ▸ allSmall_cons hparse hrest,
      fun _ => harrives.empty⟩
  obtain ⟨l, hl, hdelivers⟩ :=
    session_delivers harrives.is_open harrives.plain (clean_of_steady hsteady (n + 1))
  refine ⟨l, hl, ?_⟩
  have hnext : Next m.bytes (m.first.payload, m.binary) (continuation m.rest) := by
    obtain ⟨hdata, hbinary⟩ := opcode_isData m
    rw [← hbinary]
    exact .message hparse hdata
  have hlast : Delivers n (continuation m.rest) [] := by
    cases n with
    | zero => exact .zero
    | succ n => exact .none hnone
  rw [List.length_replicate, hbytes] at hdelivers
  exact hdelivers.unique (.next hnext hlast)

/-! ### When the message is returned -/

/-- A call of one round. -/
theorem session_single {r : Returned} (hopen : ws.is_open = true)
    (hround : mode.round ws = some (.inr (r, ws'))) : session [mode] ws = some [r] := by
  have hcall : call mode ws = some (r, ws') := by
    rw [call, if_pos hopen, Loop.run, hround]
    rfl
  rw [session, hcall, Option.bind_some]
  dsimp only
  by_cases hr : r = .waits
  · rw [if_pos hr, hr]
  · rw [if_neg hr]
    rfl

theorem length_mask : ([0, 0, 0, 0] : Bytes).length = 4 := rfl

/-- A connection on which bytes arrive together. -/
def together (b : UInt8) (bs : Bytes) : WebSocket :=
  ⟨[], true, false, [.data b bs], [], fun _ => ⟨[0, 0, 0, 0], length_mask⟩⟩

/-- What the first call returns when all bytes arrive together. -/
theorem session_together {b : UInt8} {bs : Bytes} (hbytes : m.bytes = b :: bs) :
    session [.async] (together b bs) =
      some [if m.first.payload.length ≤ 16 * 1024 * 1024 then .message m.first.payload m.binary
        else .error] := by
  have hread : ws_read_available (together b bs).script (together b bs).receive_buffer false =
      (.data, m.bytes, []) := by
    rw [hbytes]
    rfl
  have hround := asyncRound_eq hread
  rw [if_neg (by decide)] at hround
  split_ifs with hsmall
  · rw [ws_parse_first m hsmall] at hround
    obtain ⟨hdata, hbinary⟩ := opcode_isData m
    dsimp only at hround
    have hne : m.opcode ≠ 0x08 ∧ m.opcode ≠ 0x09 ∧ m.opcode ≠ 0x0a := by
      rcases hdata with hdata | hdata <;> rw [hdata] <;> decide
    rw [handleFrame, if_neg hne.1, if_neg hne.2.1, if_neg hne.2.2] at hround
    rw [if_pos (show m.opcode = 0x01 ∨ m.opcode = 0x02 from hdata), hbinary] at hround
    exact session_single rfl hround
  · have hlen : m.first.payload.length < 256 ^ 8 := m.first.fits.trans (by decide)
    have hlarge := ws_parse_large (fragmentByte m.rest.isEmpty m.opcode) (Nat.not_le.1 hsmall) hlen
      m.first.mask (continuation m.rest)
    have hparse : ws_parse m.bytes = .tooLarge := hlarge
    rw [hparse] at hround
    exact session_single rfl hround

theorem whole_eq_first_iff (m : Fragmented) :
    m.whole = m.first.payload ↔ ∀ p ∈ m.rest, p.2.payload = [] := by
  rw [Fragmented.whole, List.append_right_eq_self, List.flatMap_eq_nil_iff]

/-- **The message is returned** exactly if the fragments after the first one are empty, and the first
one is not too large. -/
theorem reassembled_iff (m : Fragmented) : m.Reassembled ↔ m.OnlyFirst := by
  constructor
  · intro h
    obtain ⟨b, bs, hbytes⟩ : ∃ b bs, m.bytes = b :: bs := ⟨_, _, rfl⟩
    have harrives : m.Arrives (together b bs) := by
      refine ⟨rfl, rfl, .data _ _ .nil, ?_, ?_⟩
      · simp [StaysOpen, together]
      · rw [hbytes]
        exact List.append_nil _
    obtain ⟨l, hl, hmessages⟩ := h .async (together b bs) 0 harrives
    obtain rfl := Option.some.inj ((session_together hbytes).symm.trans hl)
    split_ifs at hmessages with hsmall
    · have hwhole : m.first.payload = m.whole := by
        simpa [returnedMessages, Returned.toMessage] using hmessages
      exact ⟨(whole_eq_first_iff m).1 hwhole.symm, hsmall⟩
    · cases hmessages
  · rintro ⟨hempty, hfirst⟩ mode ws n harrives
    obtain ⟨l, hl, hmessages⟩ := session_fragments
      (fun p hp => by rw [hempty p hp]; exact Nat.zero_le _) hfirst harrives mode n
    exact ⟨l, hl, by rw [hmessages, (whole_eq_first_iff m).2 hempty]⟩

/-- A text in two fragments. -/
def twoFragments : Fragmented where
  binary := false
  first := ⟨[97], none, by decide⟩
  rest := [([], ⟨[98], none, by decide⟩)]

/-- The second fragment is dropped. -/
theorem two_fragments : ¬ ∀ m : Fragmented, m.Reassembled := by
  intro h
  obtain ⟨l, hl, hmessages⟩ := h twoFragments .async (together 0x01 [1, 97, 0x80, 1, 98]) 0
    ⟨rfl, rfl, .data _ _ .nil, by simp [StaysOpen, together], by decide⟩
  have hsession : session [.async] (together 0x01 [1, 97, 0x80, 1, 98]) =
      some [.message [97] false] := by
    decide
  obtain rfl := Option.some.inj (hl.symm.trans hsession)
  exact absurd hmessages (by decide)

end Net

end Jaci
