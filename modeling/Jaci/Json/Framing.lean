import Jaci.Json.TextRoundTrip
import Mathlib.Data.List.Infix

/-!
# Messages of the language server

A message is a header of lines, an empty line, and as many bytes as the header says.

* `MessageWriter.writeMessage`, `MessageReader.readFramedMessage` : the two directions;
* `readFramedMessage_writeMessage` : one message is read back, and the rest of the stream is left;
* `readMessages_writeMessages` : so is every sequence of messages, and then the stream ends.
-/

namespace Jaci

namespace Json

open Wire

/-- The bytes of a literal. -/
def text (s : String) : Bytes := s.toUTF8.data.toList

inductive TransportFormat where
  | textJson
  | binaryMsgPack
deriving DecidableEq

structure FramedMessage where
  payload : Bytes
  format : TransportFormat
deriving DecidableEq

/-! ### Streams -/

/-- `std::istream`: what is left to read, and whether no error or end was met so far. -/
structure IStream where
  rest : Bytes
  /-- Neither `eofbit` nor `failbit` is set. -/
  good : Bool
deriving DecidableEq

def lineFeed : UInt8 := 0x0a

def carriageReturn : UInt8 := 0x0d

/-- `std::getline`; none if the stream has failed then. -/
def getline (s : IStream) : Option Bytes × IStream :=
  if s.good = false ∨ s.rest = [] then (none, ⟨s.rest, false⟩)
  else
    match s.rest.dropWhile (· ≠ lineFeed) with
    | [] => (some (s.rest.takeWhile (· ≠ lineFeed)), ⟨[], false⟩)
    | _ :: rest => (some (s.rest.takeWhile (· ≠ lineFeed)), ⟨rest, true⟩)

/-- `istream::read`: the bytes that were read, `gcount` many. -/
def IStream.read (s : IStream) (n : ℕ) : Bytes × IStream :=
  if s.good = false then ([], ⟨s.rest, false⟩)
  else if n ≤ s.rest.length then (s.rest.take n, ⟨s.rest.drop n, true⟩)
  else (s.rest, ⟨[], false⟩)

/-! ### Writer and reader -/

def MessageWriter.writeMessage (content : Bytes) (format : TransportFormat) : Bytes :=
  (match format with
  | .binaryMsgPack => text "Content-Length: " ++ decimal content.length ++
      text "\r\nContent-Type: application/msgpack\r\n\r\n"
  | .textJson => text "Content-Length: " ++ decimal content.length ++ text "\r\n\r\n") ++ content

/-- `atoi`: the result of `strtol` as an `int`. -/
def atoi (s : Bytes) : ℤ := (Parser.strtoll s).toInt.bmod (2 ^ 32)

namespace MessageReader

/-- A line without the carriage return at its end. -/
def trim (line : Bytes) : Bytes :=
  if line.getLast? = some carriageReturn then line.dropLast else line

/-- The length after one line of the header. -/
def lengthOf (line : Bytes) (contentLength : ℤ) : ℤ :=
  if text "Content-Length: " <+: line then atoi (line.drop (text "Content-Length: ").length)
  else contentLength

/-- The format after one line of the header. -/
def formatOf (line : Bytes) (format : TransportFormat) : TransportFormat :=
  if text "Content-Type: " <+: line then
    let ct := line.drop (text "Content-Type: ").length
    if text "msgpack" <:+: ct ∨ text "binary-json" <:+: ct then .binaryMsgPack else format
  else format

/-- The loop over the lines of the header; none if the header ends without a length.  Each turn
reads at least one byte, so there are no more turns than bytes. -/
def readHeader : ℕ → IStream → ℤ → TransportFormat → Option (ℤ × TransportFormat) × IStream
  | 0, s, contentLength, format => (some (contentLength, format), s)
  | turns + 1, s, contentLength, format =>
    match getline s with
    | (none, s) => (some (contentLength, format), s)
    | (some line, s) =>
      let line := trim line
      if line = [] then
        if contentLength < 0 then (none, s) else (some (contentLength, format), s)
      else readHeader turns s (lengthOf line contentLength) (formatOf line format)

def readFramedMessage (s : IStream) : Option FramedMessage × IStream :=
  match readHeader (s.rest.length + 1) s (-1) .textJson with
  | (none, s) => (none, s)
  | (some (contentLength, format), s) =>
    if contentLength ≤ 0 then (none, s)
    else
      let (content, s) := s.read contentLength.toNat
      if content.length ≠ contentLength.toNat then (none, s) else (some ⟨content, format⟩, s)

end MessageReader

/-! ### Lines -/

section Lines

variable {line rest : Bytes}

theorem getline_cons (h : lineFeed ∉ line) :
    getline ⟨line ++ lineFeed :: rest, true⟩ = (some line, ⟨rest, true⟩) := by
  have hall : ∀ c ∈ line, (c ≠ lineFeed) := fun c hc e => h (e ▸ hc)
  have htake : (line ++ lineFeed :: rest).takeWhile (· ≠ lineFeed) = line := by
    rw [List.takeWhile_append_of_pos (by simpa using hall)]
    simp
  have hdrop : (line ++ lineFeed :: rest).dropWhile (· ≠ lineFeed) = lineFeed :: rest := by
    rw [List.dropWhile_append_of_pos (by simpa using hall)]
    simp
  rw [getline, if_neg (by simp)]
  simp only [hdrop, htake]

theorem trim_append (line : Bytes) : MessageReader.trim (line ++ [carriageReturn]) = line := by
  simp [MessageReader.trim]

/-- One line with its end. -/
theorem readHeader_line {turns : ℕ} {contentLength : ℤ} {format : TransportFormat}
    (h : lineFeed ∉ line) (hne : line ≠ []) :
    MessageReader.readHeader (turns + 1) ⟨line ++ text "\r\n" ++ rest, true⟩ contentLength format =
      MessageReader.readHeader turns ⟨rest, true⟩ (MessageReader.lengthOf line contentLength)
        (MessageReader.formatOf line format) := by
  have hsplit : line ++ text "\r\n" ++ rest = (line ++ [carriageReturn]) ++ lineFeed :: rest := by
    simp [show text "\r\n" = [carriageReturn, lineFeed] from rfl]
  have hcr : lineFeed ∉ line ++ [carriageReturn] := by
    rw [List.mem_append, not_or]
    exact ⟨h, by decide⟩
  rw [MessageReader.readHeader, hsplit, getline_cons hcr]
  simp only [trim_append, if_neg hne]

/-- The empty line. -/
theorem readHeader_empty {turns : ℕ} {contentLength : ℤ} {format : TransportFormat}
    (h : 0 ≤ contentLength) :
    MessageReader.readHeader (turns + 1) ⟨text "\r\n" ++ rest, true⟩ contentLength format =
      (some (contentLength, format), ⟨rest, true⟩) := by
  have hsplit : text "\r\n" ++ rest = [carriageReturn] ++ lineFeed :: rest := rfl
  rw [MessageReader.readHeader, hsplit, getline_cons (by decide)]
  have htrim : MessageReader.trim [carriageReturn] = [] := rfl
  simp only [htrim, if_true, if_neg (not_lt.mpr h)]

end Lines

/-! ### One message -/

theorem atoi_decimal {n : ℕ} (h : n < 2 ^ 31) : atoi (decimal n) = n := by
  have hint : (Int64.ofInt n).toInt = n := Int64.toInt_ofInt_of_le (by omega) (by omega)
  have hdec : decimal n = decimalInt (Int64.ofInt n).toInt := by
    rw [hint, decimalInt, if_neg (by omega), Int.natAbs_natCast]
  rw [atoi, hdec, Parser.strtoll_decimalInt, hint]
  exact Int.bmod_eq_of_le (by omega) (by omega)

theorem lineFeed_notMem_decimal (n : ℕ) : lineFeed ∉ decimal n := by
  intro h
  exact absurd (isDigit_of_mem_decimal h) (by decide)

/-- The line with the length. -/
theorem readHeader_length {turns n : ℕ} {rest : Bytes} (hn : n < 2 ^ 31) :
    MessageReader.readHeader (turns + 1)
        ⟨text "Content-Length: " ++ decimal n ++ text "\r\n" ++ rest, true⟩ (-1) .textJson =
      MessageReader.readHeader turns ⟨rest, true⟩ n .textJson := by
  have hfeed : lineFeed ∉ text "Content-Length: " ++ decimal n := by
    rw [List.mem_append, not_or]
    exact ⟨by decide, lineFeed_notMem_decimal n⟩
  have hlen : MessageReader.lengthOf (text "Content-Length: " ++ decimal n) (-1) = n := by
    rw [MessageReader.lengthOf, if_pos (List.prefix_append _ _), List.drop_left, atoi_decimal hn]
  -- a line that starts with one of the two words does not start with the other
  have hfmt : MessageReader.formatOf (text "Content-Length: " ++ decimal n) .textJson =
      .textJson := by
    rw [MessageReader.formatOf, if_neg]
    rintro ⟨t, ht⟩
    have h8 := congrArg (·[8]?) ht
    rw [show text "Content-Type: " = [0x43, 0x6f, 0x6e, 0x74, 0x65, 0x6e, 0x74, 0x2d, 0x54, 0x79,
      0x70, 0x65, 0x3a, 0x20] from rfl, show text "Content-Length: " = [0x43, 0x6f, 0x6e, 0x74,
      0x65, 0x6e, 0x74, 0x2d, 0x4c, 0x65, 0x6e, 0x67, 0x74, 0x68, 0x3a, 0x20] from rfl] at h8
    exact absurd h8 (by simp)
  rw [readHeader_line hfeed (List.append_ne_nil_of_left_ne_nil (by decide) _), hlen, hfmt]

/-- The line with the type. -/
theorem readHeader_type {turns : ℕ} {n : ℤ} {rest : Bytes} :
    MessageReader.readHeader (turns + 1)
        ⟨text "Content-Type: application/msgpack" ++ text "\r\n" ++ rest, true⟩ n .textJson =
      MessageReader.readHeader turns ⟨rest, true⟩ n .binaryMsgPack := by
  have hlen : MessageReader.lengthOf (text "Content-Type: application/msgpack") n = n := by
    rw [MessageReader.lengthOf, if_neg (by decide)]
  have hfmt : MessageReader.formatOf (text "Content-Type: application/msgpack") .textJson =
      .binaryMsgPack := by decide
  rw [readHeader_line (by decide) (by decide), hlen, hfmt]

theorem IStream.read_append (content rest : Bytes) :
    IStream.read ⟨content ++ rest, true⟩ content.length = (content, ⟨rest, true⟩) := by
  simp [IStream.read]

theorem writeMessage_length (content : Bytes) (format : TransportFormat) :
    2 ≤ (MessageWriter.writeMessage content format).length := by
  have h : (text "Content-Length: ").length = 16 := rfl
  cases format <;>
  · rw [MessageWriter.writeMessage]
    simp only [List.length_append, h]
    omega

/-- The header of a message is read. -/
theorem readHeader_writeMessage {content : Bytes} {format : TransportFormat}
    (hlt : content.length < 2 ^ 31) (rest : Bytes) (turns : ℕ) :
    MessageReader.readHeader (turns + 3)
        ⟨MessageWriter.writeMessage content format ++ rest, true⟩ (-1) .textJson =
      (some ((content.length : ℤ), format), ⟨content ++ rest, true⟩) := by
  cases format with
  | textJson =>
    have hw : MessageWriter.writeMessage content .textJson ++ rest = text "Content-Length: " ++
        decimal content.length ++ text "\r\n" ++ (text "\r\n" ++ (content ++ rest)) := by
      rw [MessageWriter.writeMessage, show text "\r\n\r\n" = text "\r\n" ++ text "\r\n" from rfl]
      simp only [List.append_assoc]
    rw [hw, readHeader_length hlt, readHeader_empty (by omega)]
  | binaryMsgPack =>
    have hw : MessageWriter.writeMessage content .binaryMsgPack ++ rest =
        text "Content-Length: " ++ decimal content.length ++ text "\r\n" ++
          (text "Content-Type: application/msgpack" ++ text "\r\n" ++
            (text "\r\n" ++ (content ++ rest))) := by
      rw [MessageWriter.writeMessage,
        show text "\r\nContent-Type: application/msgpack\r\n\r\n" = text "\r\n" ++
          text "Content-Type: application/msgpack" ++ text "\r\n" ++ text "\r\n" from rfl]
      simp only [List.append_assoc]
    rw [hw, readHeader_length hlt, readHeader_type, readHeader_empty (by omega)]

/-- One message is read back; what follows it is left in the stream. -/
theorem readFramedMessage_writeMessage {m : FramedMessage} (hpos : 1 ≤ m.payload.length)
    (hlt : m.payload.length < 2 ^ 31) (rest : Bytes) :
    MessageReader.readFramedMessage
        ⟨MessageWriter.writeMessage m.payload m.format ++ rest, true⟩ =
      (some m, ⟨rest, true⟩) := by
  have hlen := writeMessage_length m.payload m.format
  obtain ⟨turns, hturns⟩ :
      ∃ turns, (MessageWriter.writeMessage m.payload m.format ++ rest).length + 1 = turns + 3 := by
    refine ⟨(MessageWriter.writeMessage m.payload m.format ++ rest).length - 2, ?_⟩
    rw [List.length_append]
    omega
  rw [MessageReader.readFramedMessage]
  simp only [hturns, readHeader_writeMessage hlt]
  rw [if_neg (by omega)]
  simp only [Int.toNat_natCast, IStream.read_append]
  simp

/-! ### Sequences of messages -/

/-- Messages are written one after the other. -/
def writeMessages (ms : List FramedMessage) : Bytes :=
  ms.flatMap fun m => MessageWriter.writeMessage m.payload m.format

/-- So many messages are read one after the other. -/
def readMessages : ℕ → IStream → List (Option FramedMessage) × IStream
  | 0, s => ([], s)
  | n + 1, s =>
    let (m, s) := MessageReader.readFramedMessage s
    let (ms, s) := readMessages n s
    (m :: ms, s)

/-- At the end of the stream there is no message. -/
theorem readFramedMessage_end : (MessageReader.readFramedMessage ⟨[], true⟩).1 = none := by decide

/-- **Every sequence of messages is read back.**  The reader gets the payloads and formats in
order, whatever the bytes of the payloads are, and then no message. -/
theorem readMessages_writeMessages (ms : List FramedMessage)
    (h : ∀ m ∈ ms, 1 ≤ m.payload.length ∧ m.payload.length < 2 ^ 31) :
    (readMessages (ms.length + 1) ⟨writeMessages ms, true⟩).1 = ms.map some ++ [none] := by
  induction ms with
  | nil =>
    rw [writeMessages, List.flatMap_nil, List.length_nil, readMessages]
    simp only [readMessages, readFramedMessage_end, List.map_nil, List.nil_append]
  | cons m ms ih =>
    obtain ⟨hpos, hlt⟩ := h m List.mem_cons_self
    have hrest := ih fun m' hm' => h m' (List.mem_cons_of_mem m hm')
    have hw : writeMessages (m :: ms) =
        MessageWriter.writeMessage m.payload m.format ++ writeMessages ms := rfl
    rw [hw, List.length_cons, readMessages]
    simp only [readFramedMessage_writeMessage hpos hlt, hrest, List.map_cons, List.cons_append]

theorem readMessages_writeMessages_headers :
    (readMessages 3 ⟨writeMessages [⟨text "\r\n\r\nContent-Length: 7\r\n", .textJson⟩,
        ⟨[0x0a], .binaryMsgPack⟩], true⟩).1 =
      [some ⟨text "\r\n\r\nContent-Length: 7\r\n", .textJson⟩, some ⟨[0x0a], .binaryMsgPack⟩,
        none] :=
  readMessages_writeMessages [⟨text "\r\n\r\nContent-Length: 7\r\n", .textJson⟩,
    ⟨[0x0a], .binaryMsgPack⟩] (by decide)

end Json

end Jaci
