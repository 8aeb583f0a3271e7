import Jaci.Lib.Loop
import Jaci.Lib.Wire

/-!
# The lexer

`Lexer` divides a buffer into lexemes.  Offsets, lines and columns are 32-bit numbers; the size of
the buffer is not bounded.  A loop that does not end within as many rounds as the buffer has bytes,
and one more, has no result: it goes on for ever.

* `Lexeme`, `AstNameTable`, `Lexer` : the data;
* `readNext` : the next lexeme;
* `next` : white space is skipped before it, and comments on demand.
-/

namespace Jaci

namespace Ast

open Wire

/-- The byte of a character. -/
def byte (c : Char) : UInt8 := c.toUInt8

def quote : UInt8 := 0x22

def apostrophe : UInt8 := 0x27

def backslash : UInt8 := 0x5c

def backtick : UInt8 := 0x60

def openBrace : UInt8 := 0x7b

def closeBrace : UInt8 := 0x7d

/-! ### Lexemes -/

structure Position where
  line : UInt32
  column : UInt32
deriving DecidableEq, Inhabited

structure Location where
  begin : Position
  end_ : Position
deriving DecidableEq, Inhabited

/-- A location on one line. -/
def Location.ofLength (begin : Position) (length : UInt32) : Location :=
  ⟨begin, { begin with column := begin.column + length }⟩

/-- `Lexeme::Type`. -/
inductive LexemeType where
  | Eof
  | char (c : UInt8)
  | Equal | LessEqual | GreaterEqual | NotEqual | Dot2 | Dot3 | SkinnyArrow | DoubleColon | FloorDiv
  | InterpStringBegin | InterpStringMid | InterpStringEnd | InterpStringSimple
  | AddAssign | SubAssign | MulAssign | DivAssign | FloorDivAssign | ModAssign | PowAssign
  | ConcatAssign
  | RawString | QuotedString | Number | Name | Comment | BlockComment | Attribute | AttributeOpen
  | BrokenString | BrokenComment | BrokenUnicode | BrokenInterpDoubleBrace | Error
  | ReservedAnd | ReservedBreak | ReservedDo | ReservedElse | ReservedElseif | ReservedEnd
  | ReservedFalse | ReservedFor | ReservedFunction | ReservedIf | ReservedIn | ReservedLocal
  | ReservedNil | ReservedNot | ReservedOr | ReservedRepeat | ReservedReturn | ReservedThen
  | ReservedTrue | ReservedUntil | ReservedWhile | ReservedAwait
deriving DecidableEq

/-- The type of a character; that of the character 0 is `Eof`. -/
def LexemeType.ofChar (c : UInt8) : LexemeType := if c = 0 then .Eof else .char c

/-- The union of a lexeme. -/
inductive LexemeData where
  | data (offset : Option UInt32)
  | name (name : Option Bytes)
  | codepoint (codepoint : UInt32)
deriving DecidableEq

structure Lexeme where
  type : LexemeType
  location : Location
  length : UInt32 := 0
  data : LexemeData := .data none
deriving DecidableEq

/-! ### Names -/

def kReserved : List (String × LexemeType) :=
  [("and", .ReservedAnd), ("break", .ReservedBreak), ("do", .ReservedDo), ("else", .ReservedElse),
    ("elseif", .ReservedElseif), ("end", .ReservedEnd), ("false", .ReservedFalse),
    ("for", .ReservedFor), ("function", .ReservedFunction), ("if", .ReservedIf),
    ("in", .ReservedIn), ("local", .ReservedLocal), ("nil", .ReservedNil), ("not", .ReservedNot),
    ("or", .ReservedOr), ("repeat", .ReservedRepeat), ("return", .ReservedReturn),
    ("then", .ReservedThen), ("true", .ReservedTrue), ("until", .ReservedUntil),
    ("while", .ReservedWhile), ("await", .ReservedAwait)]

structure AstNameTable where
  entries : List (Bytes × LexemeType)
  notEof : ∀ e ∈ entries, e.2 ≠ .Eof

namespace AstNameTable

/-- The table with the reserved words. -/
def reserved : AstNameTable where
  entries := kReserved.map fun (word, type) => (word.toList.map Char.toUInt8, type)
  notEof := by decide

def find (names : AstNameTable) (name : Bytes) : Option (Bytes × LexemeType) :=
  names.entries.find? fun e => e.1 = name

/-- The type of a new name. -/
def newType (name : Bytes) : LexemeType :=
  if name.head? = some (byte '@') then .Attribute else .Name

theorem newType_ne (name : Bytes) : newType name ≠ .Eof := by
  rw [newType]
  split_ifs <;> decide

def getOrAddWithType (names : AstNameTable) (name : Bytes) :
    AstNameTable × Option Bytes × LexemeType :=
  match names.find name with
  | some e => (names, some e.1, e.2)
  | none => (⟨names.entries ++ [(name, newType name)], by
      intro e he
      rcases List.mem_append.1 he with he | he
      · exact names.notEof e he
      · rw [List.mem_singleton.1 he]
        exact newType_ne name⟩, some name, newType name)

def getWithType (names : AstNameTable) (name : Bytes) : Option Bytes × LexemeType :=
  match names.find name with
  | some e => (some e.1, e.2)
  | none => (none, .Name)

end AstNameTable

/-! ### Characters -/

def isSpace (c : UInt8) : Bool :=
  c = byte ' ' || c = byte '\t' || c = byte '\r' || c = byte '\n' || c = 11 || c = 12

def isAlpha (c : UInt8) : Bool :=
  (byte 'a' ≤ c && c ≤ byte 'z') || (byte 'A' ≤ c && c ≤ byte 'Z')

def isDigit (c : UInt8) : Bool := byte '0' ≤ c && c ≤ byte '9'

def isIdentChar (c : UInt8) : Bool := isAlpha c || isDigit c || c = byte '_'

def isNewline (c : UInt8) : Bool := c = byte '\n'

/-! ### The state -/

inductive BraceType where
  | InterpolatedString | Normal
deriving DecidableEq

structure Lexer where
  buffer : Bytes
  offset : UInt32
  line : UInt32
  lineOffset : UInt32
  lexeme : Lexeme
  prevLocation : Location
  names : AstNameTable
  readNames : Bool
  braceStack : List BraceType

namespace Lexer

def new (buffer : Bytes) (names : AstNameTable) (startPosition : Position) (readNames : Bool) :
    Lexer where
  buffer := buffer
  offset := 0
  line := startPosition.line
  lineOffset := 0 - startPosition.column
  lexeme := ⟨.Eof, .ofLength startPosition 0, 0, .data none⟩
  prevLocation := default
  names := names
  readNames := readNames
  braceStack := []

variable (s : Lexer)

def bufferSize : ℕ := s.buffer.length

/-- The rounds of a loop: in each a byte is consumed. -/
def rounds : ℕ := s.bufferSize + 1

/-- `buffer[offset]`. -/
def at_ (offset : ℕ) : UInt8 := s.buffer.getD offset 0

/-- `peekch()`; it is 0 at the end. -/
def peekch : UInt8 := if s.offset.toNat < s.bufferSize then s.at_ s.offset.toNat else 0

/-- `peekch(lookahead)`. -/
def peekchAt (lookahead : UInt32) : UInt8 :=
  if (s.offset + lookahead).toNat < s.bufferSize then s.at_ (s.offset + lookahead).toNat else 0

def position : Position := ⟨s.line, s.offset - s.lineOffset⟩

def consume : Lexer := { s with offset := s.offset + 1 }

/-- A byte that ends a line is consumed. -/
def newline : Lexer :=
  { s with offset := s.offset + 1, line := s.line + 1, lineOffset := s.offset + 1 }

def consumeAny : Lexer := if isNewline (s.at_ s.offset.toNat) then s.newline else s.consume

/-- The lexeme from `start` to the offset. -/
def upTo (start : Position) (type : LexemeType) (data : LexemeData := .data none)
    (length : UInt32 := 0) : Lexeme := ⟨type, ⟨start, s.position⟩, length, data⟩

/-- The lexeme from `start` to the offset, with the bytes from `startOffset` to `endOffset`. -/
def slice (start : Position) (type : LexemeType) (startOffset endOffset : UInt32) : Lexeme :=
  s.upTo start type (.data (some startOffset)) (endOffset - startOffset)

/-- A lexeme of given length that is not in the buffer. -/
def token (start : Position) (length : UInt32) (type : LexemeType) : Lexeme :=
  ⟨type, .ofLength start length, 0, .data none⟩

/-! ### Comments and strings -/

/-- The rest of a line is consumed. -/
def skipLine : Option Lexer :=
  Loop.run (fun s : Lexer =>
    if s.peekch ≠ 0 ∧ s.peekch ≠ byte '\r' ∧ ¬isNewline s.peekch then some (.inl s.consume)
    else some (.inr s)) s.rounds s

/-- The number of equal signs after the offset, which are consumed. -/
def skipEquals : Option (Lexer × ℤ) :=
  Loop.run (fun (s, count) =>
    if s.peekch = byte '=' then some (.inl (s.consume, count + 1)) else some (.inr (s, count)))
    s.rounds (s, 0)

def skipLongSeparator : Option (Lexer × ℤ) :=
  let start := s.peekch
  s.consume.skipEquals.map fun (s, count) =>
    if start = s.peekch then (s, count) else (s, -count - 1)

def readLongString (start : Position) (sep : ℤ) (ok broken : LexemeType) :
    Option (Lexer × Lexeme) :=
  let s := s.consume
  let startOffset := s.offset
  Loop.run (fun s : Lexer =>
    if s.peekch = 0 then some (.inr (s, s.upTo start broken))
    else if s.peekch = byte ']' then
      s.skipLongSeparator.map fun (s, found) =>
        if found = sep then
          let s := s.consume
          let endOffset := s.offset - UInt32.ofInt sep - 2
          .inr (s, s.slice start ok startOffset endOffset)
        else .inl s
    else some (.inl s.consumeAny)) s.rounds s

def readCommentBody : Option (Lexer × Lexeme) :=
  let start := s.position
  let s := s.consume.consume
  let startOffset := s.offset
  let line (s : Lexer) := s.skipLine.map fun s =>
    (s, s.slice start .Comment startOffset s.offset)
  if s.peekch = byte '[' then
    s.skipLongSeparator.bind fun (s, sep) =>
      if sep ≥ 0 then s.readLongString start sep .BlockComment .BrokenComment else line s
  else line s

/-- The white space after `\z` is consumed. -/
def skipSpaces : Option Lexer :=
  Loop.run (fun s : Lexer => if isSpace s.peekch then some (.inl s.consumeAny) else some (.inr s))
    s.rounds s

def readBackslashInString : Option Lexer :=
  let s := s.consume
  if s.peekch = byte '\r' then
    let s := s.consume
    some (if s.peekch = byte '\n' then s.consumeAny else s)
  else if s.peekch = 0 then some s
  else if s.peekch = byte 'z' then s.consume.skipSpaces
  else some s.consumeAny

def readQuotedString : Option (Lexer × Lexeme) :=
  let start := s.position
  let delimiter := s.peekch
  let s := s.consume
  let startOffset := s.offset
  Loop.run (fun s : Lexer =>
    if s.peekch = delimiter then
      let s := s.consume
      some (.inr (s, s.slice start .QuotedString startOffset (s.offset - 1)))
    else if s.peekch = 0 ∨ s.peekch = byte '\r' ∨ s.peekch = byte '\n' then
      some (.inr (s, s.upTo start .BrokenString))
    else if s.peekch = backslash then s.readBackslashInString.map .inl
    else some (.inl s.consume)) s.rounds s

def readInterpolatedStringSection (start : Position) (formatType endType : LexemeType) :
    Option (Lexer × Lexeme) :=
  let startOffset := s.offset
  Loop.run (fun s : Lexer =>
    if s.peekch = backtick then
      let s := s.consume
      some (.inr (s, s.slice start endType startOffset (s.offset - 1)))
    else if s.peekch = 0 ∨ s.peekch = byte '\r' ∨ s.peekch = byte '\n' then
      some (.inr (s, s.upTo start .BrokenString))
    else if s.peekch = backslash then
      -- Otherwise the brace of an escaped code point would begin an expression.
      if s.peekchAt 1 = byte 'u' ∧ s.peekchAt 2 = byte '{' then
        some (.inl s.consume.consume.consume)
      else s.readBackslashInString.map .inl
    else if s.peekch = byte '{' then
      let s := { s with braceStack := .InterpolatedString :: s.braceStack }
      if s.peekchAt 1 = byte '{' then
        let brokenDoubleBrace := s.slice start .BrokenInterpDoubleBrace startOffset s.offset
        some (.inr (s.consume.consume, brokenDoubleBrace))
      else
        let s := s.consume
        some (.inr (s, s.slice start formatType startOffset (s.offset - 1)))
    else some (.inl s.consume)) s.rounds s

def readInterpolatedStringBegin : Option (Lexer × Lexeme) :=
  s.consume.readInterpolatedStringSection s.position .InterpStringBegin .InterpStringSimple

/-! ### Numbers, names and other bytes -/

/-- The first place from `cur` on whose byte does not meet a condition. -/
def scan (p : UInt8 → Bool) (cur : ℕ) : ℕ := cur + ((s.buffer.drop cur).takeWhile p).length

/-- The place after a byte, if it meets a condition. -/
def skipIf (p : UInt8 → Bool) (cur : ℕ) : ℕ :=
  if cur < s.bufferSize ∧ p (s.at_ cur) then cur + 1 else cur

/-- The place after the exponent sign of a number. -/
def scanExponent (cur : ℕ) : ℕ :=
  if cur < s.bufferSize ∧ (s.at_ cur = byte 'e' ∨ s.at_ cur = byte 'E') then
    s.skipIf (fun c => c = byte '+' || c = byte '-') (cur + 1)
  else cur

def readNumber (start : Position) (startOffset : UInt32) : Lexer × Lexeme :=
  let cur := s.scan (fun c => isDigit c || c = byte '.' || c = byte '_') (s.offset.toNat + 1)
  let cur := s.scan isIdentChar (s.scanExponent cur)
  let s := { s with offset := .ofNat cur }
  (s, s.slice start .Number startOffset s.offset)

def readName : Lexer × Option Bytes × LexemeType :=
  let cur := s.scan isIdentChar (s.offset.toNat + 1)
  let name := (s.buffer.drop s.offset.toNat).take (cur - s.offset.toNat)
  let s := { s with offset := .ofNat cur }
  if s.readNames then
    let (names, result) := s.names.getOrAddWithType name
    ({ s with names := names }, result)
  else (s, s.names.getWithType name)

/-- The continuation bytes of a code point. -/
def readContinuation : ℕ → Lexer → UInt32 → Lexer × Option UInt32
  | 0, s, codepoint => (s, some codepoint)
  | n + 1, s, codepoint =>
    if s.peekch &&& 0b11000000 ≠ 0b10000000 then (s, none)
    else readContinuation n s.consume
      ((codepoint <<< 6) ||| (s.peekch &&& 0b00111111).toUInt32)

/-- The size of a code point and its first bits. -/
def utf8Start (c : UInt8) : Option (ℕ × UInt32) :=
  if c &&& 0b10000000 = 0 then some (1, (c &&& 0x7F).toUInt32)
  else if c &&& 0b11100000 = 0b11000000 then some (2, (c &&& 0b11111).toUInt32)
  else if c &&& 0b11110000 = 0b11100000 then some (3, (c &&& 0b1111).toUInt32)
  else if c &&& 0b11111000 = 0b11110000 then some (4, (c &&& 0b111).toUInt32)
  else none

def readUtf8Error : Lexer × Lexeme :=
  let start := s.position
  match utf8Start s.peekch with
  | none => (s.consume, s.consume.upTo start .BrokenUnicode)
  | some (size, codepoint) =>
    match readContinuation (size - 1) s.consume codepoint with
    | (s, none) => (s, s.upTo start .BrokenUnicode)
    | (s, some codepoint) => (s, s.upTo start .BrokenUnicode (.codepoint codepoint))

/-! ### The next lexeme -/

/-- A character, or with the character `second` after it a lexeme of its own. -/
def operator (start : Position) (first second : Char) (type : LexemeType) : Lexer × Lexeme :=
  let s := s.consume
  if s.peekch = byte second then (s.consume, token start 2 type)
  else (s, token start 1 (.ofChar (byte first)))

/-- A character that is a lexeme. -/
def single (start : Position) : Lexer × Lexeme := (s.consume, token start 1 (.ofChar s.peekch))

/-- The lexemes that begin with `-`. -/
def readMinus (start : Position) : Option (Lexer × Lexeme) :=
  if s.peekchAt 1 = byte '>' then some (s.consume.consume, token start 2 .SkinnyArrow)
  else if s.peekchAt 1 = byte '=' then some (s.consume.consume, token start 2 .SubAssign)
  else if s.peekchAt 1 = byte '-' then s.readCommentBody
  else some (s.consume, token start 1 (.ofChar (byte '-')))

/-- The lexemes that begin with `[`. -/
def readBracket (start : Position) : Option (Lexer × Lexeme) :=
  s.skipLongSeparator.bind fun (s, sep) =>
    if sep ≥ 0 then s.readLongString start sep .RawString .BrokenString
    else if sep = -1 then some (s, token start 1 (.ofChar (byte '[')))
    else some (s, s.upTo start .BrokenString)

def readOpenBrace (start : Position) : Lexer × Lexeme :=
  let s := s.consume
  let s := if s.braceStack = [] then s else { s with braceStack := .Normal :: s.braceStack }
  (s, token start 1 (.ofChar (byte '{')))

/-- A closing brace, which may end an expression in a string. -/
def readCloseBrace (start : Position) : Option (Lexer × Lexeme) :=
  let s := s.consume
  match s.braceStack with
  | [] => some (s, token start 1 (.ofChar (byte '}')))
  | top :: rest =>
    let s := { s with braceStack := rest }
    if top ≠ .InterpolatedString then some (s, token start 1 (.ofChar (byte '}')))
    else s.readInterpolatedStringSection start .InterpStringMid .InterpStringEnd

/-- The lexemes that begin with `.`. -/
def readDot (start : Position) : Lexer × Lexeme :=
  let s := s.consume
  if s.peekch = byte '.' then
    let s := s.consume
    if s.peekch = byte '.' then (s.consume, token start 3 .Dot3)
    else if s.peekch = byte '=' then (s.consume, token start 3 .ConcatAssign)
    else (s, token start 2 .Dot2)
  else if isDigit s.peekch then s.readNumber start (s.offset - 1)
  else (s, token start 1 (.ofChar (byte '.')))

/-- The lexemes that begin with `/`. -/
def readSlash (start : Position) : Lexer × Lexeme :=
  let s := s.consume
  if s.peekch = byte '=' then (s.consume, token start 2 .DivAssign)
  else if s.peekch = byte '/' then
    let s := s.consume
    if s.peekch = byte '=' then (s.consume, token start 3 .FloorDivAssign)
    else (s, token start 2 .FloorDiv)
  else (s, token start 1 (.ofChar (byte '/')))

/-- The lexemes that begin with `@`. -/
def readAt (start : Position) : Lexer × Lexeme :=
  if s.peekchAt 1 = byte '[' then (s.consume.consume, token start 2 .AttributeOpen)
  else
    let s := s.consume
    if isAlpha s.peekch ∨ s.peekch = byte '_' then
      let (s, name, _) := s.readName
      (s, s.upTo start .Attribute (.name name))
    else (s, s.upTo start .Attribute (.name (some [])))

/-- The lexemes that begin with another character. -/
def readOther (start : Position) : Lexer × Lexeme :=
  if isDigit s.peekch then s.readNumber start s.offset
  else if isAlpha s.peekch ∨ s.peekch = byte '_' then
    let (s, name, type) := s.readName
    (s, s.upTo start type (.name name))
  else if s.peekch &&& 0x80 ≠ 0 then s.readUtf8Error
  else s.single start

def readNext : Option (Lexer × Lexeme) :=
  let start := s.position
  let c := s.peekch
  if c = 0 then some (s, token start 0 .Eof)
  else if c = byte '-' then s.readMinus start
  else if c = byte '[' then s.readBracket start
  else if c = byte '{' then some (s.readOpenBrace start)
  else if c = byte '}' then s.readCloseBrace start
  else if c = byte '=' then some (s.operator start '=' '=' .Equal)
  else if c = byte '<' then some (s.operator start '<' '=' .LessEqual)
  else if c = byte '>' then some (s.operator start '>' '=' .GreaterEqual)
  else if c = byte '~' then some (s.operator start '~' '=' .NotEqual)
  else if c = quote ∨ c = apostrophe then s.readQuotedString
  else if c = backtick then s.readInterpolatedStringBegin
  else if c = byte '.' then some (s.readDot start)
  else if c = byte '+' then some (s.operator start '+' '=' .AddAssign)
  else if c = byte '/' then some (s.readSlash start)
  else if c = byte '*' then some (s.operator start '*' '=' .MulAssign)
  else if c = byte '%' then some (s.operator start '%' '=' .ModAssign)
  else if c = byte '^' then some (s.operator start '^' '=' .PowAssign)
  else if c = byte ':' then some (s.operator start ':' ':' .DoubleColon)
  else if c ∈ "()];,#?&|".toList.map Char.toUInt8 then some (s.single start)
  else if c = byte '@' then some (s.readAt start)
  else some (s.readOther start)

/-- White space is skipped. -/
def skipSpace : Option Lexer :=
  Loop.run (fun s : Lexer =>
    if s.offset.toNat < s.bufferSize then
      let c := s.at_ s.offset.toNat
      if c = byte ' ' ∨ c = byte '\t' then some (.inl s.consume)
      else if c = byte '\n' then some (.inl s.newline)
      else if c = byte '\r' then
        let s := s.consume
        let s := if s.offset.toNat < s.bufferSize ∧ s.at_ s.offset.toNat = byte '\n' then s.consume
          else s
        some (.inl { s with line := s.line + 1, lineOffset := s.offset })
      else if c = 11 ∨ c = 12 then some (.inl s.consume)
      else some (.inr s)
    else some (.inr s)) s.rounds s

/-- The last lexeme is a comment. -/
def isComment : Bool := s.lexeme.type = .Comment || s.lexeme.type = .BlockComment

/-- `next(skipComments, updatePrevLocation)`. -/
def next (skipComments updatePrevLocation : Bool) : Option Lexer :=
  Loop.run (fun (s, updatePrevLocation) =>
    s.skipSpace.bind fun s =>
      let s := if updatePrevLocation then { s with prevLocation := s.lexeme.location } else s
      s.readNext.map fun (s, lexeme) =>
        let s := { s with lexeme := lexeme }
        if skipComments && s.isComment then .inl (s, false) else .inr s)
    s.rounds (s, updatePrevLocation)

end Lexer

end Ast

end Jaci
