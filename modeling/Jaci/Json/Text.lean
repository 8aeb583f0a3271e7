import Jaci.Json.Value
import Jaci.Lib.Decimal

/-!
# JSON text of the language server

`Value.serialize` and the recursive-descent `Parser` of `JsonRpc.cpp`.  The parser's state is the
input still to be read together with the first error reported; its position is the number of
bytes consumed.  Conversions between doubles and text belong to the C library and are parameters
(`CLib`): the functions here only decide when they are called, and on which characters.

The parser recurses into a container after it has consumed the opening bracket, and every turn
of a container loop consumes a value, so the length of the input bounds both; the bounds are the
fuel of `parseValue`, `parseArray` and `parseObject`.
-/

namespace Jaci

namespace Json

open Wire

/-- The conversions between doubles (by bit pattern) and text of the C library. -/
structure CLib where
  /-- `snprintf` with `"%.17g"`. -/
  print17g : UInt64 → Bytes
  strtod : Bytes → UInt64

/-! ### Characters -/

abbrev quote : UInt8 := 0x22
abbrev comma : UInt8 := 0x2c
abbrev minus : UInt8 := 0x2d
abbrev dot : UInt8 := 0x2e
abbrev colon : UInt8 := 0x3a
/-- The opening square bracket. -/
abbrev lbracket : UInt8 := 0x5b
abbrev backslash : UInt8 := 0x5c
/-- The closing square bracket. -/
abbrev rbracket : UInt8 := 0x5d
abbrev lbrace : UInt8 := 0x7b
abbrev rbrace : UInt8 := 0x7d

/-- `null`. -/
def nullText : Bytes := [0x6e, 0x75, 0x6c, 0x6c]
/-- `true`. -/
def trueText : Bytes := [0x74, 0x72, 0x75, 0x65]
/-- `false`. -/
def falseText : Bytes := [0x66, 0x61, 0x6c, 0x73, 0x65]

/-! ### Serializer -/

/-- A lower-case hexadecimal digit. -/
def hexDigit (d : ℕ) : UInt8 := UInt8.ofNat (if d < 10 then 0x30 + d else 0x61 + (d - 10))

/-- One character of a string literal. -/
def escapeChar (c : UInt8) : Bytes :=
  if c = quote then [backslash, quote]
  else if c = backslash then [backslash, backslash]
  else if c = 0x08 then [backslash, 0x62]
  else if c = 0x0c then [backslash, 0x66]
  else if c = 0x0a then [backslash, 0x6e]
  else if c = 0x0d then [backslash, 0x72]
  else if c = 0x09 then [backslash, 0x74]
  else if c < 0x20 then
    -- the format is "\u%04x"
    [backslash, 0x75, 0x30, 0x30, hexDigit (c.toNat / 16), hexDigit (c.toNat % 16)]
  else [c]

/-- `escapeString`: a string literal with its quotes. -/
def escapeString (s : Bytes) : Bytes := quote :: s.flatMap escapeChar ++ [quote]

section Serialize

variable (lib : CLib) (pretty : Bool)

/-- The separator between the members of a container. -/
def itemSeparator : Bytes := if pretty then [comma, 0x20] else [comma]

/-- The separator between a key and its value. -/
def keySeparator : Bytes := if pretty then [colon, 0x20] else [colon]

mutual

/-- `Value::serialize` (the indentation it hands down is not used by it). -/
def Value.serialize : Value → Bytes
  | .null => nullText
  | .boolean b => if b then trueText else falseText
  | .integer n => decimalInt n.toInt
  | .double bits => lib.print17g bits
  | .string s => escapeString s
  | .array xs => lbracket :: serializeItems xs ++ [rbracket]
  | .object kvs => lbrace :: serializePairs kvs ++ [rbrace]

/-- The items of an array, with separators between them. -/
def serializeItems : List Value → Bytes
  | [] => []
  | [v] => v.serialize
  | v :: w :: vs => v.serialize ++ itemSeparator pretty ++ serializeItems (w :: vs)

/-- The pairs of an object, with separators between them. -/
def serializePairs : List (Bytes × Value) → Bytes
  | [] => []
  | [(k, v)] => escapeString k ++ keySeparator pretty ++ v.serialize
  | (k, v) :: p :: kvs =>
    escapeString k ++ keySeparator pretty ++ v.serialize ++ itemSeparator pretty ++
      serializePairs (p :: kvs)

end

end Serialize

/-! ### Parser -/

/-- The state of the parser. -/
structure Parser where
  size : ℕ
  rest : Bytes
  /-- The first error reported; empty if there is none. -/
  error : String

namespace Parser

/-- The position in the input. -/
def pos (p : Parser) : ℕ := p.size - p.rest.length

/-- The parser at another point of the input. -/
def moveTo (p : Parser) (rest : Bytes) : Parser := { p with rest := rest }

/-- `setError`: only the first error is kept. -/
def setError (p : Parser) (msg : String) : Parser :=
  if p.error.isEmpty then { p with error := msg ++ " at position " ++ toString p.pos } else p

/-- White space between tokens. -/
def isSpace (c : UInt8) : Bool := c == 0x20 || c == 0x09 || c == 0x0a || c == 0x0d

def skipWhitespace (p : Parser) : Parser := p.moveTo (p.rest.dropWhile isSpace)

/-- `match`: skip white space, then consume the character if it is the expected one. -/
def matchChar (p : Parser) (expected : UInt8) : Bool × Parser :=
  match p.skipWhitespace.rest with
  | c :: rest => if c = expected then (true, p.moveTo rest) else (false, p.skipWhitespace)
  | [] => (false, p.skipWhitespace)

/-- The value of a hexadecimal digit. -/
def hexVal (h : UInt8) : Option ℕ :=
  if 0x30 ≤ h ∧ h ≤ 0x39 then some (h.toNat - 0x30)
  else if 0x61 ≤ h ∧ h ≤ 0x66 then some (h.toNat - 0x61 + 10)
  else if 0x41 ≤ h ∧ h ≤ 0x46 then some (h.toNat - 0x41 + 10)
  else none

/-- Read hexadecimal digits into a code point; a bad digit is consumed and ends the loop. -/
def readHex : Bytes → ℕ → Option ℕ × Bytes
  | [], codepoint => (some codepoint, [])
  | h :: hs, codepoint =>
    match hexVal h with
    | some d => readHex hs (codepoint <<< 4 ||| d)
    | none => (none, hs)

/-- The UTF-8 bytes that a `\u` escape stands for. -/
def encodeCodepoint (codepoint : ℕ) : Bytes :=
  if codepoint < 0x80 then [UInt8.ofNat codepoint]
  else if codepoint < 0x800 then
    [UInt8.ofNat (0xC0 ||| (codepoint >>> 6 &&& 0x1F)), UInt8.ofNat (0x80 ||| (codepoint &&& 0x3F))]
  else
    [UInt8.ofNat (0xE0 ||| (codepoint >>> 12 &&& 0x0F)),
      UInt8.ofNat (0x80 ||| (codepoint >>> 6 &&& 0x3F)), UInt8.ofNat (0x80 ||| (codepoint &&& 0x3F))]

/-- The character that a one-letter escape stands for; unknown letters stand for themselves. -/
def unescape (esc : UInt8) : UInt8 :=
  if esc = 0x62 then 0x08
  else if esc = 0x66 then 0x0c
  else if esc = 0x6e then 0x0a
  else if esc = 0x72 then 0x0d
  else if esc = 0x74 then 0x09
  else esc

/-- The loop of `parseString` after the opening quote. -/
def parseStringLoop (p : Parser) : Bytes → Bytes → Option Bytes × Parser
  | [], _ => (none, (p.moveTo []).setError "Unterminated string")
  | c :: rest, result =>
    if c = quote then (some result, p.moveTo rest)
    else if c = backslash then
      match rest with
      | [] => (none, (p.moveTo []).setError "Unexpected end of string escape")
      | esc :: rest =>
        if esc = 0x75 then
          match rest with
          | h₁ :: h₂ :: h₃ :: h₄ :: rest' =>
            match readHex [h₁, h₂, h₃, h₄] 0 with
            | (some codepoint, _) => parseStringLoop p rest' (result ++ encodeCodepoint codepoint)
            | (none, left) =>
              (none, (p.moveTo (left ++ rest')).setError "Invalid hex in unicode escape")
          | rest => (none, (p.moveTo rest).setError "Invalid unicode escape")
        else parseStringLoop p rest (result ++ [unescape esc])
    else parseStringLoop p rest (result ++ [c])

def parseString (p : Parser) : Option Bytes × Parser :=
  match p.matchChar quote with
  | (true, p) => parseStringLoop p p.rest []
  | (false, p) => (none, p)

/-- `strtoll` in base ten: white space, a sign, and digits; the result is clamped. -/
def strtoll (s : Bytes) : Int64 :=
  let isspace := fun c : UInt8 => c == 0x20 || (0x09 ≤ c && c ≤ 0x0d)
  let value := fun (sign : ℤ) (digits : Bytes) =>
    Int64.ofInt (max (-2 ^ 63) (min (2 ^ 63 - 1) (sign * digitsVal (digits.takeWhile isDigit))))
  match s.dropWhile isspace with
  | c :: digits =>
    if c = minus then value (-1) digits
    else if c = 0x2b then value 1 digits
    else value 1 (c :: digits)
  | [] => value 1 []

/-- An optional character at the front of the input. -/
def optional (accept : UInt8 → Bool) : Bytes → Bytes × Bytes
  | c :: rest => if accept c then ([c], rest) else ([], c :: rest)
  | [] => ([], [])

/-- The fraction of a number: a full stop and digits, or nothing. -/
def scanFraction : Bytes → Bytes × Bytes
  | c :: rest =>
    if c = dot then (dot :: rest.takeWhile isDigit, rest.dropWhile isDigit) else ([], c :: rest)
  | [] => ([], [])

/-- The exponent of a number: a letter, an optional sign and digits, or nothing. -/
def scanExponent : Bytes → Bytes × Bytes
  | c :: rest =>
    if c = 0x65 ∨ c = 0x45 then
      let (sign, rest) := optional (fun c => c == 0x2b || c == minus) rest
      (c :: sign ++ rest.takeWhile isDigit, rest.dropWhile isDigit)
    else ([], c :: rest)
  | [] => ([], [])

/-- `parseNumber`: a number without fraction and exponent is an integer. -/
def parseNumber (lib : CLib) (p : Parser) : Option Value × Parser :=
  let p := p.skipWhitespace
  let (sign, rest) := optional (· == minus) p.rest
  let digits := rest.takeWhile isDigit
  let rest := rest.dropWhile isDigit
  if digits = [] then (none, (p.moveTo rest).setError "Invalid number")
  else
    let (fraction, rest) := scanFraction rest
    let (exponent, rest) := scanExponent rest
    let numStr := sign ++ digits ++ fraction ++ exponent
    if fraction = [] ∧ exponent = [] then (some (.integer (strtoll numStr)), p.moveTo rest)
    else (some (.double (lib.strtod numStr)), p.moveTo rest)

/-- Read one of the three words. -/
def parseWord (p : Parser) (word : Bytes) (v : Value) : Option Value × Parser :=
  if p.rest.take word.length = word then (some v, p.moveTo (p.rest.drop word.length))
  else (none, p.setError "Unexpected token")

/-- The array loop of `parseValue`; `value` reads one value. -/
def parseArray (value : Parser → Option Value × Parser) :
    ℕ → List Value → Parser → Option Value × Parser
  | 0, _, p => (none, p)
  | turns + 1, arr, p =>
    match value p with
    | (none, p) => (none, p)
    | (some v, p) =>
      match p.skipWhitespace.matchChar rbracket with
      | (true, p) => (some (.array (arr ++ [v])), p)
      | (false, p) =>
        match p.matchChar comma with
        | (true, p) => parseArray value turns (arr ++ [v]) p
        | (false, p) => (none, p.setError "Expected ',' or ']' in array")

/-- The object loop of `parseValue`; `value` reads one value. -/
def parseObject (value : Parser → Option Value × Parser) :
    ℕ → List (Bytes × Value) → Parser → Option Value × Parser
  | 0, _, p => (none, p)
  | turns + 1, obj, p =>
    match p.skipWhitespace.parseString with
    | (none, p) => (none, p.setError "Expected string key in object")
    | (some k, p) =>
      match p.skipWhitespace.matchChar colon with
      | (false, p) => (none, p.setError "Expected ':' after key in object")
      | (true, p) =>
        match value p with
        | (none, p) => (none, p)
        | (some v, p) =>
          match p.skipWhitespace.matchChar rbrace with
          | (true, p) => (some (.object (obj ++ [(k, v)])), p)
          | (false, p) =>
            match p.matchChar comma with
            | (true, p) => parseObject value turns (obj ++ [(k, v)]) p
            | (false, p) => (none, p.setError "Expected ',' or '\x7d' in object")

/-- `parseValue`, with a bound on the depth of its recursion. -/
def parseValue (lib : CLib) : ℕ → Parser → Option Value × Parser
  | 0, p => (none, p)
  | fuel + 1, p =>
    let p := p.skipWhitespace
    match p.rest with
    | [] => (none, p.setError "Unexpected EOF")
    | c :: rest =>
      if c = 0x6e then p.parseWord nullText .null
      else if c = 0x74 then p.parseWord trueText (.boolean true)
      else if c = 0x66 then p.parseWord falseText (.boolean false)
      else if c = quote then
        match p.parseString with
        | (some s, p) => (some (.string s), p)
        | (none, p) => (none, p)
      else if c = minus ∨ isDigit c then p.parseNumber lib
      else if c = lbracket then
        match (p.moveTo rest).skipWhitespace.matchChar rbracket with
        | (true, p) => (some (.array []), p)
        | (false, p) => parseArray (parseValue lib fuel) (p.rest.length + 1) [] p
      else if c = lbrace then
        match (p.moveTo rest).skipWhitespace.matchChar rbrace with
        | (true, p) => (some (.object []), p)
        | (false, p) => parseObject (parseValue lib fuel) (p.rest.length + 1) [] p
      else (none, p.setError "Unexpected character")

end Parser

/-- `Json::parse`: the value, unless parsing failed, and the error. -/
def parse (lib : CLib) (json : Bytes) : Option Value × String :=
  match Parser.parseValue lib (json.length + 1) ⟨json.length, json, ""⟩ with
  | (some v, p) =>
    if p.skipWhitespace.rest = [] then (some v, p.skipWhitespace.error)
    else (none, (p.skipWhitespace.setError "Trailing characters after JSON value").error)
  | (none, p) => (none, p.error)

end Json

end Jaci
