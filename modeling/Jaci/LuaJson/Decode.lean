import Jaci.Json.Text
import Jaci.LuaJson.Value

/-!
# `json.decode` and `json.valid`

`DecodeState` reads a value from the input.  The model has the input that is still to be read; a
function returns a value and the rest of the input, or its error.

The parser recurses into a container after it has consumed the opening bracket, and every turn of a
container loop consumes a value, so the length of the input bounds both; the bounds are the fuel of
`parse_value`, `parse_array` and `parse_object`.

* `parse_number`, `parse_string`, `parse_value` : one value;
* `json_decode`, `json_valid` : the whole input.
-/

namespace Jaci

namespace LuaJson

open Wire Json Json.Parser

/-- What is read and what is left, or an error. -/
abbrev Read (α : Type) := Except String (α × Bytes)

def skip_whitespace (s : Bytes) : Bytes := s.dropWhile isSpace

/-- `parse_null`, `parse_true` and `parse_false`. -/
def parse_word (word : Bytes) (v : LuaValue) (error : String) (s : Bytes) : Read LuaValue :=
  if s.take word.length = word then .ok (v, s.drop word.length) else .error error

/-! ### Numbers -/

def scan_digits (error : String) (s : Bytes) : Read Bytes :=
  if s.takeWhile isDigit = [] then .error error else .ok (s.takeWhile isDigit, s.dropWhile isDigit)

/-- A fraction, if there is one. -/
def scan_fraction : Bytes → Read Bytes
  | [] => .ok ([], [])
  | c :: rest =>
    if c = dot then
      match scan_digits "invalid fractional number" rest with
      | .ok (digits, rest) => .ok (dot :: digits, rest)
      | .error e => .error e
    else .ok ([], c :: rest)

/-- An exponent, if there is one. -/
def scan_exponent : Bytes → Read Bytes
  | [] => .ok ([], [])
  | c :: rest =>
    if c = 0x65 ∨ c = 0x45 then
      let (sign, rest) := optional (fun c => c == 0x2b || c == minus) rest
      match scan_digits "invalid exponent in number" rest with
      | .ok (digits, rest) => .ok (c :: sign ++ digits, rest)
      | .error e => .error e
    else .ok ([], c :: rest)

/-- `strtoll` of an optional sign and digits; nothing is `ERANGE`. -/
def strtoll (s : Bytes) : Option Int64 :=
  let (sign, digits) := optional (· == minus) s
  let n : ℤ := if sign = [] then digitsVal digits else -digitsVal digits
  if -2 ^ 63 ≤ n ∧ n < 2 ^ 63 then some (Int64.ofInt n) else none

/-- `strtod` of a number of the grammar: the nearest double. -/
def strtod (s : Bytes) : Double :=
  let (sign, s) := optional (· == minus) s
  let int := s.takeWhile isDigit
  let (fraction, s) := scanFraction (s.dropWhile isDigit)
  let exponent : ℤ :=
    match s with
    | [] => 0
    | _ :: s =>
      let (sign, digits) := optional (fun c => c == 0x2b || c == minus) s
      if sign = [minus] then -digitsVal digits else digitsVal digits
  let digits := int ++ fraction.drop 1
  let scale : ℤ := exponent - (fraction.drop 1).length
  Double.round (sign ≠ []) (digitsVal digits * 10 ^ scale)

/-- The value of a number: a 64-bit integer if it is one that a double may not have exactly. -/
def number_value (s : Bytes) (integral : Bool) : LuaValue :=
  match if integral then Jaci.LuaJson.strtoll s else none with
  | some n =>
    if 9007199254740991 < n.toInt ∨ n.toInt < -9007199254740991 then .integer n
    else .number (strtod s)
  | none => .number (strtod s)

def parse_number (s : Bytes) : Read LuaValue :=
  let (sign, rest) := optional (· == minus) s
  match scan_digits "invalid number format" rest with
  | .error e => .error e
  | .ok (digits, rest) =>
    match scan_fraction rest with
    | .error e => .error e
    | .ok (fraction, rest) =>
      match scan_exponent rest with
      | .error e => .error e
      | .ok (exponent, rest) =>
        .ok (number_value (sign ++ digits ++ fraction ++ exponent)
          (decide (fraction = [] ∧ exponent = [])), rest)

/-! ### Strings -/

/-- The character of a one-letter escape. -/
def unescape (esc : UInt8) : Option UInt8 :=
  if esc = quote then some quote
  else if esc = backslash then some backslash
  else if esc = 0x2f then some 0x2f
  else if esc = 0x62 then some 0x08
  else if esc = 0x66 then some 0x0c
  else if esc = 0x6e then some 0x0a
  else if esc = 0x72 then some 0x0d
  else if esc = 0x74 then some 0x09
  else none

/-- The loop of `parse_string`. -/
def parse_string_loop : Bytes → Bytes → Read Bytes
  | [], _ => .error "unterminated string"
  | c :: rest, s =>
    if c = quote then .ok (s, rest)
    else if c = backslash then
      match rest with
      | [] => .error "unexpected end of escape sequence"
      | esc :: rest =>
        if esc = 0x75 then
          match rest with
          | h₁ :: h₂ :: h₃ :: h₄ :: rest =>
            match (readHex [h₁, h₂, h₃, h₄] 0).1 with
            | some codepoint => parse_string_loop rest (s ++ encodeCodepoint codepoint)
            | none => .error "invalid hex in unicode escape"
          | _ => .error "invalid unicode escape"
        else
          match unescape esc with
          | some c => parse_string_loop rest (s ++ [c])
          | none => .error "unknown escape sequence"
    else parse_string_loop rest (s ++ [c])

/-- `parse_string`, after the opening quote. -/
def parse_string (s : Bytes) : Read Bytes := parse_string_loop s []

/-! ### Containers -/

/-- The loop of `parse_array`; `value` is `parse_value`. -/
def parse_array (value : Bytes → Read LuaValue) : ℕ → LuaValue → ℕ → Bytes → Read LuaValue
  | 0, _, _, _ => .error "unterminated array"
  | turns + 1, t, index, s =>
    if s = [] then .error "unterminated array"
    else
      match value s with
      | .error e => .error e
      | .ok (v, s) =>
        match skip_whitespace s with
        | [] => .error "unterminated array"
        | c :: rest =>
          if c = rbracket then .ok (t.rawseti index v, rest)
          else if c = comma then parse_array value turns (t.rawseti index v) (index + 1) rest
          else .error "expected ',' or ']' in array"

/-- The loop of `parse_object`; `value` is `parse_value`. -/
def parse_object (value : Bytes → Read LuaValue) : ℕ → LuaValue → Bytes → Read LuaValue
  | 0, _, _ => .error "unterminated object"
  | turns + 1, t, s =>
    if s = [] then .error "unterminated object"
    else
      match skip_whitespace s with
      | [] => .error "expected string key in object"
      | c :: rest =>
        if c ≠ quote then .error "expected string key in object"
        else
          match parse_string rest with
          | .error e => .error e
          | .ok (k, s) =>
            match skip_whitespace s with
            | [] => .error "expected ':' after key in object"
            | c :: rest =>
              if c ≠ colon then .error "expected ':' after key in object"
              else
                match value rest with
                | .error e => .error e
                | .ok (v, s) =>
                  match skip_whitespace s with
                  | [] => .error "unterminated object"
                  | c :: rest =>
                    if c = rbrace then .ok (t.rawset k v, rest)
                    else if c = comma then parse_object value turns (t.rawset k v) rest
                    else .error "expected ',' or '\x7d' in object"

/-- `parse_value`, with a bound on the depth of its recursion. -/
def parse_value : ℕ → Bytes → Read LuaValue
  | 0, _ => .error "unexpected end of input"
  | fuel + 1, s =>
    match skip_whitespace s with
    | [] => .error "unexpected end of input"
    | c :: rest =>
      if c = 0x6e then parse_word nullText .nil "invalid null literal" (c :: rest)
      else if c = 0x74 then parse_word trueText (.boolean true) "invalid true literal" (c :: rest)
      else if c = 0x66 then
        parse_word falseText (.boolean false) "invalid false literal" (c :: rest)
      else if c = quote then
        match parse_string rest with
        | .ok (s, rest) => .ok (.string s, rest)
        | .error e => .error e
      else if c = lbracket then
        match skip_whitespace rest with
        | [] => .error "unterminated array"
        | d :: rest =>
          if d = rbracket then .ok (.newtable, rest)
          else parse_array (parse_value fuel) (rest.length + 1) .newtable 1 (d :: rest)
      else if c = lbrace then
        match skip_whitespace rest with
        | [] => .error "unterminated object"
        | d :: rest =>
          if d = rbrace then .ok (.newtable, rest)
          else parse_object (parse_value fuel) (rest.length + 1) .newtable (d :: rest)
      else if c = minus ∨ isDigit c then parse_number (c :: rest)
      else .error ("unexpected character: '" ++ String.ofList [Char.ofNat c.toNat] ++ "'")

/-! ### The whole input -/

/-- `json_decode`: the value, or the error that is returned after nil. -/
def json_decode (s : Bytes) : Except String LuaValue :=
  match parse_value (s.length + 1) s with
  | .error e => .error e
  | .ok (v, rest) =>
    if skip_whitespace rest = [] then .ok v else .error "trailing garbage after JSON"

def json_valid (s : Bytes) : Bool :=
  match parse_value (s.length + 1) s with
  | .error _ => false
  | .ok (_, rest) => decide (skip_whitespace rest = [])

end LuaJson

end Jaci
