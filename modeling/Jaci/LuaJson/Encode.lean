import Jaci.Json.Text
import Jaci.LuaJson.Value

/-!
# `json.encode`

`EncodeState::encode_value` writes a value to `out`; the model returns what it writes, or the error
it raises.  A table is an array or an object by its metatable, or else by its keys.

* `encode_value` : a value at some indentation;
* `json_encode` : the text of a value.
-/

namespace Jaci

namespace LuaJson

open Wire Json

/-- What the encoder uses of the C library and of the rest of the virtual machine. -/
structure Host where
  /-- `lua_objlen` of a table. -/
  objlen : List LuaValue → List (Key × LuaValue) → ℕ
  /-- `luaL_addvalueany` of a key. -/
  addvalueany : Key → Bytes
  /-- `snprintf` with `"%.14g"`. -/
  print14g : Double → Bytes

/-- The rest of a call of `encode_value`: what it writes at an indentation. -/
abbrev Writer := Int32 → Except String Bytes

def indent_line (indent current_indent : Int32) : Bytes :=
  if 0 < indent then 0x0a :: List.replicate current_indent.toInt.toNat 0x20 else []

/-- `snprintf` with `"%.0f"` into 64 characters, for an integral number. -/
def print0f (neg : Bool) (mag : ℚ) : Bytes :=
  ((if neg then [minus] else []) ++ decimal mag.num.natAbs).take 63

def encode_number (host : Host) : Double → Except String Bytes
  | .finite neg mag h =>
    if mag.den = 1 then .ok (print0f neg mag) else .ok (host.print14g (.finite neg mag h))
  | _ => .error "JSON encode error: NaN or Infinity cannot be encoded"

/-- The key is a number in `1..len`; `lua_tonumber` of a 64-bit integer is 0. -/
def Key.inRange (len : ℕ) : Key → Bool
  | .number (.finite neg mag _) =>
    !neg && decide (0 < mag) && decide (mag ≤ len) && decide (mag.den = 1)
  | _ => false

/-- The table is written as an array. -/
def is_array (host : Host) (tag : Option JsonType) (items : List LuaValue)
    (fields : List (Key × LuaValue)) : Bool :=
  match tag with
  | some .array => true
  | some .object => false
  | none =>
    let len := host.objlen items fields
    decide (0 < len) && decide (items.length ≤ len) && fields.all fun f => f.1.inRange len

/-- The keys `1, 2, …` are numbers. -/
def indexKey (i : ℕ) : Key := .number (.round false i)

/-- `lua_rawgeti` and `encode_value` of the element; an element that is not there is nil. -/
def encode_element (items : List Writer) (fields : List (Key × Writer)) (i : ℕ) : Writer :=
  match items[i - 1]? with
  | some writer => writer
  | none =>
    match fields.find? fun f => f.1 = indexKey i with
    | some f => f.2
    | none => fun _ => .ok nullText

def encode_elements (indent current_indent : Int32) : List Writer → Except String Bytes
  | [] => .ok []
  | [writer] => do return indent_line indent current_indent ++ (← writer current_indent)
  | writer :: rest => do
    return indent_line indent current_indent ++ (← writer current_indent) ++ comma ::
      (← encode_elements indent current_indent rest)

def encode_array (indent : Int32) (elements : List Writer) : Writer := fun current_indent => do
  let out ← encode_elements indent (current_indent + indent) elements
  return lbracket :: out ++ (if elements = [] then [] else indent_line indent current_indent) ++
    [rbracket]

/-- `luaL_addvalueany` of a key; the result is added to `out` as a C string, so a zero ends it. -/
def key_text (host : Host) (key : Key) : Bytes := (host.addvalueany key).takeWhile (· ≠ 0)

def encode_key (host : Host) : Key → Bytes
  | .string s => escapeString s
  | key => quote :: key_text host key ++ [quote]

def encode_pairs (host : Host) (indent current_indent : Int32) :
    List (Key × Writer) → Except String Bytes
  | [] => .ok []
  | [(key, writer)] => do
    return indent_line indent current_indent ++ encode_key host key ++ colon ::
      (if 0 < indent then [0x20] else []) ++ (← writer current_indent)
  | (key, writer) :: rest => do
    return indent_line indent current_indent ++ encode_key host key ++ colon ::
      (if 0 < indent then [0x20] else []) ++ (← writer current_indent) ++ comma ::
        (← encode_pairs host indent current_indent rest)

def encode_object (host : Host) (indent : Int32) (pairs : List (Key × Writer)) : Writer :=
  fun current_indent => do
    let out ← encode_pairs host indent (current_indent + indent) pairs
    return lbrace :: out ++ (if pairs = [] then [] else indent_line indent current_indent) ++
      [rbrace]

section Encode

variable (host : Host) (indent : Int32)

mutual

def encode_value : LuaValue → Writer
  | .nil => fun _ => .ok nullText
  | .boolean b => fun _ => .ok (if b then trueText else falseText)
  | .number n => fun _ => encode_number host n
  | .integer n => fun _ => .ok (decimalInt n.toInt)
  | .string s => fun _ => .ok (escapeString s)
  | .buffer s => fun _ => .ok (escapeString s)
  | .lightuserdata null => fun _ =>
    if null then .ok nullText else .error "JSON encode error: unsupported lightuserdata"
  | .table tag items fields =>
    let writers := encode_items items
    let fieldWriters := encode_fields fields
    if is_array host tag items fields then
      encode_array indent ((List.range (host.objlen items fields)).map fun i =>
        encode_element writers fieldWriters (i + 1))
    else
      encode_object host indent ((writers.zipIdx 1).map (fun p => (indexKey p.2, p.1)) ++
        fieldWriters)
  | .other typename => fun _ => .error ("JSON encode error: unsupported type " ++ typename)

/-- The elements of a table. -/
def encode_items : List LuaValue → List Writer
  | [] => []
  | v :: items => encode_value v :: encode_items items

/-- The other entries of a table. -/
def encode_fields : List (Key × LuaValue) → List (Key × Writer)
  | [] => []
  | (key, v) :: fields => (key, encode_value v) :: encode_fields fields

end

def json_encode (v : LuaValue) : Except String Bytes :=
  encode_value host (if 0 < indent then indent else 0) v 0

end Encode

end LuaJson

end Jaci
