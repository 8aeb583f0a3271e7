import Jaci.Lib.Loop
import Jaci.Lib.Wire

/-!
# The UTF-8 library

Strings are followed by a zero, and nothing after it may be read: `read` fails there.  Positions are
offsets from the first byte, and the length of a string fits into an `int`.

* `utf8_decode`, `luaO_utf8esc` : one character;
* `utfchar`, `utflen`, `codepoint`, `byteoffset`, `iter_aux` : the functions of the library;
* `codes` : a loop over `utf8.codes`.
-/

namespace Jaci

namespace Utf8Lib

open Wire

/-! ### Errors -/

/-- What a call can raise, or do to the memory. -/
inductive Fault where
  /-- `luaL_argcheck` fails. -/
  | argument (arg : ℕ) (text : String)
  /-- `luaL_error`. -/
  | error (text : String)
  | overread
deriving DecidableEq

/-- A call: it has a result, raises an error, or does not end in time. -/
abbrev Exec (α : Type) : Type := ExceptT Fault Option α

def loop {σ ρ : Type} (body : σ → Exec (σ ⊕ ρ)) (n : ℕ) (s : σ) : Exec ρ :=
  ExceptT.mk (Loop.run (fun s => (body s).run.map fun
    | .ok (.inl s) => .inl s
    | .ok (.inr r) => .inr (.ok r)
    | .error e => .inr (.error e)) n s)

/-- `luaL_argcheck`. -/
def argcheck (cond : Prop) [Decidable cond] (arg : ℕ) (text : String) : Exec Unit :=
  if cond then pure () else throw (.argument arg text)

/-- A byte of a string, or the zero after it. -/
def read (s : Bytes) (o : ℕ) : Exec UInt8 :=
  if o < s.length then pure (s.getD o 0) else if o = s.length then pure 0 else throw .overread

/-! ### Characters -/

def MAXUNICODE : ℕ := 0x10FFFF

def iscont (s : Bytes) (o : ℕ) : Exec Bool := do
  return (← read s o) &&& 0xC0 == 0x80

def limits : List UInt32 := [0xFF, 0x7F, 0x7FF, 0xFFFF]

/-- A round of the loop of `utf8_decode`: a byte is read while the first byte says so. -/
def decodeRound (s : Bytes) (o : ℕ) :
    ℕ × UInt32 × UInt32 → Exec (ℕ × UInt32 × UInt32 ⊕ Option (ℕ × UInt32 × UInt32))
  | (count, c, res) =>
    if c &&& 0x40 = 0 then pure (.inr (some (count, c, res)))
    else do
      let cc ← read s (o + (count + 1))
      if cc &&& 0xC0 ≠ 0x80 then pure (.inr none)
      else pure (.inl (count + 1, c <<< 1, res <<< 6 ||| (cc &&& 0x3F).toUInt32))

/-- The checks of `utf8_decode` after its loop; a shift by 32 or more has a zero to shift. -/
def decodeEnd (o count : ℕ) (c res : UInt32) : Option (ℕ × ℕ) :=
  let res := res ||| ((c &&& 0x7F) <<< UInt32.ofNat (count * 5))
  if count > 3 ∨ res.toNat > MAXUNICODE ∨ res ≤ limits.getD count 0 then none
  else if res - 0xD800 < 0x800 then none
  else some (res.toNat, o + count + 1)

/-- `utf8_decode`: the code point, and where the next one begins. -/
def utf8_decode (s : Bytes) (o : ℕ) : Exec (Option (ℕ × ℕ)) := do
  let c := (← read s o).toUInt32
  if c < 0x80 then return some (c.toNat, o + 1)
  else
    match ← loop (decodeRound s o) 8 (0, c, 0) with
    | none => return none
    | some (count, c, res) => return decodeEnd o count c res

def UTF8BUFFSZ : ℕ := 8

/-- A round of the loop of `luaO_utf8esc`: the buffer is filled from its end, and `mfb` is the
greatest number that fits into the first byte. -/
def escRound : Bytes × UInt64 × UInt32 → Bytes × UInt64 × UInt32 ⊕ Bytes
  | (buff, x, mfb) =>
    let buff := ((0x80 : UInt64) ||| (x &&& 0x3F)).toUInt8 :: buff
    let x := x >>> 6
    let mfb := mfb >>> 1
    if x > mfb.toUInt64 then .inl (buff, x, mfb)
    else .inr (((~~~mfb <<< 1).toUInt64 ||| x).toUInt8 :: buff)

def luaO_utf8esc (x : UInt64) : Exec Bytes :=
  if x < 0x80 then pure [x.toUInt8]
  else loop (fun r => pure (escRound r)) UTF8BUFFSZ ([], x, 0x3F)

def buffutfchar (arg : ℕ) (code : ℤ) : Exec Bytes := do
  argcheck (0 ≤ code ∧ code ≤ MAXUNICODE) arg "value out of range"
  luaO_utf8esc (.ofNat code.toNat)

/-- The loop of `utfchar`, from argument `i` on. -/
def utfcharFrom (i : ℕ) : List ℤ → Exec Bytes
  | [] => pure []
  | code :: rest => do
    let bytes ← buffutfchar i code
    let more ← utfcharFrom (i + 1) rest
    return bytes ++ more

/-- `utf8.char`. -/
def utfchar (args : List ℤ) : Exec Bytes :=
  match args with
  | [code] => buffutfchar 1 code
  | args => utfcharFrom 1 args

/-! ### Strings -/

def u_posrelat (pos : ℤ) (len : ℕ) : ℤ :=
  if 0 ≤ pos then pos else if (-pos).toNat > len then 0 else len + pos + 1

/-- `utf8.len`: the number of characters, or where decoding fails. -/
def utflen (s : Bytes) (i j : Option ℤ) : Exec (ℕ ⊕ ℤ) := do
  let posi := u_posrelat (i.getD 1) s.length
  let posj := u_posrelat (j.getD (-1)) s.length
  argcheck (1 ≤ posi ∧ posi - 1 ≤ s.length) 2 "initial position out of string"
  argcheck (posj - 1 < s.length) 3 "final position out of string"
  loop (fun ((posi, n) : ℕ × ℕ) =>
    if (posi : ℤ) ≤ posj - 1 then do
      match ← utf8_decode s posi with
      | none => return .inr (.inr (posi + 1))
      | some (_, next) => return .inl (next, n + 1)
    else pure (.inr (.inl n))) (s.length + 1) ((posi - 1).toNat, 0)

def LUAI_MAXCSTACK : ℕ := 8000

/-- `luaL_checkstack`, where `top` slots are in use. -/
def checkstack (top size : ℕ) (mes : String) : Exec Unit :=
  if size > LUAI_MAXCSTACK ∨ top + size > LUAI_MAXCSTACK then
    throw (.error ("stack overflow (" ++ mes ++ ")"))
  else pure ()

/-- `utf8.codepoint`, called with `top` arguments. -/
def codepoint (s : Bytes) (top : ℕ) (i j : Option ℤ) : Exec (List ℕ) := do
  let posi := u_posrelat (i.getD 1) s.length
  let pose := u_posrelat (j.getD posi) s.length
  argcheck (1 ≤ posi) 2 "out of range"
  argcheck (pose ≤ s.length) 3 "out of range"
  if posi > pose then return []
  else if pose - posi ≥ 2 ^ 31 - 1 then throw (.error "string slice too long")
  else
    checkstack top (pose - posi + 1).toNat "string slice too long"
    loop (fun ((o, codes) : ℕ × List ℕ) =>
      if (o : ℤ) < pose then do
        match ← utf8_decode s o with
        | none => throw (.error "invalid UTF-8 code")
        | some (code, next) => return .inl (next, codes ++ [code])
      else pure (.inr codes)) (s.length + 1) ((posi - 1).toNat, [])

/-- `while (posi > 0 && iscont(s + posi)) posi--`. -/
def skipBack (s : Bytes) (posi : ℕ) : Exec ℕ :=
  loop (fun posi =>
    if posi > 0 then do
      if ← iscont s posi then return .inl (posi - 1) else return .inr posi
    else pure (.inr posi)) (s.length + 1) posi

/-- `while (iscont(s + posi)) posi++`. -/
def skipForward (s : Bytes) (posi : ℕ) : Exec ℕ :=
  loop (fun posi => do
    if ← iscont s posi then return .inl (posi + 1) else return .inr posi) (s.length + 1) posi

/-- The loop of `utf8.offset` that goes back. -/
def moveBack (s : Bytes) (n : ℤ) (posi : ℕ) : Exec (ℤ × ℕ) :=
  loop (fun ((n, posi) : ℤ × ℕ) =>
    if n < 0 ∧ posi > 0 then do
      let posi ← skipBack s (posi - 1)
      return .inl (n + 1, posi)
    else pure (.inr (n, posi))) (s.length + 1) (n, posi)

/-- The loop of `utf8.offset` that goes on. -/
def moveForward (s : Bytes) (n : ℤ) (posi : ℕ) : Exec (ℤ × ℕ) :=
  loop (fun ((n, posi) : ℤ × ℕ) =>
    if n > 0 ∧ posi < s.length then do
      let posi ← skipForward s (posi + 1)
      return .inl (n - 1, posi)
    else pure (.inr (n, posi))) (s.length + 1) (n, posi)

/-- `utf8.offset`. -/
def byteoffset (s : Bytes) (n : ℤ) (i : Option ℤ) : Exec (Option ℤ) := do
  let posi := u_posrelat (i.getD (if n ≥ 0 then 1 else s.length + 1)) s.length
  argcheck (1 ≤ posi ∧ posi - 1 ≤ s.length) 3 "position out of range"
  let posi := (posi - 1).toNat
  if n = 0 then
    let posi ← skipBack s posi
    return some (posi + 1)
  else if ← iscont s posi then throw (.error "initial position is a continuation byte")
  else
    let (n, posi) ← if n < 0 then moveBack s n posi else moveForward s (n - 1) posi
    return if n = 0 then some ((posi : ℤ) + 1) else none

/-- Where `iter_aux` decodes: at the beginning, or after the character at `control`. -/
def iterStart (s : Bytes) (control : ℤ) : Exec ℕ :=
  let n := control - 1
  if n < 0 then pure 0
  else if n < s.length then skipForward s (n.toNat + 1)
  else pure n.toNat

/-- `iter_aux`: the position of a character and its code point. -/
def iter_aux (s : Bytes) (control : ℤ) : Exec (Option (ℕ × ℕ)) := do
  let n ← iterStart s control
  if n ≥ s.length then return none
  else
    match ← utf8_decode s n with
    | none => throw (.error "invalid UTF-8 code")
    | some (code, next) =>
      if ← iscont s next then throw (.error "invalid UTF-8 code")
      else return some (n + 1, code)

/-- `for p, c in utf8.codes(s)`: what the variables are in its rounds, from a position on. -/
def codes (s : Bytes) : Exec (List (ℕ × ℕ)) :=
  loop (fun (control, seen) => do
    match ← iter_aux s control with
    | none => return .inr seen
    | some (p, c) => return .inl ((p : ℤ), seen ++ [(p, c)])) (s.length + 1) (0, [])

end Utf8Lib

end Jaci
