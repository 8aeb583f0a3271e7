import Jaci.Ffi.Buffers

/-!
# The library of buffers

The functions of `buffer` read and write the bytes of a buffer.  An `int` and an `unsigned` are
words whose arithmetic wraps around, and the conversion of a number outside of the range of an
integer is up to the machine.

* `Heap`, `Call` : the buffers, and a function of the library, that may raise;
* `Call.load`, `Call.store` : `memcpy`, which must stay inside of a buffer;
* `buffer_readinteger` … `buffer_writebits` : the library;
* `Function`, `Function.call`, `run` : calls, one after the other.
-/

namespace Jaci

namespace BufLib

open Wire

/-! ### Buffers and strings -/

abbrev MAX_BUFFER_SIZE : ℕ := 2 ^ 30

abbrev MAXSSIZE : ℕ := 2 ^ 30

/-- `Buffer`. -/
@[ext]
structure Buffer where
  data : Bytes
  length_le : data.length ≤ MAX_BUFFER_SIZE

/-- `TString`. -/
@[ext]
structure TString where
  data : Bytes
  length_le : data.length ≤ MAXSSIZE

abbrev Heap := List Buffer

/-- An `int` or an `unsigned`. -/
abbrev Word := BitVec 32

/-- An `int64_t` or a `uint64_t`. -/
abbrev Long := BitVec 64

/-- A value, or none where there is no argument. -/
inductive Value where
  /-- `LUA_TNONE` or `LUA_TNIL`. -/
  | nil
  /-- `LUA_TNUMBER`: the bits of the double. -/
  | number (n : BitVec 64)
  /-- `LUA_TINTEGER`. -/
  | integer (l : Long)
  /-- `LUA_TSTRING`. -/
  | string (s : TString)
  /-- `LUA_TBUFFER`: which one it is. -/
  | buffer (i : ℕ)
  | other

/-- The types that errors name. -/
inductive Tag where
  /-- `LUA_TNUMBER`. -/
  | number
  /-- `LUA_TINTEGER`. -/
  | integer
  /-- `LUA_TSTRING`. -/
  | string
  /-- `LUA_TBUFFER`. -/
  | buffer
deriving DecidableEq

/-- An error that is raised. -/
inductive Error where
  | tag_error (narg : ℕ) (tag : Tag)
  /-- `luaL_argerror`. -/
  | argerror (narg : ℕ) (extramsg : String)
  /-- `luaL_error`. -/
  | error (message : String)
  /-- `luaM_toobig`. -/
  | toobig
deriving DecidableEq

/-- Why a function does not return. -/
inductive Stop where
  | raised (e : Error)
  /-- It copies bytes from or to somewhere else than a buffer. -/
  | outside
deriving DecidableEq

/-! ### Calls -/

/-- A function of the library: it returns or stops, and leaves buffers behind. -/
def Call (α : Type) := Heap → Except Stop α × Heap

namespace Call

variable {α β : Type}

protected def pure (x : α) : Call α := fun heap => (.ok x, heap)

/-- One call after the other. -/
protected def bind (x : Call α) (f : α → Call β) : Call β := fun heap =>
  match x heap with
  | (.ok a, heap') => f a heap'
  | (.error e, heap') => (.error e, heap')

instance : Monad Call where
  pure := Call.pure
  bind := Call.bind

def raise (e : Error) : Call α := fun heap => (.error (.raised e), heap)

/-- Raise an error if a condition holds. -/
def raiseIf (p : Prop) [Decidable p] (e : Error) : Call Unit := if p then raise e else pure ()

/-- Copy bytes from or to somewhere else. -/
def outside : Call α := fun heap => (.error .outside, heap)

/-- `memcpy` from a buffer. -/
def load (i : ℕ) (offset : ℤ) (n : ℕ) : Call Bytes := fun heap =>
  match heap[i]? with
  | some b =>
    if 0 ≤ offset ∧ offset + n ≤ b.data.length then
      (.ok ((b.data.drop offset.toNat).take n), heap)
    else (.error .outside, heap)
  | none => (.error .outside, heap)

/-- Bytes put over those of a string. -/
def splice (data : Bytes) (offset : ℕ) (bytes : Bytes) : Bytes :=
  data.take offset ++ bytes ++ data.drop (offset + bytes.length)

theorem length_splice {data : Bytes} {offset : ℕ} {bytes : Bytes}
    (h : offset + bytes.length ≤ data.length) :
    (splice data offset bytes).length = data.length := by
  rw [splice, List.length_append, List.length_append, List.length_take, List.length_drop]
  omega

/-- `memcpy` to a buffer. -/
def store (i : ℕ) (offset : ℤ) (bytes : Bytes) : Call Unit := fun heap =>
  match heap[i]? with
  | some b =>
    if h : 0 ≤ offset ∧ offset.toNat + bytes.length ≤ b.data.length then
      (.ok (), heap.set i ⟨splice b.data offset.toNat bytes,
        (length_splice h.2).trans_le b.length_le⟩)
    else (.error .outside, heap)
  | none => (.error .outside, heap)

variable {x : Call α} {f : α → Call β} {e : Error} {heap : Heap} {p : Prop} [Decidable p]

@[simp] theorem pure_apply (a : α) : (pure a : Call α) heap = (.ok a, heap) := rfl

@[simp] theorem raise_apply : (raise e : Call α) heap = (.error (.raised e), heap) := rfl

@[simp] theorem raise_bind : (raise e >>= f) = raise e := rfl

@[simp] theorem pure_bind (a : α) : (pure a >>= f) = f a := rfl

theorem bind_assoc {γ : Type} {g : β → Call γ} :
    (x >>= f) >>= g = x >>= fun a => f a >>= g := by
  funext heap
  show Call.bind (Call.bind x f) g heap = Call.bind x (fun a => Call.bind (f a) g) heap
  rw [Call.bind, Call.bind, Call.bind]
  obtain ⟨r, heap'⟩ := x heap
  cases r <;> rfl

theorem raiseIf_bind {f : Unit → Call β} :
    (raiseIf p e >>= f) = if p then raise e else f () := by
  rw [raiseIf]
  split <;> rfl

theorem bind_of_ok {a : α} {heap' : Heap} (h : x heap = (.ok a, heap')) :
    (x >>= f) heap = f a heap' := by
  show Call.bind x f heap = _
  rw [Call.bind, h]

end Call

/-! ### Arguments -/

/-- Conversions that C++ leaves to the machine, those between the two formats of numbers, and those
between numbers and strings. -/
structure Casts where
  /-- `(int)` of a number that is not in range. -/
  wide : BitVec 64 → Word
  /-- `(long long)` of a number that is not in range. -/
  widelong : BitVec 64 → Long
  /-- `(float)` of a number. -/
  float : BitVec 64 → BitVec 32
  /-- `(double)` of a float. -/
  double : BitVec 32 → BitVec 64
  text : BitVec 64 → TString
  /-- `luaO_str2d`. -/
  str2d : TString → Option (BitVec 64)

section Arguments

variable (C : Casts) (args : ℕ → Value) (narg : ℕ)

/-- `luai_num2int`. -/
def num2int (n : BitVec 64) : Word :=
  match Ffi.truncated n with
  | some z => if -2 ^ 31 ≤ z ∧ z < 2 ^ 31 then BitVec.ofInt 32 z else C.wide n
  | none => C.wide n

/-- `luai_num2long`. -/
def num2long (n : BitVec 64) : Long :=
  match Ffi.truncated n with
  | some z => if -2 ^ 63 ≤ z ∧ z < 2 ^ 63 then BitVec.ofInt 64 z else C.widelong n
  | none => C.widelong n

/-- `luai_num2unsigned`. -/
def num2unsigned (n : BitVec 64) : Word := (num2long C n).setWidth 32

/-- `lua_tonumberx`. -/
def tonumberx : Value → Option (BitVec 64)
  | .number n => some n
  | .string s => C.str2d s
  | _ => none

/-- `luaL_checknumber`. -/
def checknumber : Call (BitVec 64) :=
  match tonumberx C (args narg) with
  | some n => pure n
  | none => .raise (.tag_error narg .number)

/-- `luaL_checkinteger`. -/
def checkinteger : Call Word := do
  let n ← checknumber C args narg
  return num2int C n

/-- `luaL_optinteger`. -/
def optinteger (default : Word) : Call Word :=
  match args narg with
  | .nil => pure default
  | _ => checkinteger C args narg

/-- `luaL_checkunsigned`. -/
def checkunsigned : Call Word := do
  let n ← checknumber C args narg
  return num2unsigned C n

/-- `luaL_checkinteger64`. -/
def checkinteger64 : Call Long :=
  match args narg with
  | .integer l => pure l
  | _ => .raise (.tag_error narg .integer)

/-- `luaL_checklstring`. -/
def checklstring : Call TString :=
  match args narg with
  | .string s => pure s
  | .number n => pure (C.text n)
  | _ => .raise (.tag_error narg .string)

/-- `luaL_checkbuffer`: which buffer it is, and its length. -/
def checkbuffer : Call (ℕ × ℕ) :=
  match args narg with
  | .buffer i => fun heap =>
    match heap[i]? with
    | some b => (.ok (i, b.data.length), heap)
    | none => (.error (.raised (.tag_error narg .buffer)), heap)
  | _ => .raise (.tag_error narg .buffer)

/-- `luaL_argcheck`. -/
def argcheck (p : Prop) [Decidable p] (extramsg : String) : Call Unit :=
  .raiseIf (¬ p) (.argerror narg extramsg)

end Arguments

/-! ### The functions -/

/-- What a function pushes. -/
inductive Pushed where
  | nothing
  | number (z : ℤ)
  | double (n : BitVec 64)
  | integer (l : Long)
  | string (s : TString)
  | buffer (i : ℕ)

/-- The types of `buffer_readinteger` and `buffer_writeinteger`. -/
inductive IntType where
  | int8_t | uint8_t | int16_t | uint16_t | int32_t | uint32_t
deriving DecidableEq

/-- `sizeof`. -/
def IntType.size : IntType → ℕ
  | int8_t | uint8_t => 1
  | int16_t | uint16_t => 2
  | int32_t | uint32_t => 4

/-- Whether there are negative values. -/
def IntType.signed : IntType → Bool
  | int8_t | int16_t | int32_t => true
  | uint8_t | uint16_t | uint32_t => false

/-- The value of the type that an integer becomes. -/
def IntType.wrap (T : IntType) (z : ℤ) : ℤ :=
  if T.signed then z.bmod (256 ^ T.size) else z % 256 ^ T.size

/-- The types of `buffer_readfp` and `buffer_writefp`. -/
inductive FpType where
  | float | double
deriving DecidableEq

/-- `sizeof`. -/
def FpType.size : FpType → ℕ
  | float => 4
  | double => 8

/-- The error of an access beyond the bytes. -/
def outOfBounds : Error := .error "buffer access out of bounds"

def isoutofbounds (offset : Word) (len accessize : ℕ) : Prop :=
  (offset.toNat + accessize) % 2 ^ 64 > len

instance (offset : Word) (len accessize : ℕ) : Decidable (isoutofbounds offset len accessize) :=
  inferInstanceAs (Decidable (_ > _))

/-- `lua_newbuffer`. -/
def newbuffer (data : Bytes) : Call Pushed := fun heap =>
  if h : data.length ≤ MAX_BUFFER_SIZE then (.ok (.buffer heap.length), heap ++ [⟨data, h⟩])
  else (.error (.raised .toobig), heap)

/-- `lua_pushlstring`. -/
def pushlstring (s : Bytes) : Call Pushed :=
  if h : s.length ≤ MAXSSIZE then pure (.string ⟨s, h⟩) else .raise .toobig

section Library

variable (C : Casts) (args : ℕ → Value)

def buffer_create : Call Pushed := do
  let size ← checkinteger C args 1
  argcheck 1 (0 ≤ size.toInt) "size"
  newbuffer (List.replicate size.toNat 0)

def buffer_fromstring : Call Pushed := do
  let val ← checklstring C args 1
  newbuffer val.data

def buffer_tostring : Call Pushed := do
  let (buf, len) ← checkbuffer args 1
  let s ← Call.load buf 0 len
  pushlstring s

def buffer_readinteger (T : IntType) : Call Pushed := do
  let (buf, len) ← checkbuffer args 1
  let offset ← checkinteger C args 2
  Call.raiseIf (isoutofbounds offset len T.size) outOfBounds
  let val ← Call.load buf offset.toInt T.size
  return .number (T.wrap (leNat val))

def buffer_writeinteger (T : IntType) : Call Pushed := do
  let (buf, len) ← checkbuffer args 1
  let offset ← checkinteger C args 2
  let value ← checkunsigned C args 3
  Call.raiseIf (isoutofbounds offset len T.size) outOfBounds
  Call.store buf offset.toInt (leBytes T.size value.toInt)
  return .nothing

def buffer_readlong : Call Pushed := do
  let (buf, len) ← checkbuffer args 1
  let offset ← checkinteger C args 2
  Call.raiseIf (isoutofbounds offset len 8) outOfBounds
  let val ← Call.load buf offset.toInt 8
  return .integer (BitVec.ofNat 64 (leNat val))

def buffer_writelong : Call Pushed := do
  let (buf, len) ← checkbuffer args 1
  let offset ← checkinteger C args 2
  let value ← checkinteger64 args 3
  Call.raiseIf (isoutofbounds offset len 8) outOfBounds
  Call.store buf offset.toInt (leBytes 8 value.toInt)
  return .nothing

/-- `double(val)`. -/
def FpType.read (T : FpType) (val : Bytes) : BitVec 64 :=
  match T with
  | float => C.double (BitVec.ofNat 32 (leNat val))
  | double => BitVec.ofNat 64 (leNat val)

/-- The bytes of `T(value)`. -/
def FpType.bytes (T : FpType) (value : BitVec 64) : Bytes :=
  match T with
  | float => leBytes 4 (C.float value).toNat
  | double => leBytes 8 value.toNat

def buffer_readfp (T : FpType) : Call Pushed := do
  let (buf, len) ← checkbuffer args 1
  let offset ← checkinteger C args 2
  Call.raiseIf (isoutofbounds offset len T.size) outOfBounds
  let val ← Call.load buf offset.toInt T.size
  return .double (T.read C val)

def buffer_writefp (T : FpType) : Call Pushed := do
  let (buf, len) ← checkbuffer args 1
  let offset ← checkinteger C args 2
  let value ← checknumber C args 3
  Call.raiseIf (isoutofbounds offset len T.size) outOfBounds
  Call.store buf offset.toInt (T.bytes C value)
  return .nothing

def buffer_readstring : Call Pushed := do
  let (buf, len) ← checkbuffer args 1
  let offset ← checkinteger C args 2
  let size ← checkinteger C args 3
  argcheck 3 (0 ≤ size.toInt) "size"
  Call.raiseIf (isoutofbounds offset len size.toNat) outOfBounds
  let s ← Call.load buf offset.toInt size.toNat
  pushlstring s

def buffer_writestring : Call Pushed := do
  let (buf, len) ← checkbuffer args 1
  let offset ← checkinteger C args 2
  let val ← checklstring C args 3
  let count ← optinteger C args 4 (BitVec.ofNat 32 val.data.length)
  argcheck 4 (0 ≤ count.toInt) "count"
  Call.raiseIf (count.toNat > val.data.length) (.error "string length overflow")
  Call.raiseIf (isoutofbounds offset len count.toNat) outOfBounds
  Call.store buf offset.toInt (val.data.take count.toNat)
  return .nothing

def buffer_len : Call Pushed := do
  let (_, len) ← checkbuffer args 1
  return .number len

def buffer_copy : Call Pushed := do
  let (tbuf, tlen) ← checkbuffer args 1
  let toffset ← checkinteger C args 2
  let (sbuf, slen) ← checkbuffer args 3
  let soffset ← optinteger C args 4 0
  let size ← optinteger C args 5 (BitVec.ofNat 32 slen - soffset)
  Call.raiseIf (size.toInt < 0) outOfBounds
  Call.raiseIf (isoutofbounds soffset slen size.toNat) outOfBounds
  Call.raiseIf (isoutofbounds toffset tlen size.toNat) outOfBounds
  -- `memmove` works as if through a temporary
  let s ← Call.load sbuf soffset.toInt size.toNat
  Call.store tbuf toffset.toInt s
  return .nothing

def buffer_fill : Call Pushed := do
  let (buf, len) ← checkbuffer args 1
  let offset ← checkinteger C args 2
  let value ← checkunsigned C args 3
  let size ← optinteger C args 4 (BitVec.ofNat 32 len - offset)
  Call.raiseIf (size.toInt < 0) outOfBounds
  Call.raiseIf (isoutofbounds offset len size.toNat) outOfBounds
  Call.store buf offset.toInt (List.replicate size.toNat (UInt8.ofNat (value &&& 0xff).toNat))
  return .nothing

/-- `memcpy` to a variable of eight bytes that is zero. -/
def loadLong (buf : ℕ) (startbyte endbyte : Word) : Call Long :=
  if 8 < (endbyte - startbyte).toNat then .outside
  else do
    let s ← Call.load buf startbyte.toNat (endbyte - startbyte).toNat
    return BitVec.ofNat 64 (leNat s)

def buffer_readbits : Call Pushed := do
  let (buf, len) ← checkbuffer args 1
  let bitoffset := num2long C (← checknumber C args 2)
  let bitcount ← checkinteger C args 3
  Call.raiseIf (bitoffset.toInt < 0) outOfBounds
  Call.raiseIf (bitcount.toNat > 32) (.error "bit count is out of range of [0; 32]")
  Call.raiseIf ((bitoffset + bitcount.signExtend 64).toNat > len * 8) outOfBounds
  let startbyte : Word := (bitoffset.sdiv 8).setWidth 32
  let endbyte : Word := ((bitoffset + bitcount.signExtend 64 + 7).sdiv 8).setWidth 32
  let data ← loadLong buf startbyte endbyte
  let subbyteoffset := bitoffset &&& 7
  let mask : Long := (1#64 <<< bitcount.toNat) - 1
  return .number ((data >>> subbyteoffset.toNat) &&& mask |>.setWidth 32 : Word).toNat

def buffer_writebits : Call Pushed := do
  let (buf, len) ← checkbuffer args 1
  let bitoffset := num2long C (← checknumber C args 2)
  let bitcount ← checkinteger C args 3
  let value ← checkunsigned C args 4
  Call.raiseIf (bitoffset.toInt < 0) outOfBounds
  Call.raiseIf (bitcount.toNat > 32) (.error "bit count is out of range of [0; 32]")
  Call.raiseIf ((bitoffset + bitcount.signExtend 64).toNat > len * 8) outOfBounds
  let startbyte : Word := (bitoffset.sdiv 8).setWidth 32
  let endbyte : Word := ((bitoffset + bitcount.signExtend 64 + 7).sdiv 8).setWidth 32
  let data ← loadLong buf startbyte endbyte
  let subbyteoffset := bitoffset &&& 7
  let mask : Long := ((1#64 <<< bitcount.toNat) - 1) <<< subbyteoffset.toNat
  let data := (data &&& ~~~mask) ||| ((value.setWidth 64 <<< subbyteoffset.toNat) &&& mask)
  Call.store buf startbyte.toNat (leBytes (endbyte - startbyte).toNat data.toNat)
  return .nothing

end Library

/-! ### Sequences of calls -/

/-- A function of the library. -/
inductive Function where
  | create | fromstring | tostring | len
  | readinteger (T : IntType) | writeinteger (T : IntType)
  | readlong | writelong
  | readfp (T : FpType) | writefp (T : FpType)
  | readstring | writestring
  | copy | fill
  | readbits | writebits
deriving DecidableEq

def Function.call (C : Casts) (args : ℕ → Value) : Function → Call Pushed
  | create => buffer_create C args
  | fromstring => buffer_fromstring C args
  | tostring => buffer_tostring args
  | len => buffer_len args
  | readinteger T => buffer_readinteger C args T
  | writeinteger T => buffer_writeinteger C args T
  | readlong => buffer_readlong C args
  | writelong => buffer_writelong C args
  | readfp T => buffer_readfp C args T
  | writefp T => buffer_writefp C args T
  | readstring => buffer_readstring C args
  | writestring => buffer_writestring C args
  | copy => buffer_copy C args
  | fill => buffer_fill C args
  | readbits => buffer_readbits C args
  | writebits => buffer_writebits C args

/-- A sequence of calls: what each of them gives, and the buffers after them. -/
def run (C : Casts) : List (Function × (ℕ → Value)) → Heap → List (Except Stop Pushed) × Heap
  | [], heap => ([], heap)
  | (f, args) :: calls, heap =>
    let (r, heap₁) := f.call C args heap
    let (rs, heap') := run C calls heap₁
    (r :: rs, heap')

end BufLib

end Jaci
