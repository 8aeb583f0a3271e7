import Jaci.Ffi.Types

/-!
# Reading and writing memory through the foreign function interface

`ffi.read`, `ffi.write`, `ffi.string`, `ffi.copy` and `ffi.fill` work on raw memory: on the bytes of
a buffer, or on those at an address.  An offset and a count are an `int` that becomes a `size_t`,
and the length of the buffer is not looked at.

* `Machine`, `Call` : memory with the accesses made to it, and a function that may raise;
* `ffi_read`, `ffi_write`, `ffi_string`, `ffi_copy`, `ffi_fill` : the library;
* `Kept` : what is made of the bytes of a buffer stays inside it;
* **`kept_iff`** : which calls do that.
-/

namespace Jaci

namespace Ffi

open Wire

/-! ### Memory -/

/-- `LUA_TBUFFER`: the address of its bytes and their number, at most `MAX_BUFFER_SIZE`. -/
structure Buffer where
  data : ℕ
  len : ℕ
  data_pos : 0 < data
  /-- `MAX_BUFFER_SIZE`. -/
  len_le : len ≤ 2 ^ 30
  fits : data + len ≤ 2 ^ 64

/-- The number of addresses. -/
abbrev addresses : ℕ := 2 ^ 64

/-- A read or a write of a number of bytes. -/
structure Access where
  write : Bool
  /-- The argument whose bytes these are, or none for an address found in memory. -/
  through : Option ℕ
  addr : ℕ
  width : ℕ
deriving DecidableEq

/-- Every byte of an access is one of the buffer. -/
def Access.Inside (a : Access) (b : Buffer) : Prop :=
  b.data ≤ a.addr ∧ a.addr + a.width ≤ b.data + b.len

/-- Memory, and the accesses made to it. -/
structure Machine where
  memory : ℕ → UInt8
  /-- What was read and written, the last access first. -/
  accesses : List Access

/-- The types of values that messages name. -/
inductive Tag where
  /-- `LUA_TNUMBER`. -/
  | number
  /-- `LUA_TSTRING`. -/
  | string
  /-- `LUA_TBUFFER`. -/
  | buffer
deriving DecidableEq

/-- An error of the library. -/
inductive Error where
  /-- `luaL_typeerror`. -/
  | typeerror (narg : ℕ) (tname : Bytes)
  | tag_error (narg : ℕ) (tag : Tag)
  /-- `unknown FFI type: '%s'`. -/
  | unknownType (name : Bytes)
  /-- `luaM_toobig`. -/
  | toobig
deriving DecidableEq

/-- A function of the library: it returns or raises, and leaves memory behind. -/
def Call (α : Type) := Machine → Except Error α × Machine

namespace Call

variable {α β : Type}

protected def pure (x : α) : Call α := fun m => (.ok x, m)

/-- One call after the other. -/
protected def bind (x : Call α) (f : α → Call β) : Call β := fun m =>
  match x m with
  | (.ok a, m') => f a m'
  | (.error e, m') => (.error e, m')

instance : Monad Call where
  pure := Call.pure
  bind := Call.bind

def raise (e : Error) : Call α := fun m => (.error e, m)

def get : Call (ℕ → UInt8) := fun m => (.ok m.memory, m)

def load (through : Option ℕ) (addr width : ℕ) : Call Bytes := fun m =>
  (.ok ((List.range width).map fun i => m.memory ((addr + i) % addresses)),
    { m with accesses := ⟨false, through, addr, width⟩ :: m.accesses })

def store (through : Option ℕ) (addr : ℕ) (bytes : Bytes) : Call Unit := fun m =>
  (.ok (), {
    memory := fun a => bytes.getD ((a + addresses - addr) % addresses) (m.memory a)
    accesses := ⟨true, through, addr, bytes.length⟩ :: m.accesses })

@[simp] theorem pure_apply (x : α) (m : Machine) : (pure x : Call α) m = (.ok x, m) := rfl

@[simp] theorem raise_apply (e : Error) (m : Machine) :
    (raise e : Call α) m = (.error e, m) := rfl

@[simp] theorem raise_bind (e : Error) (f : α → Call β) : (raise e >>= f) = raise e := rfl

@[simp] theorem pure_bind (x : α) (f : α → Call β) : (pure x >>= f) = f x := rfl

@[simp] theorem get_bind (f : (ℕ → UInt8) → Call β) (m : Machine) :
    (get >>= f) m = f m.memory m := rfl

@[simp] theorem load_bind (t : Option ℕ) (addr width : ℕ) (f : Bytes → Call β) (m : Machine) :
    (load t addr width >>= f) m =
      f ((List.range width).map fun i => m.memory ((addr + i) % addresses))
        { m with accesses := ⟨false, t, addr, width⟩ :: m.accesses } := rfl

@[simp] theorem store_bind (t : Option ℕ) (addr : ℕ) (bytes : Bytes) (f : Unit → Call β)
    (m : Machine) : (store t addr bytes >>= f) m = f () {
      memory := fun a => bytes.getD ((a + addresses - addr) % addresses) (m.memory a)
      accesses := ⟨true, t, addr, bytes.length⟩ :: m.accesses } := rfl

end Call

/-- `strlen`, over so many bytes. -/
def strlen (memory : ℕ → UInt8) : ℕ → ℕ → ℕ
  | 0, _ => 0
  | k + 1, p => if memory (p % addresses) = 0 then 0 else strlen memory k (p + 1) + 1

/-! ### Values -/

/-- A Lua value, or none where there is no argument. -/
inductive Value where
  /-- `LUA_TNONE`. -/
  | none
  /-- `LUA_TNIL`. -/
  | nil
  /-- `LUA_TBOOLEAN`. -/
  | boolean (b : Bool)
  /-- `LUA_TNUMBER`: the bits of the double. -/
  | number (n : BitVec 64)
  /-- `LUA_TSTRING`: its address and its bytes. -/
  | string (data : ℕ) (s : Bytes)
  /-- `LUA_TLIGHTUSERDATA`. -/
  | lightuserdata (p : ℕ)
  /-- `LUA_TBUFFER`. -/
  | buffer (b : Buffer)
  /-- `LUA_TUSERDATA`: the address of its bytes. -/
  | userdata (data : ℕ)
  | other

/-- Conversions that C++ leaves to the machine, and those between numbers and strings. -/
structure Casts where
  /-- `(int)` of a number that is not in range. -/
  wide : BitVec 64 → Int32
  /-- `(intptr_t)` of a number that is not in range. -/
  wideptr : BitVec 64 → BitVec 64
  /-- `(float)` of a number. -/
  float : BitVec 64 → BitVec 32
  /-- The bytes of a number that was converted to a type. -/
  bytes : FFI_TypeKind → BitVec 64 → Bytes
  /-- The string of a number: its address and its bytes. -/
  text : BitVec 64 → ℕ × Bytes
  /-- `luaO_str2d`. -/
  str2d : Bytes → Option (BitVec 64)

/-- The exponent bits of a number. -/
def exponentBits (n : BitVec 64) : ℕ := n.toNat / 2 ^ 52 % 2 ^ 11

/-- The significand of a finite number, that counts units of `2 ^ (exponent - 1075)`. -/
def significand (n : BitVec 64) : ℕ :=
  if exponentBits n = 0 then n.toNat % 2 ^ 52 else 2 ^ 52 + n.toNat % 2 ^ 52

/-- The integer part of a finite number. -/
def truncated (n : BitVec 64) : Option ℤ :=
  let e := exponentBits n
  if e = 2 ^ 11 - 1 then none
  else
    let magnitude := if 1075 ≤ e then significand n <<< (e - 1075) else significand n >>> (1075 - e)
    some (if n.msb then -magnitude else magnitude)

/-- `size_t` of an `int`. -/
def sizeT (i : Int32) : ℕ := (i.toInt % (addresses : ℕ)).toNat

section Library

variable (C : Casts) (aliases : TypeAliases) (undef : UInt8)

/-- `luai_num2int`. -/
def num2int (n : BitVec 64) : Int32 :=
  match truncated n with
  | some z => if -2 ^ 31 ≤ z ∧ z < 2 ^ 31 then Int32.ofInt z else C.wide n
  | Option.none => C.wide n

/-- `(intptr_t)` of a number. -/
def intptr (n : BitVec 64) : BitVec 64 :=
  match truncated n with
  | some z => if -2 ^ 63 ≤ z ∧ z < 2 ^ 63 then BitVec.ofInt 64 z else C.wideptr n
  | Option.none => C.wideptr n

/-- `lua_tonumberx`. -/
def tonumberx : Value → Option (BitVec 64)
  | .number n => some n
  | .string _ s => C.str2d s
  | _ => Option.none

/-- `lua_tointegerx`. -/
def tointegerx (v : Value) : Option Int32 := (tonumberx C v).map (num2int C)

/-- `lua_tolstring`: the address of a string and its bytes. -/
def tolstring : Value → Option (ℕ × Bytes)
  | .number n => some (C.text n)
  | .string p s => some (p, s)
  | _ => Option.none

/-- `lua_isnoneornil`. -/
def isnoneornil : Value → Bool
  | .none | .nil => true
  | _ => false

/-- `lua_toboolean`. -/
def toboolean : Value → Bool
  | .none | .nil => false
  | .boolean b => b
  | _ => true

/-- The address of a value that has one. -/
def address : Value → Option ℕ
  | .lightuserdata p => some p
  | .buffer b => some b.data
  | _ => Option.none

/-- The address of a value that has bytes, and how many of them are known. -/
def addressAndLength : Value → Option (ℕ × ℕ)
  | .lightuserdata p => some (p, 0)
  | .buffer b => some (b.data, b.len)
  | v => (tolstring C v).map fun s => (s.1, s.2.length)

/-- `luaL_checkinteger`. -/
def checkinteger (args : ℕ → Value) (narg : ℕ) : Call Int32 :=
  match tointegerx C (args narg) with
  | some i => pure i
  | Option.none => .raise (.tag_error narg .number)

/-- `luaL_optinteger`. -/
def optinteger (args : ℕ → Value) (narg : ℕ) (default : Int32) : Call Int32 :=
  if isnoneornil (args narg) then pure default else checkinteger C args narg

/-- `luaL_checknumber`. -/
def checknumber (args : ℕ → Value) (narg : ℕ) : Call (BitVec 64) :=
  match tonumberx C (args narg) with
  | some n => pure n
  | Option.none => .raise (.tag_error narg .number)

/-- `luaL_checklstring`. -/
def checklstring (args : ℕ → Value) (narg : ℕ) : Call (ℕ × Bytes) :=
  match tolstring C (args narg) with
  | some s => pure s
  | Option.none => .raise (.tag_error narg .string)

/-- The bytes of a C string. -/
def cstr (s : Bytes) : Bytes := s.takeWhile (· ≠ 0)

/-- `resolveTypeKind` with a state to raise in. -/
def resolve (name : Bytes) : Call FFI_TypeKind :=
  match resolveTypeKind aliases undef name with
  | some info => pure info.kind
  | Option.none => .raise (.unknownType name)

/-- What a function pushes. -/
inductive Pushed where
  | nothing
  | nil
  | boolean (b : Bool)
  | number (kind : FFI_TypeKind) (bytes : Bytes)
  | lightuserdata (p : ℕ)
  | string (s : Bytes)
deriving DecidableEq

def MAXSSIZE : ℕ := 2 ^ 30

/-- `lua_pushlstring`: the bytes are read for their hash before their number is checked. -/
def pushlstring (through : Option ℕ) (p len : ℕ) : Call Pushed := do
  let s ← Call.load through p len
  if MAXSSIZE < len then .raise .toobig else pure (.string s)

/-- `lua_pushstring` of an address that is not null. -/
def pushstring (through : Option ℕ) (p : ℕ) : Call Pushed := do
  let memory ← Call.get
  let len := strlen memory addresses p
  let _ ← Call.load through p (len + 1)
  pushlstring through p len

def getPtrFromArg (args : ℕ → Value) (idx : ℕ) : Call ℕ :=
  match args idx with
  | .lightuserdata p => pure p
  | .buffer b => pure b.data
  | .number n => pure (intptr C n).toNat
  | _ => .raise (.typeerror idx (str "pointer or buffer"))

/-- The arguments of `ffi_read` and `ffi_write` that they share: the address, the offset and the
kind. -/
def target (args : ℕ → Value) : Call (ℕ × Int32 × FFI_TypeKind) := do
  let base ← getPtrFromArg C args 1
  let offset ← optinteger C args 2 0
  let (_, typeName) ← checklstring C args 3
  let kind ← resolve aliases undef (cstr typeName)
  pure (base, offset, kind)

/-- The switch of `ffi_read`. -/
def readAt (ptr : ℕ) (kind : FFI_TypeKind) : Call Pushed :=
  match kind with
  | .BOOL => do
    let v ← Call.load (some 1) ptr 1
    pure (.boolean (v ≠ [0]))
  | .I8 | .U8 => do
    let v ← Call.load (some 1) ptr 1
    pure (.number kind v)
  | .I16 | .U16 => do
    let v ← Call.load (some 1) ptr 2
    pure (.number kind v)
  | .I32 | .U32 | .F32 => do
    let v ← Call.load (some 1) ptr 4
    pure (.number kind v)
  | .I64 | .U64 | .F64 => do
    let v ← Call.load (some 1) ptr 8
    pure (.number kind v)
  | .PTR | .BUF => do
    let v ← Call.load (some 1) ptr 8
    pure (.lightuserdata (leNat v))
  | .STR => do
    let s ← Call.load (some 1) ptr 8
    if leNat s ≠ 0 then pushstring Option.none (leNat s) else pure .nil
  | .VOID => pure .nil

def ffi_read (args : ℕ → Value) : Call Pushed := do
  let (base, offset, kind) ← target C aliases undef args
  if base = 0 then pure .nil else readAt ((base + sizeT offset) % addresses) kind

/-- Store a number as a type of so many bytes. -/
def storeNumber (args : ℕ → Value) (kind : FFI_TypeKind) (ptr width : ℕ) : Call Pushed := do
  let v ← checknumber C args 4
  Call.store (some 1) ptr ((C.bytes kind v).takeD width 0)
  pure .nothing

/-- The switch of `ffi_write`. -/
def writeAt (args : ℕ → Value) (ptr : ℕ) (kind : FFI_TypeKind) : Call Pushed :=
  match kind with
  | .BOOL => do
    Call.store (some 1) ptr [if toboolean (args 4) then 1 else 0]
    pure .nothing
  | .I8 | .U8 => storeNumber C args kind ptr 1
  | .I16 | .U16 => storeNumber C args kind ptr 2
  | .I32 | .U32 | .F32 => storeNumber C args kind ptr 4
  | .I64 | .U64 | .F64 => storeNumber C args kind ptr 8
  | .PTR | .BUF => do
    let v := match args 4 with
      | .lightuserdata p => p
      | .buffer b => b.data
      | .number n => (intptr C n).toNat
      | _ => 0
    Call.store (some 1) ptr (leBytes 8 v)
    pure .nothing
  | .STR => do
    let s ← match args 4 with
      | .nil => (pure 0 : Call ℕ)
      | _ => do
        let (p, _) ← checklstring C args 4
        pure p
    Call.store (some 1) ptr (leBytes 8 s)
    pure .nothing
  | .VOID => pure .nothing

def ffi_write (args : ℕ → Value) : Call Pushed := do
  let (base, offset, kind) ← target C aliases undef args
  if base = 0 then pure .nothing else writeAt C args ((base + sizeT offset) % addresses) kind

def ffi_string (args : ℕ → Value) : Call Pushed := do
  let ptr ← getPtrFromArg C args 1
  if ptr = 0 then pure .nil
  else if isnoneornil (args 2) then pushstring (some 1) ptr
  else do
    let len ← checkinteger C args 2
    pushlstring (some 1) ptr (sizeT len)

/-- The destination of `ffi_copy` and `ffi_fill`. -/
def destination (args : ℕ → Value) : Call ℕ :=
  match address (args 1) with
  | some p => pure p
  | Option.none => .raise (.typeerror 1 (str "pointer or buffer"))

/-- The source of `ffi_copy` and its length. -/
def source (args : ℕ → Value) : Call (ℕ × ℕ) :=
  match addressAndLength C (args 2) with
  | some s => pure s
  | Option.none => .raise (.typeerror 2 (str "pointer, buffer, or string"))

def ffi_copy (args : ℕ → Value) : Call Pushed := do
  let dst ← destination args
  let (src, srclen) ← source C args
  let count ← optinteger C args 3 (Int32.ofInt srclen)
  if dst = 0 ∨ src = 0 ∨ sizeT count = 0 then pure .nothing
  else do
    let v ← Call.load (some 2) src (sizeT count)
    Call.store (some 1) dst v
    pure .nothing

def ffi_fill (args : ℕ → Value) : Call Pushed := do
  let dst ← destination args
  let count ← checkinteger C args 2
  let val ← optinteger C args 3 0
  if dst ≠ 0 ∧ 0 < sizeT count then do
    Call.store (some 1) dst (List.replicate (sizeT count) (UInt8.ofInt val.toInt))
    pure .nothing
  else pure .nothing

/-- The five functions. -/
inductive Function where
  | read
  | write
  | string
  | copy
  | fill
deriving DecidableEq

/-- Call a function with its arguments, that are counted from 1. -/
def call (args : ℕ → Value) : Function → Call Pushed
  | .read => ffi_read C aliases undef args
  | .write => ffi_write C aliases undef args
  | .string => ffi_string C args
  | .copy => ffi_copy C args
  | .fill => ffi_fill C args

end Library

/-! ### Staying inside the buffers -/

/-- Every access to the bytes of an argument that is a buffer is one of its bytes, and a call that
raises changes nothing. -/
structure Kept (args : ℕ → Value) (memory : ℕ → UInt8) (o : Except Error Pushed × Machine) :
    Prop where
  inside : ∀ a ∈ o.2.accesses, ∀ i b, a.through = some i → args i = .buffer b → a.Inside b
  unchanged : ∀ e, o.1 = .error e → o.2.memory = memory

section Within

variable (C : Casts) (aliases : TypeAliases) (undef : UInt8)

/-- The number of bytes of a value of a kind that is read or written. -/
def FFI_TypeKind.width : FFI_TypeKind → ℕ
  | .VOID => 0
  | .BOOL | .I8 | .U8 => 1
  | .I16 | .U16 => 2
  | .I32 | .U32 | .F32 => 4
  | .I64 | .U64 | .F64 | .PTR | .STR | .BUF => 8

/-- Whether a value can be written as a kind. -/
def writable (v : Value) : FFI_TypeKind → Bool
  | .VOID | .BOOL | .PTR | .BUF => true
  | .STR => match v with
    | .nil => true
    | _ => (tolstring C v).isSome
  | _ => (tonumberx C v).isSome

/-- The value of an argument that may be left out, if it has one. -/
def optional (v : Value) (default : Int32) : Option Int32 :=
  if isnoneornil v then some default else tointegerx C v

/-- The type of an access to a buffer, and the offset. -/
structure Typed (args : ℕ → Value) (b : Buffer) (offset : Int32) (kind : FFI_TypeKind) : Prop where
  base : args 1 = .buffer b
  offset : optional C (args 2) 0 = some offset
  kind : ∃ s info, tolstring C (args 3) = some s ∧
    resolveTypeKind aliases undef (cstr s.2) = some info ∧ info.kind = kind

/-- So many bytes from an offset are bytes of the buffer. -/
def Fits (b : Buffer) (offset : ℤ) (width : ℕ) : Prop := 0 ≤ offset ∧ offset + width ≤ b.len

/-- The first so many bytes of the buffers among two values are there. -/
def Holds (v : Value) (count : Int32) : Prop :=
  ∀ b, v = .buffer b → 0 ≤ count.toInt ∧ count.toInt ≤ b.len

/-- When a function stays inside the buffers: a value that is read or written at an offset fits, a
string ends in the buffer or has a count of bytes of it, and so have the other functions. -/
def Within (args : ℕ → Value) (memory : ℕ → UInt8) : Function → Prop
  | .read => ∀ b offset kind, Typed C aliases undef args b offset kind → kind.width = 0 ∨
      Fits b offset.toInt kind.width
  | .write => ∀ b offset kind, Typed C aliases undef args b offset kind →
      writable C (args 4) kind → kind.width = 0 ∨ Fits b offset.toInt kind.width
  | .string =>
    if isnoneornil (args 2) then
      ∀ b, args 1 = .buffer b → ∃ i < b.len, memory (b.data + i) = 0
    else ∀ count, tointegerx C (args 2) = some count → Holds (args 1) count
  | .copy => ∀ dst src count, address (args 1) = some dst →
      addressAndLength C (args 2) = some src →
      optional C (args 3) (Int32.ofInt src.2) = some count → dst ≠ 0 → src.1 ≠ 0 →
      Holds (args 1) count ∧ Holds (args 2) count
  | .fill => ∀ count, (optional C (args 3) 0).isSome → tointegerx C (args 2) = some count →
      Holds (args 1) count

end Within

/-! ### Addresses -/

theorem sizeT_cast (i : Int32) : (sizeT i : ℤ) = i.toInt % 2 ^ 64 := by
  rw [sizeT, Int.toNat_of_nonneg (Int.emod_nonneg _ (by norm_num))]
  norm_num

theorem inside_offset {b : Buffer} (i : Int32) {write : Bool} {t : Option ℕ} {width : ℕ}
    (hpos : 0 < width) :
    Access.Inside ⟨write, t, (b.data + sizeT i) % addresses, width⟩ b ↔ Fits b i.toInt width := by
  have hsize := sizeT_cast i
  have hlow := i.le_toInt
  have hhigh := i.toInt_lt
  have hlen := b.len_le
  have hfits := b.fits
  simp only [Access.Inside, Fits, addresses] at *
  omega

theorem inside_count {b : Buffer} (i : Int32) {write : Bool} {t : Option ℕ} :
    Access.Inside ⟨write, t, b.data, sizeT i⟩ b ↔ 0 ≤ i.toInt ∧ i.toInt ≤ b.len := by
  have hsize := sizeT_cast i
  have hlow := i.le_toInt
  have hhigh := i.toInt_lt
  have hlen := b.len_le
  simp only [Access.Inside] at *
  omega

theorem strlen_le {memory : ℕ → UInt8} {k p n : ℕ} (h : memory ((p + n) % addresses) = 0)
    (hn : n < k) : strlen memory k p ≤ n := by
  induction k generalizing p n with
  | zero => omega
  | succ k ih =>
    rw [strlen]
    split
    · omega
    case isFalse hp =>
      cases n with
      | zero => exact absurd h hp
      | succ n =>
        have := ih (p := p + 1) (n := n) (by rwa [show p + 1 + n = p + (n + 1) by omega]) (by omega)
        omega

theorem memory_strlen {memory : ℕ → UInt8} {k p : ℕ} (h : strlen memory k p < k) :
    memory ((p + strlen memory k p) % addresses) = 0 := by
  induction k generalizing p with
  | zero => omega
  | succ k ih =>
    rw [strlen] at h ⊢
    split
    case isTrue hp => exact hp
    case isFalse hp =>
      rw [if_neg hp] at h
      have := ih (p := p + 1) (by omega)
      rwa [show p + (strlen memory k (p + 1) + 1) = p + 1 + strlen memory k (p + 1) by omega]

theorem inside_strlen {b : Buffer} {memory : ℕ → UInt8} {t : Option ℕ} :
    Access.Inside ⟨false, t, b.data, strlen memory addresses b.data + 1⟩ b ↔
      ∃ i < b.len, memory (b.data + i) = 0 := by
  have hlen := b.len_le
  have hfits := b.fits
  have hpos := b.data_pos
  have hmod : ∀ i < b.len, (b.data + i) % addresses = b.data + i := fun i hi =>
    Nat.mod_eq_of_lt (by simp only [addresses]; omega)
  constructor
  · rintro ⟨-, h⟩
    have hlt : strlen memory addresses b.data < b.len := by simp only at h; omega
    refine ⟨_, hlt, ?_⟩
    rw [← hmod _ hlt]
    exact memory_strlen (by simp only [addresses] at hlt ⊢; omega)
  · rintro ⟨i, hi, h⟩
    have := strlen_le (k := addresses) (p := b.data) (by rwa [hmod i hi])
      (show i < addresses by simp only [addresses]; omega)
    refine ⟨le_refl _, ?_⟩
    simp only
    omega

/-! ### The functions -/

section Results

variable {C : Casts} {aliases : TypeAliases} {undef : UInt8} {args : ℕ → Value}
  {memory : ℕ → UInt8}

theorem optinteger_eq (narg : ℕ) (default : Int32) :
    optinteger C args narg default = match optional C (args narg) default with
      | some i => pure i
      | Option.none => .raise (.tag_error narg .number) := by
  rw [optinteger, optional, checkinteger]
  split <;> rfl

theorem kept_of_error (e : Error) : Kept args memory (.error e, ⟨memory, []⟩) :=
  ⟨by simp, fun _ _ => rfl⟩

theorem kept_of_nil (v : Pushed) : Kept args memory (.ok v, ⟨memory, []⟩) :=
  ⟨by simp, fun _ _ => rfl⟩

/-- Accesses through the first argument, when one of them contains the others. -/
theorem kept_first {b : Buffer} (hb : args 1 = .buffer b) {a : Access} (ha : a.through = some 1)
    {m : Machine} (hmem : a ∈ m.accesses)
    (hall : ∀ a' ∈ m.accesses, a'.through = some 1 → a.Inside b → a'.Inside b)
    (hnone : ∀ a' ∈ m.accesses, ∀ i, a'.through = some i → i = 1)
    {r : Except Error Pushed} (hr : ∀ e, r = .error e → m.memory = memory) :
    Kept args memory (r, m) ↔ a.Inside b := by
  constructor
  · intro h
    exact h.inside a hmem 1 b ha hb
  · refine fun h => ⟨fun a' ha' i b' hi hb' => ?_, hr⟩
    obtain rfl := hnone a' ha' i hi
    rw [hb, Value.buffer.injEq] at hb'
    exact hb' ▸ hall a' ha' hi h

/-- One access through the first argument. -/
theorem kept_one {b : Buffer} (hb : args 1 = .buffer b) {write : Bool} {addr width : ℕ}
    {m : ℕ → UInt8} {v : Pushed} :
    Kept args memory (.ok v, ⟨m, [⟨write, some 1, addr, width⟩]⟩) ↔
      Access.Inside ⟨write, some 1, addr, width⟩ b :=
  kept_first hb rfl List.mem_cons_self (by simp) (by simp) (by simp)

/-- Accesses through no argument, or through one that is not a buffer, are not looked at. -/
theorem kept_of_through {m : Machine} {r : Except Error Pushed}
    (h : ∀ a ∈ m.accesses, ∀ i, a.through = some i → ∀ b, args i ≠ .buffer b)
    (hm : ∀ e, r = .error e → m.memory = memory) : Kept args memory (r, m) :=
  ⟨fun a ha i b hi hb => absurd hb (h a ha i hi b), hm⟩

theorem holds_of_not_buffer {v : Value} (h : ∀ b, v ≠ .buffer b) (count : Int32) :
    Holds v count := fun b hb => absurd hb (h b)

theorem sizeT_eq_zero {count : Int32} (h : sizeT count = 0) : count.toInt = 0 := by
  have hsize := sizeT_cast count
  have hlow := count.le_toInt
  have hhigh := count.toInt_lt
  omega

theorem holds_of_zero {count : Int32} (h : sizeT count = 0) (v : Value) : Holds v count := by
  intro b _
  rw [sizeT_eq_zero h]
  omega

theorem kept_fill : Kept args memory (ffi_fill C args ⟨memory, []⟩) ↔
    Within C aliases undef args memory .fill := by
  simp only [ffi_fill, destination, checkinteger, optinteger_eq, Within]
  cases hdst : address (args 1) with
  | none =>
    refine iff_of_true (kept_of_error _) fun count _ _ => holds_of_not_buffer (fun b hb => ?_) _
    rw [hb, address] at hdst
    cases hdst
  | some dst =>
    cases hcount : tointegerx C (args 2) with
    | none => exact iff_of_true (kept_of_error _) fun _ _ h => by cases h
    | some count =>
      cases hval : optional C (args 3) 0 with
      | none => exact iff_of_true (kept_of_error _) fun _ h => by cases h
      | some val =>
        simp only [Call.pure_bind, Option.isSome_some, forall_const, Option.some.injEq,
          forall_eq']
        split
        case isTrue h =>
          cases hv : args 1 with
          | buffer b =>
            rw [hv, address, Option.some.injEq] at hdst
            subst hdst
            simp only [Holds, Value.buffer.injEq, forall_eq', Call.store_bind, Call.pure_apply,
              List.length_replicate]
            exact (kept_one hv).trans (inside_count count)
          | _ =>
            refine iff_of_true (kept_of_through ?_ fun e he => by cases he)
              (holds_of_not_buffer (by simp) _)
            intro a ha i hi b hb
            obtain rfl := List.mem_singleton.mp ha
            obtain rfl : 1 = i := Option.some.inj hi
            rw [hv] at hb
            cases hb
        case isFalse h =>
          refine iff_of_true (kept_of_nil _) ?_
          intro b hb
          rw [hb, address, Option.some.injEq] at hdst
          have hpos := b.data_pos
          have : sizeT count = 0 := by omega
          exact holds_of_zero this _ b hb

theorem pushlstring_apply (t : Option ℕ) (p len : ℕ) (m : Machine) :
    ∃ r, pushlstring t p len m = (r, ⟨m.memory, ⟨false, t, p, len⟩ :: m.accesses⟩) := by
  rw [pushlstring, Call.load_bind]
  split
  · exact ⟨_, rfl⟩
  · exact ⟨_, rfl⟩

theorem pushstring_apply (t : Option ℕ) (p : ℕ) (m : Machine) :
    ∃ r, pushstring t p m = (r, ⟨m.memory, ⟨false, t, p, strlen m.memory addresses p⟩ ::
      ⟨false, t, p, strlen m.memory addresses p + 1⟩ :: m.accesses⟩) :=
  pushlstring_apply t p _ _

/-! ### Reads -/

/-- A call that reads through no buffer. -/
def Foreign (args : ℕ → Value) {α : Type} (x : Call α) : Prop :=
  ∀ m, (∀ a ∈ m.accesses, ∀ i, a.through = some i → ∀ b, args i ≠ .buffer b) →
    (∀ a ∈ (x m).2.accesses, ∀ i, a.through = some i → ∀ b, args i ≠ .buffer b) ∧
      (x m).2.memory = m.memory

theorem Foreign.kept {x : Call Pushed} (h : Foreign args x) :
    Kept args memory (x ⟨memory, []⟩) :=
  kept_of_through (h _ (by simp)).1 fun _ _ => (h _ (by simp)).2

theorem foreign_pure {α : Type} (v : α) : Foreign args (pure v : Call α) := fun _ h => ⟨h, rfl⟩

theorem foreign_raise {α : Type} (e : Error) : Foreign args (.raise e : Call α) :=
  fun _ h => ⟨h, rfl⟩

theorem Foreign.bind {α β : Type} {x : Call α} {f : α → Call β} (hx : Foreign args x)
    (hf : ∀ v, Foreign args (f v)) : Foreign args (x >>= f) := by
  intro m hm
  have hafter := hx m hm
  show (∀ a ∈ (Call.bind x f m).2.accesses, _) ∧ (Call.bind x f m).2.memory = _
  rw [Call.bind]
  split
  case _ v m' heq =>
    rw [heq] at hafter
    have := hf v m' hafter.1
    exact ⟨this.1, this.2.trans hafter.2⟩
  case _ e m' heq =>
    rw [heq] at hafter
    exact hafter

theorem foreign_load {t : Option ℕ} (ht : ∀ i, t = some i → ∀ b, args i ≠ .buffer b)
    (addr width : ℕ) : Foreign args (Call.load t addr width) := by
  refine fun m hm => ⟨fun a ha i hi => ?_, rfl⟩
  obtain rfl | ha := List.mem_cons.mp ha
  · exact ht i hi
  · exact hm a ha i hi

theorem foreign_pushlstring {t : Option ℕ} (ht : ∀ i, t = some i → ∀ b, args i ≠ .buffer b)
    (p len : ℕ) : Foreign args (pushlstring t p len) := by
  refine (foreign_load ht _ _).bind fun s => ?_
  split
  · exact foreign_raise _
  · exact foreign_pure _

theorem foreign_pushstring {t : Option ℕ} (ht : ∀ i, t = some i → ∀ b, args i ≠ .buffer b)
    (p : ℕ) : Foreign args (pushstring t p) :=
  Foreign.bind (fun _ h => ⟨h, rfl⟩) fun _ =>
    (foreign_load ht _ _).bind fun _ => foreign_pushlstring ht _ _

theorem foreign_getPtrFromArg (idx : ℕ) : Foreign args (getPtrFromArg C args idx) := by
  rw [getPtrFromArg]
  split <;> first | exact foreign_pure _ | exact foreign_raise _

theorem foreign_checkinteger (narg : ℕ) : Foreign args (checkinteger C args narg) := by
  rw [checkinteger]
  split
  · exact foreign_pure _
  · exact foreign_raise _

theorem kept_string : Kept args memory (ffi_string C args ⟨memory, []⟩) ↔
    Within C aliases undef args memory .string := by
  rw [ffi_string]
  simp only [Within]
  cases hv : args 1 with
  | buffer b =>
    simp only [getPtrFromArg, hv, Call.pure_bind, if_neg b.data_pos.ne', Value.buffer.injEq,
      forall_eq']
    split
    · obtain ⟨r, hr⟩ := pushstring_apply (some 1) b.data ⟨memory, []⟩
      rw [hr, ← inside_strlen]
      refine kept_first hv rfl (List.mem_cons_of_mem _ List.mem_cons_self) ?_ (by simp) (by simp)
      simp only [List.mem_cons, List.not_mem_nil, or_false, forall_eq_or_imp, forall_eq,
        Access.Inside]
      omega
    · rw [checkinteger]
      cases hcount : tointegerx C (args 2) with
      | none => exact iff_of_true (kept_of_error _) fun _ h => by cases h
      | some count =>
        simp only [Call.pure_bind, Option.some.injEq, forall_eq', Holds, Value.buffer.injEq]
        obtain ⟨r, hr⟩ := pushlstring_apply (some 1) b.data (sizeT count) ⟨memory, []⟩
        rw [hr, ← inside_count count]
        exact kept_first hv rfl List.mem_cons_self (by simp) (by simp) (by simp)
  | _ =>
    have hfirst : ∀ i, some 1 = some i → ∀ b, args i ≠ .buffer b := by
      rintro i hi b hb
      obtain rfl : 1 = i := Option.some.inj hi
      rw [hv] at hb
      cases hb
    refine iff_of_true (Foreign.kept ?_) (by split <;> simp [Holds])
    refine (foreign_getPtrFromArg 1).bind fun p => ?_
    split
    · exact foreign_pure _
    · split
      · exact foreign_pushstring hfirst p
      · exact (foreign_checkinteger 2).bind fun n => foreign_pushlstring hfirst _ _

/-- The arguments of an access raise an error, or the access has one type and offset. -/
theorem target_cases :
    (∃ e, target C aliases undef args = .raise e ∧
      ∀ b offset kind, ¬ Typed C aliases undef args b offset kind) ∨
    ∃ base offset kind, target C aliases undef args = pure (base, offset, kind) ∧
      ∀ b, args 1 = .buffer b → base = b.data ∧
        ∀ offset' kind', Typed C aliases undef args b offset' kind' ↔
          offset' = offset ∧ kind' = kind := by
  rw [target]
  by_cases hbase : ∃ base, getPtrFromArg C args 1 = pure base ∧
      ∀ b, args 1 = .buffer b → base = b.data
  · obtain ⟨base, hbase, hdata⟩ := hbase
    rw [hbase, Call.pure_bind, optinteger_eq]
    cases hoffset : optional C (args 2) 0 with
    | none => exact .inl ⟨_, rfl, fun b offset kind h => by rw [h.offset] at hoffset; cases hoffset⟩
    | some offset =>
      rw [Call.pure_bind, checklstring]
      cases hname : tolstring C (args 3) with
      | none =>
        refine .inl ⟨_, rfl, fun b offset kind h => ?_⟩
        obtain ⟨s, _, hs, _⟩ := h.kind
        rw [hs] at hname
        cases hname
      | some name =>
        simp only [Call.pure_bind, resolve]
        cases hinfo : resolveTypeKind aliases undef (cstr name.2) with
        | none =>
          refine .inl ⟨_, rfl, fun b offset kind h => ?_⟩
          obtain ⟨s, info, hs, hi, _⟩ := h.kind
          rw [hs, Option.some.injEq] at hname
          rw [hname, hinfo] at hi
          cases hi
        | some info =>
          refine .inr ⟨base, offset, info.kind, rfl, fun b hb => ⟨hdata b hb, fun o k => ?_⟩⟩
          constructor
          · intro h
            obtain ⟨s, info', hs, hi, rfl⟩ := h.kind
            rw [h.offset, Option.some.injEq] at hoffset
            rw [hs, Option.some.injEq] at hname
            rw [hname, hinfo, Option.some.injEq] at hi
            exact ⟨hoffset, by rw [hi]⟩
          · rintro ⟨rfl, rfl⟩
            exact ⟨hb, hoffset, name, info, hname, hinfo, rfl⟩
  · obtain ⟨e, he⟩ : ∃ e, getPtrFromArg C args 1 = .raise e := by
      rw [getPtrFromArg] at hbase ⊢
      split at hbase <;> first | exact ⟨_, rfl⟩ | exact absurd ⟨_, rfl, by simp_all⟩ hbase
    refine .inl ⟨e, by rw [he, Call.raise_bind], fun b offset kind h => hbase ⟨b.data, ?_, ?_⟩⟩
    · rw [getPtrFromArg, h.base]
    · intro b' hb'
      rw [h.base, Value.buffer.injEq] at hb'
      rw [hb']

/-- A read is one access of the width of the kind, or none. -/
theorem readAt_apply (ptr : ℕ) (kind : FFI_TypeKind) :
    (kind.width = 0 ∧ readAt ptr kind = pure .nil) ∨
      0 < kind.width ∧ ∃ r, ∃ l : List Access, (∀ a ∈ l, a.through = Option.none) ∧
        readAt ptr kind ⟨memory, []⟩ =
          (r, ⟨memory, l ++ [⟨false, some 1, ptr, kind.width⟩]⟩) := by
  cases kind with
  | VOID => exact .inl ⟨rfl, rfl⟩
  | STR =>
    refine .inr ⟨by decide, ?_⟩
    simp only [readAt, Call.load_bind]
    split
    · obtain ⟨r, hr⟩ := pushstring_apply Option.none
        (leNat ((List.range 8).map fun i => memory ((ptr + i) % addresses)))
        ⟨memory, [⟨false, some 1, ptr, 8⟩]⟩
      exact ⟨r, [_, _], by simp, hr⟩
    · exact ⟨_, [], by simp, rfl⟩
  | _ => exact .inr ⟨by decide, _, [], by simp, rfl⟩

/-- What a buffer makes of the condition of an access. -/
theorem forall_typed {b : Buffer} (hb : args 1 = .buffer b) {offset : Int32} {kind : FFI_TypeKind}
    (h : ∀ o k, Typed C aliases undef args b o k ↔ o = offset ∧ k = kind)
    (P : Buffer → Int32 → FFI_TypeKind → Prop) :
    (∀ b' o k, Typed C aliases undef args b' o k → P b' o k) ↔ P b offset kind := by
  constructor
  · exact fun hall => hall b offset kind ((h _ _).mpr ⟨rfl, rfl⟩)
  · intro hP b' o k htype
    obtain rfl : b' = b := by simpa [hb] using htype.base.symm
    obtain ⟨rfl, rfl⟩ := (h _ _).mp htype
    exact hP

theorem kept_read : Kept args memory (ffi_read C aliases undef args ⟨memory, []⟩) ↔
    Within C aliases undef args memory .read := by
  rw [ffi_read]
  simp only [Within]
  obtain ⟨e, htarget, hnone⟩ | ⟨base, offset, kind, htarget, htyped⟩ :=
    @target_cases C aliases undef args
  · rw [htarget]
    exact iff_of_true (kept_of_error e) fun b o k h => absurd h (hnone b o k)
  rw [htarget, Call.pure_bind]
  dsimp only
  have hread := @readAt_apply memory ((base + sizeT offset) % addresses) kind
  by_cases hv : ∃ b, args 1 = .buffer b
  · obtain ⟨b, hb⟩ := hv
    obtain ⟨rfl, hunique⟩ := htyped b hb
    rw [forall_typed hb hunique fun b o k => k.width = 0 ∨ Fits b o.toInt k.width,
      if_neg b.data_pos.ne']
    obtain ⟨hwidth, hread⟩ | ⟨hwidth, r, l, hl, hread⟩ := hread
    · rw [hread]
      exact iff_of_true (kept_of_nil _) (.inl hwidth)
    · rw [hread, or_iff_right hwidth.ne', ← inside_offset offset hwidth]
      refine kept_first hb rfl (List.mem_append_right _ List.mem_cons_self) ?_ ?_ fun _ _ => rfl
      · intro a ha hthrough hin
        obtain ha | ha := List.mem_append.mp ha
        · rw [hl a ha] at hthrough
          cases hthrough
        · rwa [List.mem_singleton.mp ha]
      · intro a ha i hi
        obtain ha | ha := List.mem_append.mp ha
        · rw [hl a ha] at hi
          cases hi
        · rw [List.mem_singleton.mp ha, Option.some.injEq] at hi
          exact hi.symm
  · refine iff_of_true ?_ fun b o k h => absurd ⟨b, h.base⟩ hv
    split
    · exact kept_of_nil _
    · obtain ⟨-, hread⟩ | ⟨-, r, l, hl, hread⟩ := hread
      · rw [hread]
        exact kept_of_nil _
      · rw [hread]
        refine kept_of_through (fun a ha i hi b hb => ?_) fun _ _ => rfl
        obtain ha | ha := List.mem_append.mp ha
        · rw [hl a ha] at hi
          cases hi
        · rw [List.mem_singleton.mp ha, Option.some.injEq] at hi
          exact hv ⟨b, hi ▸ hb⟩

theorem store_apply (ptr : ℕ) {bytes : Bytes} {width : ℕ} (h : bytes.length = width) :
    ∃ m, (do Call.store (some 1) ptr bytes; pure .nothing : Call Pushed) ⟨memory, []⟩ =
      (.ok .nothing, ⟨m, [⟨true, some 1, ptr, width⟩]⟩) := by
  subst h
  exact ⟨_, rfl⟩

theorem storeNumber_apply (kind : FFI_TypeKind) (ptr width : ℕ) :
    ((tonumberx C (args 4)).isSome = false ∧ ∃ e, storeNumber C args kind ptr width = .raise e) ∨
      ((tonumberx C (args 4)).isSome = true ∧ ∃ m,
        storeNumber C args kind ptr width ⟨memory, []⟩ =
          (.ok .nothing, ⟨m, [⟨true, some 1, ptr, width⟩]⟩)) := by
  rw [storeNumber, checknumber]
  cases tonumberx C (args 4) with
  | none => exact .inl ⟨rfl, _, rfl⟩
  | some n => exact .inr ⟨rfl, store_apply ptr (List.takeD_length _ _ _)⟩

/-- A write of a value that the kind takes is one access of its width, or none; another value raises
an error. -/
theorem writeAt_apply (ptr : ℕ) (kind : FFI_TypeKind) :
    (writable C (args 4) kind = false ∧ ∃ e, writeAt C args ptr kind = .raise e) ∨
      (writable C (args 4) kind = true ∧ kind.width = 0 ∧
        writeAt C args ptr kind = pure .nothing) ∨
      (writable C (args 4) kind = true ∧ 0 < kind.width ∧ ∃ m,
        writeAt C args ptr kind ⟨memory, []⟩ =
          (.ok .nothing, ⟨m, [⟨true, some 1, ptr, kind.width⟩]⟩)) := by
  have hnumber : ∀ kind : FFI_TypeKind, 0 < kind.width →
      writable C (args 4) kind = (tonumberx C (args 4)).isSome →
      writeAt C args ptr kind = storeNumber C args kind ptr kind.width →
      (writable C (args 4) kind = false ∧ ∃ e, writeAt C args ptr kind = .raise e) ∨
        (writable C (args 4) kind = true ∧ kind.width = 0 ∧
          writeAt C args ptr kind = pure .nothing) ∨
        (writable C (args 4) kind = true ∧ 0 < kind.width ∧ ∃ m,
          writeAt C args ptr kind ⟨memory, []⟩ =
            (.ok .nothing, ⟨m, [⟨true, some 1, ptr, kind.width⟩]⟩)) := by
    intro kind hwidth hwritable hwrite
    rw [hwritable, hwrite]
    obtain h | h := @storeNumber_apply C args memory kind ptr kind.width
    · exact .inl h
    · exact .inr (.inr ⟨h.1, hwidth, h.2⟩)
  cases kind with
  | VOID => exact .inr (.inl ⟨rfl, rfl, rfl⟩)
  | BOOL => exact .inr (.inr ⟨rfl, by decide, store_apply ptr rfl⟩)
  | PTR => exact .inr (.inr ⟨rfl, by decide, store_apply ptr (length_leBytes _ _)⟩)
  | BUF => exact .inr (.inr ⟨rfl, by decide, store_apply ptr (length_leBytes _ _)⟩)
  | STR =>
    simp only [writable, writeAt, checklstring]
    cases hv : args 4 with
    | nil => exact .inr (.inr ⟨rfl, by decide, store_apply ptr (length_leBytes _ _)⟩)
    | number n => exact .inr (.inr ⟨rfl, by decide, store_apply ptr (length_leBytes _ _)⟩)
    | string p s => exact .inr (.inr ⟨rfl, by decide, store_apply ptr (length_leBytes _ _)⟩)
    | _ => exact .inl ⟨rfl, _, rfl⟩
  | _ => exact hnumber _ (by decide) rfl rfl

theorem kept_write : Kept args memory (ffi_write C aliases undef args ⟨memory, []⟩) ↔
    Within C aliases undef args memory .write := by
  rw [ffi_write]
  simp only [Within]
  obtain ⟨e, htarget, hnone⟩ | ⟨base, offset, kind, htarget, htyped⟩ :=
    @target_cases C aliases undef args
  · rw [htarget]
    exact iff_of_true (kept_of_error e) fun b o k h => absurd h (hnone b o k)
  rw [htarget, Call.pure_bind]
  dsimp only
  have hwrite := @writeAt_apply C args memory ((base + sizeT offset) % addresses) kind
  by_cases hv : ∃ b, args 1 = .buffer b
  · obtain ⟨b, hb⟩ := hv
    obtain ⟨rfl, hunique⟩ := htyped b hb
    rw [forall_typed hb hunique fun b o k => writable C (args 4) k → k.width = 0 ∨
      Fits b o.toInt k.width, if_neg b.data_pos.ne']
    obtain ⟨hno, e, hwrite⟩ | ⟨-, hwidth, hwrite⟩ | ⟨hyes, hwidth, m, hwrite⟩ := hwrite
    · rw [hwrite]
      exact iff_of_true (kept_of_error _) fun h => by rw [hno] at h; cases h
    · rw [hwrite]
      exact iff_of_true (kept_of_nil _) fun _ => .inl hwidth
    · rw [hwrite, kept_one hb, inside_offset offset hwidth]
      simp only [hyes, forall_const, hwidth.ne', false_or]
  · refine iff_of_true ?_ fun b o k h => absurd ⟨b, h.base⟩ hv
    split
    · exact kept_of_nil _
    · obtain ⟨-, e, hwrite⟩ | ⟨-, -, hwrite⟩ | ⟨-, -, m, hwrite⟩ := hwrite
      · rw [hwrite]
        exact kept_of_error _
      · rw [hwrite]
        exact kept_of_nil _
      · rw [hwrite]
        refine kept_of_through (fun a ha i hi b hb => ?_) (by simp)
        rw [List.mem_singleton.mp ha, Option.some.injEq] at hi
        exact hv ⟨b, hi ▸ hb⟩

theorem data_of_address {v : Value} {p : ℕ} (h : address v = some p) (b : Buffer)
    (hb : v = .buffer b) : p = b.data := by
  rw [hb, address, Option.some.injEq] at h
  exact h.symm

theorem data_of_addressAndLength {v : Value} {p : ℕ × ℕ} (h : addressAndLength C v = some p)
    (b : Buffer) (hb : v = .buffer b) : p.1 = b.data := by
  rw [hb, addressAndLength, Option.some.injEq] at h
  rw [← h]

theorem holds_iff_inside {v : Value} {p : ℕ} (hp : ∀ b, v = .buffer b → p = b.data)
    (count : Int32) (write : Bool) (t : Option ℕ) :
    Holds v count ↔ ∀ b, v = .buffer b → Access.Inside ⟨write, t, p, sizeT count⟩ b := by
  refine forall_congr' fun b => forall_congr' fun hb => ?_
  rw [hp b hb]
  exact (inside_count count).symm

/-- A copy accesses the bytes of each buffer of the two. -/
theorem kept_copy : Kept args memory (ffi_copy C args ⟨memory, []⟩) ↔
    Within C aliases undef args memory .copy := by
  simp only [ffi_copy, destination, source, optinteger_eq, Within]
  cases hdst : address (args 1) with
  | none => exact iff_of_true (kept_of_error _) fun _ _ _ h => by cases h
  | some dst =>
    cases hsrc : addressAndLength C (args 2) with
    | none => exact iff_of_true (kept_of_error _) fun _ _ _ _ h => by cases h
    | some src =>
      simp only [Call.pure_bind, Option.some.injEq]
      cases hcount : optional C (args 3) (Int32.ofInt src.2) with
      | none =>
        exact iff_of_true (kept_of_error _) fun _ _ _ _ hs h => by
          rw [← hs, hcount] at h
          cases h
      | some count =>
        have hwithin : (∀ dst' src' count', dst = dst' → src = src' →
            optional C (args 3) (Int32.ofInt src'.2) = some count' → dst' ≠ 0 → src'.1 ≠ 0 →
            Holds (args 1) count' ∧ Holds (args 2) count') ↔
            (dst ≠ 0 → src.1 ≠ 0 → Holds (args 1) count ∧ Holds (args 2) count) := by
          constructor
          · exact fun h => h _ _ _ rfl rfl hcount
          · rintro h _ _ count' rfl rfl hcount'
            rw [hcount, Option.some.injEq] at hcount'
            exact hcount' ▸ h
        rw [hwithin, Call.pure_bind]
        split
        case isTrue hskip =>
          refine iff_of_true (kept_of_nil _) fun hd hs => ?_
          have hzero : sizeT count = 0 := by tauto
          exact ⟨holds_of_zero hzero _, holds_of_zero hzero _⟩
        case isFalse hskip =>
          rw [Call.load_bind, Call.store_bind]
          have hd : dst ≠ 0 := fun h => hskip (.inl h)
          have hs : src.1 ≠ 0 := fun h => hskip (.inr (.inl h))
          rw [holds_iff_inside (data_of_address hdst) count true (some 1),
            holds_iff_inside (data_of_addressAndLength hsrc) count false (some 2)]
          simp only [hd, hs, ne_eq, not_false_eq_true, forall_const, List.length_map,
            List.length_range, Call.pure_apply]
          constructor
          · exact fun h => ⟨fun b hb => h.inside _ List.mem_cons_self 1 b rfl hb,
              fun b hb => h.inside _ (List.mem_cons_of_mem _ List.mem_cons_self) 2 b rfl hb⟩
          · refine fun h => ⟨fun a ha i b hi hb => ?_, by simp⟩
            simp only [List.mem_cons, List.not_mem_nil, or_false] at ha
            obtain rfl | rfl := ha
            · obtain rfl : 1 = i := Option.some.inj hi
              exact h.1 b hb
            · obtain rfl : 2 = i := Option.some.inj hi
              exact h.2 b hb

/-- **A call stays inside the buffers exactly when what it reads or writes at an offset fits, and a
count is one of bytes that are there.** -/
theorem kept_iff (f : Function) : Kept args memory (call C aliases undef args f ⟨memory, []⟩) ↔
    Within C aliases undef args memory f := by
  cases f with
  | read => exact kept_read
  | write => exact kept_write
  | string => exact kept_string
  | copy => exact kept_copy
  | fill => exact kept_fill

end Results

/-- What a processor makes of numbers that are not in range; floats are cut off, and no number is
written as bytes or as a string. -/
def x64 : Casts where
  wide _ := Int32.minValue
  wideptr _ := 1 <<< 63
  float n := if exponentBits n < 897 then 0
    else BitVec.ofNat 32 ((n.toNat / 2 ^ 63) * 2 ^ 31 + (exponentBits n - 896) * 2 ^ 23 +
      n.toNat % 2 ^ 52 / 2 ^ 29)
  bytes _ _ := []
  text _ := (0, [])
  str2d _ := Option.none

def fourBytes : Buffer := ⟨64, 4, by decide, by decide, by decide⟩

/-- **A read of four bytes at the offset 1 of a buffer of four is none of its bytes only.** -/
theorem read_past_end : ¬ ∀ (C : Casts) (undef : UInt8) (args : ℕ → Value) (memory : ℕ → UInt8)
    (f : Function), Kept args memory (call C initFFITypes undef args f ⟨memory, []⟩) := by
  intro h
  let args : ℕ → Value := fun
    | 1 => .buffer fourBytes
    | 2 => .number 0x3ff0000000000000
    | 3 => .string 128 (str "i32")
    | _ => .none
  have hread := h x64 0 args (fun _ => 0) .read
  have := hread.inside ⟨false, some 1, 65, 4⟩ (by decide) 1 fourBytes rfl rfl
  exact absurd this.2 (by decide)

end Ffi

end Jaci
