import Jaci.BufLib.Library

/-!
# Buffers as arrays of bytes

What the calls of the library mean for arrays of bytes and of bits, in integers that have no bound.

* `Op`, `Op.Fits`, `Op.Effect` : an operation, when its range is inside of the array, what it does;
* `Put`, `PutBits` : every byte, or every bit, outside of the range is as before;
* `Function.meaning` : the operation that a call asks for;
* `Runs` : sequences of operations, where those that do not fit are refused.
-/

namespace Jaci

namespace BufLib

open Wire

/-! ### Arrays -/

def bytes (heap : Heap) (i : ℕ) : Bytes := ((heap[i]?).map Buffer.data).getD []

/-- A bit of an array; the first one is the least significant bit of the first byte. -/
def bit (a : Bytes) (i : ℕ) : Bool := (a.getD (i / 8) 0).toNat.testBit (i % 8)

def slice (a : Bytes) (o : ℤ) (n : ℕ) : Bytes := (a.drop o.toNat).take n

/-- An array `a'` is `a` with the bytes `s` from `o` on. -/
def Put (a : Bytes) (o : ℤ) (s a' : Bytes) : Prop :=
  a'.length = a.length ∧ ∀ i < a.length, a'.getD i 0 =
    if o ≤ i ∧ i < o + s.length then s.getD (i - o).toNat 0 else a.getD i 0

/-- An array `a'` is `a` with the low `c` bits of `v` from the bit `o` on. -/
def PutBits (a : Bytes) (o : ℤ) (c : ℕ) (v : ℤ) (a' : Bytes) : Prop :=
  a'.length = a.length ∧ ∀ i < 8 * a.length, bit a' i =
    if o ≤ i ∧ i < o + c then (v % 2 ^ c).toNat.testBit (i - o).toNat else bit a i

/-- Only one buffer is another one. -/
def Changes (heap : Heap) (i : ℕ) (a' : Bytes) (heap' : Heap) : Prop :=
  heap'.length = heap.length ∧ bytes heap' i = a' ∧ ∀ j ≠ i, bytes heap' j = bytes heap j

/-- There is one more buffer. -/
def Adds (heap : Heap) (a : Bytes) (heap' : Heap) : Prop :=
  heap'.length = heap.length + 1 ∧ bytes heap' heap.length = a ∧
    ∀ j < heap.length, bytes heap' j = bytes heap j

/-! ### Operations -/

/-- What the bytes of a range are read as. -/
inductive Format where
  | int (T : IntType)
  | long
  | fp (T : FpType)

/-- How many bytes there are. -/
def Format.size : Format → ℕ
  | int T => T.size
  | long => 8
  | fp T => T.size

/-- What the bytes stand for, the least significant byte first. -/
def Format.read (C : Casts) (s : Bytes) : Format → Pushed
  | int T => .number (T.wrap (leNat s))
  | long => .integer (BitVec.ofNat 64 (leNat s))
  | fp T => .double (T.read C s)

/-- An operation. -/
inductive Op where
  | create (size : ℤ)
  | fromstring (s : Bytes)
  | tostring (b : ℕ)
  | len (b : ℕ)
  | read (b : ℕ) (o : ℤ) (f : Format)
  | write (b : ℕ) (o : ℤ) (s : Bytes)
  | readstring (b : ℕ) (o size : ℤ)
  | writestring (b : ℕ) (o : ℤ) (s : Bytes) (count : ℤ)
  | copy (t : ℕ) (toff : ℤ) (s : ℕ) (soff size : ℤ)
  | fill (b : ℕ) (o value size : ℤ)
  | readbits (b : ℕ) (o count : ℤ)
  | writebits (b : ℕ) (o count value : ℤ)

/-- A range is inside of an array. -/
def Inside (heap : Heap) (b : ℕ) (o n : ℤ) : Prop :=
  0 ≤ n ∧ 0 ≤ o ∧ o + n ≤ (bytes heap b).length

/-- The range of an operation is inside of its array. -/
def Op.Fits (heap : Heap) : Op → Prop
  | create size => 0 ≤ size ∧ size ≤ MAX_BUFFER_SIZE
  | fromstring s => s.length ≤ MAX_BUFFER_SIZE
  | tostring _ | len _ => True
  | read b o f => Inside heap b o f.size
  | write b o s => Inside heap b o s.length
  | readstring b o size => Inside heap b o size
  | writestring b o s count => count ≤ s.length ∧ Inside heap b o count
  | copy t toff s soff size => Inside heap s soff size ∧ Inside heap t toff size
  | fill b o _ size => Inside heap b o size
  | readbits b o count | writebits b o count _ =>
    0 ≤ count ∧ count ≤ 32 ∧ 0 ≤ o ∧ o + count ≤ 8 * (bytes heap b).length

def Writes (heap : Heap) (b : ℕ) (o : ℤ) (s : Bytes) (r : Pushed) (heap' : Heap) : Prop :=
  r = .nothing ∧ ∃ a', Put (bytes heap b) o s a' ∧ Changes heap b a' heap'

/-- What an operation gives, and the buffers after it. -/
def Op.Effect (C : Casts) (heap : Heap) (r : Pushed) (heap' : Heap) : Op → Prop
  | create size => r = .buffer heap.length ∧ Adds heap (List.replicate size.toNat 0) heap'
  | fromstring s => r = .buffer heap.length ∧ Adds heap s heap'
  | tostring b => (∃ s : TString, r = .string s ∧ s.data = bytes heap b) ∧ heap' = heap
  | len b => r = .number (bytes heap b).length ∧ heap' = heap
  | read b o f => r = f.read C (slice (bytes heap b) o f.size) ∧ heap' = heap
  | write b o s => Writes heap b o s r heap'
  | readstring b o size =>
    (∃ s : TString, r = .string s ∧ s.data = slice (bytes heap b) o size.toNat) ∧ heap' = heap
  | writestring b o s count => Writes heap b o (s.take count.toNat) r heap'
  | copy t toff s soff size =>
    Writes heap t toff (slice (bytes heap s) soff size.toNat) r heap'
  | fill b o value size =>
    Writes heap b o (List.replicate size.toNat (UInt8.ofInt value)) r heap'
  | readbits b o count => (∃ n : ℕ, r = .number n ∧ n < 2 ^ count.toNat ∧
      ∀ j < count.toNat, n.testBit j = bit (bytes heap b) (o.toNat + j)) ∧ heap' = heap
  | writebits b o count value => r = .nothing ∧
      ∃ a', PutBits (bytes heap b) o count.toNat value a' ∧ Changes heap b a' heap'

/-! ### Calls -/

section Calls

variable (C : Casts) (args : ℕ → Value) (heap : Heap)

/-- An argument that is a buffer. -/
def bufferArg (narg : ℕ) : Option ℕ :=
  match args narg with
  | .buffer i => if i < heap.length then some i else none
  | _ => none

/-- An argument that is an integer. -/
def intArg (narg : ℕ) : Option ℤ := (tonumberx C (args narg)).bind Ffi.truncated

/-- An argument that may be missing. -/
def optArg (narg : ℕ) (default : ℤ) : Option ℤ :=
  match args narg with
  | .nil => some default
  | _ => intArg C args narg

/-- An argument that is an integer of 64 bits. -/
def longArg (narg : ℕ) : Option Long :=
  match args narg with
  | .integer l => some l
  | _ => none

/-- An argument that is a string. -/
def stringArg (narg : ℕ) : Option Bytes :=
  match args narg with
  | .string s => some s.data
  | .number n => some (C.text n).data
  | _ => none

/-- The operation that a call asks for, unless an argument has another type. -/
def Function.meaning : Function → Option Op
  | create => do return .create (← intArg C args 1)
  | fromstring => do return .fromstring (← stringArg C args 1)
  | tostring => do return .tostring (← bufferArg args heap 1)
  | len => do return .len (← bufferArg args heap 1)
  | readinteger T => do return .read (← bufferArg args heap 1) (← intArg C args 2) (.int T)
  | writeinteger T => do
    return .write (← bufferArg args heap 1) (← intArg C args 2)
      (leBytes T.size (← intArg C args 3))
  | readlong => do return .read (← bufferArg args heap 1) (← intArg C args 2) .long
  | writelong => do
    return .write (← bufferArg args heap 1) (← intArg C args 2)
      (leBytes 8 (← longArg args 3).toInt)
  | readfp T => do return .read (← bufferArg args heap 1) (← intArg C args 2) (.fp T)
  | writefp T => do
    return .write (← bufferArg args heap 1) (← intArg C args 2)
      (T.bytes C (← tonumberx C (args 3)))
  | readstring => do
    return .readstring (← bufferArg args heap 1) (← intArg C args 2) (← intArg C args 3)
  | writestring => do
    let b ← bufferArg args heap 1
    let o ← intArg C args 2
    let s ← stringArg C args 3
    return .writestring b o s (← optArg C args 4 s.length)
  | copy => do
    let t ← bufferArg args heap 1
    let toff ← intArg C args 2
    let s ← bufferArg args heap 3
    let soff ← optArg C args 4 0
    return .copy t toff s soff (← optArg C args 5 ((bytes heap s).length - soff))
  | fill => do
    let b ← bufferArg args heap 1
    let o ← intArg C args 2
    let value ← intArg C args 3
    return .fill b o value (← optArg C args 4 ((bytes heap b).length - o))
  | readbits => do
    return .readbits (← bufferArg args heap 1) (← intArg C args 2) (← intArg C args 3)
  | writebits => do
    return .writebits (← bufferArg args heap 1) (← intArg C args 2) (← intArg C args 3)
      (← intArg C args 4)

end Calls

/-- The arguments that are an offset, a size or a count. -/
def Function.ints : Function → List ℕ
  | create => [1]
  | fromstring | tostring | len => []
  | readinteger _ | writeinteger _ | readlong | writelong | readfp _ | writefp _ => [2]
  | readstring => [2, 3]
  | writestring | fill => [2, 4]
  | copy => [2, 4, 5]
  | readbits | writebits => [3]

/-- The arguments that are an integral value to write. -/
def Function.values : Function → List ℕ
  | writeinteger _ | fill => [3]
  | writebits => [4]
  | _ => []

/-- The arguments that are an offset in bits. -/
def Function.bitOffsets : Function → List ℕ
  | readbits | writebits => [2]
  | _ => []

/-- A number is an integer from `lo` on and less than `hi`. -/
def Ranges (C : Casts) (args : ℕ → Value) (lo hi : ℤ) (nargs : List ℕ) : Prop :=
  ∀ narg ∈ nargs, ∀ n, tonumberx C (args narg) = some n →
    ∃ z, Ffi.truncated n = some z ∧ lo ≤ z ∧ z < hi

/-- Offsets, sizes and counts are an `int`, and offsets in bits are less than `2 ^ 53`. -/
def Function.Offsets (C : Casts) (args : ℕ → Value) (f : Function) : Prop :=
  Ranges C args (-2 ^ 31) (2 ^ 31) f.ints ∧ Ranges C args (-2 ^ 53) (2 ^ 53) f.bitOffsets

/-- Values to write have at most 64 bits. -/
def Function.Values (C : Casts) (args : ℕ → Value) (f : Function) : Prop :=
  Ranges C args (-2 ^ 63) (2 ^ 63) f.values

/-- Sequences of operations on arrays: one that has no meaning or does not fit raises and changes
nothing, and every other one has its effect. -/
inductive Runs (C : Casts) :
    List (Function × (ℕ → Value)) → Heap → List (Except Stop Pushed) → Heap → Prop where
  | nil (heap : Heap) : Runs C [] heap [] heap
  | refused {f args calls heap rs heap'} (e : Error)
      (h : ∀ op, f.meaning C args heap = some op → ¬ op.Fits heap)
      (hrest : Runs C calls heap rs heap') :
      Runs C ((f, args) :: calls) heap (.error (.raised e) :: rs) heap'
  | returned {f args calls heap r heap₁ rs heap'} {op : Op}
      (h : f.meaning C args heap = some op) (hfits : op.Fits heap)
      (heffect : op.Effect C heap r heap₁) (hrest : Runs C calls heap₁ rs heap') :
      Runs C ((f, args) :: calls) heap (.ok r :: rs) heap'

end BufLib

end Jaci
