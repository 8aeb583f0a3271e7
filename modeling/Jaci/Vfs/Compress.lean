import Jaci.Lib.Wire
import Mathlib.Logic.Function.Basic

/-!
# The compressor of the virtual file system

`compress` is a greedy Lempel-Ziv coder: at every position it looks up the hash of the next four
bytes in a table of earlier positions, and if the bytes there agree (closer than 65535 bytes) it
emits the pending literals and a back-reference.  `decompress` replays the stream.

The search for matches is a state machine of its own, `MatchFinder`; the coder runs it and emits
bytes.  Loops of the source take the number of turns that they are known to need as fuel.
-/

namespace Jaci

namespace Vfs

open Wire

/-- The minimal length of a match. -/
def kMinMatch : ℕ := 4

/-- The number of bits of a hash. -/
def kHashLog : ℕ := 13

/-- The four bytes at a position. -/
def window (src : Bytes) (i : ℕ) : Bytes := (src.drop i).take 4

/-- `hash4` of four bytes. -/
def hashBytes (w : Bytes) : ℕ := (leNat w * 2654435761 % 2 ^ 32) >>> (32 - kHashLog)

/-- `hash4` at a position. -/
def hash4 (src : Bytes) (i : ℕ) : ℕ := hashBytes (window src i)

/-- The number of bytes on which two strings agree from their start. -/
def matchExtent : Bytes → Bytes → ℕ
  | a :: as, b :: bs => if a = b then matchExtent as bs + 1 else 0
  | _, _ => 0

/-! ### Search for matches -/

/-- A match: `length` bytes at the position of the search agree with the bytes at `ref`. -/
structure Match where
  ref : ℕ
  length : ℕ

/-- The state of the search. -/
structure MatchFinder where
  ip : ℕ
  /-- The end of the last match: the literals since then are pending. -/
  anchor : ℕ
  hashTable : ℕ → ℕ

namespace MatchFinder

/-- The search starts at the beginning, with a table of zeros. -/
def init : MatchFinder := ⟨0, 0, fun _ => 0⟩

/-- There is room for another probe. -/
def Running (src : Bytes) (f : MatchFinder) : Prop := f.ip + kMinMatch + 4 ≤ src.length

instance (src : Bytes) (f : MatchFinder) : Decidable (Running src f) :=
  inferInstanceAs (Decidable (_ ≤ _))

/-- The match at the current position, if the table leads to one. -/
def find (src : Bytes) (f : MatchFinder) : Option Match :=
  let ref := f.hashTable (hash4 src f.ip)
  if ref < f.ip ∧ f.ip - ref < 65535 ∧ window src f.ip = window src ref then
    some ⟨ref, 4 + matchExtent (src.drop (f.ip + 4)) (src.drop (ref + 4))⟩
  else none

/-- Probe the current position: remember it, and skip over the match found or by one byte. -/
def advance (src : Bytes) (f : MatchFinder) : MatchFinder :=
  let hashTable := Function.update f.hashTable (hash4 src f.ip) (f.ip % 2 ^ 32)
  match f.find src with
  | some m => ⟨f.ip + m.length, f.ip + m.length, hashTable⟩
  | none => ⟨f.ip + 1, f.anchor, hashTable⟩

/-- The stretches of the input without a match: before each match, and at the end. -/
def runs (src : Bytes) : ℕ → MatchFinder → List ℕ
  | 0, f => [src.length - f.anchor]
  | turns + 1, f =>
    if f.Running src then
      match f.find src with
      | some _ => (f.ip - f.anchor) :: runs src turns (f.advance src)
      | none => runs src turns (f.advance src)
    else [src.length - f.anchor]

end MatchFinder

/-- The lengths of the stretches of `s` without a match. -/
def unmatchedRuns (s : Bytes) : List ℕ := MatchFinder.init.runs s s.length

/-! ### Coder -/

/-- Literals: blocks of 255 bytes, each after its length, and the rest after its length. -/
def emitLiterals : ℕ → Bytes → Bytes
  | 0, lits => UInt8.ofNat lits.length :: lits
  | turns + 1, lits =>
    if lits.length ≥ 255 then 255 :: lits.take 255 ++ emitLiterals turns (lits.drop 255)
    else UInt8.ofNat lits.length :: lits

/-- The length of a match beyond the minimum: bytes of 255, and the rest. -/
def emitLength : ℕ → ℕ → Bytes
  | 0, encLen => [UInt8.ofNat encLen]
  | turns + 1, encLen =>
    if encLen < 255 then [UInt8.ofNat encLen] else 255 :: emitLength turns (encLen - 255)

/-- The bytes for a match: the pending literals, the distance and the length. -/
def emitMatch (src : Bytes) (f : MatchFinder) (m : Match) : Bytes :=
  let lits := (src.drop f.anchor).take (f.ip - f.anchor)
  emitLiterals lits.length lits ++ leBytes 2 (f.ip - m.ref : ℕ) ++
    emitLength (m.length - kMinMatch) (m.length - kMinMatch)

/-- The main loop of `compress`. -/
def compressLoop (src : Bytes) : ℕ → MatchFinder → Bytes → MatchFinder × Bytes
  | 0, f, out => (f, out)
  | turns + 1, f, out =>
    if f.Running src then
      match f.find src with
      | some m => compressLoop src turns (f.advance src) (out ++ emitMatch src f m)
      | none => compressLoop src turns (f.advance src) out
    else (f, out)

def compress (input : Bytes) : Bytes :=
  if input = [] then []
  else if input.length < kMinMatch + 4 then 0 :: input
  else
    let (f, out) := compressLoop input input.length .init [1]
    let lits := input.drop f.anchor
    out ++ emitLiterals lits.length lits ++ [0, 0]

/-! ### Decoder -/

/-- The continuation of a length byte of 255: further bytes of 255, and the rest. -/
def readExt : Bytes → ℕ → ℕ × Bytes
  | [], n => (n, [])
  | b :: rest, n => if b = 255 then readExt rest (n + 255) else (n + b.toNat, rest)

/-- A length with the byte `b` in front, on top of `base`. -/
def readLength (base : ℕ) (b : UInt8) (rest : Bytes) : ℕ × Bytes :=
  if b = 255 then readExt rest (base + 255) else (base + b.toNat, rest)

/-- Copy `n` bytes from `offset` bytes back, one by one. -/
def copyMatch (offset : ℕ) : ℕ → Bytes → Bytes
  | 0, out => out
  | n + 1, out => copyMatch offset n (out ++ [out.getD (out.length - offset) 0])

/-- The second half of a turn: the back-reference after the literals.  `none` ends the loop. -/
def decodeMatch (originalSize : ℕ) (rest out : Bytes) : Option (Bytes × Bytes) :=
  match rest with
  | o₀ :: o₁ :: rest =>
    let offset := o₀.toNat ||| o₁.toNat <<< 8
    if offset = 0 then none
    else
      match rest with
      | [] => none
      | b :: rest =>
        let (matchLen, rest) := readLength kMinMatch b rest
        if offset > out.length ∨ out.length + matchLen > originalSize then none
        else some (rest, copyMatch offset matchLen out)
  | _ => none

/-- The main loop of `decompress`; `out` is the part of the output that is written. -/
def decompressLoop (originalSize : ℕ) : ℕ → Bytes → Bytes → Bytes
  | 0, _, out => out
  | _ + 1, [], out => out
  | turns + 1, b :: rest, out =>
    if out.length < originalSize then
      let (litLen, rest) := readLength 0 b rest
      if litLen > 0 ∧ (litLen > rest.length ∨ out.length + litLen > originalSize) then out
      else
        let out := out ++ rest.take litLen
        match decodeMatch originalSize (rest.drop litLen) out with
        | none => out
        | some (rest, out) => decompressLoop originalSize turns rest out
    else out

def decompress (compressed : Bytes) (originalSize : ℕ) : Bytes :=
  match compressed with
  | [] => []
  | marker :: src => if marker = 0 then src else decompressLoop originalSize src.length src []

end Vfs

end Jaci
