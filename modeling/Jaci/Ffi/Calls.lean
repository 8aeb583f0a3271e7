import Jaci.Ffi.Buffers
import Mathlib.Data.Nat.Log

/-!
# Calls of foreign functions

A declared symbol is called with one Lua value for each of its parameters.  Integers and pointers go
to six general registers, floating numbers to eight vector registers, and nothing goes to the stack.

* `ffi_symbol_call`, `execute_call`, `ffi_invoke_native_x64` : the code;
* `systemV` : the place of each argument in the calling convention;
* **`passed_iff`** : which calls pass their arguments in these places.
-/

namespace Jaci

namespace Ffi

open Wire

/-- `FFI_Symbol`: what a call reads of it. -/
structure FFI_Symbol where
  retType : FFI_TypeKind
  /-- `argTypes`, as far as `argCount`. -/
  argTypes : List FFI_TypeKind
  argCount_le : argTypes.length ≤ 16

/-- Kinds that are passed in vector registers. -/
def FFI_TypeKind.floating : FFI_TypeKind → Bool
  | .F32 | .F64 => true
  | _ => false

/-! ### The code -/

/-- `(double)` of a float. -/
def widen (f : BitVec 32) : BitVec 64 :=
  let exponent := f.toNat / 2 ^ 23 % 2 ^ 8
  let fraction := f.toNat % 2 ^ 23
  let magnitude :=
    if exponent = 2 ^ 8 - 1 then
      if fraction = 0 then 2047 * 2 ^ 52
      -- a NaN becomes a quiet one
      else 2047 * 2 ^ 52 + (2 ^ 22 ||| fraction) * 2 ^ 29
    else if exponent = 0 then
      if fraction = 0 then 0
      else (Nat.log 2 fraction + 874) * 2 ^ 52 +
        (fraction - 2 ^ Nat.log 2 fraction) * 2 ^ (52 - Nat.log 2 fraction)
    else (exponent + 896) * 2 ^ 52 + fraction * 2 ^ 29
  BitVec.ofNat 64 (f.toNat / 2 ^ 31 * 2 ^ 63 + magnitude)

/-- The registers and the words above the return address when the function is entered. -/
structure Registers where
  /-- `rdi`, `rsi`, `rdx`, `rcx`, `r8` and `r9`. -/
  gpr : Vector (BitVec 64) 6
  /-- `xmm0` to `xmm7`. -/
  sse : Vector (BitVec 64) 8
  rax : BitVec 64
  stack : List (BitVec 64)
deriving DecidableEq

/-- `ffi_invoke_native_x64`, up to the call.  The stack arguments are not looked at. -/
def ffi_invoke_native_x64 (gprArgs sseArgs _stackArgs : List (BitVec 64)) : Registers where
  gpr := Vector.ofFn fun i => gprArgs.getD i 0
  sse := Vector.ofFn fun i => sseArgs.getD i 0
  rax := BitVec.ofNat 64 sseArgs.length
  stack := []

/-- One round of the loop of `execute_call`, over a kind with its entries of `gprValues` and
`sseValues`. -/
def classify (args : List (BitVec 64) × List (BitVec 64))
    (v : FFI_TypeKind × BitVec 64 × BitVec 64) : List (BitVec 64) × List (BitVec 64) :=
  if v.1.floating then (args.1, if args.2.length < 8 then args.2 ++ [v.2.2] else args.2)
  else (if args.1.length < 6 then args.1 ++ [v.2.1] else args.1, args.2)

def execute_call (values : List (FFI_TypeKind × BitVec 64 × BitVec 64)) : Registers :=
  let args := values.foldl classify ([], [])
  ffi_invoke_native_x64 args.1 args.2 []

section Calls

variable (C : Casts) (args : ℕ → Value)

/-- The switch of `ffi_symbol_call`: the entries of `gprArgs` and `sseArgs`. -/
def convert (lua_arg : ℕ) : FFI_TypeKind → Call (BitVec 64 × BitVec 64)
  | .BOOL => pure (if toboolean (args lua_arg) then 1 else 0, 0)
  | .I8 | .U8 | .I16 | .U16 | .I32 | .U32 | .I64 | .U64 => do
    let n ← checknumber C args lua_arg
    pure (intptr C n, 0)
  | .F32 => do
    let n ← checknumber C args lua_arg
    pure (0, widen (C.float n))
  | .F64 => do
    let n ← checknumber C args lua_arg
    pure (0, n)
  | .PTR =>
    match args lua_arg with
    | .nil => pure (0, 0)
    | .lightuserdata p => pure (BitVec.ofNat 64 p, 0)
    | .buffer b => pure (BitVec.ofNat 64 b.data, 0)
    | .number n => pure (intptr C n, 0)
    | .userdata p => pure (BitVec.ofNat 64 p, 0)
    | _ => pure (0, 0)
  | .STR =>
    match args lua_arg with
    | .nil => pure (0, 0)
    | _ => do
      let (p, _) ← checklstring C args lua_arg
      pure (BitVec.ofNat 64 p, 0)
  | .BUF =>
    match args lua_arg with
    | .buffer b => pure (BitVec.ofNat 64 b.data, 0)
    | _ => .raise (.tag_error lua_arg .buffer)
  | .VOID => pure (0, 0)

/-- The loop of `ffi_symbol_call`, over parameters with the numbers of their arguments. -/
def convertAll : List (FFI_TypeKind × ℕ) → Call (List (FFI_TypeKind × BitVec 64 × BitVec 64))
  | [] => pure []
  | (kind, lua_arg) :: params => do
    let v ← convert C args lua_arg kind
    let vs ← convertAll params
    pure ((kind, v) :: vs)

/-- `ffi_symbol_call`, up to the call of the function. -/
def ffi_symbol_call (sym : FFI_Symbol) : Call Registers := do
  let values ← convertAll C args (sym.argTypes.zipIdx 2)
  pure (execute_call values)

end Calls

/-! ### The calling convention -/

/-- A place for an argument. -/
inductive Place where
  | gpr (i : Fin 6)
  | sse (i : Fin 8)
  | stack (i : ℕ)
deriving DecidableEq

/-- The places of the arguments, after so many of each kind. -/
def systemV : ℕ → ℕ → ℕ → List FFI_TypeKind → List Place
  | _, _, _, [] => []
  | g, s, k, kind :: kinds =>
    if kind.floating then
      if h : s < 8 then .sse ⟨s, h⟩ :: systemV g (s + 1) k kinds
      else .stack k :: systemV g s (k + 1) kinds
    else
      if h : g < 6 then .gpr ⟨g, h⟩ :: systemV (g + 1) s k kinds
      else .stack k :: systemV g s (k + 1) kinds

def Registers.content (r : Registers) : Place → Option (BitVec 64)
  | .gpr i => some (r.gpr.get i)
  | .sse i => some (r.sse.get i)
  | .stack i => r.stack[i]?

/-- The integers of a kind. -/
def FFI_TypeKind.range : FFI_TypeKind → Option (ℤ × ℤ)
  | .I8 => some (-2 ^ 7, 2 ^ 7)
  | .U8 => some (0, 2 ^ 8)
  | .I16 => some (-2 ^ 15, 2 ^ 15)
  | .U16 => some (0, 2 ^ 16)
  | .I32 => some (-2 ^ 31, 2 ^ 31)
  | .U32 => some (0, 2 ^ 32)
  | .I64 => some (-2 ^ 63, 2 ^ 63)
  | .U64 | .PTR => some (0, 2 ^ 64)
  | _ => none

/-- A number that is an integer. -/
def Integral (n : BitVec 64) (z : ℤ) : Prop :=
  truncated n = some z ∧ (exponentBits n < 1075 → 2 ^ (1075 - exponentBits n) ∣ significand n)

section Convention

variable (C : Casts)

/-- The Lua values of a kind.  There is none of kind `void`. -/
inductive Matches : FFI_TypeKind → Value → Prop
  | boolean (b : Bool) : Matches .BOOL (.boolean b)
  /-- An integer in the range of the type; a pointer may be given as its address. -/
  | integer {kind : FFI_TypeKind} {n : BitVec 64} {z low high : ℤ} (integral : Integral n z)
    (range : kind.range = some (low, high)) (le : low ≤ z) (lt : z < high) :
    Matches kind (.number n)
  | float {n : BitVec 64} (h : widen (C.float n) = n) : Matches .F32 (.number n)
  | double (n : BitVec 64) : Matches .F64 (.number n)
  | null : Matches .PTR .nil
  | lightuserdata (p : ℕ) : Matches .PTR (.lightuserdata p)
  | bytes (b : Buffer) : Matches .PTR (.buffer b)
  | userdata (p : ℕ) : Matches .PTR (.userdata p)
  | nullString : Matches .STR .nil
  | string (p : ℕ) (s : Bytes) : Matches .STR (.string p s)
  | buffer (b : Buffer) : Matches .BUF (.buffer b)

/-- What a function finds in the place of an argument: a value of the width of its type. -/
def Represents : FFI_TypeKind → Value → BitVec 64 → Prop
  | .BOOL, .boolean b, bits => bits.setWidth 8 = if b then 1 else 0
  | .F32, .number n, bits => bits.setWidth 32 = C.float n
  | .F64, .number n, bits => bits = n
  | .PTR, .nil, bits | .STR, .nil, bits => bits = 0
  | .PTR, .lightuserdata p, bits | .PTR, .userdata p, bits | .STR, .string p _, bits =>
    bits = BitVec.ofNat 64 p
  | .PTR, .buffer b, bits | .BUF, .buffer b, bits => bits = BitVec.ofNat 64 b.data
  | kind, .number n, bits => ∃ z, truncated n = some z ∧
      bits.setWidth (8 * kind.width) = BitVec.ofInt (8 * kind.width) z
  | _, _, _ => False

/-- Every argument is in its place. -/
def Passed (args : ℕ → Value) (sym : FFI_Symbol) (r : Registers) : Prop :=
  ∀ p ∈ (systemV 0 0 0 sym.argTypes).zip (sym.argTypes.zipIdx 2),
    ∃ bits, r.content p.1 = some bits ∧ Represents C p.2.1 (args p.2.2) bits

/-- A call raises an error or passes every argument, whatever the machine makes of a number that is
not in the range of `intptr_t`. -/
def Passes (args : ℕ → Value) (sym : FFI_Symbol) : Prop :=
  ∀ wideptr m r, (ffi_symbol_call { C with wideptr := wideptr } args sym m).1 = .ok r →
    Passed C args sym r

/-- A value that is passed with the width of its kind: a float is zero, and an integer is one of 64
bits with a sign. -/
def Exact : FFI_TypeKind → Value → Prop
  | .F32, .number n => C.float n = 0
  | .U64, .number n | .PTR, .number n => ∀ z, truncated n = some z → z < 2 ^ 63
  | _, _ => True

/-- There are registers for all arguments, and each value is passed as it is. -/
structure Fitting (args : ℕ → Value) (sym : FFI_Symbol) : Prop where
  general : sym.argTypes.countP (fun kind => !kind.floating) ≤ 6
  vector : sym.argTypes.countP FFI_TypeKind.floating ≤ 8
  exact_ : ∀ p ∈ sym.argTypes.zipIdx 2, Exact C p.1 (args p.2)

/-- The arguments of a call are values of the kinds of the parameters. -/
def Matching (args : ℕ → Value) (sym : FFI_Symbol) : Prop :=
  ∀ p ∈ sym.argTypes.zipIdx 2, Matches C p.1 (args p.2)

end Convention

/-! ### Floats in the low half of a double -/

theorem two_pow_dvd {k n : ℕ} (h : 29 ≤ n) : 2 ^ 29 ∣ k * 2 ^ n :=
  (Nat.pow_dvd_pow 2 h).mul_left k

/-- The fraction of a float has 23 bits, so the last 29 bits of a double of its value are zeros. -/
theorem dvd_widen (f : BitVec 32) : 2 ^ 29 ∣ (widen f).toNat := by
  rw [widen, BitVec.toNat_ofNat, Nat.dvd_mod_iff (Nat.pow_dvd_pow 2 (by decide))]
  refine (two_pow_dvd (by decide)).add ?_
  split_ifs with hnan hzero hsub hzero
  · exact two_pow_dvd (by decide)
  · exact (two_pow_dvd (by decide)).add (two_pow_dvd le_rfl)
  · exact dvd_zero _
  · have hlog : Nat.log 2 (f.toNat % 2 ^ 23) < 23 :=
      Nat.log_lt_of_lt_pow hzero (Nat.mod_lt _ (by decide))
    exact (two_pow_dvd (by decide)).add (two_pow_dvd (by omega))
  · exact (two_pow_dvd (by decide)).add (two_pow_dvd le_rfl)

theorem widen_of_fraction {f : BitVec 32} (h : f.toNat % 2 ^ 23 = 0) :
    2 ^ 32 ∣ (widen f).toNat := by
  have hdvd : ∀ k n, 32 ≤ n → 2 ^ 32 ∣ k * 2 ^ n := fun k n hn =>
    (Nat.pow_dvd_pow 2 hn).mul_left k
  rw [widen, BitVec.toNat_ofNat, Nat.dvd_mod_iff (Nat.pow_dvd_pow 2 (by decide))]
  refine (hdvd _ _ (by decide)).add ?_
  rw [if_pos h, if_pos h, h, Nat.zero_mul, Nat.add_zero]
  split_ifs
  · exact hdvd _ _ (by decide)
  · exact dvd_zero _
  · exact hdvd _ _ (by decide)

theorem setWidth_widen (f : BitVec 32) : (widen f).setWidth 32 = f ↔ f = 0 := by
  constructor
  · intro h
    have hlow : (widen f).toNat % 2 ^ 32 = f.toNat := by
      rw [← BitVec.toNat_setWidth, h]
    -- the last 29 bits of the low half are zeros, so the fraction is
    have hfraction : f.toNat % 2 ^ 23 = 0 := by
      obtain ⟨x, hx⟩ := dvd_widen f
      rw [hx] at hlow
      omega
    apply BitVec.eq_of_toNat_eq
    rw [← hlow, Nat.mod_eq_zero_of_dvd (widen_of_fraction hfraction)]
    rfl
  · rintro rfl
    decide

/-! ### One argument -/

section Calls

variable {C : Casts} {args : ℕ → Value}

/-- The word that is made of a value of a kind. -/
def wordOf (C : Casts) (kind : FFI_TypeKind) : Value → BitVec 64
  | .boolean b => if b then 1 else 0
  | .number n =>
    match kind with
    | .F32 => widen (C.float n)
    | .F64 => n
    | _ => intptr C n
  | .string p _ | .lightuserdata p | .userdata p => BitVec.ofNat 64 p
  | .buffer b => BitVec.ofNat 64 b.data
  | _ => 0

theorem convert_of_matches {C' : Casts} {kind : FFI_TypeKind} {n : ℕ} {v : Value}
    (hv : args n = v) (h : Matches C' kind v) : convert C args n kind =
      pure (if kind.floating then (0, wordOf C kind v) else (wordOf C kind v, 0)) := by
  have hnumber : ∀ x, v = .number x → checknumber C args n = pure x := by
    rintro x rfl
    rw [checknumber, hv]
    rfl
  cases h with
  | integer _ hrange _ _ =>
    cases kind with
    | VOID | BOOL | F32 | F64 | STR | BUF => cases hrange
    | PTR =>
      rw [convert, hv]
      rfl
    | _ =>
      rw [convert, hnumber _ rfl]
      rfl
  | float _ | double _ =>
    rw [convert, hnumber _ rfl]
    rfl
  | string _ _ =>
    rw [convert, hv, checklstring, hv]
    rfl
  | _ =>
    rw [convert, hv]
    rfl

theorem setWidth_ofInt {v w : ℕ} (h : w ≤ v) (z : ℤ) :
    (BitVec.ofInt v z).setWidth w = BitVec.ofInt w z := by
  apply BitVec.eq_of_toNat_eq
  rw [BitVec.toNat_setWidth, BitVec.toNat_ofInt, BitVec.toNat_ofInt]
  rw [← Int.natCast_inj, Int.natCast_mod]
  have hpos : ∀ k : ℕ, 0 ≤ z % (2 ^ k : ℕ) := fun k => Int.emod_nonneg _ (by positivity)
  rw [Int.toNat_of_nonneg (hpos v), Int.toNat_of_nonneg (hpos w)]
  exact_mod_cast Int.emod_emod_of_dvd z (by exact_mod_cast Nat.pow_dvd_pow 2 h)

theorem represents_integer {u : BitVec 64 → BitVec 64} {kind : FFI_TypeKind} {n : BitVec 64}
    {z low high : ℤ} (htrunc : truncated n = some z) (hrange : kind.range = some (low, high))
    (hz : -2 ^ 63 ≤ z ∧ z < 2 ^ 63) :
    Represents C kind (.number n) (wordOf { C with wideptr := u } kind (.number n)) := by
  have hword : intptr { C with wideptr := u } n = BitVec.ofInt 64 z := by
    simp only [intptr, htrunc, if_pos hz]
  have hwidth : 8 * kind.width ≤ 64 := by
    cases kind <;> decide
  have hmain : ∃ z, truncated n = some z ∧
      (intptr { C with wideptr := u } n).setWidth (8 * kind.width) =
        BitVec.ofInt (8 * kind.width) z :=
    ⟨z, htrunc, by rw [hword, setWidth_ofInt hwidth]⟩
  cases kind with
  | VOID | BOOL | F32 | F64 | STR | BUF => cases hrange
  | _ => exact hmain

theorem represents_iff {kind : FFI_TypeKind} {v : Value} (h : Matches C kind v) :
    (∀ u, Represents C kind v (wordOf { C with wideptr := u } kind v)) ↔ Exact C kind v := by
  cases h with
  | @integer _ n z low high hintegral hrange hlow hhigh =>
    by_cases hz : -2 ^ 63 ≤ z ∧ z < 2 ^ 63
    · refine iff_of_true (fun u => represents_integer hintegral.1 hrange hz) ?_
      have hexact : ∀ z', truncated n = some z' → z' < 2 ^ 63 := fun z' h => by
        rw [hintegral.1, Option.some.injEq] at h
        exact h ▸ hz.2
      cases kind <;> first | exact hexact | trivial
    · -- the number is one of the upper half of the unsigned integers of 64 bits
      have hrep : ∀ w : BitVec 64, intptr { C with wideptr := fun _ => w } n = w := fun w => by
        simp only [intptr, hintegral.1, if_neg hz]
      have hunsigned : kind = .U64 ∨ kind = .PTR := by
        cases kind <;> simp only [FFI_TypeKind.range, Option.some.injEq, Prod.mk.injEq,
          reduceCtorEq] at hrange <;> first | exact .inl rfl | exact .inr rfl | omega
      have hhalf : 2 ^ 63 ≤ z := by
        obtain rfl | rfl := hunsigned <;> simp only [FFI_TypeKind.range, Option.some.injEq,
          Prod.mk.injEq] at hrange <;> omega
      have hnot : ¬ ∃ z', truncated n = some z' ∧
          (intptr { C with wideptr := fun _ => BitVec.ofInt 64 z + 1 } n).setWidth 64 =
            BitVec.ofInt 64 z' := by
        rintro ⟨z', htrunc, heq⟩
        rw [hintegral.1, Option.some.injEq] at htrunc
        subst htrunc
        rw [hrep, BitVec.setWidth_eq] at heq
        exact absurd heq (by simp)
      have hexact : ¬ ∀ z', truncated n = some z' → z' < 2 ^ 63 := fun h =>
        absurd (h z hintegral.1) (by omega)
      obtain rfl | rfl := hunsigned
      · exact iff_of_false (fun h => hnot (h _)) hexact
      · exact iff_of_false (fun h => hnot (h _)) hexact
  | float _ =>
    simp only [Represents, wordOf, Exact, forall_const]
    exact setWidth_widen _
  | boolean b => exact iff_of_true (fun _ => by cases b <;> rfl) trivial
  | _ => exact iff_of_true (fun _ => rfl) trivial

/-! ### The registers -/

/-- The words that go to registers of one sort. -/
def wordsOf (C : Casts) (args : ℕ → Value) (floating : Bool) (params : List (FFI_TypeKind × ℕ)) :
    List (BitVec 64) :=
  (params.filter fun p => p.1.floating == floating).map fun p => wordOf C p.1 (args p.2)

theorem convertAll_of_matches {C' : Casts} {params : List (FFI_TypeKind × ℕ)}
    (h : ∀ p ∈ params, Matches C' p.1 (args p.2)) :
    convertAll C args params = pure (params.map fun p =>
      (p.1, if p.1.floating then (0, wordOf C p.1 (args p.2)) else (wordOf C p.1 (args p.2), 0))) := by
  induction params with
  | nil => rfl
  | cons p params ih =>
    rw [convertAll, convert_of_matches rfl (h p List.mem_cons_self), Call.pure_bind,
      ih fun q hq => h q (List.mem_cons_of_mem _ hq)]
    rfl

theorem wordsOf_cons_same {b : Bool} {p : FFI_TypeKind × ℕ} {params : List (FFI_TypeKind × ℕ)}
    (h : p.1.floating = b) :
    wordsOf C args b (p :: params) = wordOf C p.1 (args p.2) :: wordsOf C args b params := by
  simp [wordsOf, h]

theorem wordsOf_cons_other {b : Bool} {p : FFI_TypeKind × ℕ} {params : List (FFI_TypeKind × ℕ)}
    (h : p.1.floating ≠ b) : wordsOf C args b (p :: params) = wordsOf C args b params := by
  simp [wordsOf, h]

/-- One more word, where there is a register for it. -/
theorem append_take {α : Type} (l : List α) (x : α) (xs : List α) {n : ℕ} (h : l.length ≤ n) :
    l ++ (x :: xs).take (n - l.length) =
      (if l.length < n then l ++ [x] else l) ++
        xs.take (n - (if l.length < n then l ++ [x] else l).length) := by
  split
  case isTrue hlt =>
    obtain ⟨k, hk⟩ : ∃ k, n - l.length = k + 1 := ⟨n - l.length - 1, by omega⟩
    rw [hk, List.take_succ_cons, List.length_append, List.length_singleton,
      show n - (l.length + 1) = k by omega, List.append_assoc, List.singleton_append]
  case isFalse hlt =>
    rw [show n - l.length = 0 by omega, List.take_zero, List.take_zero]

theorem length_grown_le {α : Type} {l : List α} (x : α) {n : ℕ} (h : l.length ≤ n) :
    (if l.length < n then l ++ [x] else l).length ≤ n := by
  split
  · rw [List.length_append, List.length_singleton]
    omega
  · exact h

/-- The first six words of one sort and the first eight of the other are kept. -/
theorem foldl_classify (params : List (FFI_TypeKind × ℕ)) {g s : List (BitVec 64)}
    (hg : g.length ≤ 6) (hs : s.length ≤ 8) :
    (params.map fun p => (p.1, if p.1.floating then (0, wordOf C p.1 (args p.2))
      else (wordOf C p.1 (args p.2), 0))).foldl classify (g, s) =
      (g ++ (wordsOf C args false params).take (6 - g.length),
        s ++ (wordsOf C args true params).take (8 - s.length)) := by
  induction params generalizing g s with
  | nil => simp [wordsOf]
  | cons p params ih =>
    rw [List.map_cons, List.foldl_cons]
    cases hp : p.1.floating with
    | true =>
      simp only [classify, hp, ↓reduceIte]
      rw [ih hg (length_grown_le _ hs), wordsOf_cons_same hp,
        wordsOf_cons_other (by rw [hp]; decide), append_take s _ _ hs]
    | false =>
      simp only [classify, hp, Bool.false_eq_true, ↓reduceIte]
      rw [ih (length_grown_le _ hg) hs, wordsOf_cons_same hp,
        wordsOf_cons_other (by rw [hp]; decide), append_take g _ _ hg]

/-- The registers of a call. -/
def registersOf (C : Casts) (args : ℕ → Value) (params : List (FFI_TypeKind × ℕ)) : Registers :=
  ffi_invoke_native_x64 ((wordsOf C args false params).take 6)
    ((wordsOf C args true params).take 8) []

theorem ffi_symbol_call_of_matches {C' : Casts} {sym : FFI_Symbol}
    (h : ∀ p ∈ sym.argTypes.zipIdx 2, Matches C' p.1 (args p.2)) :
    ffi_symbol_call C args sym = pure (registersOf C args (sym.argTypes.zipIdx 2)) := by
  rw [ffi_symbol_call, convertAll_of_matches h, Call.pure_bind, execute_call]
  rw [foldl_classify _ (Nat.zero_le _) (Nat.zero_le _)]
  rfl

/-- The arguments are in their places from some point on exactly when there are registers left for
them and every word is right. -/
theorem passed_from (R : FFI_TypeKind → Value → BitVec 64 → Prop) {r : Registers}
    (hstack : r.stack = []) (params : List (FFI_TypeKind × ℕ)) {g s k : ℕ} (hg : g ≤ 6)
    (hs : s ≤ 8)
    (hgpr : ∀ (i : ℕ) (h : g + i < 6) (hi : i < (wordsOf C args false params).length),
      r.gpr[g + i] = (wordsOf C args false params)[i])
    (hsse : ∀ (i : ℕ) (h : s + i < 8) (hi : i < (wordsOf C args true params).length),
      r.sse[s + i] = (wordsOf C args true params)[i]) :
    (∀ p ∈ (systemV g s k (params.map Prod.fst)).zip params,
      ∃ bits, r.content p.1 = some bits ∧ R p.2.1 (args p.2.2) bits) ↔
    g + (wordsOf C args false params).length ≤ 6 ∧
      s + (wordsOf C args true params).length ≤ 8 ∧
      ∀ p ∈ params, R p.1 (args p.2) (wordOf C p.1 (args p.2)) := by
  induction params generalizing g s k with
  | nil => simp [wordsOf, systemV, hg, hs]
  | cons p params ih =>
    rw [List.map_cons, systemV]
    cases hp : p.1.floating with
    | true =>
      have hsame := @wordsOf_cons_same C args true p params hp
      have hother : wordsOf C args false (p :: params) = wordsOf C args false params :=
        wordsOf_cons_other (by rw [hp]; decide)
      rw [hother] at hgpr
      rw [hsame] at hsse
      rw [hsame, hother, List.length_cons, if_pos rfl, List.forall_mem_cons]
      split
      case isTrue hlt =>
        have hfirst : r.content (.sse ⟨s, hlt⟩) = some (wordOf C p.1 (args p.2)) :=
          congrArg some (hsse 0 hlt (Nat.zero_lt_succ _))
        have hrest := ih (s := s + 1) (k := k) hg hlt hgpr (fun i h hi => ?_)
        · rw [List.zip_cons_cons, List.forall_mem_cons, hrest, hfirst]
          simp only [Option.some.injEq, exists_eq_left', Nat.add_assoc, Nat.add_comm 1]
          tauto
        · have hnext := hsse (i + 1) (by omega) (Nat.succ_lt_succ hi)
          simpa only [Nat.add_assoc, Nat.add_comm 1, List.getElem_cons_succ] using hnext
      case isFalse hge =>
        rw [List.zip_cons_cons, List.forall_mem_cons]
        refine iff_of_false (fun h => ?_) (fun h => ?_)
        · obtain ⟨bits, hbits, -⟩ := h.1
          rw [Registers.content, hstack] at hbits
          cases hbits
        · omega
    | false =>
      have hsame := @wordsOf_cons_same C args false p params hp
      have hother : wordsOf C args true (p :: params) = wordsOf C args true params :=
        wordsOf_cons_other (by rw [hp]; decide)
      rw [hother] at hsse
      rw [hsame] at hgpr
      rw [hsame, hother, List.length_cons, if_neg Bool.false_ne_true, List.forall_mem_cons]
      split
      case isTrue hlt =>
        have hfirst : r.content (.gpr ⟨g, hlt⟩) = some (wordOf C p.1 (args p.2)) :=
          congrArg some (hgpr 0 hlt (Nat.zero_lt_succ _))
        have hrest := ih (g := g + 1) (k := k) hlt hs (fun i h hi => ?_) hsse
        · rw [List.zip_cons_cons, List.forall_mem_cons, hrest, hfirst]
          simp only [Option.some.injEq, exists_eq_left', Nat.add_assoc, Nat.add_comm 1]
          tauto
        · have hnext := hgpr (i + 1) (by omega) (Nat.succ_lt_succ hi)
          simpa only [Nat.add_assoc, Nat.add_comm 1, List.getElem_cons_succ] using hnext
      case isFalse hge =>
        rw [List.zip_cons_cons, List.forall_mem_cons]
        refine iff_of_false (fun h => ?_) (fun h => ?_)
        · obtain ⟨bits, hbits, -⟩ := h.1
          rw [Registers.content, hstack] at hbits
          cases hbits
        · omega

theorem length_wordsOf (b : Bool) (params : List (FFI_TypeKind × ℕ)) :
    (wordsOf C args b params).length =
      (params.map Prod.fst).countP fun kind => kind.floating == b := by
  rw [wordsOf, List.length_map, List.countP_map, List.countP_eq_length_filter]
  rfl

theorem getD_take {α : Type} {l : List α} {i n : ℕ} (x : α) (hn : i < n) (hi : i < l.length) :
    (l.take n).getD i x = l[i] := by
  rw [List.getD_eq_getElem?_getD, List.getElem?_take_of_lt hn, List.getElem?_eq_getElem hi]
  rfl

theorem passed_registersOf {C' : Casts} {sym : FFI_Symbol} :
    Passed C' args sym (registersOf C args (sym.argTypes.zipIdx 2)) ↔
      sym.argTypes.countP (fun kind => !kind.floating) ≤ 6 ∧
        sym.argTypes.countP FFI_TypeKind.floating ≤ 8 ∧
        ∀ p ∈ sym.argTypes.zipIdx 2, Represents C' p.1 (args p.2) (wordOf C p.1 (args p.2)) := by
  have hkinds : (sym.argTypes.zipIdx 2).map Prod.fst = sym.argTypes := List.zipIdx_map_fst _ _
  have hfrom := @passed_from C args (Represents C') (registersOf C args (sym.argTypes.zipIdx 2)) rfl
    (sym.argTypes.zipIdx 2) 0 0 0 (Nat.zero_le _) (Nat.zero_le _) (fun i h hi => ?_)
    (fun i h hi => ?_)
  · rw [hkinds, length_wordsOf, length_wordsOf, hkinds, Nat.zero_add, Nat.zero_add] at hfrom
    rw [Passed, hfrom]
    simp only [beq_false, beq_true]
  · simp only [registersOf, ffi_invoke_native_x64, Vector.getElem_ofFn, Nat.zero_add]
    rw [getD_take _ (by omega) hi]
  · simp only [registersOf, ffi_invoke_native_x64, Vector.getElem_ofFn, Nat.zero_add]
    rw [getD_take _ (by omega) hi]

/-- **The arguments of a call are in their places exactly when there are registers for all of them,
no float but zero is among them, and no number that does not fit in a signed word.** -/
theorem passed_iff (sym : FFI_Symbol) (h : Matching C args sym) :
    Passes C args sym ↔ Fitting C args sym := by
  have hcall : ∀ wideptr m, (ffi_symbol_call { C with wideptr := wideptr } args sym m).1 =
      .ok (registersOf { C with wideptr := wideptr } args (sym.argTypes.zipIdx 2)) :=
    fun wideptr m => by rw [ffi_symbol_call_of_matches h]; rfl
  have hwords : (∀ wideptr, ∀ p ∈ sym.argTypes.zipIdx 2, Represents C p.1 (args p.2)
      (wordOf { C with wideptr := wideptr } p.1 (args p.2))) ↔
      ∀ p ∈ sym.argTypes.zipIdx 2, Exact C p.1 (args p.2) := by
    rw [forall_comm]
    refine forall_congr' fun p => ?_
    rw [forall_comm]
    exact forall_congr' fun hp => represents_iff (h p hp)
  constructor
  · intro hpass
    have hall := fun wideptr => passed_registersOf.mp
      (hpass wideptr ⟨fun _ => 0, []⟩ _ (hcall wideptr _))
    exact ⟨(hall C.wideptr).1, (hall C.wideptr).2.1, hwords.mp fun wideptr => (hall wideptr).2.2⟩
  · intro hfit wideptr m r hr
    rw [hcall, Except.ok.injEq] at hr
    rw [← hr]
    exact passed_registersOf.mpr ⟨hfit.general, hfit.vector, hwords.mpr hfit.exact_ wideptr⟩

end Calls

theorem integral_one : Integral 0x3ff0000000000000 1 := by
  refine ⟨by decide, fun _ => ?_⟩
  decide

/-- `double ldexp(double, int)`. -/
def ldexp : FFI_Symbol := ⟨.F64, [.F64, .I32], by decide⟩

/-- The number 1 for every parameter. -/
def ones : ℕ → Value := fun _ => .number 0x3ff0000000000000

theorem passed_ldexp : Matching x64 ones ldexp ∧ Passes x64 ones ldexp := by
  have hmatching : Matching x64 ones ldexp := by
    intro p hp
    obtain rfl | rfl : p = (.F64, 2) ∨ p = (.I32, 3) := by simpa [ldexp] using hp
    · exact .double _
    · exact .integer integral_one rfl (by decide) (by decide)
  refine ⟨hmatching, (passed_iff ldexp hmatching).mpr ⟨by decide, by decide, ?_⟩⟩
  intro p hp
  obtain rfl | rfl : p = (.F64, 2) ∨ p = (.I32, 3) := by simpa [ldexp] using hp
  · trivial
  · trivial

/-- A function of seven numbers. -/
def seven : FFI_Symbol := ⟨.VOID, List.replicate 7 .I32, by decide⟩

/-- **The last of seven integers is not passed.** -/
theorem seventh_dropped :
    ¬ ∀ (C : Casts) (args : ℕ → Value) (sym : FFI_Symbol), Matching C args sym →
      Passes C args sym := by
  intro h
  have hmatching : Matching x64 ones seven := by
    intro p hp
    have hkind : p.1 = .I32 := by
      have := List.mem_map_of_mem (f := Prod.fst) hp
      rw [List.zipIdx_map_fst] at this
      exact List.eq_of_mem_replicate this
    rw [hkind]
    exact .integer integral_one rfl (by decide) (by decide)
  have hpassed := h x64 ones seven hmatching x64.wideptr ⟨fun _ => 0, []⟩ _
    (by rw [ffi_symbol_call_of_matches hmatching]; rfl)
  exact absurd (passed_registersOf.mp hpassed).1 (by decide)

end Ffi

end Jaci
