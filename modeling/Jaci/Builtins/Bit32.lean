import Mathlib

/-!
# The functions of `bit32`

A function of `bit32` is written three times: in the library, as a fastcall of the interpreter, and
in the constant folding of the compiler.  The arguments here are integral numbers; an `int` of the
source is a word whose arithmetic wraps around, and the conversion of a number outside of its range
is up to the machine.  Every shift is recorded with its amount, and every field that is accepted.

* `bit32_agrees_iff` : where the three agree and shift only by 0 to 31 bits;
* `extract_field_accepted` : a field beyond the word that `bit32.extract` accepts.
-/

namespace Jaci

namespace Bit32

/-! ### Evaluation -/

/-- An `unsigned` or an `int`. -/
abbrev Word := BitVec 32

/-- A result. -/
inductive Val where
  /-- `lua_pushunsigned`. -/
  | number (r : Word)
  /-- `lua_pushboolean`. -/
  | boolean (b : Bool)
deriving DecidableEq

/-- Why there is no result. -/
inductive Failure where
  /-- Argument `narg` is not a number. -/
  | tagError (narg : ℕ)
  /-- `luaL_argcheck`. -/
  | argError (narg : ℕ) (message : String)
  /-- `luaL_error`. -/
  | error (message : String)
  /-- A fastcall or fold that leaves the call to the library. -/
  | generic
deriving DecidableEq

/-- What happens on the way. -/
inductive Event where
  /-- A shift by `i` bits. -/
  | shift (i : ℤ)
  /-- The field of `w` bits from bit `f` on is accepted. -/
  | field (f w : ℤ)
deriving DecidableEq

/-- The shift or the field is inside of a word. -/
def Event.InWord : Event → Prop
  | .shift i => 0 ≤ i ∧ i ≤ 31
  | .field f w => f + w ≤ 32

/-- A computation with its events. -/
structure Eval (α : Type) where
  result : Except Failure α
  events : List Event

namespace Eval

/-- The computation of a value. -/
def pure {α : Type} (a : α) : Eval α := ⟨.ok a, []⟩

/-- A computation after another one. -/
def bind {α β : Type} (x : Eval α) (f : α → Eval β) : Eval β :=
  match x.result with
  | .ok a => ⟨(f a).result, x.events ++ (f a).events⟩
  | .error e => ⟨.error e, x.events⟩

instance : Monad Eval where
  pure := Eval.pure
  bind := Eval.bind

/-- A computation that fails. -/
def fail {α : Type} (e : Failure) : Eval α := ⟨.error e, []⟩

/-- The record of an event. -/
def event (e : Event) : Eval Unit := ⟨.ok (), [e]⟩

/-- All events are inside of a word. -/
def InWord {α : Type} (x : Eval α) : Prop := ∀ e ∈ x.events, e.InWord

variable {α β : Type} {x : Eval α} {f : α → Eval β} {a : α}

@[simp] theorem result_pure : (Pure.pure a : Eval α).result = .ok a := rfl

@[simp] theorem inWord_pure : (Pure.pure a : Eval α).InWord := fun _ h => nomatch h

@[simp] theorem result_fail {e : Failure} : (fail e : Eval α).result = .error e := rfl

@[simp] theorem inWord_fail {e : Failure} : (fail e : Eval α).InWord := fun _ h => nomatch h

@[simp] theorem pure_bind : (Pure.pure a >>= f) = f a := rfl

@[simp] theorem fail_bind {e : Failure} : (fail e >>= f) = fail e := rfl

theorem bind_ok (h : x.result = .ok a) : (x >>= f).result = (f a).result := by
  show (Eval.bind x f).result = _
  simp [Eval.bind, h]

end Eval

/-- A shift by an `int`. -/
def shiftBy (op : Word → ℕ → Word) (r i : Word) : Eval Word := do
  Eval.event (.shift i.toInt)
  return op r (i.toNat % 32)

/-- `r << i`. -/
def shl : Word → Word → Eval Word := shiftBy (· <<< ·)

/-- `r >> i` of an `unsigned`. -/
def shr : Word → Word → Eval Word := shiftBy (· >>> ·)

/-- `r >> i` of an `int`. -/
def sar : Word → Word → Eval Word := shiftBy BitVec.sshiftRight

/-- `luai_num2unsigned`. -/
def num2unsigned (a : ℤ) : Word := BitVec.ofInt 32 a

/-- `luai_num2int`; `wide` is what the machine does with a number that is not an `int`. -/
def num2int (wide : ℤ → Word) (a : ℤ) : Word :=
  if -2 ^ 31 ≤ a ∧ a < 2 ^ 31 then BitVec.ofInt 32 a else wide a

/-! ### The library -/

section Library

variable (wide : ℤ → Word) (args : List ℤ)

/-- `luaL_checkunsigned`. -/
def checkunsigned (narg : ℕ) : Eval Word :=
  match args[narg - 1]? with
  | some a => return num2unsigned a
  | none => .fail (.tagError narg)

/-- `luaL_checkinteger`. -/
def checkinteger (narg : ℕ) : Eval Word :=
  match args[narg - 1]? with
  | some a => return num2int wide a
  | none => .fail (.tagError narg)

/-- `luaL_optinteger`. -/
def optinteger (narg : ℕ) (default : Word) : Eval Word :=
  match args[narg - 1]? with
  | some a => return num2int wide a
  | none => return default

def mask (n : Word) : Eval Word := do
  let m ← shl (BitVec.allOnes 32) 1
  let m ← shl m (n - 1)
  return ~~~m

def andaux : Word := args.foldl (fun r a => r &&& num2unsigned a) (BitVec.allOnes 32)

def b_and : Eval Val := return .number (andaux args)

def b_test : Eval Val := return .boolean (andaux args ≠ 0)

def b_or : Eval Val := return .number (args.foldl (fun r a => r ||| num2unsigned a) 0)

def b_xor : Eval Val := return .number (args.foldl (fun r a => r ^^^ num2unsigned a) 0)

def b_not : Eval Val := do
  let r ← checkunsigned args 1
  return .number (~~~r)

def b_shift (r i : Word) : Eval Val := do
  if i.toInt < 0 then
    let i := -i
    if i.toInt ≥ 32 then return .number 0
    else return .number (← shr r i)
  else
    if i.toInt ≥ 32 then return .number 0
    else return .number (← shl r i)

def b_lshift : Eval Val := do
  let r ← checkunsigned args 1
  let i ← checkinteger wide args 2
  b_shift r i

def b_rshift : Eval Val := do
  let r ← checkunsigned args 1
  let i ← checkinteger wide args 2
  b_shift r (-i)

def b_arshift : Eval Val := do
  let r ← checkunsigned args 1
  let i ← checkinteger wide args 2
  let sign ← shl 1 31
  if i.toInt < 0 ∨ r &&& sign = 0 then b_shift r (-i)
  else if i.toInt ≥ 32 then return .number (BitVec.allOnes 32)
  else
    let s ← shr r i
    let fill ← shr (BitVec.allOnes 32) i
    return .number (s ||| ~~~fill)

def b_rot (i : Word) : Eval Val := do
  let r ← checkunsigned args 1
  let i := i &&& 31
  if i ≠ 0 then
    let l ← shl r i
    let h ← shr r (32 - i)
    return .number (l ||| h)
  else return .number r

def b_lrot : Eval Val := do
  let i ← checkinteger wide args 2
  b_rot args i

def b_rrot : Eval Val := do
  let i ← checkinteger wide args 2
  b_rot args (-i)

def fieldargs (farg : ℕ) : Eval (Word × Word) := do
  let f ← checkinteger wide args farg
  let w ← optinteger wide args (farg + 1) 1
  if ¬ 0 ≤ f.toInt then .fail (.argError farg "field cannot be negative")
  else if ¬ 0 < w.toInt then .fail (.argError (farg + 1) "width must be positive")
  else if (f + w).toInt > 32 then .fail (.error "trying to access non-existent bits")
  else
    Eval.event (.field f.toInt w.toInt)
    return (f, w)

def b_extract : Eval Val := do
  let r ← checkunsigned args 1
  let (f, w) ← fieldargs wide args 2
  let r ← shr r f
  let m ← mask w
  return .number (r &&& m)

def b_replace : Eval Val := do
  let r ← checkunsigned args 1
  let v ← checkunsigned args 2
  let (f, w) ← fieldargs wide args 3
  let m ← mask w
  let v := v &&& m
  let hole ← shl m f
  let v ← shl v f
  return .number (r &&& ~~~hole ||| v)

end Library

/-! ### The fastcalls -/

section Fastcall

variable (wide : ℤ → Word) (nresults : ℤ) (args : List ℤ)

/-- The fast path of a function of two or more arguments. -/
def luauF_bits (op : Word → Word → Word) (result : Word → Val) : Eval Val :=
  match args with
  | a1 :: a2 :: rest =>
    if nresults ≤ 1 then
      return result (rest.foldl (fun r a => op r (num2unsigned a))
        (op (num2unsigned a1) (num2unsigned a2)))
    else .fail .generic
  | _ => .fail .generic

def luauF_band : Eval Val := luauF_bits nresults args (· &&& ·) .number

def luauF_bor : Eval Val := luauF_bits nresults args (· ||| ·) .number

def luauF_bxor : Eval Val := luauF_bits nresults args (· ^^^ ·) .number

def luauF_btest : Eval Val := luauF_bits nresults args (· &&& ·) fun r => .boolean (r ≠ 0)

def luauF_bnot : Eval Val :=
  match args with
  | a1 :: _ => if nresults ≤ 1 then return .number (~~~num2unsigned a1) else .fail .generic
  | _ => .fail .generic

/-- The fast path of a shift. -/
def luauF_shift (shift : Word → Word → Eval Word) : Eval Val :=
  match args with
  | a1 :: a2 :: _ =>
    if nresults ≤ 1 then do
      let u := num2unsigned a1
      let s := num2int wide a2
      if s.toNat < 32 then return .number (← shift u s)
      else .fail .generic
    else .fail .generic
  | _ => .fail .generic

def luauF_arshift : Eval Val := luauF_shift wide nresults args sar

def luauF_lshift : Eval Val := luauF_shift wide nresults args shl

def luauF_rshift : Eval Val := luauF_shift wide nresults args shr

/-- The fast path of a rotation. -/
def luauF_rotate (up down : Word → Word → Eval Word) : Eval Val :=
  match args with
  | a1 :: a2 :: _ =>
    if nresults ≤ 1 then do
      let u := num2unsigned a1
      let s := num2int wide a2
      let l ← up u (s &&& 31)
      let h ← down u ((32 - s) &&& 31)
      return .number (l ||| h)
    else .fail .generic
  | _ => .fail .generic

def luauF_lrotate : Eval Val := luauF_rotate wide nresults args shl shr

def luauF_rrotate : Eval Val := luauF_rotate wide nresults args shr shl

/-- `(n >> f) & m`. -/
def extractBits (n f m : Word) : Eval Val := do
  let r ← shr n f
  return .number (r &&& m)

/-- `(n & ~(m << f)) | ((v & m) << f)`. -/
def replaceBits (n v f m : Word) : Eval Val := do
  let hole ← shl m f
  let v ← shl (v &&& m) f
  return .number (n &&& ~~~hole ||| v)

/-- The fast path with a width. -/
def withField (f w : Word) (access : Word → Word → Eval Val) : Eval Val :=
  if f.toInt ≥ 0 ∧ w.toInt > 0 ∧ (f + w).toInt ≤ 32 then do
    Eval.event (.field f.toInt w.toInt)
    let m ← shl 0xfffffffe (w - 1)
    access f (~~~m)
  else .fail .generic

/-- The fast path without a width. -/
def withBit (f : Word) (access : Word → Word → Eval Val) : Eval Val :=
  if f.toNat < 32 then do
    Eval.event (.field f.toInt 1)
    access f 1
  else .fail .generic

def luauF_extract : Eval Val :=
  match args with
  | [a1, a2] =>
    if nresults ≤ 1 then withBit (num2int wide a2) (extractBits (num2unsigned a1))
    else .fail .generic
  | a1 :: a2 :: a3 :: _ =>
    if nresults ≤ 1 then
      withField (num2int wide a2) (num2int wide a3) (extractBits (num2unsigned a1))
    else .fail .generic
  | _ => .fail .generic

def luauF_replace : Eval Val :=
  match args with
  | [a1, a2, a3] =>
    if nresults ≤ 1 then
      withBit (num2int wide a3) (replaceBits (num2unsigned a1) (num2unsigned a2))
    else .fail .generic
  | a1 :: a2 :: a3 :: a4 :: _ =>
    if nresults ≤ 1 then
      withField (num2int wide a3) (num2int wide a4)
        (replaceBits (num2unsigned a1) (num2unsigned a2))
    else .fail .generic
  | _ => .fail .generic

end Fastcall

/-! ### Constant folding -/

/-- The functions. -/
inductive Fn where
  | arshift | band | bnot | bor | bxor | btest | extract | lrotate | lshift | replace | rrotate
  | rshift
deriving DecidableEq

section Fold

variable (wide : ℤ → Word) (args : List ℤ)

/-- The fold of a function of one or more arguments. -/
def foldBits (op : Word → Word → Word) (result : Word → Val) : Eval Val :=
  match args with
  | a1 :: rest =>
    return result (rest.foldl (fun r a => op r (num2unsigned a)) (num2unsigned a1))
  | [] => .fail .generic

def foldShift (shift : Word → Word → Eval Word) : Eval Val :=
  match args with
  | [a1, a2] => do
    let s := num2int wide a2
    if s.toNat < 32 then return .number (← shift (num2unsigned a1) s)
    else .fail .generic
  | _ => .fail .generic

/-- The fold of a rotation. -/
def foldRotate (up down : Word → Word → Eval Word) : Eval Val :=
  match args with
  | [a1, a2] => do
    let u := num2unsigned a1
    let s := num2int wide a2
    let l ← up u (s &&& 31)
    let h ← down u ((32 - s) &&& 31)
    return .number (l ||| h)
  | _ => .fail .generic

/-- The cases of `foldBuiltin`. -/
def foldBuiltin : Fn → Eval Val
  | .arshift => foldShift wide args sar
  | .band => foldBits args (· &&& ·) .number
  | .bnot =>
    match args with
    | [a1] => return .number (~~~num2unsigned a1)
    | _ => .fail .generic
  | .bor => foldBits args (· ||| ·) .number
  | .bxor => foldBits args (· ^^^ ·) .number
  | .btest => foldBits args (· &&& ·) fun r => .boolean (r ≠ 0)
  | .extract =>
    match args with
    | a1 :: a2 :: rest =>
      withField (num2int wide a2) (rest.head?.elim 1 (num2int wide))
        (extractBits (num2unsigned a1))
    | _ => .fail .generic
  | .lrotate => foldRotate wide args shl shr
  | .lshift => foldShift wide args shl
  | .replace =>
    match args with
    | a1 :: a2 :: a3 :: rest =>
      withField (num2int wide a3) (rest.head?.elim 1 (num2int wide))
        (replaceBits (num2unsigned a1) (num2unsigned a2))
    | _ => .fail .generic
  | .rrotate => foldRotate wide args shr shl
  | .rshift => foldShift wide args shr

end Fold

/-- The library's function. -/
def library (wide : ℤ → Word) (fn : Fn) (args : List ℤ) : Eval Val :=
  match fn with
  | .arshift => b_arshift wide args
  | .band => b_and args
  | .bnot => b_not args
  | .bor => b_or args
  | .bxor => b_xor args
  | .btest => b_test args
  | .extract => b_extract wide args
  | .lrotate => b_lrot wide args
  | .lshift => b_lshift wide args
  | .replace => b_replace wide args
  | .rrotate => b_rrot wide args
  | .rshift => b_rshift wide args

def fastcall (wide : ℤ → Word) (fn : Fn) (nresults : ℤ) (args : List ℤ) : Eval Val :=
  match fn with
  | .arshift => luauF_arshift wide nresults args
  | .band => luauF_band nresults args
  | .bnot => luauF_bnot nresults args
  | .bor => luauF_bor nresults args
  | .bxor => luauF_bxor nresults args
  | .btest => luauF_btest nresults args
  | .extract => luauF_extract wide nresults args
  | .lrotate => luauF_lrotate wide nresults args
  | .lshift => luauF_lshift wide nresults args
  | .replace => luauF_replace wide nresults args
  | .rrotate => luauF_rrotate wide nresults args
  | .rshift => luauF_rshift wide nresults args

/-! ### Agreement -/

/-- It shifts inside of a word, and a result is the library's. -/
structure Follows (fast lib : Eval Val) : Prop where
  inWord : fast.InWord
  result : ∀ v, fast.result = .ok v → lib.result = .ok v

/-- The three copies of a function agree on the arguments. -/
structure Consistent (wide : ℤ → Word) (fn : Fn) (args : List ℤ) : Prop where
  library : (library wide fn args).InWord
  fastcall : ∀ nresults, Follows (fastcall wide fn nresults args) (Bit32.library wide fn args)
  fold : Follows (foldBuiltin wide args fn) (Bit32.library wide fn args)

/-- The field that starts at argument `k` does not end beyond the `int`s. -/
def FieldEnds (wide : ℤ → Word) (args : List ℤ) (k : ℕ) : Prop :=
  ∀ a, args[k]? = some a →
    let f := (num2int wide a).toInt
    let w := (args[k + 1]?.elim 1 (num2int wide)).toInt
    ¬ (0 ≤ f ∧ 0 < w ∧ 2 ^ 31 ≤ f + w)

/-- The arguments without an `int` that overflows: no displacement is the smallest `int`, and no
field ends beyond the largest. -/
def Regular (wide : ℤ → Word) (fn : Fn) (args : List ℤ) : Prop :=
  match fn with
  | .lshift | .rshift | .arshift =>
    ∀ a, args[1]? = some a → num2int wide a ≠ BitVec.intMin 32
  | .extract => FieldEnds wide args 1
  | .replace => FieldEnds wide args 2
  | _ => True

namespace Eval

variable {α β γ : Type} {x : Eval α} {f : α → Eval β} {g : β → Eval γ} {e : Event}

theorem bind_assoc : (x >>= f) >>= g = x >>= fun a => f a >>= g := by
  show Eval.bind (Eval.bind x f) g = Eval.bind x fun a => Eval.bind (f a) g
  rcases x with ⟨_ | a, es⟩
  · rfl
  · simp only [Eval.bind]
    cases (f a).result <;> simp

@[simp] theorem result_event_bind {f : Unit → Eval β} :
    (event e >>= f).result = (f ()).result := rfl

@[simp] theorem inWord_event_bind {f : Unit → Eval β} :
    (event e >>= f).InWord ↔ e.InWord ∧ (f ()).InWord := by
  show (Eval.bind (event e) f).InWord ↔ _
  simp [InWord, Eval.bind, event]

end Eval

section Shifts

variable {op : Word → ℕ → Word} {r i : Word} {β : Type} {k : Word → Eval β}

@[simp] theorem result_shiftBy_bind :
    (shiftBy op r i >>= k).result = (k (op r (i.toNat % 32))).result := by
  rw [shiftBy, Eval.bind_assoc]
  rfl

@[simp] theorem inWord_shiftBy_bind :
    (shiftBy op r i >>= k).InWord ↔
      (0 ≤ i.toInt ∧ i.toInt ≤ 31) ∧ (k (op r (i.toNat % 32))).InWord := by
  rw [shiftBy, Eval.bind_assoc, Eval.inWord_event_bind]
  rfl

theorem toInt_of_toNat_lt {s : Word} (h : s.toNat < 32) : s.toInt = s.toNat := by
  rw [BitVec.toInt_eq_toNat_cond]
  omega

theorem toNat_and_31 (s : Word) : (s &&& 31).toNat = s.toNat % 32 := by
  rw [BitVec.toNat_and]
  exact Nat.and_two_pow_sub_one_eq_mod s.toNat 5

end Shifts

theorem Follows.fail {e : Failure} {lib : Eval Val} : Follows (.fail e) lib :=
  ⟨Eval.inWord_fail, fun _ h => nomatch h⟩

/-! ### Shifts -/

theorem b_shift_inWord {r i : Word} : (b_shift r i).InWord ↔ i ≠ BitVec.intMin 32 := by
  unfold b_shift
  by_cases hi : i = BitVec.intMin 32
  · subst hi
    have hmin : (BitVec.intMin 32).toInt < 0 := by decide
    simp only [BitVec.neg_intMin, hmin, if_true, shr]
    rw [if_neg (by omega), inWord_shiftBy_bind]
    exact ⟨fun h => absurd h.1.1 (by omega), fun h => absurd rfl h⟩
  · simp only [hi, ne_eq, not_false_eq_true, iff_true]
    have hneg := BitVec.toInt_neg_of_ne_intMin hi
    split_ifs with h1 h2 h2
    · exact Eval.inWord_pure
    · rw [shr, inWord_shiftBy_bind]
      exact ⟨by omega, Eval.inWord_pure⟩
    · exact Eval.inWord_pure
    · rw [shl, inWord_shiftBy_bind]
      exact ⟨by omega, Eval.inWord_pure⟩

theorem b_shift_left {r s : Word} (h : s.toNat < 32) :
    (b_shift r s).result = .ok (.number (r <<< s.toNat)) := by
  have hs := toInt_of_toNat_lt h
  unfold b_shift
  rw [if_neg (by omega), if_neg (by omega), shl, result_shiftBy_bind, Nat.mod_eq_of_lt h]
  rfl

theorem b_shift_right {r s : Word} (h : s.toNat < 32) :
    (b_shift r (-s)).result = .ok (.number (r >>> s.toNat)) := by
  have hs := toInt_of_toNat_lt h
  have hneg : (-s).toInt = -s.toInt := by
    refine BitVec.toInt_neg_of_ne_intMin ?_
    rintro rfl
    simp at h
  by_cases h0 : s = 0
  · subst h0
    have := b_shift_left (r := r) h
    simpa using this
  · have hpos : 0 < s.toNat := by
      rw [Nat.pos_iff_ne_zero]
      exact fun hz => h0 (BitVec.eq_of_toNat_eq hz)
    unfold b_shift
    rw [if_pos (by omega), BitVec.neg_neg, if_neg (by omega), shr, result_shiftBy_bind,
      Nat.mod_eq_of_lt h]
    rfl

/-- A shift by the fastcall or the fold, after the arguments are read. -/
theorem follows_shift {shift : Word → Word → Eval Word} {op : Word → ℕ → Word} {u s : Word}
    {lib : Eval Val} (hop : shift = shiftBy op)
    (hlib : s.toNat < 32 → lib.result = .ok (.number (op u s.toNat))) :
    Follows (if s.toNat < 32 then do return Val.number (← shift u s) else .fail .generic) lib := by
  subst hop
  split_ifs with h
  · have hs := toInt_of_toNat_lt h
    refine ⟨?_, fun v hv => ?_⟩
    · rw [inWord_shiftBy_bind]
      exact ⟨by omega, Eval.inWord_pure⟩
    · rw [result_shiftBy_bind, Nat.mod_eq_of_lt h] at hv
      rw [hlib h]
      exact hv
  · exact Follows.fail

section

variable {wide : ℤ → Word} {args : List ℤ} {a1 a2 : ℤ} {rest : List ℤ}

theorem checkunsigned_one : checkunsigned (a1 :: rest) 1 = pure (num2unsigned a1) := rfl

theorem checkunsigned_two : checkunsigned (a1 :: a2 :: rest) 2 = pure (num2unsigned a2) := rfl

theorem checkinteger_two : checkinteger wide (a1 :: a2 :: rest) 2 = pure (num2int wide a2) := rfl

/-- The fastcall and the fold of a shift follow the library where these read the same arguments. -/
theorem follows_shifts {shift : Word → Word → Eval Word} {op : Word → ℕ → Word} {lib : Eval Val}
    (hop : shift = shiftBy op)
    (hlib : ∀ a1 a2 rest, args = a1 :: a2 :: rest → (num2int wide a2).toNat < 32 →
      lib.result = .ok (.number (op (num2unsigned a1) (num2int wide a2).toNat))) :
    (∀ nresults, Follows (luauF_shift wide nresults args shift) lib) ∧
      Follows (foldShift wide args shift) lib := by
  constructor
  · intro nresults
    unfold luauF_shift
    split
    next a1 a2 rest =>
      split_ifs
      · exact follows_shift hop (hlib a1 a2 rest rfl)
      · exact Follows.fail
    next => exact Follows.fail
  · unfold foldShift
    split
    next a1 a2 => exact follows_shift hop (hlib a1 a2 [] rfl)
    next => exact Follows.fail

theorem library_lrotate : library wide .lrotate (a1 :: a2 :: rest) =
    b_rot (a1 :: a2 :: rest) (num2int wide a2) := rfl

theorem library_rrotate : library wide .rrotate (a1 :: a2 :: rest) =
    b_rot (a1 :: a2 :: rest) (-num2int wide a2) := rfl

theorem library_rshift : library wide .rshift (a1 :: a2 :: rest) =
    b_shift (num2unsigned a1) (-num2int wide a2) := rfl

end

/-- The bits that a negative word gets from the left. -/
theorem sshiftRight_of_neg {r : Word} {n : ℕ} (h : r.msb = true) :
    r >>> n ||| ~~~(BitVec.allOnes 32 >>> n) = r.sshiftRight n := by
  apply BitVec.eq_of_getLsbD_eq
  intro i hi
  simp only [BitVec.getLsbD_or, BitVec.getLsbD_ushiftRight, BitVec.getLsbD_not,
    BitVec.getLsbD_allOnes, BitVec.getLsbD_sshiftRight, h, hi]
  by_cases hn : n + i < 32
  · simp [hn, hi]
  · simp [hn, hi, BitVec.getLsbD_of_ge r (n + i) (by omega)]

theorem and_sign_eq_zero (r : Word) : r &&& ((1 : Word) <<< 31) = 0 ↔ r.msb = false := by
  rw [BitVec.msb_eq_getLsbD_last]
  constructor
  · intro h
    have := congrArg (fun x => BitVec.getLsbD x 31) h
    simpa using this
  · intro h
    apply BitVec.eq_of_getLsbD_eq
    intro i hi
    by_cases hi' : i = 31
    · subst hi'
      simpa using h
    · rw [BitVec.getLsbD_and, BitVec.getLsbD_shiftLeft]
      simp [show i < 31 by omega]

section Arithmetic

variable {wide : ℤ → Word} {a1 a2 : ℤ} {rest : List ℤ}

theorem b_arshift_inWord :
    (b_arshift wide (a1 :: a2 :: rest)).InWord ↔ num2int wide a2 ≠ BitVec.intMin 32 := by
  simp only [b_arshift, checkunsigned_one, checkinteger_two, Eval.pure_bind, shl, shr,
    inWord_shiftBy_bind]
  generalize num2int wide a2 = s
  have hsign : (0 ≤ BitVec.toInt (31 : Word) ∧ BitVec.toInt (31 : Word) ≤ 31) := by decide
  simp only [hsign, true_and]
  split_ifs with h1 h2
  · rw [b_shift_inWord, ne_eq, BitVec.neg_eq_iff_eq_neg, BitVec.neg_intMin]
  all_goals
    have hne : s ≠ BitVec.intMin 32 := by
      rintro rfl
      exact h1 (.inl (by decide))
  · simp [hne]
  · have hnn : ¬ s.toInt < 0 := fun h => h1 (.inl h)
    simp only [inWord_shiftBy_bind, Eval.inWord_pure, and_true, hne, ne_eq, not_false_eq_true,
      iff_true]
    omega

theorem b_arshift_result (h : (num2int wide a2).toNat < 32) :
    (b_arshift wide (a1 :: a2 :: rest)).result =
      .ok (.number ((num2unsigned a1).sshiftRight (num2int wide a2).toNat)) := by
  simp only [b_arshift, checkunsigned_one, checkinteger_two, Eval.pure_bind, shl, shr,
    result_shiftBy_bind]
  have hsign : (1 : Word) <<< (BitVec.toNat (31 : Word) % 32) = (1 : Word) <<< 31 := rfl
  have hs := toInt_of_toNat_lt h
  rw [hsign]
  split_ifs with h1 h2
  · have hmsb : (num2unsigned a1).msb = false :=
      (and_sign_eq_zero _).1 (h1.resolve_left (by omega))
    rw [b_shift_right h, BitVec.sshiftRight_eq_of_msb_false hmsb]
  · omega
  · have hmsb : (num2unsigned a1).msb = true := by
      rw [← Bool.not_eq_false]
      exact fun hf => h1 (.inr ((and_sign_eq_zero _).2 hf))
    simp only [result_shiftBy_bind, Nat.mod_eq_of_lt h, Eval.result_pure, sshiftRight_of_neg hmsb]

end Arithmetic

/-! ### Rotations -/

section Rotation

variable {wide : ℤ → Word} {args rest : List ℤ} {a1 a2 : ℤ} {i s u : Word} {lib : Eval Val}

theorem toNat_sub_and_31 (s : Word) : ((32 - s) &&& 31).toNat = (32 - s.toNat % 32) % 32 := by
  rw [toNat_and_31, BitVec.toNat_sub]
  have := s.isLt
  have h32 : BitVec.toNat (32 : Word) = 32 := rfl
  omega

theorem toNat_neg_and_31 (s : Word) : (-s &&& 31).toNat = (32 - s.toNat % 32) % 32 := by
  rw [toNat_and_31, BitVec.toNat_neg]
  have := s.isLt
  omega

theorem b_rot_inWord : (b_rot (a1 :: rest) i).InWord := by
  simp only [b_rot, checkunsigned_one, Eval.pure_bind, shl, shr]
  split_ifs with h
  · have hlt : (i &&& 31).toNat < 32 := by rw [toNat_and_31]; omega
    have hpos : 0 < (i &&& 31).toNat := by
      rw [Nat.pos_iff_ne_zero]
      exact fun hz => h (BitVec.eq_of_toNat_eq hz)
    have hsub : (32 - (i &&& 31)).toNat = 32 - (i &&& 31).toNat := by
      rw [BitVec.toNat_sub]
      have h32 : BitVec.toNat (32 : Word) = 32 := rfl
      omega
    have h1 := toInt_of_toNat_lt hlt
    have h2 := toInt_of_toNat_lt (s := 32 - (i &&& 31)) (by omega)
    simp only [inWord_shiftBy_bind, Eval.inWord_pure, and_true]
    omega
  · exact Eval.inWord_pure

/-- The rotation by `n` bits to the left. -/
def rotated (u : Word) (n : ℕ) : Word := u <<< n ||| u >>> ((32 - n) % 32)

theorem b_rot_result : (b_rot (a1 :: rest) i).result =
    .ok (.number (rotated (num2unsigned a1) (i.toNat % 32))) := by
  simp only [b_rot, checkunsigned_one, Eval.pure_bind, shl, shr]
  have hlt : (i &&& 31).toNat < 32 := by rw [toNat_and_31]; omega
  split_ifs with h
  · have hpos : 0 < (i &&& 31).toNat := by
      rw [Nat.pos_iff_ne_zero]
      exact fun hz => h (BitVec.eq_of_toNat_eq hz)
    have hsub : (32 - (i &&& 31)).toNat = 32 - (i &&& 31).toNat := by
      rw [BitVec.toNat_sub]
      have h32 : BitVec.toNat (32 : Word) = 32 := rfl
      omega
    simp only [result_shiftBy_bind, Eval.result_pure, hsub, Nat.mod_eq_of_lt hlt, rotated,
      ← toNat_and_31]
  · rw [not_not] at h
    have h0 : i.toNat % 32 = 0 := by rw [← toNat_and_31, h]; rfl
    simp [rotated, h0]

/-- A rotation by the fastcall or the fold, after the arguments are read. -/
theorem follows_rotate {up down : Word → Word → Eval Word} {upOp downOp : Word → ℕ → Word}
    (hup : up = shiftBy upOp) (hdown : down = shiftBy downOp)
    (hlib : lib.result = .ok (.number
      (upOp u (s.toNat % 32) ||| downOp u ((32 - s.toNat % 32) % 32)))) :
    Follows (do
      let l ← up u (s &&& 31)
      let h ← down u ((32 - s) &&& 31)
      return .number (l ||| h)) lib := by
  subst hup hdown
  have hu : (s &&& 31).toNat < 32 := by rw [toNat_and_31]; omega
  have hd : ((32 - s) &&& 31).toNat < 32 := by rw [toNat_and_31]; omega
  have h1 := toInt_of_toNat_lt hu
  have h2 := toInt_of_toNat_lt hd
  refine ⟨?_, fun v hv => ?_⟩
  · simp only [inWord_shiftBy_bind, Eval.inWord_pure, and_true]
    omega
  · simp only [result_shiftBy_bind, Nat.mod_eq_of_lt hu, Nat.mod_eq_of_lt hd] at hv
    rw [toNat_and_31, toNat_sub_and_31] at hv
    rw [hlib]
    exact hv

theorem follows_rotations {up down : Word → Word → Eval Word} {upOp downOp : Word → ℕ → Word}
    (hup : up = shiftBy upOp) (hdown : down = shiftBy downOp)
    (hlib : ∀ a1 a2 rest, args = a1 :: a2 :: rest → lib.result = .ok (.number
      (upOp (num2unsigned a1) ((num2int wide a2).toNat % 32) |||
        downOp (num2unsigned a1) ((32 - (num2int wide a2).toNat % 32) % 32)))) :
    (∀ nresults, Follows (luauF_rotate wide nresults args up down) lib) ∧
      Follows (foldRotate wide args up down) lib := by
  constructor
  · intro nresults
    unfold luauF_rotate
    split
    next a1 a2 rest =>
      split_ifs
      · exact follows_rotate hup hdown (hlib a1 a2 rest rfl)
      · exact Follows.fail
    next => exact Follows.fail
  · unfold foldRotate
    split
    next a1 a2 => exact follows_rotate hup hdown (hlib a1 a2 [] rfl)
    next => exact Follows.fail

end Rotation

/-! ### Fields -/

def Accepts (f w : Word) : Prop := 0 ≤ f.toInt ∧ 0 < w.toInt ∧ (f + w).toInt ≤ 32

def fieldMask (w : Word) : Word := ~~~((0xfffffffe : Word) <<< ((w - 1).toNat % 32))

section Field

variable {wide : ℤ → Word} {args rest : List ℤ} {a a1 a2 a3 : ℤ} {f w u v : Word} {lib : Eval Val}
  {access : Word → Word → Eval Val} {farg : ℕ}

/-- A sum that is too large for an `int` is negative, and passes the check. -/
theorem accepts_iff : Accepts f w ↔ 0 ≤ f.toInt ∧ 0 < w.toInt ∧
    (f.toInt + w.toInt ≤ 32 ∨ 2 ^ 31 ≤ f.toInt + w.toInt) := by
  have hf := f.isLt
  have hw := w.isLt
  simp only [Accepts, BitVec.toInt_eq_toNat_cond, BitVec.toNat_add]
  omega

theorem inWord_of_sum_le (hf : 0 ≤ f.toInt) (hw : 0 < w.toInt) (h : f.toInt + w.toInt ≤ 32) :
    (0 ≤ f.toInt ∧ f.toInt ≤ 31) ∧ 0 ≤ (w - 1).toInt ∧ (w - 1).toInt ≤ 31 := by
  have hw' := w.isLt
  have h1 : BitVec.toNat (1 : Word) = 1 := rfl
  refine ⟨by omega, ?_⟩
  simp only [BitVec.toInt_eq_toNat_cond, BitVec.toNat_sub, h1] at *
  omega

theorem fieldargs_accepts {β : Type} {k : Word × Word → Eval β}
    (ha : args[farg - 1]? = some a) (hf : num2int wide a = f)
    (hw : args[farg]?.elim 1 (num2int wide) = w) (h : Accepts f w) :
    (fieldargs wide args farg >>= k) = (do Eval.event (.field f.toInt w.toInt); k (f, w)) := by
  have hopt : optinteger wide args (farg + 1) 1 = pure w := by
    rw [optinteger, Nat.add_sub_cancel]
    cases hn : args[farg]? <;> rw [hn] at hw <;> rw [← hw] <;> rfl
  simp only [fieldargs, checkinteger, ha, hopt, Eval.pure_bind, hf]
  rw [if_neg (by simp [h.1]), if_neg (by simp [h.2.1]), if_neg (by have := h.2.2; omega),
    Eval.bind_assoc]
  rfl

theorem fieldargs_not_accepts {β : Type} {k : Word × Word → Eval β}
    (ha : args[farg - 1]? = some a) (hf : num2int wide a = f)
    (hw : args[farg]?.elim 1 (num2int wide) = w) (h : ¬ Accepts f w) :
    ∃ e, (fieldargs wide args farg >>= k) = .fail e := by
  have hopt : optinteger wide args (farg + 1) 1 = pure w := by
    rw [optinteger, Nat.add_sub_cancel]
    cases hn : args[farg]? <;> rw [hn] at hw <;> rw [← hw] <;> rfl
  simp only [fieldargs, checkinteger, ha, hopt, Eval.pure_bind, hf]
  by_cases h1 : 0 ≤ f.toInt
  · by_cases h2 : 0 < w.toInt
    · have h3 : (f + w).toInt > 32 := by
        by_contra h3
        exact h ⟨h1, h2, by omega⟩
      rw [if_neg (by simp [h1]), if_neg (by simp [h2]), if_pos h3]
      exact ⟨_, rfl⟩
    · rw [if_neg (by simp [h1]), if_pos h2]
      exact ⟨_, rfl⟩
  · rw [if_pos h1]
    exact ⟨_, rfl⟩

theorem mask_result {β : Type} {k : Word → Eval β} :
    (mask w >>= k).result = (k (fieldMask w)).result := by
  simp only [mask, shl, Eval.bind_assoc, result_shiftBy_bind, Eval.pure_bind]
  rfl

theorem mask_inWord {β : Type} {k : Word → Eval β} : (mask w >>= k).InWord ↔
    (0 ≤ (w - 1).toInt ∧ (w - 1).toInt ≤ 31) ∧ (k (fieldMask w)).InWord := by
  have h1 : 0 ≤ BitVec.toInt (1 : Word) ∧ BitVec.toInt (1 : Word) ≤ 31 := by decide
  simp only [mask, shl, Eval.bind_assoc, inWord_shiftBy_bind, Eval.pure_bind, h1, true_and]
  rfl

theorem follows_withField (hends : ¬ (0 ≤ f.toInt ∧ 0 < w.toInt ∧ 2 ^ 31 ≤ f.toInt + w.toInt))
    (hin : ∀ m, 0 ≤ f.toInt ∧ f.toInt ≤ 31 → (access f m).InWord)
    (hlib : Accepts f w → lib.result = (access f (fieldMask w)).result) :
    Follows (withField f w access) lib := by
  unfold withField
  split_ifs with h
  · have hacc : Accepts f w := ⟨h.1, h.2.1, h.2.2⟩
    have hsum : f.toInt + w.toInt ≤ 32 := by
      rcases (accepts_iff.1 hacc).2.2 with hs | hs
      · exact hs
      · exact absurd ⟨h.1, h.2.1, hs⟩ hends
    obtain ⟨hf, hw⟩ := inWord_of_sum_le h.1 h.2.1 hsum
    refine ⟨?_, fun v hv => ?_⟩
    · rw [Eval.inWord_event_bind, shl, inWord_shiftBy_bind]
      exact ⟨hsum, hw, hin _ hf⟩
    · rw [Eval.result_event_bind, shl, result_shiftBy_bind] at hv
      rw [hlib hacc]
      exact hv
  · exact Follows.fail

theorem follows_withBit (hin : ∀ m, 0 ≤ f.toInt ∧ f.toInt ≤ 31 → (access f m).InWord)
    (hlib : Accepts f 1 → lib.result = (access f (fieldMask 1)).result) :
    Follows (withBit f access) lib := by
  unfold withBit
  split_ifs with h
  · have hf := toInt_of_toNat_lt h
    have h1 : BitVec.toInt (1 : Word) = 1 := by decide
    have hacc : Accepts f 1 := accepts_iff.2 ⟨by omega, by decide, .inl (by omega)⟩
    refine ⟨?_, fun v hv => ?_⟩
    · rw [Eval.inWord_event_bind]
      exact ⟨by simp only [Event.InWord]; omega, hin _ (by omega)⟩
    · rw [hlib hacc]
      exact hv
  · exact Follows.fail

theorem extractBits_inWord (m : Word) (hf : 0 ≤ f.toInt ∧ f.toInt ≤ 31) :
    (extractBits u f m).InWord := by
  rw [extractBits, shr, inWord_shiftBy_bind]
  exact ⟨hf, Eval.inWord_pure⟩

theorem replaceBits_inWord (m : Word) (hf : 0 ≤ f.toInt ∧ f.toInt ≤ 31) :
    (replaceBits u v f m).InWord := by
  rw [replaceBits, shl, inWord_shiftBy_bind, inWord_shiftBy_bind]
  exact ⟨hf, hf, Eval.inWord_pure⟩

/-- What the library does with a field, once it is read. -/
theorem field_inWord {x : Eval Val} (hrej : ¬ Accepts f w → ∃ e, x = .fail e)
    (hacc : Accepts f w → (x.InWord ↔ f.toInt + w.toInt ≤ 32 ∧ (0 ≤ f.toInt ∧ f.toInt ≤ 31) ∧
      0 ≤ (w - 1).toInt ∧ (w - 1).toInt ≤ 31)) :
    x.InWord ↔ ¬ (0 ≤ f.toInt ∧ 0 < w.toInt ∧ 2 ^ 31 ≤ f.toInt + w.toInt) := by
  by_cases h : Accepts f w
  · rw [hacc h]
    obtain ⟨hf, hw, hs⟩ := accepts_iff.1 h
    constructor
    · rintro ⟨hle, -⟩
      omega
    · intro hn
      have hsum : f.toInt + w.toInt ≤ 32 := by omega
      exact ⟨hsum, inWord_of_sum_le hf hw hsum⟩
  · obtain ⟨e, rfl⟩ := hrej h
    simp only [Eval.inWord_fail, true_iff]
    rintro ⟨hf, hw, hs⟩
    exact h (accepts_iff.2 ⟨hf, hw, .inr hs⟩)

theorem b_extract_spec (a1 : ℤ) (hf : num2int wide a2 = f)
    (hw : rest.head?.elim 1 (num2int wide) = w) :
    ((b_extract wide (a1 :: a2 :: rest)).InWord ↔
      ¬ (0 ≤ f.toInt ∧ 0 < w.toInt ∧ 2 ^ 31 ≤ f.toInt + w.toInt)) ∧
    (Accepts f w → (b_extract wide (a1 :: a2 :: rest)).result =
      (extractBits (num2unsigned a1) f (fieldMask w)).result) := by
  have ha : (a1 :: a2 :: rest)[2 - 1]? = some a2 := rfl
  have hw' : (a1 :: a2 :: rest)[2]?.elim 1 (num2int wide) = w := by
    rw [← hw, List.head?_eq_getElem?]
    rfl
  simp only [b_extract, checkunsigned_one, Eval.pure_bind]
  refine ⟨field_inWord (fieldargs_not_accepts ha hf hw') fun h => ?_, fun h => ?_⟩
  · rw [fieldargs_accepts ha hf hw' h]
    simp only [shr, Eval.inWord_event_bind, inWord_shiftBy_bind, mask_inWord, Eval.inWord_pure,
      and_true]
    rfl
  · rw [fieldargs_accepts ha hf hw' h]
    simp only [extractBits, shr, Eval.result_event_bind, result_shiftBy_bind, mask_result]

theorem b_replace_spec (a1 a2 : ℤ) (hf : num2int wide a3 = f)
    (hw : rest.head?.elim 1 (num2int wide) = w) :
    ((b_replace wide (a1 :: a2 :: a3 :: rest)).InWord ↔
      ¬ (0 ≤ f.toInt ∧ 0 < w.toInt ∧ 2 ^ 31 ≤ f.toInt + w.toInt)) ∧
    (Accepts f w → (b_replace wide (a1 :: a2 :: a3 :: rest)).result =
      (replaceBits (num2unsigned a1) (num2unsigned a2) f (fieldMask w)).result) := by
  have ha : (a1 :: a2 :: a3 :: rest)[3 - 1]? = some a3 := rfl
  have hw' : (a1 :: a2 :: a3 :: rest)[3]?.elim 1 (num2int wide) = w := by
    rw [← hw, List.head?_eq_getElem?]
    rfl
  simp only [b_replace, checkunsigned_one, checkunsigned_two, Eval.pure_bind]
  refine ⟨field_inWord (fieldargs_not_accepts ha hf hw') fun h => ?_, fun h => ?_⟩
  · rw [fieldargs_accepts ha hf hw' h]
    simp only [shl, Eval.inWord_event_bind, inWord_shiftBy_bind, mask_inWord, Eval.inWord_pure,
      and_true, and_self]
    exact and_congr_right fun _ => and_comm
  · rw [fieldargs_accepts ha hf hw' h]
    simp only [replaceBits, shl, Eval.result_event_bind, result_shiftBy_bind, mask_result]

end Field

/-! ### The functions -/

section Functions

variable {wide : ℤ → Word} {args : List ℤ}

theorem foldl_allOnes_and (l : List ℤ) (a : ℤ) :
    (a :: l).foldl (fun r a => r &&& num2unsigned a) (BitVec.allOnes 32) =
      l.foldl (fun r a => r &&& num2unsigned a) (num2unsigned a) := by
  rw [List.foldl_cons, BitVec.allOnes_and]

theorem foldl_zero_or (l : List ℤ) (a : ℤ) :
    (a :: l).foldl (fun r a => r ||| num2unsigned a) 0 =
      l.foldl (fun r a => r ||| num2unsigned a) (num2unsigned a) := by
  rw [List.foldl_cons, BitVec.ofNat_eq_ofNat, BitVec.zero_or]

theorem foldl_zero_xor (l : List ℤ) (a : ℤ) :
    (a :: l).foldl (fun r a => r ^^^ num2unsigned a) 0 =
      l.foldl (fun r a => r ^^^ num2unsigned a) (num2unsigned a) := by
  rw [List.foldl_cons, BitVec.ofNat_eq_ofNat, BitVec.zero_xor]

/-- The fastcall and the fold of a function of any number of arguments. -/
theorem follows_bits (op : Word → Word → Word) (result : Word → Val) {lib : Eval Val}
    (hlib : ∀ a l, args = a :: l → lib.result =
      .ok (result (l.foldl (fun r a => op r (num2unsigned a)) (num2unsigned a)))) :
    (∀ nresults, Follows (luauF_bits nresults args op result) lib) ∧
      Follows (foldBits args op result) lib := by
  constructor
  · intro nresults
    unfold luauF_bits
    split
    next a1 a2 rest =>
      split_ifs
      · refine ⟨Eval.inWord_pure, fun v hv => ?_⟩
        rw [hlib a1 (a2 :: rest) rfl]
        exact hv
      · exact Follows.fail
    next => exact Follows.fail
  · unfold foldBits
    split
    next a1 rest =>
      refine ⟨Eval.inWord_pure, fun v hv => ?_⟩
      rw [hlib a1 rest rfl]
      exact hv
    next => exact Follows.fail

theorem consistent_not : Consistent wide .bnot args := by
  rcases args with _ | ⟨a1, _ | ⟨a2, rest⟩⟩
  · exact ⟨Eval.inWord_fail, fun _ => Follows.fail, Follows.fail⟩
  · refine ⟨Eval.inWord_pure, fun nresults => ?_, ⟨Eval.inWord_pure, fun v hv => hv⟩⟩
    simp only [fastcall, luauF_bnot]
    split_ifs
    · exact ⟨Eval.inWord_pure, fun v hv => hv⟩
    · exact Follows.fail
  · refine ⟨Eval.inWord_pure, fun nresults => ?_, Follows.fail⟩
    simp only [fastcall, luauF_bnot]
    split_ifs
    · exact ⟨Eval.inWord_pure, fun v hv => hv⟩
    · exact Follows.fail

theorem consistent_iff {fn : Fn} (hlib : (library wide fn args).InWord ↔ Regular wide fn args)
    (hfast : Regular wide fn args →
      (∀ nresults, Follows (fastcall wide fn nresults args) (library wide fn args)) ∧
        Follows (foldBuiltin wide args fn) (library wide fn args)) :
    Consistent wide fn args ↔ Regular wide fn args :=
  ⟨fun h => hlib.1 h.library, fun h => ⟨hlib.2 h, (hfast h).1, (hfast h).2⟩⟩

theorem consistent_lshift : Consistent wide .lshift args ↔ Regular wide .lshift args := by
  refine consistent_iff ?_ fun _ => follows_shifts rfl ?_
  · rcases args with _ | ⟨a1, _ | ⟨a2, rest⟩⟩
    · exact iff_of_true Eval.inWord_fail fun a ha => nomatch ha
    · exact iff_of_true Eval.inWord_fail fun a ha => nomatch ha
    · exact b_shift_inWord.trans (by simp [Regular])
  · rintro a1 a2 rest rfl h
    exact b_shift_left h

theorem consistent_rshift : Consistent wide .rshift args ↔ Regular wide .rshift args := by
  refine consistent_iff ?_ fun _ => follows_shifts rfl ?_
  · rcases args with _ | ⟨a1, _ | ⟨a2, rest⟩⟩
    · exact iff_of_true Eval.inWord_fail fun a ha => nomatch ha
    · exact iff_of_true Eval.inWord_fail fun a ha => nomatch ha
    · rw [library_rshift, b_shift_inWord, ne_eq, BitVec.neg_eq_iff_eq_neg, BitVec.neg_intMin]
      simp [Regular]
  · rintro a1 a2 rest rfl h
    exact b_shift_right h

theorem consistent_arshift : Consistent wide .arshift args ↔ Regular wide .arshift args := by
  refine consistent_iff ?_ fun _ => follows_shifts rfl ?_
  · rcases args with _ | ⟨a1, _ | ⟨a2, rest⟩⟩
    · exact iff_of_true Eval.inWord_fail fun a ha => nomatch ha
    · exact iff_of_true Eval.inWord_fail fun a ha => nomatch ha
    · exact b_arshift_inWord.trans (by simp [Regular])
  · rintro a1 a2 rest rfl h
    exact b_arshift_result h

theorem consistent_lrotate : Consistent wide .lrotate args ↔ Regular wide .lrotate args := by
  refine consistent_iff (iff_of_true ?_ trivial) fun _ => follows_rotations rfl rfl ?_
  · rcases args with _ | ⟨a1, _ | ⟨a2, rest⟩⟩
    · exact Eval.inWord_fail
    · exact Eval.inWord_fail
    · rw [library_lrotate]
      exact b_rot_inWord
  · rintro a1 a2 rest rfl
    rw [library_lrotate]
    exact b_rot_result

theorem consistent_rrotate : Consistent wide .rrotate args ↔ Regular wide .rrotate args := by
  refine consistent_iff (iff_of_true ?_ trivial) fun _ => follows_rotations rfl rfl ?_
  · rcases args with _ | ⟨a1, _ | ⟨a2, rest⟩⟩
    · exact Eval.inWord_fail
    · exact Eval.inWord_fail
    · rw [library_rrotate]
      exact b_rot_inWord
  · rintro a1 a2 rest rfl
    rw [library_rrotate, b_rot_result]
    have hn := toNat_neg_and_31 (num2int wide a2)
    rw [toNat_and_31] at hn
    have hs : (32 - (32 - (num2int wide a2).toNat % 32) % 32) % 32 =
        (num2int wide a2).toNat % 32 := by omega
    rw [hn, rotated, hs, BitVec.or_comm]

theorem fieldEnds_iff {k : ℕ} {a : ℤ} (ha : args[k]? = some a) :
    FieldEnds wide args k ↔ ¬ (0 ≤ (num2int wide a).toInt ∧
      0 < (args[k + 1]?.elim 1 (num2int wide)).toInt ∧
      2 ^ 31 ≤ (num2int wide a).toInt + (args[k + 1]?.elim 1 (num2int wide)).toInt) := by
  constructor
  · intro h
    exact h a ha
  · intro h b hb
    rw [ha] at hb
    cases hb
    exact h

theorem consistent_extract : Consistent wide .extract args ↔ Regular wide .extract args := by
  rcases args with _ | ⟨a1, _ | ⟨a2, rest⟩⟩
  · exact consistent_iff (iff_of_true Eval.inWord_fail fun a ha => nomatch ha) fun _ =>
      ⟨fun _ => Follows.fail, Follows.fail⟩
  · exact consistent_iff (iff_of_true Eval.inWord_fail fun a ha => nomatch ha) fun _ =>
      ⟨fun _ => Follows.fail, Follows.fail⟩
  · have hw : (a1 :: a2 :: rest)[1 + 1]? = rest.head? := by
      rw [List.head?_eq_getElem?]
      rfl
    have hends : Regular wide .extract (a1 :: a2 :: rest) ↔ _ :=
      fieldEnds_iff (k := 1) (a := a2) rfl
    rw [hw] at hends
    obtain ⟨hin, hres⟩ := b_extract_spec a1 (rfl : num2int wide a2 = _)
      (rfl : rest.head?.elim 1 (num2int wide) = _)
    refine consistent_iff (hin.trans hends.symm) fun hreg => ?_
    have hfield : Follows (withField (num2int wide a2) (rest.head?.elim 1 (num2int wide))
        (extractBits (num2unsigned a1))) (library wide .extract (a1 :: a2 :: rest)) :=
      follows_withField (hends.1 hreg) extractBits_inWord hres
    refine ⟨fun nresults => ?_, hfield⟩
    rcases rest with _ | ⟨a3, rest⟩
    · simp only [fastcall, luauF_extract]
      split_ifs
      · exact follows_withBit extractBits_inWord hres
      · exact Follows.fail
    · simp only [fastcall, luauF_extract]
      split_ifs
      · exact hfield
      · exact Follows.fail

theorem consistent_replace : Consistent wide .replace args ↔ Regular wide .replace args := by
  rcases args with _ | ⟨a1, _ | ⟨a2, _ | ⟨a3, rest⟩⟩⟩
  · exact consistent_iff (iff_of_true Eval.inWord_fail fun a ha => nomatch ha) fun _ =>
      ⟨fun _ => Follows.fail, Follows.fail⟩
  · exact consistent_iff (iff_of_true Eval.inWord_fail fun a ha => nomatch ha) fun _ =>
      ⟨fun _ => Follows.fail, Follows.fail⟩
  · exact consistent_iff (iff_of_true Eval.inWord_fail fun a ha => nomatch ha) fun _ =>
      ⟨fun _ => Follows.fail, Follows.fail⟩
  · have hw : (a1 :: a2 :: a3 :: rest)[2 + 1]? = rest.head? := by
      rw [List.head?_eq_getElem?]
      rfl
    have hends : Regular wide .replace (a1 :: a2 :: a3 :: rest) ↔ _ :=
      fieldEnds_iff (k := 2) (a := a3) rfl
    rw [hw] at hends
    obtain ⟨hin, hres⟩ := b_replace_spec a1 a2 (rfl : num2int wide a3 = _)
      (rfl : rest.head?.elim 1 (num2int wide) = _)
    refine consistent_iff (hin.trans hends.symm) fun hreg => ?_
    have hfield : Follows (withField (num2int wide a3) (rest.head?.elim 1 (num2int wide))
        (replaceBits (num2unsigned a1) (num2unsigned a2)))
        (library wide .replace (a1 :: a2 :: a3 :: rest)) :=
      follows_withField (hends.1 hreg) replaceBits_inWord hres
    refine ⟨fun nresults => ?_, hfield⟩
    rcases rest with _ | ⟨a4, rest⟩
    · simp only [fastcall, luauF_replace]
      split_ifs
      · exact follows_withBit replaceBits_inWord hres
      · exact Follows.fail
    · simp only [fastcall, luauF_replace]
      split_ifs
      · exact hfield
      · exact Follows.fail

end Functions

/-- **Agreement.**  The library, the fastcall and the constant folding of a function agree, and
shift and accept fields only inside of a word, exactly where no `int` overflows. -/
theorem bit32_agrees_iff (wide : ℤ → Word) (fn : Fn) (args : List ℤ) :
    Consistent wide fn args ↔ Regular wide fn args := by
  cases fn with
  | arshift => exact consistent_arshift
  | band =>
    refine consistent_iff (iff_of_true Eval.inWord_pure trivial) fun _ =>
      follows_bits (· &&& ·) .number ?_
    rintro a l rfl
    simp only [library, b_and, andaux, foldl_allOnes_and]
    rfl
  | bnot => exact iff_of_true consistent_not trivial
  | bor =>
    refine consistent_iff (iff_of_true Eval.inWord_pure trivial) fun _ =>
      follows_bits (· ||| ·) .number ?_
    rintro a l rfl
    simp only [library, b_or, foldl_zero_or]
    rfl
  | bxor =>
    refine consistent_iff (iff_of_true Eval.inWord_pure trivial) fun _ =>
      follows_bits (· ^^^ ·) .number ?_
    rintro a l rfl
    simp only [library, b_xor, foldl_zero_xor]
    rfl
  | btest =>
    refine consistent_iff (iff_of_true Eval.inWord_pure trivial) fun _ =>
      follows_bits (· &&& ·) (fun r => .boolean (r ≠ 0)) ?_
    rintro a l rfl
    simp only [library, b_test, andaux, foldl_allOnes_and]
    rfl
  | extract => exact consistent_extract
  | lrotate => exact consistent_lrotate
  | lshift => exact consistent_lshift
  | replace => exact consistent_replace
  | rrotate => exact consistent_rrotate
  | rshift => exact consistent_rshift

/-- The end of the field at the largest `int` is negative. -/
theorem extract_field_accepted :
    ¬ Consistent (fun _ => BitVec.intMin 32) .extract [0, 2147483647, 1] := by
  intro h
  have hevent : Event.field 2147483647 1 ∈
      (library (fun _ => BitVec.intMin 32) .extract [0, 2147483647, 1]).events := by decide
  have := h.library _ hevent
  simp [Event.InWord] at this

end Bit32

end Jaci
