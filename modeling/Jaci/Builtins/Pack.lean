import Jaci.Lib.Double
import Jaci.Lib.Wire
import Mathlib

/-!
# `string.pack`, `string.packsize` and `string.unpack`

A format is read option by option by three loops, which all keep the endianness, the maximum
alignment and the position; the position decides how many bytes an option is moved to be aligned.

* `getdetails` : the next option of a format, with its size and its alignment;
* `str_pack`, `str_packsize`, `str_unpack` : the three loops;
* `options` : the options of a format that take an argument.
-/

namespace Double

/-- The integer a number is equal to. -/
def toInt? : Double → Option ℤ
  | .finite neg mag _ => if mag.den = 1 then some (if neg then -mag.num else mag.num) else none
  | _ => none

/-- The conversion of an integer. -/
def ofInt (n : ℤ) : Double := round (n < 0) n.natAbs

/-- The number with a zero that has no sign. -/
def dropSign : Double → Double
  | .finite neg mag h => if mag = 0 then ofNat false 0 zero_le_mantissa else .finite neg mag h
  | d => d

end Double

namespace Jaci

namespace Pack

open Wire

/-! ### Values -/

/-- A value on the stack. -/
inductive Value where
  | number (d : Double)
  | string (s : Bytes)
  | other
deriving DecidableEq

/-- The errors of the functions. -/
inductive Failure where
  | tagError (narg : ℕ)
  /-- `luaL_argerror`. -/
  | argError (narg : ℕ) (message : String)
  /-- `luaL_error`. -/
  | error (message : String)
  /-- `luaM_toobig`. -/
  | tooBig
deriving DecidableEq

/-- The conversions of numbers. -/
structure Numbers where
  /-- `luaO_str2d`. -/
  str2d : Bytes → Option Double
  /-- `luai_num2str`. -/
  num2str : Double → Bytes
  /-- The representation of `(float)n`. -/
  toFloat : Double → BitVec 32
  /-- The number a `float` is converted to. -/
  ofFloat : BitVec 32 → Double
  /-- The representation of a `double`. -/
  toDouble : Double → BitVec 64
  /-- The number of a `double`. -/
  ofDouble : BitVec 64 → Double

variable (N : Numbers)

/-- `lua_tonumberx`. -/
def tonumber : Value → Option Double
  | .number d => some d
  | .string s => N.str2d s
  | .other => none

/-- `lua_tolstring`. -/
def tolstring : Value → Option Bytes
  | .number d => some (N.num2str d)
  | .string s => some s
  | .other => none

/-- `luaL_checknumber`. -/
def checknumber (narg : ℕ) (v : Value) : Except Failure Double :=
  match tonumber N v with
  | some d => .ok d
  | none => .error (.tagError narg)

/-- `luaL_checklstring`. -/
def checklstring (narg : ℕ) (v : Value) : Except Failure Bytes :=
  match tolstring N v with
  | some s => .ok s
  | none => .error (.tagError narg)

/-- `(long long)d`; numbers out of range become the smallest integer. -/
def toLongLong : Double → BitVec 64
  | .finite neg mag _ =>
    let n : ℤ := if neg then -⌊mag⌋ else ⌊mag⌋
    if -2 ^ 63 ≤ n ∧ n < 2 ^ 63 then BitVec.ofInt 64 n else BitVec.intMin 64
  | _ => BitVec.intMin 64

/-! ### Options -/

def MAXINTSIZE : ℕ := 16

def SZINT : ℕ := 8

def MAXALIGN : ℕ := 8

def MAXSSIZE : ℕ := 2 ^ 30

/-- `LUAI_MAXCSTACK`. -/
def MAXCSTACK : ℕ := 8000

/-- `LUAL_PACKPADBYTE`. -/
def PACKPADBYTE : UInt8 := 0

/-- `nativeendian.little`. -/
def nativelittle : Bool := true

/-- Information to pack and unpack. -/
structure Header where
  islittle : Bool
  maxalign : ℕ
deriving DecidableEq

def initheader : Header := ⟨nativelittle, 1⟩

/-- The options. -/
inductive KOption where
  | Kint | Kuint | Kfloat | Kchar | Kstring | Kzstr | Kpadding | Kpaddalign | Knop
deriving DecidableEq

/-- The option has an argument. -/
def KOption.takes : KOption → Bool
  | .Kpadding | .Kpaddalign | .Knop => false
  | _ => true

def digit (c : UInt8) : Bool := 48 ≤ c && c ≤ 57

/-- The loop of `getnum`; it stops before the number passes `INT_MAX`. -/
def getnumLoop (a : ℕ) : Bytes → ℕ × Bytes
  | c :: fmt =>
    if digit c ∧ a ≤ (2 ^ 31 - 1 - 9) / 10 then getnumLoop (a * 10 + (c.toNat - 48)) fmt
    else (a, c :: fmt)
  | [] => (a, [])

/-- `getnum`; there is no number where the source returns its default. -/
def getnum (fmt : Bytes) : Except Failure (Option ℕ × Bytes) :=
  if ¬ fmt.head?.any digit then .ok (none, fmt)
  else
    let (a, fmt) := getnumLoop 0 fmt
    if a > MAXSSIZE ∨ fmt.head?.any digit then .error (.error "size specifier is too large")
    else .ok (some a, fmt)

def getnumlimit (fmt : Bytes) (df : ℕ) : Except Failure (ℕ × Bytes) := do
  let (sz, fmt) ← getnum fmt
  let sz := sz.getD df
  if sz > MAXINTSIZE ∨ sz = 0 then
    .error (.error s!"integral size ({sz}) out of limits [1,{MAXINTSIZE}]")
  else .ok (sz, fmt)

/-- An option as it is read: its kind, its size, the header and the format after it. -/
structure Read where
  opt : KOption
  size : ℕ
  header : Header
  fmt : Bytes
deriving DecidableEq

/-- An option with a size that follows it. -/
def sized (h : Header) (opt : KOption) (fmt : Bytes) : Except Failure Read := do
  let (size, fmt) ← getnumlimit fmt 4
  return ⟨opt, size, h, fmt⟩

/-- `getoption`, after it has read the letter `opt`. -/
def getoption (h : Header) (opt : UInt8) (fmt : Bytes) : Except Failure Read :=
  match Char.ofNat opt.toNat with
  | 'b' => .ok ⟨.Kint, 1, h, fmt⟩
  | 'B' => .ok ⟨.Kuint, 1, h, fmt⟩
  | 'h' => .ok ⟨.Kint, 2, h, fmt⟩
  | 'H' => .ok ⟨.Kuint, 2, h, fmt⟩
  | 'l' => .ok ⟨.Kint, 8, h, fmt⟩
  | 'L' => .ok ⟨.Kuint, 8, h, fmt⟩
  | 'j' => .ok ⟨.Kint, 4, h, fmt⟩
  | 'J' => .ok ⟨.Kuint, 4, h, fmt⟩
  | 'T' => .ok ⟨.Kuint, 4, h, fmt⟩
  | 'f' => .ok ⟨.Kfloat, 4, h, fmt⟩
  | 'd' => .ok ⟨.Kfloat, 8, h, fmt⟩
  | 'n' => .ok ⟨.Kfloat, 8, h, fmt⟩
  | 'i' => sized h .Kint fmt
  | 'I' => sized h .Kuint fmt
  | 's' => sized h .Kstring fmt
  | 'c' =>
    match getnum fmt with
    | .ok (some size, fmt) => .ok ⟨.Kchar, size, h, fmt⟩
    | .ok (none, _) => .error (.error "missing size for format option 'c'")
    | .error e => .error e
  | 'z' => .ok ⟨.Kzstr, 0, h, fmt⟩
  | 'x' => .ok ⟨.Kpadding, 1, h, fmt⟩
  | 'X' => .ok ⟨.Kpaddalign, 0, h, fmt⟩
  | ' ' => .ok ⟨.Knop, 0, h, fmt⟩
  | '<' => .ok ⟨.Knop, 0, { h with islittle := true }, fmt⟩
  | '>' => .ok ⟨.Knop, 0, { h with islittle := false }, fmt⟩
  | '=' => .ok ⟨.Knop, 0, { h with islittle := nativelittle }, fmt⟩
  | '!' =>
    match getnumlimit fmt MAXALIGN with
    | .ok (size, fmt) => .ok ⟨.Knop, 0, { h with maxalign := size }, fmt⟩
    | .error e => .error e
  | c => .error (.error s!"invalid format option '{c}'")

/-- The size an option is aligned to, with the option; `X` takes that of the option after it. -/
def getalign (r : Read) : Except Failure (ℕ × Read) :=
  if r.opt = .Kpaddalign then
    match r.fmt with
    | [] => .error (.argError 1 "invalid next option for option 'X'")
    | c :: fmt =>
      match getoption r.header c fmt with
      | .ok next =>
        if next.opt = .Kchar ∨ next.size = 0 then
          .error (.argError 1 "invalid next option for option 'X'")
        else .ok (next.size, { r with header := next.header, fmt := next.fmt })
      | .error e => .error e
  else .ok (r.size, r)

/-- `getdetails`: the next option, and the bytes to align it at `totalsize`. -/
def getdetails (h : Header) (totalsize : ℕ) (c : UInt8) (fmt : Bytes) :
    Except Failure (ℕ × Read) := do
  let r ← getoption h c fmt
  let (align, r) ← getalign r
  if align ≤ 1 ∨ r.opt = .Kchar then return (0, r)
  else
    let align := min align r.header.maxalign
    if align &&& (align - 1) ≠ 0 then
      .error (.argError 1 "format asks for alignment not power of 2")
    else return ((align - (totalsize &&& (align - 1))) &&& (align - 1), r)

/-! ### The format gets shorter -/

theorem length_getnumLoop (a : ℕ) (fmt : Bytes) : (getnumLoop a fmt).2.length ≤ fmt.length := by
  induction fmt generalizing a with
  | nil => simp [getnumLoop]
  | cons c fmt ih =>
    rw [getnumLoop]
    split_ifs with hc
    · exact (ih _).trans (Nat.le_succ _)
    · simp

theorem length_getnum {fmt fmt' : Bytes} {a : Option ℕ} (h : getnum fmt = .ok (a, fmt')) :
    fmt'.length ≤ fmt.length := by
  simp only [getnum] at h
  split_ifs at h
  · simp only [Except.ok.injEq, Prod.mk.injEq] at h
    rw [← h.2]
    exact length_getnumLoop 0 fmt
  · simp only [Except.ok.injEq, Prod.mk.injEq] at h
    rw [← h.2]

theorem length_getnumlimit {fmt fmt' : Bytes} {df sz : ℕ}
    (h : getnumlimit fmt df = .ok (sz, fmt')) : fmt'.length ≤ fmt.length := by
  rw [getnumlimit] at h
  cases hn : getnum fmt with
  | error e => simp [hn, bind, Except.bind] at h
  | ok r =>
    simp only [hn, bind, Except.bind] at h
    split_ifs at h
    simp only [Except.ok.injEq, Prod.mk.injEq] at h
    rw [← h.2]
    exact length_getnum hn

theorem length_sized {h : Header} {opt : KOption} {fmt : Bytes} {r : Read}
    (hr : sized h opt fmt = .ok r) : r.fmt.length ≤ fmt.length := by
  rw [sized] at hr
  cases hn : getnumlimit fmt 4 with
  | error e => simp [hn, bind, Except.bind] at hr
  | ok q =>
    simp only [hn, bind, Except.bind, pure, Except.pure, Except.ok.injEq] at hr
    rw [← hr]
    exact length_getnumlimit hn

theorem length_getoption {h : Header} {c : UInt8} {fmt : Bytes} {r : Read}
    (hr : getoption h c fmt = .ok r) : r.fmt.length ≤ fmt.length := by
  unfold getoption at hr
  split at hr
  case h_13 | h_14 | h_15 => exact length_sized hr
  case h_16 =>
    split at hr
    · rename_i hn
      cases hr
      exact length_getnum hn
    · cases hr
    · cases hr
  case h_24 =>
    split at hr
    · rename_i hn
      cases hr
      exact length_getnumlimit hn
    · cases hr
  all_goals
    cases hr
  all_goals exact le_rfl

theorem length_getalign {r r' : Read} {align : ℕ} (h : getalign r = .ok (align, r')) :
    r'.fmt.length ≤ r.fmt.length := by
  rw [getalign] at h
  split_ifs at h
  · split at h
    · cases h
    · rename_i c fmt hfmt
      split at h
      · rename_i next hnext
        split_ifs at h
        simp only [Except.ok.injEq, Prod.mk.injEq] at h
        have hlen := length_getoption hnext
        rw [← h.2, hfmt, List.length_cons]
        exact hlen.trans (Nat.le_succ _)
      · cases h
  · cases h
    exact le_rfl

/-- What `getdetails` does: it reads an option, its alignment, and moves to the alignment. -/
theorem getdetails_eq_ok {h : Header} {totalsize : ℕ} {c : UInt8} {fmt : Bytes} {d : ℕ × Read}
    (hd : getdetails h totalsize c fmt = .ok d) :
    ∃ r, getoption h c fmt = .ok r ∧ ∃ align, getalign r = .ok (align, d.2) := by
  rw [getdetails] at hd
  cases hr : getoption h c fmt with
  | error e => simp [hr, bind, Except.bind] at hd
  | ok r =>
    simp only [hr, bind, Except.bind] at hd
    cases ha : getalign r with
    | error e => simp [ha] at hd
    | ok q =>
      simp only [ha, pure, Except.pure] at hd
      refine ⟨r, rfl, q.1, ?_⟩
      split_ifs at hd <;> cases hd <;> exact ha

theorem length_getdetails {h : Header} {totalsize : ℕ} {c : UInt8} {fmt : Bytes} {d : ℕ × Read}
    (hd : getdetails h totalsize c fmt = .ok d) : d.2.fmt.length < (c :: fmt).length := by
  obtain ⟨r, hr, align, ha⟩ := getdetails_eq_ok hd
  exact Nat.lt_succ_of_le ((length_getalign ha).trans (length_getoption hr))

/-! ### Integers -/

/-- `packint`: byte `i` has bits `8 * i` to `8 * i + 7`. -/
def packint (n : BitVec 64) (islittle : Bool) (size : ℕ) (neg : Bool) : Bytes :=
  (List.range size).map fun k =>
    let i := if islittle then k else size - 1 - k
    if neg ∧ SZINT < size ∧ SZINT ≤ i then 255 else UInt8.ofNat (n.toNat >>> (8 * i))

/-- Byte `i` of an integer of `size` bytes. -/
def intByte (str : Bytes) (islittle : Bool) (size i : ℕ) : UInt8 :=
  str.getD (if islittle then i else size - 1 - i) 0

def unpackint (str : Bytes) (islittle : Bool) (size : ℕ) (issigned : Bool) :
    Except Failure (BitVec 64) :=
  let limit := if size ≤ SZINT then size else SZINT
  let res := (List.range limit).foldr
    (fun i (res : BitVec 64) => res <<< 8 ||| BitVec.ofNat 64 (intByte str islittle size i).toNat) 0
  if size < SZINT then
    if issigned then
      let mask : BitVec 64 := 1#64 <<< (size * 8 - 1)
      .ok ((res ^^^ mask) - mask)
    else .ok res
  else if SZINT < size then
    let mask : UInt8 := if ¬ issigned ∨ 0 ≤ res.toInt then 0 else 255
    if ∀ i < size, limit ≤ i → intByte str islittle size i = mask then .ok res
    else .error (.error s!"{size}-byte integer does not fit into Lua Integer")
  else .ok res

def copywithendian (src : Bytes) (islittle : Bool) : Bytes :=
  if islittle = nativelittle then src else src.reverse

/-! ### `string.pack` -/

/-- The switch of `str_pack`: the bytes of argument `arg`, and what is added to `totalsize`. -/
def packOption (h : Header) (opt : KOption) (size arg : ℕ) (v : Value) :
    Except Failure (Bytes × ℕ) :=
  match opt with
  | .Kint => do
    let d ← checknumber N arg v
    let n := toLongLong d
    if size < SZINT ∧ ¬ (-2 ^ (size * 8 - 1) ≤ n.toInt ∧ n.toInt < 2 ^ (size * 8 - 1)) then
      .error (.argError arg "integer overflow")
    else return (packint n h.islittle size (n.toInt < 0), 0)
  | .Kuint => do
    let d ← checknumber N arg v
    let n := toLongLong d
    if size < SZINT ∧ ¬ n.toNat < 2 ^ (size * 8) then .error (.argError arg "unsigned overflow")
    else return (packint n h.islittle size false, 0)
  | .Kfloat => do
    let d ← checknumber N arg v
    if size = 4 then
      return (copywithendian (leBytes 4 (N.toFloat d).toNat) h.islittle, 0)
    else return (copywithendian (leBytes 8 (N.toDouble d).toNat) h.islittle, 0)
  | .Kchar => do
    let s ← checklstring N arg v
    if size < s.length then .error (.argError arg "string longer than given size")
    else return (s ++ List.replicate (size - s.length) PACKPADBYTE, 0)
  | .Kstring => do
    let s ← checklstring N arg v
    if ¬ (8 ≤ size ∨ s.length < 2 ^ (size * 8)) then
      .error (.argError arg "string length does not fit in given size")
    else return (packint (BitVec.ofNat 64 s.length) h.islittle size false ++ s, s.length)
  | .Kzstr => do
    let s ← checklstring N arg v
    if s.findIdx (· == 0) ≠ s.length then .error (.argError arg "string contains zeros")
    else return (s ++ [0], s.length + 1)
  | .Kpadding => .ok ([PACKPADBYTE], 0)
  | .Kpaddalign => .ok ([], 0)
  | .Knop => .ok ([], 0)

/-- The loop of `str_pack`, with the arguments that are left. -/
def packLoop (h : Header) (fmt : Bytes) (totalsize arg : ℕ) (args : List Value) :
    Except Failure Bytes :=
  match fmt with
  | [] => .ok []
  | c :: fmt =>
    match _hd : getdetails h totalsize c fmt with
    | .error e => .error e
    | .ok (ntoalign, r) =>
      match packOption N r.header r.opt r.size (arg + 1) (args.headD .other) with
      | .error e => .error e
      | .ok (bytes, extra) =>
        match packLoop r.header r.fmt (totalsize + (ntoalign + r.size) + extra)
          (if r.opt.takes then arg + 1 else arg) (if r.opt.takes then args.tail else args) with
        | .error e => .error e
        | .ok rest => .ok (List.replicate ntoalign PACKPADBYTE ++ bytes ++ rest)
termination_by fmt.length
decreasing_by exact length_getdetails ‹_›

/-- The characters of a C string. -/
def cstring (s : Bytes) : Bytes := s.takeWhile (· != 0)

def str_pack (fmt : Bytes) (args : List Value) : Except Failure Bytes := do
  let b ← packLoop N initheader (cstring fmt) 0 1 args
  if MAXSSIZE < b.length then .error .tooBig else return b

/-! ### `string.packsize` -/

/-- The loop of `str_packsize`. -/
def packsizeLoop (h : Header) (fmt : Bytes) (totalsize : ℕ) : Except Failure ℕ :=
  match fmt with
  | [] => .ok totalsize
  | c :: fmt =>
    match _hd : getdetails h totalsize c fmt with
    | .error e => .error e
    | .ok (ntoalign, r) =>
      if r.opt = .Kstring ∨ r.opt = .Kzstr then .error (.argError 1 "variable-length format")
      else if ¬ (totalsize : ℤ) ≤ (MAXSSIZE : ℤ) - ((r.size + ntoalign : ℕ) : ℤ) then
        .error (.argError 1 "format result too large")
      else packsizeLoop r.header r.fmt (totalsize + (r.size + ntoalign))
termination_by fmt.length
decreasing_by exact length_getdetails ‹_›

def str_packsize (fmt : Bytes) : Except Failure ℕ := packsizeLoop initheader (cstring fmt) 0

/-! ### `string.unpack` -/

def posrelat (pos : ℤ) (len : ℕ) : ℕ := (if pos < 0 then pos + (len + 1) else pos).toNat

/-- The switch of `str_unpack`: the value at `pos`, and what is added to `pos` besides the size. -/
def unpackOption (data : Bytes) (h : Header) (opt : KOption) (size pos : ℕ) :
    Except Failure (Option Value × ℕ) :=
  match opt with
  | .Kint => do
    let res ← unpackint (data.drop pos) h.islittle size true
    return (some (.number (Double.ofInt res.toInt)), 0)
  | .Kuint => do
    let res ← unpackint (data.drop pos) h.islittle size false
    return (some (.number (Double.ofInt res.toNat)), 0)
  | .Kfloat =>
    let u := leNat (copywithendian ((data.drop pos).take size) h.islittle)
    if size = 4 then .ok (some (.number (N.ofFloat (BitVec.ofNat 32 u))), 0)
    else .ok (some (.number (N.ofDouble (BitVec.ofNat 64 u))), 0)
  | .Kchar => .ok (some (.string ((data.drop pos).take size)), 0)
  | .Kstring => do
    let len ← unpackint (data.drop pos) h.islittle size false
    if ¬ len.toNat ≤ data.length - pos - size then
      .error (.argError 2 "data string too short")
    else return (some (.string ((data.drop (pos + size)).take len.toNat)), len.toNat)
  | .Kzstr =>
    let len := (data.drop pos).findIdx (· == 0)
    if ¬ pos + len < data.length then
      .error (.argError 2 "unfinished string for format 'z'")
    else .ok (some (.string ((data.drop pos).take len)), len + 1)
  | .Kpaddalign | .Kpadding | .Knop => .ok (none, 0)

/-- The loop of `str_unpack`, with `n` results on the stack. -/
def unpackLoop (data : Bytes) (h : Header) (fmt : Bytes) (pos n : ℕ) :
    Except Failure (List Value) :=
  match fmt with
  | [] => .ok [.number (Double.ofInt (pos + 1))]
  | c :: fmt =>
    match _hd : getdetails h pos c fmt with
    | .error e => .error e
    | .ok (ntoalign, r) =>
      if ¬ ntoalign + r.size ≤ data.length - pos then
        .error (.argError 2 "data string too short")
      else if 2 + n + 2 > MAXCSTACK then .error (.error "stack overflow (too many results)")
      else
        match unpackOption N data r.header r.opt r.size (pos + ntoalign) with
        | .error e => .error e
        | .ok (v, extra) =>
          match unpackLoop data r.header r.fmt (pos + ntoalign + extra + r.size)
            (if r.opt.takes then n + 1 else n) with
          | .error e => .error e
          | .ok rest => .ok (v.toList ++ rest)
termination_by fmt.length
decreasing_by exact length_getdetails ‹_›

/-- `str_unpack`, from position `init`. -/
def str_unpack (fmt data : Bytes) ( init : ℤ) : Except Failure (List Value) :=
  let pos := posrelat init data.length - 1
  if ¬ pos ≤ data.length then .error (.argError 3 "initial position out of string")
  else unpackLoop N data initheader (cstring fmt) pos 0

/-! ### The arguments of a format -/

/-- The options of a format that take an argument, with their sizes. -/
def options (h : Header) (fmt : Bytes) : List (KOption × ℕ) :=
  match fmt with
  | [] => []
  | c :: fmt =>
    match _hd : getdetails h 0 c fmt with
    | .error _ => []
    | .ok (_, r) =>
      if r.opt.takes then (r.opt, r.size) :: options r.header r.fmt else options r.header r.fmt
termination_by fmt.length
decreasing_by
  all_goals exact length_getdetails ‹_›

/-- The argument `v` is one that the option gives back: an integer up to `2 ^ 53`, a number that is
a `float` or a `double`, or a string of the size of the option. -/
def Suits (opt : KOption) (size : ℕ) (v : Value) : Prop :=
  match opt with
  | .Kint => ∀ d ∈ tonumber N v, ∃ n ∈ d.toInt?, |n| ≤ 2 ^ 53
  | .Kuint => ∀ d ∈ tonumber N v, ∃ n ∈ d.toInt?, 0 ≤ n ∧ n ≤ 2 ^ 53
  | .Kfloat => ∀ d ∈ tonumber N v,
      if size = 4 then N.ofFloat (N.toFloat d) = d else N.ofDouble (N.toDouble d) = d
  | .Kchar => ∀ s ∈ tolstring N v, s.length = size
  | _ => True

/-- The argument as the option reads it: numbers and strings are converted to each other, and an
integer has no negative zero. -/
def asRead (opt : KOption) (v : Value) : Value :=
  match opt with
  | .Kint | .Kuint => (tonumber N v).elim .other fun d => .number d.dropSign
  | .Kfloat => (tonumber N v).elim .other .number
  | _ => (tolstring N v).elim .other .string

end Pack

end Jaci
