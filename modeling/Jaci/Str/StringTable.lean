import Jaci.Lib.Linked
import Jaci.Lib.Wire
import Mathlib.Data.Finset.Card
import Mathlib.Data.Finset.SDiff

/-!
# The string table

Strings are interned: a hash table of chains, linked through the `next` field of the strings,
holds one string for every content in use.  The table and the strings are modelled with their
pointers; loops over a chain take the number of allocated strings as fuel, which bounds every
chain.

The allocator and the failure of an allocation are decided outside: an operation that allocates
is given the address of its new block, or none, and whether its new array could be allocated.
-/

namespace Jaci

namespace Str

open Wire

/-- The address of a string. -/
abbrev Addr := ℕ

/-! ### Marks -/

def WHITEBITS : UInt8 := 3

/-- The bit of black objects. -/
def BLACKMASK : UInt8 := 4

/-- The bit of objects that are never collected. -/
def FIXEDMASK : UInt8 := 8

/-- The white of the objects that the current collection condemns. -/
def otherwhite (currentwhite : UInt8) : UInt8 := currentwhite ^^^ WHITEBITS

/-- The white of new objects. -/
def luaC_white (currentwhite : UInt8) : UInt8 := currentwhite &&& WHITEBITS

/-- An object with these marks is condemned by the current collection. -/
def isdead (currentwhite marked : UInt8) : Bool :=
  marked &&& (WHITEBITS ||| FIXEDMASK) == otherwhite currentwhite &&& WHITEBITS

/-! ### State -/

/-- A string.  Its length is that of `data`. -/
structure TString where
  hash : UInt32
  data : Bytes
  next : Option Addr
  marked : UInt8

/-- The hash table. -/
structure StringTable where
  hash : ℕ → Option Addr
  nuse : UInt32
  size : ℕ

/-- The part of the global state that strings live in. -/
structure GlobalState where
  heap : Addr → TString
  live : Finset Addr
  strt : StringTable
  /-- The white of the current collection, with the bit of fixed objects. -/
  currentwhite : UInt8

namespace GlobalState

/-- The links between strings. -/
def next (g : GlobalState) (a : Addr) : Option Addr := (g.heap a).next

def set (g : GlobalState) (a : Addr) (ts : TString) : GlobalState :=
  { g with heap := Function.update g.heap a ts }

/-- Replace the marks of a string. -/
def setMarked (g : GlobalState) (a : Addr) (m : UInt8) : GlobalState :=
  g.set a { g.heap a with marked := m }

/-- The initial state: a table of `LUA_MINSTRTABSIZE` empty chains. -/
def init : GlobalState where
  heap := fun _ => ⟨0, [], none, 0⟩
  live := ∅
  strt := ⟨fun _ => none, 0, 32⟩
  currentwhite := 9

end GlobalState

/-- The errors that an operation raises. -/
inductive LuaError where
  | toobig
  | errmem
deriving DecidableEq

/-! ### Hashing -/

def rol (x s : UInt32) : UInt32 := x >>> s ||| x <<< (32 - s)

/-- The mixing step of the hash for the three words. -/
def mix (a b h : UInt32) : UInt32 × UInt32 × UInt32 :=
  let a := (a ^^^ h) - rol h 14
  let b := (b ^^^ a) - rol a 11
  let h := (h ^^^ b) - rol b 25
  (a, b, h)

/-- The word at the start of a string. -/
def word (str : Bytes) : UInt32 := UInt32.ofNat (leNat (str.take 4))

/-- The loop of `luaS_hash` over blocks of 12 bytes, and then over the rest from its end. -/
def hashLoop : ℕ → Bytes → UInt32 → UInt32 → UInt32 → UInt32
  | turns + 1, str, a, b, h =>
    if str.length ≥ 32 then
      let (a, b, h) := mix (a + word str) (b + word (str.drop 4)) (h + word (str.drop 8))
      hashLoop turns (str.drop 12) a b h
    else str.foldr (fun c h => h ^^^ ((h <<< 5) + (h >>> 2) + c.toUInt32)) h
  | 0, str, _, _, h => str.foldr (fun c h => h ^^^ ((h <<< 5) + (h >>> 2) + c.toUInt32)) h

def luaS_hash (str : Bytes) : UInt32 := hashLoop str.length str 0 0 (UInt32.ofNat str.length)

/-- `lmod`: the chain of a hash. -/
def lmod (h : UInt32) (size : ℕ) : ℕ := h.toNat &&& (size - 1)

/-! ### Resizing -/

/-- The inner loop of `luaS_resize`: chain the strings from `p` on into `newhash`. -/
def relinkChain (newsize : ℕ) :
    ℕ → Option Addr → (Addr → TString) → (ℕ → Option Addr) → (Addr → TString) × (ℕ → Option Addr)
  | turns + 1, some p, heap, newhash =>
    let h1 := lmod (heap p).hash newsize
    relinkChain newsize turns (heap p).next
      (Function.update heap p { heap p with next := newhash h1 })
      (Function.update newhash h1 (some p))
  | _, _, heap, newhash => (heap, newhash)

/-- The outer loop of `luaS_resize`, over the chains `i, i + 1, …, i + n - 1`. -/
def relinkChains (turns newsize : ℕ) (hash : ℕ → Option Addr) :
    ℕ → ℕ → (Addr → TString) → (ℕ → Option Addr) → (Addr → TString) × (ℕ → Option Addr)
  | 0, _, heap, newhash => (heap, newhash)
  | n + 1, i, heap, newhash =>
    let (heap, newhash) := relinkChain newsize turns (hash i) heap newhash
    relinkChains turns newsize hash n (i + 1) heap newhash

/-- `luaS_resize`; `arrayOk` says whether the new array can be allocated. -/
def luaS_resize (arrayOk : Bool) (newsize : ℕ) (g : GlobalState) :
    Except LuaError Unit × GlobalState :=
  if arrayOk then
    let (heap, newhash) := relinkChains g.live.card newsize g.strt.hash g.strt.size 0 g.heap
      fun _ => none
    (.ok (), { g with heap := heap, strt := ⟨newhash, g.strt.nuse, newsize⟩ })
  else (.error .errmem, g)

/-! ### Interning -/

/-- The largest length of a string. -/
def MAXSSIZE : ℕ := 2 ^ 30

/-- The largest `int`. -/
def INT_MAX : ℕ := 2 ^ 31 - 1

/-- The end of `newlstr` and of `luaS_buffinish`: chain the string `ts` of hash `h` and count it;
if the table is too crowded, double it. -/
def chainEntry (arrayOk : Bool) (ts : Addr) (h : UInt32) (g : GlobalState) :
    Except LuaError Addr × GlobalState :=
  let b := lmod h g.strt.size
  let g := g.set ts { g.heap ts with next := g.strt.hash b }
  let g := { g with
    strt := ⟨Function.update g.strt.hash b (some ts), g.strt.nuse + 1, g.strt.size⟩ }
  if g.strt.nuse.toNat > g.strt.size ∧ g.strt.size ≤ INT_MAX / 2 then
    let (result, g) := luaS_resize arrayOk (g.strt.size * 2) g
    (result.map fun _ => ts, g)
  else (.ok ts, g)

/-- `newlstr`; `block` is the address of the new string, if it can be allocated. -/
def newlstr (block : Option Addr) (arrayOk : Bool) (str : Bytes) (h : UInt32) (g : GlobalState) :
    Except LuaError Addr × GlobalState :=
  if str.length > MAXSSIZE then (.error .toobig, g)
  else
    match block with
    | none => (.error .errmem, g)
    | some ts =>
      let g := { g.set ts ⟨h, str, none, luaC_white g.currentwhite⟩ with live := insert ts g.live }
      chainEntry arrayOk ts h g

/-- The search for a string in a chain. -/
def findstr (heap : Addr → TString) (h : UInt32) (str : Bytes) : ℕ → Option Addr → Option Addr
  | turns + 1, some el =>
    if (heap el).hash = h ∧ (heap el).data = str then some el
    else findstr heap h str turns (heap el).next
  | _, _ => none

/-- The search for a string in the table. -/
def lookup (h : UInt32) (str : Bytes) (g : GlobalState) : Option Addr :=
  findstr g.heap h str g.live.card (g.strt.hash (lmod h g.strt.size))

/-- A string found may be condemned: give it the current white. -/
def resurrect (el : Addr) (g : GlobalState) : GlobalState :=
  if isdead g.currentwhite (g.heap el).marked then
    g.setMarked el ((g.heap el).marked ^^^ WHITEBITS)
  else g

def luaS_newlstr (block : Option Addr) (arrayOk : Bool) (str : Bytes) (g : GlobalState) :
    Except LuaError Addr × GlobalState :=
  let h := luaS_hash str
  match lookup h str g with
  | some el => (.ok el, resurrect el g)
  | none => newlstr block arrayOk str h g

/-- `luaS_bufstart`, for a buffer of the size of `data`: what the new block happens to hold. -/
def luaS_bufstart (block : Option Addr) (data : Bytes) (g : GlobalState) :
    Except LuaError Addr × GlobalState :=
  if data.length > MAXSSIZE then (.error .toobig, g)
  else
    match block with
    | none => (.error .errmem, g)
    | some ts =>
      (.ok ts, { g.set ts ⟨0, data, none, luaC_white g.currentwhite⟩ with live := insert ts g.live })

def luaS_buffinish (arrayOk : Bool) (ts : Addr) (g : GlobalState) :
    Except LuaError Addr × GlobalState :=
  let h := luaS_hash (g.heap ts).data
  match lookup h (g.heap ts).data g with
  | some el => (.ok el, resurrect el g)
  | none => chainEntry arrayOk ts h (g.set ts { g.heap ts with hash := h })

/-! ### Freeing -/

/-- The write `*p = v` of `unlinkstr`: `p` is the link of the string `prev`, or the head of the
chain `b`. -/
def storeLink (b : ℕ) (prev : Option Addr) (v : Option Addr) (g : GlobalState) : GlobalState :=
  match prev with
  | none => { g with strt := { g.strt with hash := Function.update g.strt.hash b v } }
  | some p => g.set p { g.heap p with next := v }

/-- The loop of `unlinkstr`, at the string `curr`; `prev` is the string before it, if any. -/
def unlinkLoop (ts : Addr) (b : ℕ) : ℕ → Option Addr → Option Addr → GlobalState →
    Bool × GlobalState
  | turns + 1, prev, some curr, g =>
    if curr = ts then (true, storeLink b prev (g.heap curr).next g)
    else unlinkLoop ts b turns (some curr) (g.heap curr).next g
  | _, _, _, g => (false, g)

def unlinkstr (ts : Addr) (g : GlobalState) : Bool × GlobalState :=
  let b := lmod (g.heap ts).hash g.strt.size
  unlinkLoop ts b g.live.card none (g.strt.hash b) g

def luaS_free (ts : Addr) (g : GlobalState) : GlobalState :=
  let (found, g) := unlinkstr ts g
  let g := if found then { g with strt := { g.strt with nuse := g.strt.nuse - 1 } } else g
  { g with live := g.live.erase ts }

/-! ### The collector -/

/-- `luaS_fix`: never collect this string. -/
def luaS_fix (ts : Addr) (g : GlobalState) : GlobalState :=
  g.setMarked ts ((g.heap ts).marked ||| FIXEDMASK)

/-- `stringmark`: this string is reachable. -/
def stringmark (ts : Addr) (g : GlobalState) : GlobalState :=
  g.setMarked ts ((g.heap ts).marked &&& ~~~WHITEBITS ||| BLACKMASK)

/-- The turn of `sweepgcopage` at one string: free it if it is condemned, and make it white for
the next collection otherwise. -/
def sweepString (ts : Addr) (g : GlobalState) : GlobalState :=
  let marked := (g.heap ts).marked
  if (marked ^^^ WHITEBITS) &&& otherwhite g.currentwhite ≠ 0 then
    g.setMarked ts (marked &&& ~~~(BLACKMASK ||| WHITEBITS) ||| luaC_white g.currentwhite)
  else luaS_free ts g

/-- The end of `atomic`: the strings that the collector has found by then are marked, and the
current white is flipped. -/
def flipWhite (marks : List Addr) (g : GlobalState) : GlobalState :=
  let g := marks.foldl (fun g ts => stringmark ts g) g
  { g with currentwhite := otherwhite g.currentwhite }

end Str

end Jaci
