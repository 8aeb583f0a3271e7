import Mathlib.Logic.Function.Basic
import Mathlib.Order.Interval.Finset.Nat

/-!
# Tables

A table keeps its elements in an array part and a node part.  The node part is a chained scatter
table with Brent's variation: nodes are linked by relative offsets, a new key goes to its main
position, and a colliding node that is not in its own main position is moved away.  The definitions
follow the source; `hash` is any function on keys, and keys are taken up to raw equality.

Allocation always succeeds here.  `newkey`, `rehash` and `resize` call each other; `depth` bounds
this recursion.
-/

namespace Jaci

namespace Table

/-! ### Data -/

/-- A key, up to raw equality.  Numbers with a fraction, infinities and all values of other types
are `other`. -/
inductive Key (σ π ω : Type) where
  | number (n : ℤ)
  | string (s : σ)
  | lightuserdata (p : π) (tag : ℤ)
  /-- Any other value that is not nil and has no NaN. -/
  | other (o : ω)
deriving DecidableEq

/-- A node. -/
structure Node (K V : Type) where
  key : Option K
  /-- The value; nil in a free node and after the value was removed. -/
  val : Option V
  /-- The offset to the next node of the chain; 0 at its end. -/
  next : ℤ

def Node.free {K V : Type} : Node K V := ⟨none, none, 0⟩

/-- A table. -/
structure LuaTable (K V : Type) where
  array : List (Option V)
  sizearray : ℕ
  node : ℕ → Node K V
  /-- The number of nodes; 0 for the common `dummynode`. -/
  sizenode : ℕ
  /-- All nodes from here on are taken.  If it is negative, it is `aboundary`: the cached boundary,
  negated. -/
  lastfree : ℤ

/-- Where a value is stored: the pointer that the operations return. -/
inductive Slot where
  | array (i : ℕ)
  | node (i : ℕ)
deriving DecidableEq

/-- The errors. -/
inductive TableError where
  | overflow
  | nilIndex
  | nanIndex
  | depth
deriving DecidableEq

/-- The bound on the sizes is `2 ^ MAXBITS`. -/
def MAXBITS : ℕ := 26

/-- The largest size of both parts. -/
def MAXSIZE : ℕ := 2 ^ MAXBITS

/-- The least `k` with `x ≤ 2 ^ k`. -/
def ceillog2 (x : ℕ) : ℕ := if x ≤ 1 then 0 else Nat.log2 (x - 1) + 1

namespace LuaTable

variable {K V : Type}

/-- A slot of the array part. -/
def arrayAt (t : LuaTable K V) (i : ℕ) : Option V := t.array.getD i none

def read (t : LuaTable K V) : Slot → Option V
  | .array i => t.arrayAt i
  | .node i => (t.node i).val

/-- The value that a pointer leads to; `none` is the pointer to the common nil. -/
def value (t : LuaTable K V) : Option Slot → Option V
  | some s => t.read s
  | none => none

/-- An assignment through a pointer. -/
def assign (t : LuaTable K V) (s : Slot) (v : Option V) : LuaTable K V :=
  match s with
  | .array i => { t with array := t.array.set i v }
  | .node i => { t with node := Function.update t.node i { t.node i with val := v } }

end LuaTable

/-! ### The node part -/

section Nodes

variable {K V : Type} [DecidableEq K] (hash : K → ℕ)

/-- The position that the hash gives to a key. -/
def mainposition (size : ℕ) (key : K) : ℕ := hash key &&& (size - 1)

/-- The search for a key in the chain from `n` on. -/
def findNode (node : ℕ → Node K V) (key : K) : ℕ → ℕ → Option ℕ
  | 0, _ => none
  | turns + 1, n =>
    if (node n).key = some key then some n
    else if (node n).next = 0 then none
    else findNode node key turns (n + (node n).next).toNat

/-- The search for a key in the node part. -/
def searchChain (t : LuaTable K V) (key : K) : Option Slot :=
  if t.sizenode = 0 then none
  else (findNode t.node key t.sizenode (mainposition hash t.sizenode key)).map .node

/-- The loop of `getfreepos`, below `n`: the free position and the new `lastfree`. -/
def freeBelow (node : ℕ → Node K V) : ℕ → Option ℕ × ℕ
  | 0 => (none, 0)
  | n + 1 => if (node n).key.isNone then (some n, n) else freeBelow node n

def getfreepos (t : LuaTable K V) : Option ℕ × LuaTable K V :=
  if t.lastfree > 0 then
    let (n, lastfree) := freeBelow t.node t.lastfree.toNat
    (n, { t with lastfree := lastfree })
  else (none, t)

/-- The search for the node before `mp`, from `othern` on. -/
def findPrevious (node : ℕ → Node K V) (mp : ℕ) : ℕ → ℕ → ℕ
  | 0, othern => othern
  | turns + 1, othern =>
    if othern + (node othern).next = mp then othern
    else findPrevious node mp turns (othern + (node othern).next).toNat

def setnodekey (node : ℕ → Node K V) (n : ℕ) (key : K) : ℕ → Node K V :=
  Function.update node n { node n with key := some key }

/-- Set the offset of a node. -/
def setnext (node : ℕ → Node K V) (n : ℕ) (next : ℤ) : ℕ → Node K V :=
  Function.update node n { node n with next := next }

/-- Move the colliding node `mp` to the free position `n`; `othern` is its main position. -/
def moveNode (node : ℕ → Node K V) (size mp n othern : ℕ) : ℕ → Node K V :=
  let othern := findPrevious node mp size othern
  let node := setnext node othern ((n : ℤ) - othern)
  let node := Function.update node n (node mp)
  let node :=
    if (node mp).next ≠ 0 then
      setnext (setnext node n ((node n).next + ((mp : ℤ) - n))) mp 0
    else node
  Function.update node mp { node mp with val := none }

/-- Chain the free position `n` behind the node `mp`. -/
def chainNode (node : ℕ → Node K V) (mp n : ℕ) : ℕ → Node K V :=
  let node :=
    if (node mp).next ≠ 0 then setnext node n (((mp : ℤ) + (node mp).next) - n) else node
  setnext node mp ((n : ℤ) - mp)

/-- The part of `newkey` that inserts into the node part: the node of the key, or none if there is
no free place. -/
def insertNode (t : LuaTable K V) (key : K) : Option ℕ × LuaTable K V :=
  let mp := mainposition hash t.sizenode key
  if t.sizenode = 0 ∨ (t.node mp).val.isSome then
    match getfreepos t with
    | (none, t) => (none, t)
    | (some n, t) =>
      match (t.node mp).key.map (mainposition hash t.sizenode) with
      | none => (none, t)
      | some othern =>
        if othern ≠ mp then
          (some mp, { t with node := setnodekey (moveNode t.node t.sizenode mp n othern) mp key })
        else (some n, { t with node := setnodekey (chainNode t.node mp n) n key })
  else (some mp, { t with node := setnodekey t.node mp key })

end Nodes

/-! ### Search -/

section Search

variable {σ π ω V : Type} [DecidableEq σ] [DecidableEq π] [DecidableEq ω]
  (hash : Key σ π ω → ℕ)

def luaH_getnum (t : LuaTable (Key σ π ω) V) (key : ℤ) : Option Slot :=
  if 1 ≤ key ∧ key ≤ t.sizearray then some (.array (key - 1).toNat)
  else searchChain hash t (.number key)

def luaH_getstr (t : LuaTable (Key σ π ω) V) (key : σ) : Option Slot :=
  searchChain hash t (.string key)

def luaH_getp (t : LuaTable (Key σ π ω) V) (key : π) (tag : ℤ) : Option Slot :=
  searchChain hash t (.lightuserdata key tag)

/-- The numbers that an `int` holds. -/
def isInt (n : ℤ) : Prop := -2 ^ 31 ≤ n ∧ n < 2 ^ 31

instance (n : ℤ) : Decidable (isInt n) := inferInstanceAs (Decidable (_ ∧ _))

def luaH_get (t : LuaTable (Key σ π ω) V) : Key σ π ω → Option Slot
  | .string s => luaH_getstr hash t s
  | .number n => if isInt n then luaH_getnum hash t n else searchChain hash t (.number n)
  | key => searchChain hash t key

/-! ### Rehash -/

/-- `arrayindex`: the index of a key that may live in the array part, -1 otherwise. -/
def arrayindex : Key σ π ω → ℤ
  | .number n => if isInt n then n else -1
  | _ => -1

/-- `countint`: count a key that may live in the array part. -/
def countint (key : Key σ π ω) (nums : ℕ → ℕ) : ℕ × (ℕ → ℕ) :=
  let k := arrayindex key
  if 0 < k ∧ k ≤ MAXSIZE then
    let lg := ceillog2 k.toNat
    (1, Function.update nums lg (nums lg + 1))
  else (0, nums)

/-- The loop of `numusearray` over the slices `(2 ^ (lg - 1), 2 ^ lg]`; `i` is the next index. -/
def numusearrayLoop (t : LuaTable (Key σ π ω) V) :
    ℕ → ℕ → ℕ → ℕ → (ℕ → ℕ) → ℕ × (ℕ → ℕ)
  | 0, _, _, ause, nums => (ause, nums)
  | turns + 1, lg, i, ause, nums =>
    if 2 ^ lg > t.sizearray ∧ i > t.sizearray then (ause, nums)
    else
      let lim := min (2 ^ lg) t.sizearray
      let lc := ((Finset.Icc i lim).filter fun k => (t.arrayAt (k - 1)).isSome).card
      numusearrayLoop t turns (lg + 1) (lim + 1) (ause + lc)
        (Function.update nums lg (nums lg + lc))

/-- `numusearray`: the number of elements of the array part. -/
def numusearray (t : LuaTable (Key σ π ω) V) (nums : ℕ → ℕ) : ℕ × (ℕ → ℕ) :=
  numusearrayLoop t (MAXBITS + 1) 0 1 0 nums

/-- The loop of `numusehash` over the nodes below `i`: the elements in total, those that may live
in the array part, and the counts. -/
def numusehashLoop (node : ℕ → Node (Key σ π ω) V) :
    ℕ → ℕ → ℕ → (ℕ → ℕ) → ℕ × ℕ × (ℕ → ℕ)
  | 0, totaluse, ause, nums => (totaluse, ause, nums)
  | i + 1, totaluse, ause, nums =>
    match (node i).val, (node i).key with
    | some _, some key =>
      let (c, nums) := countint key nums
      numusehashLoop node i (totaluse + 1) (ause + c) nums
    | some _, none => numusehashLoop node i (totaluse + 1) ause nums
    | none, _ => numusehashLoop node i totaluse ause nums

/-- The loop of `computesizes`: the size of the array part and the number of its elements. -/
def computesizesLoop (nums : ℕ → ℕ) (narray : ℕ) : ℕ → ℕ → ℕ → ℕ → ℕ → ℕ × ℕ
  | 0, _, _, na, n => (n, na)
  | turns + 1, i, a, na, n =>
    if 2 ^ i / 2 < narray then
      let a' := if nums i > 0 then a + nums i else a
      let (n, na) := if nums i > 0 ∧ a' > 2 ^ i / 2 then (2 ^ i, a') else (n, na)
      if a' = narray then (n, na) else computesizesLoop nums narray turns (i + 1) a' na n
    else (n, na)

def computesizes (nums : ℕ → ℕ) (narray : ℕ) : ℕ × ℕ :=
  computesizesLoop nums narray (MAXBITS + 1) 0 0 0 0

/-- The loop of `adjustasize`. -/
def adjustLoop (present : ℕ → Bool) : ℕ → ℕ → ℕ
  | 0, size => size
  | turns + 1, size => if present (size + 1) then adjustLoop present turns (size + 1) else size

/-- The test of `adjustasize`: is this index used, or the index of the extra key? -/
def indexUsed (t : LuaTable (Key σ π ω) V) (tbound : Bool) (ekindex : ℤ) (k : ℕ) : Bool :=
  decide ((k : ℤ) = ekindex) || (tbound && (t.value (luaH_getnum hash t k)).isSome)

def adjustasize (t : LuaTable (Key σ π ω) V) (size : ℕ) (ek : Option (Key σ π ω)) : ℕ :=
  let tbound := t.sizenode ≠ 0 ∨ size < t.sizearray
  let ekindex := match ek with
    | some key => arrayindex key
    | none => -1
  adjustLoop (indexUsed hash t tbound ekindex) (t.sizearray + t.sizenode + 2) size

/-- `luaM_reallocarray` for the array part. -/
def reallocarray (array : List (Option V)) (oldn n : ℕ) : List (Option V) :=
  (List.range n).map fun i => if i < oldn then array.getD i none else none

/-- `setarrayvector`, for a size within bounds. -/
def setarrayvector (t : LuaTable (Key σ π ω) V) (size : ℕ) : LuaTable (Key σ π ω) V :=
  { t with array := reallocarray t.array t.sizearray size, sizearray := size }

/-- `setnodevector`, for a size within bounds: all positions are free. -/
def setnodevector (t : LuaTable (Key σ π ω) V) (size : ℕ) : LuaTable (Key σ π ω) V :=
  let size := if size = 0 then 0 else 2 ^ ceillog2 size
  { t with node := fun _ => .free, sizenode := size, lastfree := size }

/-- The type of `newkey`. -/
abbrev NewKey (σ π ω V : Type) :=
  LuaTable (Key σ π ω) V → Key σ π ω → Except TableError Slot × LuaTable (Key σ π ω) V

def arrayornewkey (newkey : NewKey σ π ω V) : NewKey σ π ω V := fun t key =>
  let k := arrayindex key
  if 1 ≤ k ∧ k ≤ t.sizearray then (.ok (.array (k - 1).toNat), t) else newkey t key

/-- Insert a key and assign its value. -/
def migrate (newkey : NewKey σ π ω V) (t : LuaTable (Key σ π ω) V) (key : Key σ π ω) (v : V) :
    Except TableError Unit × LuaTable (Key σ π ω) V :=
  match newkey t key with
  | (.ok s, t) => (.ok (), t.assign s (some v))
  | (.error e, t) => (.error e, t)

/-- The loop of `resize` over `n` slots of the vanishing slice, from `i` on. -/
def migrateSlice (newkey : NewKey σ π ω V) :
    ℕ → ℕ → LuaTable (Key σ π ω) V → Except TableError Unit × LuaTable (Key σ π ω) V
  | 0, _, t => (.ok (), t)
  | n + 1, i, t =>
    match t.arrayAt i with
    | none => migrateSlice newkey n (i + 1) t
    | some v =>
      match migrate newkey t (.number (i + 1)) v with
      | (.ok (), t) => migrateSlice newkey n (i + 1) t
      | (.error e, t) => (.error e, t)

/-- The loop of `resize` over the old nodes, below `i`. -/
def migrateNodes (newkey : NewKey σ π ω V) (nold : ℕ → Node (Key σ π ω) V) :
    ℕ → LuaTable (Key σ π ω) V → Except TableError Unit × LuaTable (Key σ π ω) V
  | 0, t => (.ok (), t)
  | i + 1, t =>
    match (nold i).val, (nold i).key with
    | some v, some key =>
      match migrate (arrayornewkey newkey) t key v with
      | (.ok (), t) => migrateNodes newkey nold i t
      | (.error e, t) => (.error e, t)
    | _, _ => migrateNodes newkey nold i t

/-- The part of `resize` after the new parts are there. -/
def migrateAll (newkey : NewKey σ π ω V) (told t : LuaTable (Key σ π ω) V) (nasize : ℕ) :
    Except TableError Unit × LuaTable (Key σ π ω) V :=
  if nasize < told.sizearray then
    match migrateSlice newkey (told.sizearray - nasize) nasize { t with sizearray := nasize } with
    | (.ok (), t) =>
      migrateNodes newkey told.node told.sizenode
        { t with array := reallocarray t.array told.sizearray nasize }
    | (.error e, t) => (.error e, t)
  else migrateNodes newkey told.node told.sizenode t

def resize (newkey : NewKey σ π ω V) (t : LuaTable (Key σ π ω) V) (nasize nhsize : ℕ) :
    Except TableError Unit × LuaTable (Key σ π ω) V :=
  if nasize > MAXSIZE ∨ nhsize > MAXSIZE then (.error .overflow, t)
  else
    let t' := if nasize > t.sizearray then setarrayvector t nasize else t
    migrateAll newkey t (setnodevector t' nhsize) nasize

/-- The sizes that `rehash` chooses. -/
def rehashSizes (t : LuaTable (Key σ π ω) V) (ek : Key σ π ω) : ℕ × ℕ :=
  let (nasize, nums) := numusearray t fun _ => 0
  let (used, ause, nums) := numusehashLoop t.node t.sizenode 0 0 nums
  let (c, nums) := match ek with
    | .number _ => countint ek nums
    | _ => (0, nums)
  let totaluse := nasize + used + 1
  let (nasize, na) := computesizes nums (nasize + ause + c)
  let nh := totaluse - na
  let nadjusted := adjustasize hash t nasize (some ek)
  let aextra := nadjusted - nasize
  if aextra ≠ 0 then (adjustasize hash t (nadjusted + aextra) (some ek), nh - aextra)
  else (nasize, nh)

/-- `rehash`, followed by the insertion of the extra key. -/
def rehashAndInsert (newkey : NewKey σ π ω V) : NewKey σ π ω V := fun t ek =>
  let (nasize, nh) := rehashSizes hash t ek
  match resize newkey t nasize nh with
  | (.ok (), t) => arrayornewkey newkey t ek
  | (.error e, t) => (.error e, t)

/-! ### Insertion -/

def newkey : ℕ → NewKey σ π ω V
  | 0 => fun t _ => (.error .depth, t)
  | depth + 1 => fun t key =>
    if key = .number (t.sizearray + 1) then rehashAndInsert hash (newkey depth) t key
    else
      match insertNode hash t key with
      | (some n, t) => (.ok (.node n), t)
      | (none, t) => rehashAndInsert hash (newkey depth) t key

/-- The depth of recursion that is allowed. -/
def maxDepth : ℕ := 8

/-- A key as the program passes it: it may be nil or have a NaN. -/
inductive KeyArg (σ π ω : Type) where
  | nil
  | nan
  | key (k : Key σ π ω)

def luaH_newkey (t : LuaTable (Key σ π ω) V) :
    KeyArg σ π ω → Except TableError Slot × LuaTable (Key σ π ω) V
  | .nil => (.error .nilIndex, t)
  | .nan => (.error .nanIndex, t)
  | .key k => newkey hash maxDepth t k

/-- `luaH_newkeystr`: a string whose main position was never used goes there. -/
def luaH_newkeystr (t : LuaTable (Key σ π ω) V) (key : σ) :
    Except TableError Slot × LuaTable (Key σ π ω) V :=
  let mp := mainposition hash t.sizenode (.string key)
  if t.sizenode ≠ 0 ∧ (t.node mp).val.isNone ∧ (t.node mp).key.isNone then
    (.ok (.node mp), { t with node := setnodekey t.node mp (.string key) })
  else newkey hash maxDepth t (.string key)

def luaH_set (t : LuaTable (Key σ π ω) V) (key : KeyArg σ π ω) :
    Except TableError Slot × LuaTable (Key σ π ω) V :=
  let p := match key with
    | .key k => luaH_get hash t k
    | _ => none
  match p with
  | some s => (.ok s, t)
  | none => luaH_newkey hash t key

def luaH_setnum (t : LuaTable (Key σ π ω) V) (key : ℤ) :
    Except TableError Slot × LuaTable (Key σ π ω) V :=
  if 1 ≤ key ∧ key ≤ t.sizearray then (.ok (.array (key - 1).toNat), t)
  else
    match luaH_getnum hash t key with
    | some s => (.ok s, t)
    | none => newkey hash maxDepth t (.number key)

def luaH_setstr (t : LuaTable (Key σ π ω) V) (key : σ) :
    Except TableError Slot × LuaTable (Key σ π ω) V :=
  match luaH_getstr hash t key with
  | some s => (.ok s, t)
  | none => luaH_newkeystr hash t key

def luaH_setp (t : LuaTable (Key σ π ω) V) (key : π) (tag : ℤ) :
    Except TableError Slot × LuaTable (Key σ π ω) V :=
  match luaH_getp hash t key tag with
  | some s => (.ok s, t)
  | none => newkey hash maxDepth t (.lightuserdata key tag)

/-! ### Whole tables -/

def luaH_resizearray (t : LuaTable (Key σ π ω) V) (nasize : ℕ) :
    Except TableError Unit × LuaTable (Key σ π ω) V :=
  resize (newkey hash maxDepth) t (adjustasize hash t nasize none) t.sizenode

def luaH_resizehash (t : LuaTable (Key σ π ω) V) (nhsize : ℕ) :
    Except TableError Unit × LuaTable (Key σ π ω) V :=
  resize (newkey hash maxDepth) t t.sizearray nhsize

def luaH_new (narray nhash : ℕ) : Except TableError (LuaTable (Key σ π ω) V) :=
  if narray > MAXSIZE ∨ nhash > MAXSIZE then .error .overflow
  else
    let t : LuaTable (Key σ π ω) V := ⟨[], 0, fun _ => .free, 0, 0⟩
    let t := if narray > 0 then setarrayvector t narray else t
    .ok (if nhash > 0 then setnodevector t nhash else t)

/-- `getaboundary`: the cached boundary, or the size of the array part. -/
def getaboundary (t : LuaTable (Key σ π ω) V) : ℕ :=
  if t.lastfree < 0 then t.lastfree.natAbs else t.sizearray

/-- `maybesetaboundary`: cache a boundary, unless the field is in use for free positions. -/
def maybesetaboundary (t : LuaTable (Key σ π ω) V) (boundary : ℕ) : LuaTable (Key σ π ω) V :=
  if t.lastfree ≤ 0 then { t with lastfree := -(boundary : ℤ) } else t

def luaH_clone (tt : LuaTable (Key σ π ω) V) : LuaTable (Key σ π ω) V :=
  let t : LuaTable (Key σ π ω) V := ⟨[], 0, fun _ => .free, 0, 0⟩
  let t :=
    if tt.sizearray ≠ 0 then
      { maybesetaboundary t (getaboundary tt) with
        sizearray := tt.sizearray, array := reallocarray tt.array tt.sizearray tt.sizearray }
    else t
  if tt.sizenode ≠ 0 then
    { t with node := tt.node, sizenode := tt.sizenode, lastfree := tt.lastfree }
  else t

def luaH_clear (tt : LuaTable (Key σ π ω) V) : LuaTable (Key σ π ω) V :=
  let tt := { tt with array := List.replicate tt.array.length none }
  let tt := maybesetaboundary tt 0
  if tt.sizenode ≠ 0 then { tt with node := fun _ => .free, lastfree := tt.sizenode } else tt

end Search

end Table

end Jaci
