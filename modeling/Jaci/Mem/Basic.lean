import Jaci.Lib.Doubly
import Mathlib.Data.Finset.Basic

/-!
# The page allocator

Small blocks of one size class are taken from pages; collectable objects have pages of their own,
and every other small block starts with a word of metadata.  A page hands out its blocks from the
end downwards (`freeNext`), and then from a list of freed blocks, whose links are kept inside of
these blocks.  Pages with a free block are in a doubly linked list for each size class, and empty
pages go to a pool.

Each field of `lua_Page` is a map from pages to values.  Bytes of memory are `Cell`s: a pointer is
kept whole, in the first of its bytes; addresses are numbers.  Every call is given what `frealloc` answers to a request
of a size in this call.  Debug builds have a list of all pages without collectable objects; it is
left out.
-/

namespace Jaci

namespace Mem

open Linked

/-! ### Sizes -/

/-- The largest size of blocks in pages. -/
def kMaxSmallSizeUsed : ℕ := 1024

/-- Classes of larger blocks have large pages. -/
def kLargePageThreshold : ℕ := 512

/-- The size of small pages. -/
def kSmallPageSize : ℕ := 16 * 1024 - 24

/-- The size of large pages. -/
def kLargePageSize : ℕ := 32 * 1024 - 24

/-- The size of the metadata of a block. -/
def kBlockHeader : ℕ := 8

/-- The offset of the link in a freed collectable object. -/
def kGCOLinkOffset : ℕ := 8

/-- The offset of the blocks in a page. -/
def dataOffset : ℕ := 64

/-- The sizes of the classes. -/
def sizeOfClass : List ℕ :=
  List.range' 8 7 8 ++ List.range' 64 12 16 ++ List.range' 256 8 32 ++ List.range' 512 9 64

/-- The table of the classes: the class of this size, or else the class of the next one. -/
def classForSize : ℕ → ℕ → Option ℕ
  | 0, _ => none
  | n + 1, size =>
    match sizeOfClass.idxOf? size with
    | some klass => some klass
    | none => classForSize n (size + 1)

/-- `sizeclass`: the class for a size; none for 0 and for large sizes. -/
def sizeclass (sz : ℕ) : Option ℕ :=
  if 0 < sz ∧ sz ≤ kMaxSmallSizeUsed then classForSize (kMaxSmallSizeUsed + 1 - sz) sz else none

/-- The size of the pages of a class. -/
def pageSizeOfClass (klass : ℕ) : ℕ :=
  if sizeOfClass.getD klass 0 > kLargePageThreshold then kLargePageSize else kSmallPageSize

/-! ### State -/

/-- The two kinds of blocks in pages. -/
inductive Kind where
  | plain
  | gco
deriving DecidableEq

/-- The size of the metadata. -/
def Kind.header : Kind → ℕ
  | .plain => kBlockHeader
  | .gco => 0

/-- Where the link of a freed block is. -/
def Kind.linkOffset : Kind → ℕ
  | .plain => 0
  | .gco => kGCOLinkOffset

/-- The two pools. -/
inductive Pool where
  | small
  | large
deriving DecidableEq

/-- The size of the pages of a pool. -/
def Pool.pageSize : Pool → ℕ
  | .small => kSmallPageSize
  | .large => kLargePageSize

/-- How many pages a pool keeps. -/
def Pool.max : Pool → ℕ
  | .small => 128
  | .large => 32

/-- The pool for a page size. -/
def poolOf (pageSize : ℕ) : Option Pool :=
  if pageSize = kSmallPageSize then some .small
  else if pageSize = kLargePageSize then some .large
  else none

/-- One byte of memory. -/
inductive Cell where
  | byte (b : UInt8)
  | ptr (p : Option ℕ)
deriving DecidableEq

/-- The part of `global_State` that belongs to the allocator, and the memory. -/
structure Global where
  prev : ℕ → Option ℕ
  /-- The list of pages with free blocks; the list of the pool. -/
  next : ℕ → Option ℕ
  listprev : ℕ → Option ℕ
  listnext : ℕ → Option ℕ
  pageSize : ℕ → ℕ
  /-- The size of the blocks of a page, including their metadata. -/
  blockSize : ℕ → ℕ
  freeList : ℕ → Option ℕ
  /-- The offset of the next block that was never used; negative if there is none. -/
  freeNext : ℕ → ℤ
  busyBlocks : ℕ → ℤ
  mem : ℕ → Cell
  /-- The first page with a free block of a kind and class: `freepages` and `freegcopages`. -/
  freepages : Kind → ℕ → Option ℕ
  /-- The first of all pages of collectable objects. -/
  allgcopages : Option ℕ
  pagepool : Pool → Option ℕ
  pagepool_size : Pool → ℕ
  totalbytes : ℕ
  memcatbytes : ℕ → ℕ
  /-- What `frealloc` has given out, with the sizes. -/
  sys : Finset (ℕ × ℕ)
  /-- `frealloc` was asked to free something that it had not given out. -/
  fault : Bool

def readPtr (mem : ℕ → Cell) (a : ℕ) : Option ℕ :=
  match mem a with
  | .ptr p => p
  | .byte _ => none

/-- Write a pointer, which takes 8 bytes. -/
def writePtr (mem : ℕ → Cell) (a : ℕ) (p : Option ℕ) : ℕ → Cell := fun x =>
  if x = a then .ptr p else if a < x ∧ x < a + 8 then .byte 0 else mem x

def memcpy (mem : ℕ → Cell) (dst src n : ℕ) : ℕ → Cell := fun x =>
  if dst ≤ x ∧ x < dst + n then mem (src + (x - dst)) else mem x

/-- What `frealloc` answers in a call. -/
structure Frealloc where
  /-- The answer to a request for a new block of a size. -/
  new : ℕ → Option ℕ
  /-- The answer to a request for a new size of a block. -/
  resize : ℕ → Option ℕ

section Frealloc

variable (fr : Frealloc) (g : Global)

/-- `frealloc(ud, NULL, 0, n)`. -/
def sysnew (n : ℕ) : Option ℕ × Global :=
  if n = 0 then (none, g)
  else
    match fr.new n with
    | some p => (some p, { g with sys := insert (p, n) g.sys })
    | none => (none, g)

/-- `frealloc(ud, p, n, 0)`. -/
def sysfree (p : Option ℕ) (n : ℕ) : Global :=
  match p with
  | none => g
  | some p => if (p, n) ∈ g.sys then { g with sys := g.sys.erase (p, n) } else { g with fault := true }

/-- `frealloc(ud, p, osize, nsize)`. -/
def sysrealloc (p : Option ℕ) (osize nsize : ℕ) : Option ℕ × Global :=
  match p with
  | none => sysnew fr g nsize
  | some b =>
    if nsize = 0 then (none, sysfree g p osize)
    else
      match fr.resize nsize with
      | none => (none, g)
      | some q =>
        let g := { sysfree g p osize with mem := memcpy g.mem q b (min osize nsize) }
        (some q, { g with sys := insert (q, nsize) g.sys })

end Frealloc

/-! ### Pages -/

section Pages

variable (fr : Frealloc) (g : Global)

/-- The first part of `newpage`: a page from a pool or from `frealloc`. -/
def takepage (pageSize : ℕ) : Option ℕ × Global :=
  match (poolOf pageSize).bind fun k => (g.pagepool k).map fun page => (k, page) with
  | some (k, page) =>
    (some page, { g with
      pagepool := Function.update g.pagepool k (g.next page)
      pagepool_size := Function.update g.pagepool_size k (g.pagepool_size k - 1) })
  | none => sysnew fr g pageSize

/-- The header of a new page. -/
def initpage (page pageSize blockSize blockCount : ℕ) : Global :=
  { g with
    prev := Function.update g.prev page none
    next := Function.update g.next page none
    listprev := Function.update g.listprev page none
    listnext := Function.update g.listnext page none
    pageSize := Function.update g.pageSize page pageSize
    blockSize := Function.update g.blockSize page blockSize
    freeList := Function.update g.freeList page none
    freeNext := Function.update g.freeNext page (((blockCount : ℤ) - 1) * blockSize)
    busyBlocks := Function.update g.busyBlocks page 0 }

/-- A page is added to all pages of collectable objects. -/
def addpage (page : ℕ) : Global :=
  { g with
    listnext := Function.update g.listnext page g.allgcopages
    listprev := setAt g.allgcopages (some page) g.listprev
    allgcopages := some page }

/-- `newpage`; no page is `LUA_ERRMEM`.  With `pageset` the page is added to all pages of
collectable objects. -/
def newpage (pageset : Bool) (pageSize blockSize blockCount : ℕ) : Option ℕ × Global :=
  match takepage fr g pageSize with
  | (none, g) => (none, g)
  | (some page, g) =>
    let g := initpage g page pageSize blockSize blockCount
    (some page, if pageset then addpage g page else g)

def newclasspage (k : Kind) (sizeClass : ℕ) : Option ℕ × Global :=
  let pageSize := pageSizeOfClass sizeClass
  let blockSize := sizeOfClass.getD sizeClass 0 + k.header
  let blockCount := (pageSize - dataOffset) / blockSize
  match newpage fr g (k = .gco) pageSize blockSize blockCount with
  | (none, g) => (none, g)
  | (some page, g) =>
    (some page, { g with
      freepages := Function.update g.freepages k
        (Function.update (g.freepages k) sizeClass (some page)) })

/-- A page is taken out of all pages of collectable objects. -/
def removepage (page : ℕ) : Global :=
  let listprev := setAt (g.listnext page) (g.listprev page) g.listprev
  { g with
    listprev := listprev
    listnext := setAt (listprev page) (g.listnext page) g.listnext
    allgcopages :=
      if listprev page = none ∧ g.allgcopages = some page then g.listnext page
      else g.allgcopages }

/-- The end of `freepage`: the page goes to a pool or to `frealloc`. -/
def retirepage (page : ℕ) : Global :=
  match poolOf (g.pageSize page) with
  | some k =>
    if g.pagepool_size k < k.max then
      { g with
        next := Function.update g.next page (g.pagepool k)
        prev := Function.update g.prev page none
        listnext := Function.update g.listnext page none
        listprev := Function.update g.listprev page none
        pagepool := Function.update g.pagepool k (some page)
        pagepool_size := Function.update g.pagepool_size k (g.pagepool_size k + 1) }
    else sysfree g (some page) (g.pageSize page)
  | none => sysfree g (some page) (g.pageSize page)

/-- `freepage`; with `pageset` the page is taken out of all pages of collectable objects. -/
def freepage (pageset : Bool) (page : ℕ) : Global :=
  retirepage (if pageset then removepage g page else g) page

/-- A page is taken out of the list of pages with free blocks. -/
def unlinkpage (k : Kind) (page sizeClass : ℕ) : Global :=
  let prev := setAt (g.next page) (g.prev page) g.prev
  { g with
    prev := prev
    next := setAt (prev page) (g.next page) g.next
    freepages :=
      if prev page = none ∧ g.freepages k sizeClass = some page then
        Function.update g.freepages k (Function.update (g.freepages k) sizeClass (g.next page))
      else g.freepages }

def freeclasspage (k : Kind) (page sizeClass : ℕ) : Global :=
  freepage (unlinkpage g k page sizeClass) (k = .gco) page

/-! ### Blocks -/

/-- Take a block out of a page: one that was never used, or else the last one that was freed. -/
def takeblock (k : Kind) (page : ℕ) : ℕ × Global :=
  if g.freeNext page ≥ 0 then
    (page + dataOffset + (g.freeNext page).toNat, { g with
      freeNext := Function.update g.freeNext page (g.freeNext page - g.blockSize page)
      busyBlocks := Function.update g.busyBlocks page (g.busyBlocks page + 1) })
  else
    let block := (g.freeList page).getD 0
    (block, { g with
      freeList := Function.update g.freeList page (readPtr g.mem (block + k.linkOffset))
      busyBlocks := Function.update g.busyBlocks page (g.busyBlocks page + 1) })

/-- A page without a free block is taken out of the list. -/
def unlinkfull (k : Kind) (sizeClass : ℕ) (page : ℕ) : Global :=
  if g.freeList page = none ∧ g.freeNext page < 0 then
    { g with
      freepages := Function.update g.freepages k
        (Function.update (g.freepages k) sizeClass (g.next page))
      prev := setAt (g.next page) none g.prev
      next := Function.update g.next page none }
  else g

/-- The page for a new block: the first one with a free block, or else a new one. -/
def pageforblock (k : Kind) (sizeClass : ℕ) : Option ℕ × Global :=
  match g.freepages k sizeClass with
  | some page => (some page, g)
  | none => newclasspage fr g k sizeClass

def newblock (sizeClass : ℕ) : Option ℕ × Global :=
  match pageforblock fr g .plain sizeClass with
  | (none, g) => (none, g)
  | (some page, g) =>
    let (block, g) := takeblock g .plain page
    let g := { g with mem := writePtr g.mem block (some page) }
    (some (block + kBlockHeader), unlinkfull g .plain sizeClass page)

def newgcoblock (sizeClass : ℕ) : Option ℕ × Global :=
  match pageforblock fr g .gco sizeClass with
  | (none, g) => (none, g)
  | (some page, g) =>
    let (block, g) := takeblock g .gco page
    (some block, unlinkfull g .gco sizeClass page)

/-- A page gets its first free block, and goes to the front of the list. -/
def linkpage (k : Kind) (sizeClass page : ℕ) : Global :=
  if g.freeList page = none ∧ g.freeNext page < 0 then
    { g with
      next := Function.update g.next page (g.freepages k sizeClass)
      prev := setAt (g.freepages k sizeClass) (some page) g.prev
      freepages := Function.update g.freepages k
        (Function.update (g.freepages k) sizeClass (some page)) }
  else g

/-- A block is added to the freed blocks of its page. -/
def putblock (k : Kind) (block page : ℕ) : Global :=
  { g with
    mem := writePtr g.mem (block + k.linkOffset) (g.freeList page)
    freeList := Function.update g.freeList page (some block)
    busyBlocks := Function.update g.busyBlocks page (g.busyBlocks page - 1) }

/-- Give a block back to its page. -/
def giveblock (k : Kind) (sizeClass block page : ℕ) : Global :=
  let g := putblock (linkpage g k sizeClass page) k block page
  if g.busyBlocks page = 0 then freeclasspage g k page sizeClass else g

def freeblock (sizeClass : ℕ) (block : ℕ) : Global :=
  let block := block - kBlockHeader
  giveblock g .plain sizeClass block ((readPtr g.mem block).getD 0)

def freegcoblock (sizeClass : ℕ) (block page : ℕ) : Global :=
  giveblock g .gco sizeClass block page

end Pages

/-! ### Calls -/

section Calls

variable (fr : Frealloc) (g : Global)

/-- The error `LUA_ERRMEM`. -/
inductive MemError where
  | errmem
deriving DecidableEq

/-- The counters after a call. -/
def account (g : Global) (osize nsize memcat : ℕ) : Global :=
  { g with
    totalbytes := g.totalbytes - osize + nsize
    memcatbytes := Function.update g.memcatbytes memcat (g.memcatbytes memcat + nsize - osize) }

/-- A new block of any size, without the counters. -/
def rawnew (nsize : ℕ) : Option ℕ × Global :=
  match sizeclass nsize with
  | some nclass => newblock fr g nclass
  | none => sysnew fr g nsize

/-- A block of any size is freed, without the counters. -/
def rawfree (block : Option ℕ) (osize : ℕ) : Global :=
  match sizeclass osize with
  | some oclass => freeblock g oclass (block.getD 0)
  | none => sysfree g block osize

def luaM_new_ (nsize memcat : ℕ) : Except MemError (Option ℕ) × Global :=
  match rawnew fr g nsize with
  | (block, g) =>
    if block = none ∧ nsize > 0 then (.error .errmem, g) else (.ok block, account g 0 nsize memcat)

def luaM_newgco_ (nsize memcat : ℕ) : Except MemError (Option ℕ) × Global :=
  let r :=
    match sizeclass nsize with
    | some nclass => newgcoblock fr g nclass
    | none =>
      match newpage fr g true (dataOffset + nsize) nsize 1 with
      | (none, g) => (none, g)
      | (some page, g) =>
        (some (page + dataOffset), { g with
          freeNext := Function.update g.freeNext page (g.freeNext page - g.blockSize page)
          busyBlocks := Function.update g.busyBlocks page (g.busyBlocks page + 1) })
  match r with
  | (block, g) =>
    if block = none ∧ nsize > 0 then (.error .errmem, g) else (.ok block, account g 0 nsize memcat)

def luaM_free_ (block : Option ℕ) (osize memcat : ℕ) : Global :=
  account (rawfree g block osize) osize 0 memcat

/-- `luaM_freegco_`; the type of a freed object is set to nil. -/
def luaM_freegco_ (block : ℕ) (osize memcat : ℕ) (page : ℕ) : Global :=
  let g :=
    match sizeclass osize with
    | some oclass =>
      freegcoblock { g with mem := Function.update g.mem block (.byte 0) } oclass block page
    | none => freepage g true page
  account g osize 0 memcat

def luaM_realloc_ (block : Option ℕ) (osize nsize memcat : ℕ) :
    Except MemError (Option ℕ) × Global :=
  if (sizeclass nsize).isSome ∨ (sizeclass osize).isSome then
    match rawnew fr g nsize with
    | (result, g) =>
      if result = none ∧ nsize > 0 then (.error .errmem, g)
      else
        let g :=
          match block, result with
          | some b, some r => { g with mem := memcpy g.mem r b (min osize nsize) }
          | _, _ => g
        (.ok result, account (rawfree g block osize) osize nsize memcat)
  else
    match sysrealloc fr g block osize nsize with
    | (result, g) =>
      if result = none ∧ nsize > 0 then (.error .errmem, g)
      else (.ok result, account g osize nsize memcat)

end Calls

end Mem

end Jaci
