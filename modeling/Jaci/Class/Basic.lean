import Mathlib.Data.List.Basic
import Mathlib.Logic.Function.Basic

/-!
# Class objects

A class object lists its members by their offset, the instance members first, and has the values of
the static ones.  A derived class is a new object with the members of its parent and of its own
declaration, laid out flat.

* `LuauClass`, `Heap` : the objects;
* `luaR_newclass`, `luaR_inheritclass`, `luaR_addclassmember` : the source;
* `luaR_constructobject`, `luaR_defaultcreateobject` : what `new` calls.

An array is read and written only within its bounds: anything else is the error `fault`.
-/

namespace Jaci

namespace Class

variable {β : Type}

/-! ### Objects -/

/-- Where a class object is. -/
abbrev Ref := ℕ

/-- The value of a static member. -/
inductive Static (β : Type) where
  | nil
  /-- The closure of `luaR_constructobject`, with its class. -/
  | constructor (c : Ref)
  /-- The closure of `luaR_defaultcreateobject`, with its class. -/
  | defaultCtor (c : Ref)
  | function (f : β)
deriving DecidableEq

/-- A class object. -/
structure LuauClass (β : Type) where
  name : String
  super : Option Ref
  staticmembers : List (Static β)
  memberstooffset : String → Option ℕ
  offsettomember : List String
  instancemetatable : Option (String → Option β)
  numberofinstancemembers : ℕ
  numberofallmembers : ℕ
  isopen : Bool
  /-- Does it or an ancestor define `__init`? -/
  hasuserinitinchain : Bool

/-- All class objects, by their `Ref`. -/
abbrev Heap (β : Type) := List (LuauClass β)

/-- What stops a function. -/
inductive Error where
  | nonOpen (name : String)
  /-- Cannot override instance member '%s' of parent class '%s' in child class '%s'. -/
  | override (member parent child : String)
  /-- An access outside of an array, or a failed assertion. -/
  | fault
deriving DecidableEq

def Error.message : Error → String
  | .nonOpen name => "Non-open class '" ++ name ++ "' cannot be extended"
  | .override member parent child =>
    "Cannot override instance member '" ++ member ++ "' of parent class '" ++ parent ++
      "' in child class '" ++ child ++ "'"
  | .fault => "fault"

section Arrays

variable {α : Type}

/-- An element of an array, or of the heap. -/
def load (l : List α) (i : ℕ) : Except Error α :=
  match l[i]? with
  | some a => .ok a
  | none => .error .fault

/-- An array with a new element. -/
def store (l : List α) (i : ℕ) (a : α) : Except Error (List α) :=
  if i < l.length then .ok (l.set i a) else .error .fault

end Arrays

/-! ### New classes -/

def luaR_newblankclass (name : String) (isopen : Bool) : LuauClass β where
  name := name
  super := none
  staticmembers := []
  memberstooffset := fun _ => none
  offsettomember := []
  instancemetatable := none
  numberofinstancemembers := 0
  numberofallmembers := 0
  isopen := isopen
  hasuserinitinchain := false

/-- The offset of a static member, which is asserted to be one. -/
def LuauClass.staticOffset (c : LuauClass β) (name : String) : Except Error ℕ :=
  match c.memberstooffset name with
  | some offset =>
    if c.numberofinstancemembers ≤ offset ∧ offset < c.numberofallmembers then
      .ok (offset - c.numberofinstancemembers)
    else .error .fault
  | none => .error .fault

/-- The static member of that name gets a value. -/
def LuauClass.setStatic (c : LuauClass β) (name : String) (v : Static β) :
    Except Error (LuauClass β) := do
  let offset ← c.staticOffset name
  let staticmembers ← store c.staticmembers offset v
  return { c with staticmembers }

/-- `luaR_setupconstructor`, for the class object at `r`. -/
def luaR_setupconstructor (c : LuauClass β) (r : Ref) : Except Error (LuauClass β) := do
  let c ← c.setStatic "new" (.constructor r)
  c.setStatic "__init" (.defaultCtor r)

def luaR_newclass (h : Heap β) (name : String) (memberstooffset : String → Option ℕ)
    (offsettomember : List String) (numberofinstancemembers numberofstaticmembers : ℕ) :
    Except Error (Ref × Heap β) := do
  let c := { (luaR_newblankclass name false : LuauClass β) with
    staticmembers := List.replicate numberofstaticmembers .nil
    memberstooffset := memberstooffset
    offsettomember := offsettomember
    numberofinstancemembers := numberofinstancemembers
    numberofallmembers := numberofinstancemembers + numberofstaticmembers }
  let c ← luaR_setupconstructor c h.length
  return (h.length, h ++ [c])

/-- The loop of the loader that reads the names of the members, from the offset `idx` on. -/
def readMembers : List String → ℕ → (String → Option ℕ) → String → Option ℕ
  | [], _, m => m
  | name :: names, idx, m => readMembers names (idx + 1) (Function.update m name (some idx))

/-- The constant of a class declaration, as the loader makes it. -/
def loadClassShape (h : Heap β) (name : String) (properties methods : List String) :
    Except Error (Ref × Heap β) :=
  luaR_newclass h name (readMembers (properties ++ methods) 0 fun _ => none) (properties ++ methods)
    properties.length methods.length

/-! ### Derived classes -/

/-- A member gets an offset. -/
def LuauClass.register (c : LuauClass β) (name : String) (offset : ℕ) :
    Except Error (LuauClass β) := do
  let offsettomember ← store c.offsettomember offset name
  return { c with
    offsettomember := offsettomember
    memberstooffset := Function.update c.memberstooffset name (some offset) }

def luaR_registerstaticmember (c : LuauClass β) (name : String) (val : Static β)
    (offset staticMemberOffset : ℕ) : Except Error (LuauClass β) := do
  let staticmembers ← store c.staticmembers staticMemberOffset val
  { c with staticmembers := staticmembers }.register name offset

/-- The check for illegal overrides. -/
def checkOverrides (child parent : LuauClass β) : List ℕ → Except Error Unit
  | [] => .ok ()
  | idx :: is => do
    let name ← load parent.offsettomember idx
    if (child.memberstooffset name).isSome then
      .error (.override name parent.name child.name)
    else checkOverrides child parent is

/-- The number of static members of the parent that the child does not declare. -/
def countStatics (child parent : LuauClass β) : List ℕ → ℕ → Except Error ℕ
  | [], n => .ok n
  | idx :: is, n => do
    let name ← load parent.offsettomember idx
    countStatics child parent is (if (child.memberstooffset name).isNone then n + 1 else n)

/-- A loop that copies instance members of `source`, from the offset on. -/
def copyInstances (source : LuauClass β) :
    List ℕ → LuauClass β × ℕ → Except Error (LuauClass β × ℕ)
  | [], s => .ok s
  | idx :: is, (c, offset) => do
    let name ← load source.offsettomember idx
    let c ← c.register name offset
    copyInstances source is (c, offset + 1)

/-- A loop that copies static members of `source`: those with a name for which `copied` says so. -/
def copyStatics (source : LuauClass β) (copied : String → Bool) :
    List ℕ → LuauClass β × ℕ × ℕ → Except Error (LuauClass β × ℕ × ℕ)
  | [], s => .ok s
  | idx :: is, (c, offset, numStaticMembersCopied) => do
    let name ← load source.offsettomember idx
    if copied name then
      let val ← load source.staticmembers (idx - source.numberofinstancemembers)
      let c ← luaR_registerstaticmember c name val offset numStaticMembersCopied
      copyStatics source copied is (c, offset + 1, numStaticMembersCopied + 1)
    else copyStatics source copied is (c, offset, numStaticMembersCopied)

/-- The offsets of the instance members. -/
def LuauClass.instanceOffsets (c : LuauClass β) : List ℕ := List.range c.numberofinstancemembers

/-- The offsets of the static members. -/
def LuauClass.staticOffsets (c : LuauClass β) : List ℕ :=
  List.range' c.numberofinstancemembers (c.numberofallmembers - c.numberofinstancemembers)

/-- The new object of `luaR_inheritclass`, which will be at `r`, before its constructors are set. -/
def flatten (child parent : LuauClass β) (parentRef : Ref) : Except Error (LuauClass β) := do
  let numStaticMembersToCopy ← countStatics child parent parent.staticOffsets 0
  let numMembers :=
    child.numberofallmembers + parent.numberofinstancemembers + numStaticMembersToCopy
  let c := { (luaR_newblankclass child.name child.isopen : LuauClass β) with
    super := some parentRef
    offsettomember := List.replicate numMembers ""
    numberofallmembers := numMembers
    hasuserinitinchain := parent.hasuserinitinchain }
  let (c, offset) ← copyInstances parent parent.instanceOffsets (c, 0)
  let (c, offset) ← copyInstances child child.instanceOffsets (c, offset)
  let c := { c with
    staticmembers := List.replicate (numMembers - offset) .nil
    numberofinstancemembers := offset }
  let (c, offset, n) ← copyStatics parent (fun name => (child.memberstooffset name).isNone)
    parent.staticOffsets (c, offset, 0)
  let (c, _, n) ← copyStatics child (fun _ => true) child.staticOffsets (c, offset, n)
  if n ≠ numStaticMembersToCopy + (child.numberofallmembers - child.numberofinstancemembers) then
    .error .fault
  else .ok { c with instancemetatable := parent.instancemetatable }

def luaR_inheritclass (h : Heap β) (child parent : Ref) : Except Error (Ref × Heap β) := do
  let childClass ← load h child
  let parentClass ← load h parent
  if parentClass.isopen = false then .error (.nonOpen parentClass.name)
  else
    checkOverrides childClass parentClass parentClass.instanceOffsets
    let c ← flatten childClass parentClass parent
    let c ← luaR_setupconstructor c h.length
    return (h.length, h ++ [c])

/-! ### Members -/

/-- The names of metamethods. -/
def metamethods : List String :=
  ["__tostring", "__index", "__newindex", "__mode", "__namecall", "__call", "__iter", "__len",
    "__eq", "__add", "__sub", "__mul", "__div", "__idiv", "__mod", "__pow", "__unm", "__lt", "__le",
    "__concat", "__type", "__metatable"]

/-- A metamethod of the instances. -/
def LuauClass.setMetamethod (c : LuauClass β) (name : String) (value : β) : LuauClass β :=
  if name ∈ metamethods then
    let table := c.instancemetatable.getD fun _ => none
    { c with instancemetatable := some (Function.update table name (some value)) }
  else c

def luaR_addclassmember (h : Heap β) (r : Ref) (name : String) (value : β) :
    Except Error (Heap β) := do
  let c ← load h r
  let c ← c.setStatic name (.function value)
  let c := { c with hasuserinitinchain := c.hasuserinitinchain || name == "__init" }
  return h.set r (c.setMetamethod name value)

/-! ### Objects of a class -/

/-- An object: its class and its members, where `none` is nil. -/
structure LuauObject (β : Type) where
  lclass : Ref
  members : List (Option β)

/-- Why a constructor fails. -/
inductive CtorError where
  /-- Class %s must define a constructor because it is derived from a class that defines one. -/
  | mustDefine (name : String)
  /-- The constructor of %s must be called with 2 arguments.  Got %d. -/
  | arguments (name : String) (numargs : ℕ)
  /-- Cannot call %s.__init on an instance of class %s. -/
  | otherClass (name other : String)
  | index (message : String)
  /-- An access outside of an array, or a failed assertion. -/
  | fault

/-- What a call of `new` does. -/
inductive NewResult (β : Type) where
  | error (e : CtorError)
  /-- It runs a function of the program, on an object if there is one, and the arguments. -/
  | runs (f : β) (self : Option (LuauObject β)) (args : List (Option β))
  | object (self : LuauObject β)

section Construct

variable (gettable : Option β → String → Except String (Option β))

/-- The loop that takes the members of an object from a table. -/
def initMembers (props : Option β) : List String → Except String (List (Option β))
  | [] => .ok []
  | name :: names => do
    let value ← gettable props name
    let values ← initMembers props names
    return value :: values

/-- `luaR_defaultcreateobject`, called for an object; `gettable` is `luaV_gettable`. -/
def luaR_defaultcreateobject (h : Heap β) (r : Ref) (self : LuauObject β)
    (args : List (Option β)) : NewResult β :=
  match h[r]?, h[self.lclass]? with
  | some c, some other =>
    if c.hasuserinitinchain then .error (.mustDefine c.name)
    else
      match args with
      | [props] =>
        if self.lclass ≠ r then .error (.otherClass c.name other.name)
        else
          match initMembers gettable props (c.offsettomember.take c.numberofinstancemembers) with
          | .ok members => .object { self with members }
          | .error message => .error (.index message)
      | _ => .error (.arguments c.name (args.length + 1))
  | _, _ => .error .fault

def luaR_constructobject (h : Heap β) (r : Ref) (args : List (Option β)) : NewResult β :=
  match load h r with
  | .error _ => .error .fault
  | .ok c =>
    let self : LuauObject β := ⟨r, List.replicate c.numberofinstancemembers none⟩
    match c.staticOffset "__init" >>= load c.staticmembers with
    | .ok (.function f) => .runs f (some self) args
    | .ok (.defaultCtor r') => luaR_defaultcreateobject gettable h r' self args
    | _ => .error .fault

/-- The call `C.new(...)`. -/
def callNew (h : Heap β) (r : Ref) (args : List (Option β)) : NewResult β :=
  match load h r with
  | .error _ => .error .fault
  | .ok c =>
    match c.staticOffset "new" >>= load c.staticmembers with
    | .ok (.constructor r') => luaR_constructobject gettable h r' args
    | .ok (.function f) => .runs f none args
    | _ => .error .fault

end Construct

end Class

end Jaci
