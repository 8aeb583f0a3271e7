import Jaci.Require.Navigator
import Mathlib

/-!
# The calls of the require library

The registry has a table of registered modules, one of loaded modules, one of resolved paths and one
of the placeholders that were given out.  Code calls `require`, which may begin to load a module; the
code of the module calls `require` in turn, and later its load ends.  The stack of a call is a list
with its top first.

* `World` : the registry, the tables and the loads that have begun;
* `checkRegisteredModules`, `lua_requireinternal`, `lua_requirecont` : `require`;
* `step` : what the code does, in any order.
-/

namespace Jaci

namespace Require

open Wire

/-! ### The registry -/

/-- The tables of the library in the registry. -/
inductive Cache where
  | registered | modules | resolved | provided
deriving DecidableEq

/-- A value. -/
inductive Value where
  | nil
  | boolean (b : Bool)
  | string (s : Bytes)
  | number (text : Bytes)
  | table (id : ℕ)
  | cache (c : Cache)
  | other (id : ℕ)
deriving DecidableEq

/-- What `lua_tostring` gives. -/
def Value.toStr : Value → Option Bytes
  | .string s => some s
  | .number text => some text
  | _ => none

/-- `lua_istable`. -/
def Value.isTable : Value → Bool
  | .table _ => true
  | .cache _ => true
  | _ => false

/-- A table. -/
structure TableData where
  metatable : Option ℕ := none
  readonly : Bool := false
  fields : Value → Value := fun _ => .nil

/-- A stack; the top comes first. -/
abbrev Stack := List Value

/-- The value at an absolute index. -/
def slot (s : Stack) (i : ℕ) : Value := s.reverse.getD (i - 1) .nil

def top (s : Stack) : Value := s.headD .nil

/-- `lua_remove(L, -2)`. -/
def removeSecond : Stack → Stack
  | v :: _ :: s => v :: s
  | s => s

/-- A load that has begun. -/
structure Frame where
  /-- The stack of the call of `require`. -/
  stack : Stack
  native : Bool
  /-- The code uses `export`. -/
  usesExport : Bool
  placeholder : Option ℕ

/-- The state of the virtual machine, as far as the library uses it. -/
structure World (σ : Type) where
  ctx : σ
  /-- `_REGISTEREDMODULES`. -/
  registered : Bytes → Value
  modules : Bytes → Value
  /-- `_RESOLVED_REQUIRES`. -/
  resolved : Bytes → Option Bytes
  /-- `_CYCLIC_PLACEHOLDER_PROVIDED`. -/
  provided : Bytes → Bool
  /-- The metatable of placeholders, if there is one yet. -/
  placeholderMetatable : Option ℕ
  tables : ℕ → TableData
  nextTable : ℕ
  globals : Bytes → Value
  frames : ℕ → Option Frame
  nextFrame : ℕ

/-- What a file is for the loader. -/
inductive Script where
  | missing
  /-- It does not compile; the value is on the stack of the new thread. -/
  | invalid (error : Value)
  | compiled (usesExport : Bool)

/-- The configuration. -/
structure Configuration (σ : Type) extends Context σ where
  isRequireAllowed : Bytes → Bool
  script : Bytes → Script
  /-- `LuauCyclicRequireShortCircuit`. -/
  shortCircuit : Bool

/-- An error. -/
inductive Error where
  | message (text : Bytes)
  | typeError (arg : ℕ)
  | value (v : Value)
deriving DecidableEq

/-- What a step ends with. -/
inductive Output where
  | done
  | returned (results : List Value)
  | loading (frame : ℕ) (chunkname loadname : Value)
  /-- An error, and the module whose load has failed, if any. -/
  | raised (module : Option Bytes) (error : Error)
  /-- An assertion fails; without assertions the behaviour is undefined. -/
  | undefined
  | hangs
deriving DecidableEq

/-- A C string ends at the first 0. -/
def cstr (s : Bytes) : Bytes := s.takeWhile (· ≠ 0)

section

variable {σ : Type}

/-- `lua_getmetatable`, of a table. -/
def World.metatableOf (w : World σ) : Value → Option ℕ
  | .table t => (w.tables t).metatable
  | _ => none

/-- The value in the registry under the address of the sentinel. -/
def World.sentinel (w : World σ) : Value :=
  match w.placeholderMetatable with
  | some m => .table m
  | none => .nil

/-- A table with the shared metatable. -/
def World.isPlaceholder (w : World σ) (v : Value) : Bool :=
  match w.metatableOf v with
  | some m => w.sentinel = .table m
  | none => false

/-! ### Registered modules -/

def kStdLibs : List String :=
  ["fs", "io", "ffi", "json", "hash", "crypto", "process", "net", "task", "math", "table", "string",
    "coroutine", "bit32", "utf8", "os", "debug", "buffer", "vector", "class", "integer"]

/-- A global variable is pushed, if it is not nil. -/
def pushGlobal (w : World σ) (name : Bytes) (s : Stack) : ℕ × Stack :=
  let s := w.globals name :: s
  if top s ≠ .nil then (1, s) else (0, s.drop 1)

/-- The second half of `checkRegisteredModules`. -/
def checkStdLibs (w : World σ) (pathLower : Bytes) (s : Stack) : ℕ × Stack :=
  if 5 < pathLower.length ∧ pathLower.take 5 = text "@std/" then
    pushGlobal w (pathLower.drop 5) s
  else if pathLower ∈ kStdLibs.map text then pushGlobal w pathLower s
  else (0, s)

def checkRegisteredModules (w : World σ) (path : Bytes) (s : Stack) : ℕ × Stack :=
  let pathLower := toLower (cstr path)
  let s := .cache .registered :: s
  let s := w.registered pathLower :: s
  if top s ≠ .nil then
    match w.metatableOf (top s) with
    | none => (1, removeSecond s)
    | some m =>
      let s := .table m :: s
      let s := w.sentinel :: s
      if slot s s.length ≠ slot s (s.length - 1) then
        -- The metatable is on the top now, and the module below it.
        let s := s.drop 1
        (1, removeSecond s)
      else
        -- The value, its metatable and the sentinel go, and the table of the library stays.
        (0, s.drop 3)
  else checkStdLibs w pathLower (s.drop 2)

def registerModuleImpl (w : World σ) (args : List Value) : World σ × Output :=
  match args with
  | [path, value] =>
    match path.toStr with
    | none => (w, .raised none (.typeError 1))
    | some path =>
      if path.head? ≠ some 0x40 then
        (w, .raised none (.message (text "path must begin with '@'")))
      else ({ w with registered := Function.update w.registered (toLower path) value }, .done)
  | _ => (w, .raised none
      (.message (text "expected 2 arguments: aliased require path and desired result")))

/-! ### The cache -/

/-- A placeholder that is given out is marked. -/
def markProvided (C : Configuration σ) (w : World σ) (key : Bytes) (v : Value) : World σ :=
  if C.shortCircuit && w.isPlaceholder v then
    { w with provided := Function.update w.provided key true }
  else w

/-- `isCached` and `checkCachedModule`, with the cached value; the stack is left as it was. -/
def checkCachedModule (C : Configuration σ) (w : World σ) (key : Bytes) : World σ × Option Value :=
  let v := w.modules key
  if v = .nil then (w, none) else (markProvided C w key v, some v)

/-- The end of `resolveRequire`: the module may be cached, or it is read. -/
inductive Resolved where
  | cached (cacheKey : Bytes) (value : Value)
  | moduleRead (chunkname loadname cacheKey : Bytes)
  | errorReported (error : Bytes)
  | hangs

def resolveRequire (C : Configuration σ) (w : World σ) (chunkname path : Bytes) :
    World σ × Resolved :=
  if !C.isRequireAllowed chunkname then
    (w, .errorReported (text "require is not supported in this context"))
  else
    match navigate C.toContext chunkname path w.ctx with
    | none => (w, .hangs)
    | some (.error message, ctx) => ({ w with ctx := ctx }, .errorReported message)
    | some (.ok _, ctx) =>
      let w := { w with ctx := ctx }
      if !C.isModulePresent ctx then
        (w, .errorReported (text "no module present at resolved path"))
      else
        match C.getCacheKey ctx with
        | none => (w, .errorReported (text "could not get cache key for module"))
        | some cacheKey =>
          match checkCachedModule C w (cstr cacheKey) with
          | (w, some v) => (w, .cached cacheKey v)
          | (w, none) =>
            match C.getChunkname ctx with
            | none => (w, .errorReported (text "could not get chunkname for module"))
            | some chunkname =>
              match C.getLoadname ctx with
              | none => (w, .errorReported (text "could not get loadname for module"))
              | some loadname => (w, .moduleRead chunkname loadname cacheKey)

/-! ### Placeholders -/

/-- `pushCyclicPlaceholderMetatable`. -/
def World.placeholderMeta (w : World σ) : World σ × ℕ :=
  match w.placeholderMetatable with
  | some m => (w, m)
  | none => ({ w with
      tables := Function.update w.tables w.nextTable {}
      nextTable := w.nextTable + 1
      placeholderMetatable := some w.nextTable }, w.nextTable)

/-- `createPlaceholder`, after the key is read: the placeholder, which is in the cache. -/
def createPlaceholder (w : World σ) (cacheKey : Bytes) : World σ × ℕ :=
  let id := w.nextTable
  let w := { w with nextTable := w.nextTable + 1 }
  let (w, m) := w.placeholderMeta
  ({ w with
    tables := Function.update w.tables id { metatable := some m, readonly := true }
    modules := Function.update w.modules cacheKey (.table id) }, id)

/-- `populatePlaceholder`; both values must be tables. -/
def populatePlaceholder (w : World σ) (placeholder result : Value) : Option (World σ) :=
  match placeholder, result with
  | .table p, .table r => some { w with
      tables := Function.update w.tables p
        { metatable := (w.tables r).metatable
          readonly := true
          fields := fun key =>
            if (w.tables r).fields key ≠ .nil then (w.tables r).fields key
            else (w.tables p).fields key } }
  | _, _ => none

/-! ### Loads -/

def kRequireStackValues : ℕ := 4

def lua_requirecont (C : Configuration σ) (w : World σ) (s : Stack) : World σ × Output :=
  match (slot s 2).toStr with
  | none => (w, .raised none (.typeError 2))
  | some key =>
    let cacheKey := cstr key
    let numResults := s.length - kRequireStackValues
    if numResults > 1 then
      (w, .raised (some cacheKey) (.message (text "module must return a single value")))
    else if numResults = 1 then
      let result := slot s (kRequireStackValues + 1)
      if C.shortCircuit then
        let wasProvided := w.provided cacheKey
        let w := { w with provided := Function.update w.provided cacheKey false }
        if wasProvided then
          match populatePlaceholder w (w.modules cacheKey) result with
          | none => (w, .undefined)
          | some w => (w, .returned [w.modules cacheKey])
        else
          ({ w with modules := Function.update w.modules cacheKey result }, .returned [result])
      else ({ w with modules := Function.update w.modules cacheKey result }, .returned [result])
    else (w, .returned [])

/-- The suffixes of native libraries. -/
def kNativeSuffixes : List String := [".so", ".dylib", ".dll"]

/-- Whether a module is a native library. -/
def isNative (loadname : Bytes) : Bool :=
  kNativeSuffixes.any fun suffix => (text suffix).isSuffixOf loadname

def World.push (w : World σ) (frame : Frame) : World σ :=
  { w with
    frames := Function.update w.frames w.nextFrame (some frame)
    nextFrame := w.nextFrame + 1 }

/-- The error message of a thread. -/
def describe (before : String) (v : Value) (otherwise : String) : Error :=
  match v.toStr with
  | some message => .message (text before ++ cstr message)
  | none => .message (text otherwise)

/-- The first half of `load`, up to where the code of the module runs. -/
def load (C : Configuration σ) (w : World σ) (s : Stack) (chunkname loadname : Value) :
    World σ × Output :=
  let name := cstr (loadname.toStr.getD [])
  let key := (slot s 2).toStr.map cstr
  if isNative name then
    (w.push ⟨s, true, false, none⟩, .loading w.nextFrame chunkname loadname)
  else
    match C.script name with
    | .missing =>
      (w, .raised key (.message (text "could not read file '" ++ name ++ text "'")))
    | .invalid error => (w, .raised key (.message (text "error while compiling module: " ++
        match error.toStr with
        | some message => cstr message
        | none => text "unknown compile error")))
    | .compiled usesExport =>
      if C.shortCircuit && usesExport then
        match key with
        | none => (w, .raised none (.typeError 2))
        | some cacheKey =>
          let (w, id) := createPlaceholder w cacheKey
          (w.push ⟨s, false, usesExport, some id⟩, .loading w.nextFrame chunkname loadname)
      else (w.push ⟨s, false, usesExport, none⟩, .loading w.nextFrame chunkname loadname)

/-- The key of the resolution cache. -/
def compositeKey (chunkname path : Bytes) : Bytes := cstr chunkname ++ 0 :: cstr path

/-- `lua_requireinternal`, with or without the fast path. -/
def lua_requireinternal (fast : Bool) (C : Configuration σ) (w : World σ) (requirerChunkname : Bytes)
    (arg : Value) : World σ × Output :=
  match arg.toStr with
  | none => (w, .raised none (.typeError 1))
  | some path =>
    match checkRegisteredModules w path [arg] with
    | (1, s) => (w, .returned [top s])
    | (_, s) =>
      let composite := compositeKey requirerChunkname path
      let cached := (if fast then w.resolved composite else none).bind fun key =>
        match checkCachedModule C w key with
        | (w, some v) => some (w, v)
        | (_, none) => none
      match cached with
      | some (w, v) => (w, .returned [v])
      | none =>
        match resolveRequire C w (cstr requirerChunkname) (cstr path) with
        | (w, .hangs) => (w, .hangs)
        | (w, .errorReported error) => (w, .raised none (.message (cstr error)))
        | (w, .cached cacheKey v) =>
          ({ w with resolved := Function.update w.resolved composite (some (cstr cacheKey)) },
            .returned [v])
        | (w, .moduleRead chunkname loadname cacheKey) =>
          let w := { w with
            resolved := Function.update w.resolved composite (some (cstr cacheKey)) }
          let s := .string (cstr loadname) :: .string (cstr chunkname) ::
            .string (cstr cacheKey) :: s
          load C w s (slot s 3) (slot s 4)

/-- How the code of a module stops. -/
inductive Status where
  | ok
  | yielded
  | failed (error : Value)

def World.pop (w : World σ) (id : ℕ) : World σ :=
  { w with frames := Function.update w.frames id none }

/-- The second half of `load`, and what `lua_requireinternal` does with its results. -/
def stop (C : Configuration σ) (w : World σ) (id : ℕ) (frame : Frame) (status : Status)
    (results : List Value) : World σ × Output :=
  let key := (slot frame.stack 2).toStr.map cstr
  if frame.native then
    match status with
    | .ok => lua_requirecont C (w.pop id) (results.reverse ++ frame.stack)
    | .failed error => (w.pop id, .raised key (.value error))
    | .yielded =>
      -- The requiring thread yields, and is resumed with the results.
      if frame.stack.length ≠ kRequireStackValues then
        (w.pop id, .raised key
          (.message (text "stack cannot be modified when require yields")))
      else (w, .done)
  else
    match status with
    | .ok =>
      if results.length ≠ 1 then
        (w.pop id, .raised key (.message (text "module must return a single value")))
      else lua_requirecont C (w.pop id) (results ++ frame.stack)
    | .yielded => (w.pop id, .raised key (.message (text "module can not yield")))
    | .failed error => (w.pop id, .raised key
        (describe "error while running module: " error "unknown error while running module"))

/-! ### Steps -/

def clearCacheEntry (w : World σ) (arg : Value) : World σ × Output :=
  match arg.toStr with
  | none => (w, .raised none (.typeError 1))
  | some cacheKey =>
    ({ w with modules := Function.update w.modules (cstr cacheKey) .nil }, .done)

def clearCache (w : World σ) : World σ × Output :=
  ({ w with modules := fun _ => .nil, resolved := fun _ => none }, .done)

/-- What the code does. -/
inductive Input where
  /-- `require`, from a chunk. -/
  | require (requirerChunkname : Bytes) (arg : Value)
  | stop (id : ℕ) (status : Status) (results : List Value)
  | registerModule (args : List Value)
  | clearCacheEntry (arg : Value)
  | clearCache
  | code (tables : ℕ → TableData) (nextTable : ℕ) (globals : Bytes → Value)

def step (fast : Bool) (C : Configuration σ) (w : World σ) : Input → World σ × Output
  | .require requirerChunkname arg => lua_requireinternal fast C w requirerChunkname arg
  | .stop id status results =>
    match w.frames id with
    | some frame => stop C w id frame status results
    | none => (w, .done)
  | .registerModule args => registerModuleImpl w args
  | .clearCacheEntry arg => clearCacheEntry w arg
  | .clearCache => clearCache w
  | .code tables nextTable globals =>
    ({ w with tables := tables, nextTable := nextTable, globals := globals }, .done)

/-- The outputs of a sequence of inputs. -/
def outputs (fast : Bool) (C : Configuration σ) : World σ → List Input → List Output
  | _, [] => []
  | w, input :: inputs =>
    (step fast C w input).2 :: outputs fast C (step fast C w input).1 inputs

end

end Require

end Jaci
