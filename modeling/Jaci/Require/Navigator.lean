import Jaci.Lib.Wire
import Mathlib.Tactic.Common

/-!
# Navigation

`Navigator` finds the module that a path names: it starts at the requirer and goes through a context,
which has a state of its own and whose functions are given by a configuration.  A loop or recursion
that needs more than the given number of rounds has no result.

* `Context` : what the navigator asks, over an unchanging file system;
* `navigate` : the navigator;
* `navigate_agree` : what it finds does not depend on the state that it starts with.
-/

namespace Jaci

namespace Require

open Wire

def text (s : String) : Bytes := s.toList.map Char.toUInt8

/-- Upper-case letters become lower-case. -/
def toLower (s : Bytes) : Bytes :=
  s.map fun c => if 65 ≤ c ∧ c ≤ 90 then c + 32 else c

inductive NavigateResult where
  | Success | Ambiguous | NotFound
deriving DecidableEq

inductive ConfigStatus where
  | Absent | Ambiguous | PresentJson | PresentLuau
deriving DecidableEq

/-- The aliases of a configuration file, by their names in lower case. -/
abbrev Aliases := List (Bytes × Bytes)

/-- `RuntimeNavigationContext`, with the functions of the configuration.  The file system does not
change, so each of them only depends on the state. -/
structure Context (σ : Type) where
  reset : Bytes → σ → NavigateResult × σ
  jumpToAlias : Bytes → σ → NavigateResult × σ
  /-- `to_alias_override`, if there is one. -/
  toAliasOverride : Option (Bytes → σ → NavigateResult × σ)
  /-- `to_alias_fallback`, if there is one. -/
  toAliasFallback : Option (Bytes → σ → NavigateResult × σ)
  toParent : σ → NavigateResult × σ
  toChild : Bytes → σ → NavigateResult × σ
  /-- `reset_is_directory_module`, if there is one. -/
  resetIsDirectoryModule : Option (σ → Bool)
  isModulePresent : σ → Bool
  getChunkname : σ → Option Bytes
  getLoadname : σ → Option Bytes
  getCacheKey : σ → Option Bytes
  getConfigStatus : σ → ConfigStatus
  /-- `get_alias`, if there is one. -/
  getAlias : Option (Bytes → σ → Option Bytes)
  getConfig : σ → Option Bytes
  parseConfig : Bytes → Except Bytes Aliases
  extractLuauConfig : Bytes → Except Bytes Aliases
  /-- `LuauSelfIsSelfAndAlwaysSelf`. -/
  selfIsSelf : Bool
  /-- The rounds of a loop that goes up to the root. -/
  rounds : ℕ
  /-- A reset does not depend on what the state points at before. -/
  reset_result : ∀ chunkname s s', (reset chunkname s).1 = (reset chunkname s').1
  /-- After a reset the state points at the requirer, wherever it did before. -/
  reset_state : ∀ chunkname s s', (reset chunkname s).1 = .Success →
    (reset chunkname s).2 = (reset chunkname s').2

/-- A step of the navigator: it may have no result, and it changes the state and may report an
error. -/
abbrev Nav (σ α : Type) := ExceptT Bytes (StateT σ Option) α

section

variable {σ : Type}

/-- A function of the configuration is called. -/
def call {α : Type} (f : σ → α × σ) : Nav σ α := ExceptT.lift fun s => some (f s)

/-- A function of the configuration that leaves the state is called. -/
def ask {α : Type} (f : σ → α) : Nav σ α := call fun s => (f s, s)

/-- There are no more rounds. -/
def stuck {α : Type} : Nav σ α := fun _ => none

/-- An error is reported, with a mark if the place was ambiguous. -/
def failed (result : NavigateResult) (message : Bytes) : Nav σ Unit :=
  match result with
  | .Success => pure ()
  | .Ambiguous => throw (message ++ text " (ambiguous)")
  | .NotFound => throw message

/-- A quoted text in an error. -/
def quoted (s : Bytes) : Bytes := 0x22 :: s ++ [0x22]

inductive PathType where
  | RelativeToCurrent | RelativeToParent | Aliased | BarePackage | Unsupported
deriving DecidableEq

def getPathType (path : Bytes) : PathType :=
  if path.take 2 = text "./" then .RelativeToCurrent
  else if path.take 3 = text "../" then .RelativeToParent
  else if path.head? = some 0x40 then .Aliased
  else if path ≠ [] ∧ path.head? ≠ some 0x2f ∧ path.head? ≠ some 0x5c then .BarePackage
  else .Unsupported

/-- The components of a path. -/
def components (path : Bytes) : List Bytes := path.splitOn 0x2f

def extractAlias (path : Bytes) : Bytes := (path.drop 1).takeWhile (· ≠ 0x2f)

variable (C : Context σ)

def resetToRequirer (chunkname : Bytes) : Nav σ Unit := do
  failed (← call (C.reset chunkname)) (text "could not reset to requiring context")

def jumpToAlias (aliasPath : Bytes) : Nav σ Unit := do
  failed (← call (C.jumpToAlias aliasPath)) (text "could not jump to alias " ++ quoted aliasPath)

def navigateToParent (previousComponent : Option Bytes) : Nav σ Unit := do
  failed (← call C.toParent) <|
    match previousComponent with
    | some component => text "could not get parent of component " ++ quoted component
    | none => text "could not get parent of requiring context"

def navigateToChild (component : Bytes) : Nav σ Unit := do
  failed (← call (C.toChild component))
    (text "could not resolve child component " ++ quoted component)

/-- `RuntimeNavigationContext::toAliasFallback`. -/
def tryAliasFallback (aliasUnprefixed : Bytes) : Nav σ NavigateResult :=
  match C.toAliasFallback with
  | some f => call (f aliasUnprefixed)
  | none => pure .NotFound

def toAliasFallback (aliasUnprefixed : Bytes) : Nav σ Unit := do
  failed (← tryAliasFallback C aliasUnprefixed)
    (text "@" ++ aliasUnprefixed ++ text " is not a valid alias")

/-- `Navigator::toAliasOverride`: whether there was an override. -/
def toAliasOverride (aliasUnprefixed : Bytes) : Nav σ Bool :=
  match C.toAliasOverride with
  | none => pure false
  | some f => do
    match ← call (f aliasUnprefixed) with
    | .Success => pure true
    | .NotFound => pure false
    | .Ambiguous => throw (text "@" ++ aliasUnprefixed ++ text " is not a valid alias (ambiguous)")

/-- The loop of `navigateThroughPath`. -/
def navigateComponents : List Bytes → Option Bytes → Nav σ Unit
  | [], _ => pure ()
  | component :: rest, previous => do
    if component = text "." ∨ component = [] then navigateComponents rest previous
    else
      if component = text ".." then navigateToParent C previous
      else navigateToChild C component
      navigateComponents rest (some component)

/-- `navigateThroughPath`; an alias at the beginning is left to the caller. -/
def navigateThroughPath (path : Bytes) : Nav σ Unit :=
  let parts := components path
  navigateComponents C (if path.head? = some 0x40 then parts.drop 1 else parts) none

/-- The aliases of the configuration file at the current place. -/
def readConfig (status : ConfigStatus) (desiredAlias : Bytes) : Nav σ Aliases := do
  match ← ask C.getConfig with
  | none => throw (text "could not get configuration file contents to resolve alias " ++
      quoted desiredAlias)
  | some contents =>
    let parsed := if status = .PresentJson then C.parseConfig contents
      else C.extractLuauConfig contents
    match parsed with
    | .error message => throw message
    | .ok aliases => pure aliases

def navigateToAndPopulateConfig (desiredAlias : Bytes) : ℕ → Aliases → Nav σ Aliases
  | 0, _ => stuck
  | n + 1, config => do
    if (config.lookup desiredAlias).isSome then return config
    match ← call C.toParent with
    | .Ambiguous => throw (text "could not navigate up the ancestry chain during search for alias " ++
        quoted desiredAlias ++ text " (ambiguous)")
    | .NotFound => pure []
    | .Success =>
      match ← ask C.getConfigStatus with
      | .Absent => navigateToAndPopulateConfig desiredAlias n []
      | .Ambiguous => throw (text "could not resolve alias " ++ quoted desiredAlias ++
          text " (ambiguous configuration file)")
      | status =>
        match C.getAlias with
        | some getAlias =>
          match ← ask (getAlias desiredAlias) with
          | none => throw (text "could not resolve alias " ++ quoted desiredAlias)
          | some aliasPath => pure [(toLower desiredAlias, aliasPath)]
        | none =>
          navigateToAndPopulateConfig desiredAlias n (← readConfig C status desiredAlias)

def getStringifiedCycle (ordered : List Bytes) (repeated : Bytes) : Bytes :=
  let cycle := ordered.dropWhile (· ≠ repeated) ++ [repeated]
  (cycle.map (text "@" ++ ·)).intersperse (text " -> ") |>.flatten

/-- `navigateToAlias`; the list has the aliases of the cycle tracker in their order. -/
def navigateToAlias : ℕ → Bytes → Aliases → List Bytes → Nav σ Unit
  | 0, _, _, _ => stuck
  | n + 1, aliasName, config, seen => do
    let value := (config.lookup aliasName).getD []
    match getPathType value with
    | .RelativeToCurrent => navigateThroughPath C value
    | .RelativeToParent => navigateThroughPath C value
    | .Aliased =>
      if aliasName ∈ seen then
        throw (text "detected alias cycle (" ++ getStringifiedCycle seen aliasName ++ text ")")
      let nextAlias := extractAlias value
      if ← toAliasOverride C nextAlias then navigateThroughPath C value
      else
        if (config.lookup nextAlias).isSome then
          navigateToAlias n nextAlias config (seen ++ [aliasName])
        else
          let parentConfig ← navigateToAndPopulateConfig C nextAlias n []
          if (parentConfig.lookup nextAlias).isSome then
            navigateToAlias n nextAlias parentConfig []
          else toAliasFallback C nextAlias
        navigateThroughPath C value
    | _ => jumpToAlias C value

/-- The error for a path without a valid beginning. -/
def badPath : Bytes := text "require path must start with a valid prefix: ./, ../, or @"

/-- The branch of `navigateImpl` for a bare package, after the reset. -/
def navigateBare (path : Bytes) : Nav σ Unit := do
  let parts := components path
  let subPath := (path.drop ((parts.headD []).length + 1))
  if (← tryAliasFallback C (parts.headD [])) = .Success then
    if subPath ≠ [] then navigateThroughPath C subPath
  else throw badPath

/-- The branch of `navigateImpl` for an alias, after the reset. -/
def navigateAliased (chunkname path : Bytes) : Nav σ Unit := do
  let aliasName := toLower (extractAlias path)
  if C.selfIsSelf ∧ aliasName = text "self" then navigateThroughPath C path
  else if ← toAliasOverride C aliasName then navigateThroughPath C path
  else
    let config ← navigateToAndPopulateConfig C aliasName C.rounds []
    if (config.lookup aliasName).isSome then
      navigateToAlias C C.rounds aliasName config []
      navigateThroughPath C path
    else
      resetToRequirer C chunkname
      if aliasName ≠ text "self" ∨ C.selfIsSelf then toAliasFallback C aliasName
      navigateThroughPath C path

/-- The branch of `navigateImpl` for a relative path, after the reset. -/
def navigateRelative (path : Bytes) : Nav σ Unit := do
  let isDirectory ← ask fun s => (C.resetIsDirectoryModule.map (· s)).getD false
  if !isDirectory then navigateToParent C none
  navigateThroughPath C path

/-- `navigateImpl`; every branch but the first resets to the requirer. -/
def navigateImpl (chunkname path : Bytes) : Nav σ Unit :=
  match getPathType path with
  | .Unsupported => throw badPath
  | .BarePackage => do
    resetToRequirer C chunkname
    navigateBare C path
  | .Aliased => do
    resetToRequirer C chunkname
    navigateAliased C chunkname path
  | _ => do
    resetToRequirer C chunkname
    navigateRelative C path

/-- `navigate`, with the prefix of `RuntimeErrorHandler` for its errors. -/
def navigate (chunkname path : Bytes) : Nav σ Unit :=
  tryCatch (navigateImpl C chunkname (path.map fun c => if c = 0x5c then 0x2f else c))
    fun message => throw (text "error requiring module " ++ quoted path ++ text ": " ++ message)

/-! ### The state before -/

variable {C}

/-- Runs from two states end in the same way, or report the same error. -/
def Agree {α : Type} (x y : Option (Except Bytes α × σ)) : Prop :=
  x = y ∨ ∃ message s s', x = some (.error message, s) ∧ y = some (.error message, s')

theorem resetToRequirer_bind {chunkname : Bytes} (rest : Nav σ Unit) (s s' : σ) :
    Agree ((do resetToRequirer C chunkname; rest : Nav σ Unit) s)
      ((do resetToRequirer C chunkname; rest : Nav σ Unit) s') := by
  have hresult := C.reset_result chunkname s s'
  have hstate := C.reset_state chunkname s s'
  obtain ⟨⟨r, t⟩, hr⟩ : ∃ x, C.reset chunkname s = x := ⟨_, rfl⟩
  obtain ⟨⟨r', t'⟩, hr'⟩ : ∃ x, C.reset chunkname s' = x := ⟨_, rfl⟩
  rw [hr, hr'] at hresult hstate
  obtain rfl : r = r' := hresult
  have hrun : ∀ u v, C.reset chunkname u = (r, v) →
      (do resetToRequirer C chunkname; rest : Nav σ Unit) u = match r with
        | .Success => rest v
        | .Ambiguous =>
          some (.error (text "could not reset to requiring context" ++ text " (ambiguous)"), v)
        | .NotFound => some (.error (text "could not reset to requiring context"), v) := by
    intro u v hu
    cases r <;>
    · simp only [resetToRequirer, call, failed, bind, ExceptT.bind, ExceptT.mk, ExceptT.lift,
        StateT.bind, ExceptT.bindCont, Functor.map, StateT.map, hu]
      rfl
  rw [hrun s t hr, hrun s' t' hr']
  cases r with
  | Success => exact .inl (congrArg rest (hstate rfl))
  | Ambiguous => exact .inr ⟨_, _, _, rfl, rfl⟩
  | NotFound => exact .inr ⟨_, _, _, rfl, rfl⟩

theorem navigateImpl_agree (chunkname path : Bytes) (s s' : σ) :
    Agree (navigateImpl C chunkname path s) (navigateImpl C chunkname path s') := by
  rw [navigateImpl]
  cases getPathType path with
  | Unsupported => exact .inr ⟨_, _, _, rfl, rfl⟩
  | BarePackage => exact resetToRequirer_bind _ _ _
  | Aliased => exact resetToRequirer_bind _ _ _
  | RelativeToCurrent => exact resetToRequirer_bind _ _ _
  | RelativeToParent => exact resetToRequirer_bind _ _ _

/-- **Navigation starts at the requirer.**  What the state points at before does not matter. -/
theorem navigate_agree (chunkname path : Bytes) (s s' : σ) :
    Agree (navigate C chunkname path s) (navigate C chunkname path s') := by
  have hrun : ∀ u, navigate C chunkname path u = (navigateImpl C chunkname
      (path.map fun c => if c = 0x5c then 0x2f else c) u).map fun
      | (.ok _, t) => (.ok (), t)
      | (.error message, t) =>
        (.error (text "error requiring module " ++ quoted path ++ text ": " ++ message), t) := by
    intro u
    simp only [navigate, tryCatch, tryCatchThe, MonadExceptOf.tryCatch, ExceptT.tryCatch, ExceptT.mk,
      bind, StateT.bind]
    cases navigateImpl C chunkname (path.map fun c => if c = 0x5c then 0x2f else c) u with
    | none => rfl
    | some x =>
      obtain ⟨x | x, t⟩ := x <;> rfl
  rw [hrun, hrun]
  rcases navigateImpl_agree chunkname (path.map fun c => if c = 0x5c then 0x2f else c) s s' with
    h | ⟨message, t, t', h, h'⟩
  · exact .inl (by rw [h])
  · exact .inr ⟨_, t, t', by rw [h]; rfl, by rw [h']; rfl⟩

end

end Require

end Jaci
