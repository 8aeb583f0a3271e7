import Jaci.Require.Calls

/-!
# Registered modules

A module that is registered for a path is returned when the path is required.  The lookup works on
the stack, with indices that count from its top, and takes a wrong value away when the module is a
table with a metatable.

* `lastRegistered` : what should be found;
* `checkRegisteredModules_eq` : what the lookup finds, and the stack that it leaves;
* `AsRegistered` : a path gives what is registered for it;
* `asRegistered_iff` : when it does.
-/

namespace Jaci

namespace Require

open Wire

variable {σ : Type}

/-! ### Calls of `registerModule` -/

/-- What a call registers for a path, if it does. -/
def registration (args : List Value) (path : Bytes) : Option Value :=
  match args with
  | [arg, value] =>
    match arg.toStr with
    | some p => if p.head? = some 0x40 ∧ toLower p = toLower path then some value else none
    | none => none
  | _ => none

/-- What is registered last for a path; letter case does not matter. -/
def lastRegistered (calls : List (List Value)) (path : Bytes) : Value :=
  calls.foldl (fun v args => (registration args path).getD v) .nil

/-- The calls, one after the other. -/
def registerAll (w : World σ) (calls : List (List Value)) : World σ :=
  calls.foldl (fun w args => (registerModuleImpl w args).1) w

theorem registerModuleImpl_eq (w : World σ) (args : List Value) : ∃ registered,
    (registerModuleImpl w args).1 = { w with registered := registered } ∧ ∀ path,
      registered (toLower path) = (registration args path).getD (w.registered (toLower path)) := by
  rcases args with _ | ⟨arg, _ | ⟨value, _ | ⟨arg', args⟩⟩⟩
  · exact ⟨w.registered, rfl, fun _ => rfl⟩
  · exact ⟨w.registered, rfl, fun _ => rfl⟩
  · simp only [registerModuleImpl, registration]
    cases arg.toStr with
    | none => exact ⟨w.registered, rfl, fun _ => rfl⟩
    | some p =>
      by_cases hp : p.head? = some 0x40
      · refine ⟨Function.update w.registered (toLower p) value, by simp [hp], fun path => ?_⟩
        by_cases hlower : toLower p = toLower path
        · simp [hp, hlower]
        · simp [hlower, Function.update_of_ne (Ne.symm hlower)]
      · exact ⟨w.registered, by simp [hp], fun path => by simp [hp]⟩
  · exact ⟨w.registered, rfl, fun _ => rfl⟩

theorem registerAll_eq (w : World σ) (calls : List (List Value)) : ∃ registered,
    registerAll w calls = { w with registered := registered } ∧ ∀ path,
      registered (toLower path) = calls.foldl (fun v args => (registration args path).getD v)
        (w.registered (toLower path)) := by
  induction calls generalizing w with
  | nil => exact ⟨w.registered, rfl, fun _ => rfl⟩
  | cons args calls ih =>
    obtain ⟨registered, hw, hreg⟩ := registerModuleImpl_eq w args
    obtain ⟨registered', hw', hreg'⟩ := ih { w with registered := registered }
    refine ⟨registered', ?_, fun path => ?_⟩
    · change registerAll (registerModuleImpl w args).1 calls = _
      rw [hw, hw']
    · rw [hreg' path, List.foldl_cons, ← hreg path]

/-! ### The lookup -/

theorem slot_top (v : Value) (s : Stack) : slot (v :: s) (v :: s).length = v := by
  simp [slot]

theorem slot_second (v v' : Value) (s : Stack) :
    slot (v :: v' :: s) ((v :: v' :: s).length - 1) = v' := by
  simp [slot, List.getD_eq_getElem?_getD]

theorem pushGlobal_eq (w : World σ) (name : Bytes) (s : Stack) : pushGlobal w name s =
    if w.globals name = .nil then (0, s) else (1, w.globals name :: s) := by
  simp [pushGlobal, top]

/-- Standard libraries are global variables: one more value, or the stack as before. -/
theorem checkStdLibs_cases (w : World σ) (pathLower : Bytes) (s : Stack) :
    checkStdLibs w pathLower s = (0, s) ∨
      ∃ name, w.globals name ≠ .nil ∧ checkStdLibs w pathLower s = (1, w.globals name :: s) := by
  have hpush : ∀ name, pushGlobal w name s = (0, s) ∨
      ∃ name', w.globals name' ≠ .nil ∧ pushGlobal w name s = (1, w.globals name' :: s) := by
    intro name
    rw [pushGlobal_eq]
    split
    · exact .inl rfl
    · exact .inr ⟨name, ‹_›, rfl⟩
  rw [checkStdLibs]
  split
  · exact hpush _
  · split
    · exact hpush _
    · exact .inl rfl

/-- The three ends of the lookup, by the value that is registered. -/
theorem checkRegisteredModules_eq (w : World σ) (path : Bytes) (s : Stack) :
    checkRegisteredModules w path s =
      let v := w.registered (toLower (cstr path))
      if v = .nil then checkStdLibs w (toLower (cstr path)) s
      else match w.metatableOf v with
        | none => (1, v :: s)
        | some m =>
          if w.isPlaceholder v then (0, .cache .registered :: s)
          else (1, .table m :: .cache .registered :: s) := by
  simp only [checkRegisteredModules]
  by_cases hv : w.registered (toLower (cstr path)) = .nil
  · simp [hv, top]
  · simp only [top, List.headD_cons, ne_eq, hv, not_false_eq_true, if_true, if_false]
    cases hm : w.metatableOf (w.registered (toLower (cstr path))) with
    | none => rfl
    | some m =>
      simp only [slot_top, slot_second, World.isPlaceholder, hm]
      by_cases hs : w.sentinel = .table m
      · simp [hs]
      · simp [hs, removeSecond]

/-! ### What a path gives -/

/-- The world after the calls, when nothing was registered before. -/
def registeredWorld (w : World σ) (calls : List (List Value)) : World σ :=
  registerAll { w with registered := fun _ => .nil } calls

/-- The world with other modules, resolved paths and global variables. -/
def World.elsewhere (w : World σ) (modules : Bytes → Value) (resolved : Bytes → Option Bytes)
    (globals : Bytes → Value) : World σ :=
  { w with modules := modules, resolved := resolved, globals := globals }

/-- A path gives what is registered for it last, unless this is a placeholder: whatever is loaded,
whatever the global variables are, and whoever requires it.  The lookup leaves one more value on the
stack when it succeeds, and the stack as before when it does not. -/
structure AsRegistered (w : World σ) (calls : List (List Value)) (path : Bytes) (s : Stack) :
    Prop where
  returned : lastRegistered calls path ≠ .nil →
    w.isPlaceholder (lastRegistered calls path) = false →
    ∀ (C : Configuration σ) modules resolved globals requirerChunkname,
      (lua_requireinternal true C ((registeredWorld w calls).elsewhere modules resolved globals)
        requirerChunkname (.string path)).2 = .returned [lastRegistered calls path]
  found : (checkRegisteredModules (registeredWorld w calls) path s).1 = 1 →
    ∃ v, (checkRegisteredModules (registeredWorld w calls) path s).2 = v :: s
  missed : (checkRegisteredModules (registeredWorld w calls) path s).1 = 0 →
    (checkRegisteredModules (registeredWorld w calls) path s).2 = s

/-- What is registered for the path up to its first 0 is not a table with a metatable, and is what
is registered for the path. -/
def PlainlyRegistered (w : World σ) (calls : List (List Value)) (path : Bytes) : Prop :=
  w.metatableOf (lastRegistered calls (cstr path)) = none ∧
    (lastRegistered calls path = .nil ∨ w.isPlaceholder (lastRegistered calls path) = true ∨
      lastRegistered calls (cstr path) = lastRegistered calls path)

theorem checkRegisteredModules_elsewhere (w : World σ) (calls : List (List Value))
    (modules : Bytes → Value) (resolved : Bytes → Option Bytes) (globals : Bytes → Value)
    (path : Bytes) (s : Stack) :
    checkRegisteredModules ((registeredWorld w calls).elsewhere modules resolved globals) path s =
      let v := lastRegistered calls (cstr path)
      if v = .nil then checkStdLibs { w with globals := globals } (toLower (cstr path)) s
      else match w.metatableOf v with
        | none => (1, v :: s)
        | some m =>
          if w.isPlaceholder v then (0, .cache .registered :: s)
          else (1, .table m :: .cache .registered :: s) := by
  obtain ⟨registered, hw, hreg⟩ := registerAll_eq { w with registered := fun _ => .nil } calls
  rw [registeredWorld, hw, checkRegisteredModules_eq]
  have hv : registered (toLower (cstr path)) = lastRegistered calls (cstr path) := hreg (cstr path)
  simp only [World.elsewhere, hv]
  cases lastRegistered calls (cstr path) <;> rfl

theorem checkRegisteredModules_registeredWorld (w : World σ) (calls : List (List Value))
    (path : Bytes) (s : Stack) : checkRegisteredModules (registeredWorld w calls) path s =
      checkRegisteredModules ((registeredWorld w calls).elsewhere (registeredWorld w calls).modules
        (registeredWorld w calls).resolved w.globals) path s := by
  obtain ⟨registered, hw, -⟩ := registerAll_eq { w with registered := fun _ => .nil } calls
  rw [registeredWorld, hw]
  rfl

/-- A configuration that allows no chunk to require. -/
def denied (ctx : σ) : Configuration σ where
  reset _ _ := (.NotFound, ctx)
  jumpToAlias _ s := (.NotFound, s)
  toAliasOverride := none
  toAliasFallback := none
  toParent s := (.NotFound, s)
  toChild _ s := (.NotFound, s)
  resetIsDirectoryModule := none
  isModulePresent _ := false
  getChunkname _ := none
  getLoadname _ := none
  getCacheKey _ := none
  getConfigStatus _ := .Absent
  getAlias := none
  getConfig _ := none
  parseConfig _ := .ok []
  extractLuauConfig _ := .ok []
  selfIsSelf := true
  rounds := 0
  reset_result _ _ _ := rfl
  reset_state _ _ _ _ := rfl
  isRequireAllowed _ := false
  script _ := .missing
  shortCircuit := true

theorem lua_requireinternal_found {C : Configuration σ} {w : World σ} {requirerChunkname path : Bytes}
    {v : Value} {s : Stack} (h : checkRegisteredModules w path [.string path] = (1, v :: s)) :
    lua_requireinternal true C w requirerChunkname (.string path) = (w, .returned [v]) := by
  simp only [lua_requireinternal, Value.toStr, h]
  rfl

theorem lua_requireinternal_denied {w : World σ} {ctx : σ} {path : Bytes} {s : Stack}
    (h : checkRegisteredModules w path [.string path] = (0, s)) (hw : w.resolved = fun _ => none) :
    (lua_requireinternal true (denied ctx) w [] (.string path)).2 =
      .raised none (.message (cstr (text "require is not supported in this context"))) := by
  simp only [lua_requireinternal, Value.toStr, h, hw]
  rfl

theorem checkStdLibs_nil (w : World σ) (pathLower : Bytes) (s : Stack) :
    checkStdLibs { w with globals := fun _ => .nil } pathLower s = (0, s) := by
  rcases checkStdLibs_cases { w with globals := fun _ => .nil } pathLower s with h | ⟨name, h, -⟩
  · exact h
  · exact absurd rfl h

theorem AsRegistered.plain {w : World σ} {calls : List (List Value)} {path : Bytes} {s : Stack}
    (h : AsRegistered w calls path s) : PlainlyRegistered w calls path := by
  have hcheck := checkRegisteredModules_registeredWorld w calls path s
  rw [checkRegisteredModules_elsewhere] at hcheck
  have hplain : w.metatableOf (lastRegistered calls (cstr path)) = none := by
    by_contra hm
    obtain ⟨m, hm⟩ := Option.ne_none_iff_exists'.1 hm
    have hv : lastRegistered calls (cstr path) ≠ .nil := by
      intro hv
      simp [hv, World.metatableOf] at hm
    simp only [if_neg hv, hm] at hcheck
    cases hp : w.isPlaceholder (lastRegistered calls (cstr path)) with
    | true =>
      -- The table of the library stays on the stack.
      rw [hp, if_pos rfl] at hcheck
      have := congrArg List.length (h.missed (by rw [hcheck]))
      simp [hcheck] at this
    | false =>
      -- The metatable is returned, and one value too many.
      rw [hp, if_neg Bool.false_ne_true] at hcheck
      obtain ⟨v, hs⟩ := h.found (by rw [hcheck])
      have := congrArg List.length hs
      simp [hcheck] at this
  refine ⟨hplain, ?_⟩
  by_contra hne
  obtain ⟨hnil, hp, hne⟩ : lastRegistered calls path ≠ .nil ∧
      w.isPlaceholder (lastRegistered calls path) ≠ true ∧
      lastRegistered calls (cstr path) ≠ lastRegistered calls path := by
    simpa only [not_or] using hne
  have hreturned := h.returned hnil (by simpa using hp) (denied w.ctx) (fun _ => .nil)
    (fun _ => none) (fun _ => .nil) []
  have helse := checkRegisteredModules_elsewhere w calls (fun _ => .nil) (fun _ => none)
    (fun _ => .nil) path [.string path]
  by_cases hv : lastRegistered calls (cstr path) = .nil
  · simp only [if_pos hv, checkStdLibs_nil] at helse
    rw [lua_requireinternal_denied helse rfl] at hreturned
    cases hreturned
  · simp only [if_neg hv, hplain] at helse
    rw [lua_requireinternal_found helse] at hreturned
    exact hne (by simpa using hreturned)

theorem PlainlyRegistered.asRegistered {w : World σ} {calls : List (List Value)} {path : Bytes}
    (h : PlainlyRegistered w calls path) (s : Stack) : AsRegistered w calls path s := by
  obtain ⟨hplain, hsame⟩ := h
  have hcheck := checkRegisteredModules_registeredWorld w calls path s
  rw [checkRegisteredModules_elsewhere] at hcheck
  simp only [hplain] at hcheck
  have hstack : checkRegisteredModules (registeredWorld w calls) path s = (0, s) ∨
      ∃ v, checkRegisteredModules (registeredWorld w calls) path s = (1, v :: s) := by
    rw [hcheck]
    split
    · rcases checkStdLibs_cases { w with globals := w.globals } (toLower (cstr path)) s with
        hs | ⟨name, -, hs⟩
      · exact .inl hs
      · exact .inr ⟨_, hs⟩
    · exact .inr ⟨_, rfl⟩
  refine ⟨fun hnil hp C modules resolved globals requirerChunkname => ?_, fun h1 => ?_, fun h0 => ?_⟩
  · have hv : lastRegistered calls (cstr path) = lastRegistered calls path := by
      rcases hsame with hs | hs | hs
      · exact absurd hs hnil
      · simp [hp] at hs
      · exact hs
    have helse := checkRegisteredModules_elsewhere w calls modules resolved globals path
      [.string path]
    simp only [hplain] at helse
    rw [hv, if_neg hnil] at helse
    rw [lua_requireinternal_found helse]
  · rcases hstack with hs | ⟨v, hs⟩
    · simp [hs] at h1
    · exact ⟨v, by rw [hs]⟩
  · rcases hstack with hs | ⟨v, hs⟩
    · rw [hs]
    · simp [hs] at h0

/-- **Registered modules are returned as registered** exactly when what is found for the path is
not a table with a metatable, and the path is not cut at a 0 before what is registered for it. -/
theorem asRegistered_iff (w : World σ) (calls : List (List Value)) (path : Bytes) (s : Stack) :
    AsRegistered w calls path s ↔ PlainlyRegistered w calls path :=
  ⟨AsRegistered.plain, fun h => h.asRegistered s⟩

/-- A table with a metatable. -/
def classWorld : World Unit where
  ctx := ()
  registered _ := .nil
  modules _ := .nil
  resolved _ := none
  provided _ := false
  placeholderMetatable := none
  tables id := { metatable := if id = 0 then some 1 else none }
  nextTable := 2
  globals _ := .nil
  frames _ := none
  nextFrame := 0

/-- A table with a metatable is registered: its metatable comes back in its place. -/
theorem classWorld_not_asRegistered :
    ¬ AsRegistered classWorld [[.string (text "@m"), .table 0]] (text "@m") [.string (text "@m")] := by
  intro h
  have hreturned := h.returned (by decide) (by decide) (denied ()) (fun _ => .nil) (fun _ => none)
    (fun _ => .nil) []
  exact absurd hreturned (by decide)

end Require

end Jaci
