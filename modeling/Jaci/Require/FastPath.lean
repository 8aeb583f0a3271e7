import Jaci.Require.Calls
import Mathlib.Data.List.TakeWhile

/-!
# The fast path of require

`lua_requireinternal` remembers which module a path from a chunk was resolved to, and looks it up
before it navigates.  A run with this lookup is compared with a run without it: the two worlds only
differ in the state of the navigation and in the resolved paths, and each of the paths that are
remembered is what navigation would find, from wherever it starts.

* `World.moved` : how the two worlds differ;
* `Known` : the resolved paths are right;
* `step_moved` : one step of both runs;
* `outputs_eq_outputs` : the outputs are the same.
-/

namespace Jaci

namespace Require

open Wire

variable {σ : Type}

/-! ### Two worlds -/

/-- The world with another state of the navigation and other resolved paths. -/
def World.moved (w : World σ) (ctx : σ) (resolved : Bytes → Option Bytes) : World σ :=
  { w with ctx := ctx, resolved := resolved }

/-- A function neither reads nor changes the state of the navigation and the resolved paths. -/
def Blind (f : World σ → World σ × Output) : Prop :=
  ∀ w ctx resolved, f (w.moved ctx resolved) = ((f w).1.moved ctx resolved, (f w).2)

theorem Blind.resolved {f : World σ → World σ × Output} (hf : Blind f) (w : World σ) :
    (f w).1.resolved = w.resolved := by
  have h := hf w w.ctx w.resolved
  change f w = _ at h
  rw [h]
  rfl

theorem registerModuleImpl_blind (args : List Value) :
    Blind fun w : World σ => registerModuleImpl w args := by
  intro w ctx resolved
  simp only [registerModuleImpl]
  split
  · split
    · rfl
    · split <;> rfl
  · rfl

theorem clearCacheEntry_blind (arg : Value) : Blind fun w : World σ => clearCacheEntry w arg := by
  intro w ctx resolved
  simp only [clearCacheEntry]
  cases arg.toStr <;> rfl

theorem populatePlaceholder_moved (w : World σ) (ctx : σ) (resolved : Bytes → Option Bytes)
    (placeholder result : Value) : populatePlaceholder (w.moved ctx resolved) placeholder result =
      (populatePlaceholder w placeholder result).map (·.moved ctx resolved) := by
  cases placeholder <;> cases result <;> rfl

theorem lua_requirecont_blind (C : Configuration σ) (s : Stack) :
    Blind fun w : World σ => lua_requirecont C w s := by
  intro w ctx resolved
  simp only [lua_requirecont]
  cases (slot s 2).toStr with
  | none => rfl
  | some key =>
    simp only
    split
    · rfl
    · split
      · split
        · have hprovided : (w.moved ctx resolved).provided = w.provided := rfl
          rw [hprovided]
          split
          · have h := populatePlaceholder_moved
              { w with provided := Function.update w.provided (cstr key) false } ctx resolved
              (w.modules (cstr key)) (slot s (kRequireStackValues + 1))
            simp only [World.moved] at h ⊢
            rw [h]
            cases populatePlaceholder { w with
              provided := Function.update w.provided (cstr key) false } (w.modules (cstr key))
              (slot s (kRequireStackValues + 1)) <;> rfl
          · rfl
        · rfl
      · rfl

theorem createPlaceholder_moved (w : World σ) (ctx : σ) (resolved : Bytes → Option Bytes)
    (key : Bytes) : createPlaceholder (w.moved ctx resolved) key =
      ((createPlaceholder w key).1.moved ctx resolved, (createPlaceholder w key).2) := by
  simp only [createPlaceholder, World.placeholderMeta, World.moved]
  cases w.placeholderMetatable <;> rfl

theorem load_blind (C : Configuration σ) (s : Stack) (chunkname loadname : Value) :
    Blind fun w : World σ => load C w s chunkname loadname := by
  intro w ctx resolved
  simp only [load]
  split
  · rfl
  · split
    · rfl
    · rfl
    · split
      · split
        · rfl
        · rw [createPlaceholder_moved]
          rfl
      · rfl

theorem stop_blind (C : Configuration σ) (id : ℕ) (frame : Frame) (status : Status)
    (results : List Value) : Blind fun w : World σ => stop C w id frame status results := by
  intro w ctx resolved
  have hcont := fun s => lua_requirecont_blind C s (w.pop id) ctx resolved
  simp only [stop]
  split
  · cases status with
    | ok => exact hcont _
    | failed error => rfl
    | yielded =>
      by_cases h : frame.stack.length ≠ kRequireStackValues
      · simp only [if_pos h]
        rfl
      · simp only [if_neg h]
  · cases status with
    | ok =>
      simp only
      split
      · rfl
      · exact hcont _
    | yielded => rfl
    | failed error => rfl

/-! ### Resolved paths -/

theorem cstr_append_zero (a b : Bytes) : (cstr a ++ 0 :: b).takeWhile (· ≠ 0) = cstr a := by
  have h : ∀ c ∈ cstr a, decide (c ≠ 0) = true := fun c hc =>
    List.mem_takeWhile_imp (p := fun c => decide (c ≠ 0)) hc
  rw [List.takeWhile_append_of_pos h, List.takeWhile_cons_of_neg (by simp), List.append_nil]

theorem compositeKey_inj {chunkname chunkname' path path' : Bytes}
    (h : compositeKey chunkname path = compositeKey chunkname' path') :
    cstr chunkname = cstr chunkname' ∧ cstr path = cstr path' := by
  have hchunk : cstr chunkname = cstr chunkname' := by
    rw [← cstr_append_zero chunkname (cstr path), ← cstr_append_zero chunkname' (cstr path')]
    exact congrArg (List.takeWhile (· ≠ 0)) h
  refine ⟨hchunk, ?_⟩
  rw [compositeKey, compositeKey, hchunk] at h
  exact (List.cons.inj (List.append_cancel_left h)).2

/-- Wherever the navigation starts, it finds the module with this key. -/
def Resolves (C : Configuration σ) (chunkname path key : Bytes) : Prop :=
  C.isRequireAllowed chunkname = true ∧ ∀ ctx, ∃ ctx' cacheKey,
    navigate C.toContext chunkname path ctx = some (.ok (), ctx') ∧
      C.isModulePresent ctx' = true ∧ C.getCacheKey ctx' = some cacheKey ∧ cstr cacheKey = key

/-- Each resolved path is what the navigation finds. -/
def Known (C : Configuration σ) (w : World σ) : Prop :=
  ∀ chunkname path key, w.resolved (compositeKey chunkname path) = some key →
    Resolves C (cstr chunkname) (cstr path) key

theorem Known.congr {C : Configuration σ} {w w' : World σ} (h : Known C w)
    (hw : w'.resolved = w.resolved) : Known C w' := by
  rw [Known, hw]
  exact h

theorem Known.update {C : Configuration σ} {w : World σ} {chunkname path key : Bytes}
    (h : Known C w) (hkey : Resolves C (cstr chunkname) (cstr path) key) :
    Known C { w with
      resolved := Function.update w.resolved (compositeKey chunkname path) (some key) } := by
  intro chunkname' path' key' h'
  by_cases hc : compositeKey chunkname' path' = compositeKey chunkname path
  · obtain ⟨hchunk, hpath⟩ := compositeKey_inj hc
    have hval : key = key' := by simpa [hc] using h'
    rw [hchunk, hpath, ← hval]
    exact hkey
  · exact h chunkname' path' key' (by simpa [Function.update_of_ne hc] using h')

theorem markProvided_moved (C : Configuration σ) (w : World σ) (ctx : σ)
    (resolved : Bytes → Option Bytes) (key : Bytes) (v : Value) :
    markProvided C (w.moved ctx resolved) key v =
      (markProvided C w key v).moved ctx resolved := by
  have h : (w.moved ctx resolved).isPlaceholder v = w.isPlaceholder v := by
    cases v <;> rfl
  rw [markProvided, markProvided, h]
  split <;> rfl

theorem markProvided_resolved (C : Configuration σ) (w : World σ) (key : Bytes) (v : Value) :
    (markProvided C w key v).resolved = w.resolved := by
  rw [markProvided]
  split <;> rfl

theorem checkCachedModule_moved (C : Configuration σ) (w : World σ) (ctx : σ)
    (resolved : Bytes → Option Bytes) (key : Bytes) :
    checkCachedModule C (w.moved ctx resolved) key =
      ((checkCachedModule C w key).1.moved ctx resolved, (checkCachedModule C w key).2) := by
  simp only [checkCachedModule, markProvided_moved]
  change (if w.modules key = .nil then _ else _) = _
  split <;> rfl

/-- What follows the navigation. -/
def afterNavigation (C : Configuration σ) (w : World σ) : World σ × Resolved :=
  if !C.isModulePresent w.ctx then
    (w, .errorReported (text "no module present at resolved path"))
  else
    match C.getCacheKey w.ctx with
    | none => (w, .errorReported (text "could not get cache key for module"))
    | some cacheKey =>
      match checkCachedModule C w (cstr cacheKey) with
      | (w', some v) => (w', .cached cacheKey v)
      | (w', none) =>
        match C.getChunkname w.ctx with
        | none => (w', .errorReported (text "could not get chunkname for module"))
        | some chunkname =>
          match C.getLoadname w.ctx with
          | none => (w', .errorReported (text "could not get loadname for module"))
          | some loadname => (w', .moduleRead chunkname loadname cacheKey)

theorem resolveRequire_eq {C : Configuration σ} {w : World σ} {chunkname path : Bytes}
    (h : C.isRequireAllowed chunkname = true) : resolveRequire C w chunkname path =
      match navigate C.toContext chunkname path w.ctx with
      | none => (w, .hangs)
      | some (.error message, ctx) => ({ w with ctx := ctx }, .errorReported message)
      | some (.ok _, ctx) => afterNavigation C { w with ctx := ctx } := by
  rw [resolveRequire, h]
  rfl

theorem afterNavigation_moved (C : Configuration σ) (w : World σ)
    (resolved : Bytes → Option Bytes) :
    afterNavigation C (w.moved w.ctx resolved) =
      ((afterNavigation C w).1.moved w.ctx resolved, (afterNavigation C w).2) := by
  have hctx : (w.moved w.ctx resolved).ctx = w.ctx := rfl
  simp only [afterNavigation, hctx, checkCachedModule_moved]
  split
  · rfl
  · cases C.getCacheKey w.ctx with
    | none => rfl
    | some cacheKey =>
      obtain ⟨⟨w', v⟩, hw⟩ : ∃ x, checkCachedModule C w (cstr cacheKey) = x := ⟨_, rfl⟩
      simp only [hw]
      cases v with
      | some v => rfl
      | none =>
        cases C.getChunkname w.ctx with
        | none => rfl
        | some chunkname => cases C.getLoadname w.ctx <;> rfl

/-- The key of a module that was found. -/
def Resolved.cacheKey : Resolved → Option Bytes
  | .cached cacheKey _ => some cacheKey
  | .moduleRead _ _ cacheKey => some cacheKey
  | _ => none

theorem afterNavigation_cacheKey {C : Configuration σ} {w : World σ} {key : Bytes}
    (h : (afterNavigation C w).2.cacheKey = some key) :
    C.isModulePresent w.ctx = true ∧ C.getCacheKey w.ctx = some key := by
  rw [afterNavigation] at h
  cases hpresent : C.isModulePresent w.ctx with
  | false => simp [hpresent, Resolved.cacheKey] at h
  | true =>
    refine ⟨rfl, ?_⟩
    cases hkey : C.getCacheKey w.ctx with
    | none => simp [hpresent, hkey, Resolved.cacheKey] at h
    | some cacheKey =>
      obtain ⟨⟨w', v⟩, hw⟩ : ∃ x, checkCachedModule C w (cstr cacheKey) = x := ⟨_, rfl⟩
      simp only [hpresent, hkey, hw, Bool.not_true, Bool.false_eq_true, if_false] at h
      cases v with
      | some v => exact h
      | none =>
        cases hchunk : C.getChunkname w.ctx with
        | none => simp [hchunk, Resolved.cacheKey] at h
        | some chunkname =>
          cases hload : C.getLoadname w.ctx with
          | none => simp [hchunk, hload, Resolved.cacheKey] at h
          | some loadname =>
            simp only [hchunk, hload] at h
            exact h

theorem resolveRequire_moved (C : Configuration σ) (w : World σ) (ctx : σ)
    (resolved : Bytes → Option Bytes) (chunkname path : Bytes) :
    ∃ ctx', resolveRequire C (w.moved ctx resolved) chunkname path =
      ((resolveRequire C w chunkname path).1.moved ctx' resolved,
        (resolveRequire C w chunkname path).2) := by
  cases hallowed : C.isRequireAllowed chunkname with
  | false => exact ⟨ctx, by simp [resolveRequire, hallowed]⟩
  | true =>
    have hctx : (w.moved ctx resolved).ctx = ctx := rfl
    rw [resolveRequire_eq hallowed, resolveRequire_eq hallowed, hctx]
    -- The two navigations end at the same place, or both report an error.
    rcases navigate_agree (C := C.toContext) chunkname path ctx w.ctx with h |
      ⟨message, t, t', h, h'⟩
    · rw [h]
      rcases navigate C.toContext chunkname path w.ctx with _ | ⟨_ | _, t⟩
      · exact ⟨ctx, rfl⟩
      · exact ⟨t, rfl⟩
      · exact ⟨t, afterNavigation_moved C { w with ctx := t } resolved⟩
    · rw [h, h']
      exact ⟨t, rfl⟩

theorem resolveRequire_resolved (C : Configuration σ) (w : World σ) (chunkname path : Bytes) :
    (resolveRequire C w chunkname path).1.resolved = w.resolved := by
  obtain ⟨ctx', h⟩ := resolveRequire_moved C w w.ctx w.resolved chunkname path
  change resolveRequire C w chunkname path = _ at h
  rw [h]
  rfl

theorem resolves_of_resolveRequire {C : Configuration σ} {w : World σ} {chunkname path key : Bytes}
    (h : (resolveRequire C w chunkname path).2.cacheKey = some key) :
    Resolves C chunkname path (cstr key) := by
  cases hallowed : C.isRequireAllowed chunkname with
  | false => simp [resolveRequire, hallowed, Resolved.cacheKey] at h
  | true =>
    refine ⟨hallowed, fun ctx => ?_⟩
    rw [resolveRequire_eq hallowed] at h
    rcases hnav : navigate C.toContext chunkname path w.ctx with _ | ⟨_ | _, t⟩
    · simp [hnav, Resolved.cacheKey] at h
    · simp [hnav, Resolved.cacheKey] at h
    · rw [hnav] at h
      obtain ⟨hpresent, hkey⟩ := afterNavigation_cacheKey h
      rcases navigate_agree (C := C.toContext) chunkname path ctx w.ctx with h |
        ⟨message, t, t', -, h⟩
      · exact ⟨t, key, h.trans hnav, hpresent, hkey, rfl⟩
      · simp [hnav] at h

theorem resolveRequire_of_resolves {C : Configuration σ} {w : World σ} {chunkname path key : Bytes}
    (h : Resolves C chunkname path key) (hmodule : w.modules key ≠ .nil) :
    ∃ ctx cacheKey, cstr cacheKey = key ∧ resolveRequire C w chunkname path =
      ((markProvided C w key (w.modules key)).moved ctx w.resolved,
        .cached cacheKey (w.modules key)) := by
  obtain ⟨hallowed, hnav⟩ := h
  obtain ⟨ctx, cacheKey, hctx, hpresent, hkey, rfl⟩ := hnav w.ctx
  refine ⟨ctx, cacheKey, rfl, ?_⟩
  have hmark := markProvided_moved C w ctx w.resolved (cstr cacheKey) (w.modules (cstr cacheKey))
  have hcached : checkCachedModule C { w with ctx := ctx } (cstr cacheKey) =
      ((markProvided C w (cstr cacheKey) (w.modules (cstr cacheKey))).moved ctx w.resolved,
        some (w.modules (cstr cacheKey))) := by
    rw [checkCachedModule, ← hmark]
    exact if_neg hmodule
  rw [resolveRequire_eq hallowed, hctx]
  simp only [afterNavigation, hpresent, hkey, hcached]
  rfl

/-! ### Both runs -/

/-- What `lua_requireinternal` does after the lookup has failed. -/
def resolveAndLoad (C : Configuration σ) (w : World σ) (requirerChunkname path : Bytes) (s : Stack) :
    World σ × Output :=
  let composite := compositeKey requirerChunkname path
  match resolveRequire C w (cstr requirerChunkname) (cstr path) with
  | (w, .hangs) => (w, .hangs)
  | (w, .errorReported error) => (w, .raised none (.message (cstr error)))
  | (w, .cached cacheKey v) =>
    ({ w with resolved := Function.update w.resolved composite (some (cstr cacheKey)) },
      .returned [v])
  | (w, .moduleRead chunkname loadname cacheKey) =>
    let w := { w with
      resolved := Function.update w.resolved composite (some (cstr cacheKey)) }
    let s := .string (cstr loadname) :: .string (cstr chunkname) ::
      .string (cstr cacheKey) :: s
    load C w s (slot s 3) (slot s 4)

theorem resolveAndLoad_moved (C : Configuration σ) (w : World σ) (ctx : σ)
    (resolved : Bytes → Option Bytes) (requirerChunkname path : Bytes) (s : Stack) :
    ∃ ctx' resolved', resolveAndLoad C (w.moved ctx resolved) requirerChunkname path s =
      ((resolveAndLoad C w requirerChunkname path s).1.moved ctx' resolved',
        (resolveAndLoad C w requirerChunkname path s).2) := by
  obtain ⟨ctx', h⟩ := resolveRequire_moved C w ctx resolved (cstr requirerChunkname) (cstr path)
  simp only [resolveAndLoad, h]
  obtain ⟨⟨w', r⟩, hw⟩ : ∃ x, resolveRequire C w (cstr requirerChunkname) (cstr path) = x := ⟨_, rfl⟩
  simp only [hw]
  cases r with
  | hangs => exact ⟨ctx', resolved, rfl⟩
  | errorReported error => exact ⟨ctx', resolved, rfl⟩
  | cached cacheKey v =>
    exact ⟨ctx', Function.update resolved (compositeKey requirerChunkname path)
      (some (cstr cacheKey)), rfl⟩
  | moduleRead chunkname loadname cacheKey =>
    obtain ⟨t, ht⟩ : ∃ t : Stack, t = .string (cstr loadname) :: .string (cstr chunkname) ::
        .string (cstr cacheKey) :: s := ⟨_, rfl⟩
    simp only [← ht]
    have h := load_blind C t (slot t 3) (slot t 4)
      (w'.moved w'.ctx (Function.update w'.resolved (compositeKey requirerChunkname path)
        (some (cstr cacheKey)))) ctx'
      (Function.update resolved (compositeKey requirerChunkname path) (some (cstr cacheKey)))
    exact ⟨ctx', _, h⟩

theorem resolveAndLoad_known {C : Configuration σ} {w : World σ} (h : Known C w)
    (requirerChunkname path : Bytes) (s : Stack) :
    Known C (resolveAndLoad C w requirerChunkname path s).1 := by
  have hres := resolveRequire_resolved C w (cstr requirerChunkname) (cstr path)
  have hkey := @resolves_of_resolveRequire σ C w (cstr requirerChunkname) (cstr path)
  rw [resolveAndLoad]
  obtain ⟨⟨w', r⟩, hw⟩ : ∃ x, resolveRequire C w (cstr requirerChunkname) (cstr path) = x := ⟨_, rfl⟩
  rw [hw] at hres hkey ⊢
  have hknown : Known C w' := h.congr hres
  cases r with
  | hangs => exact hknown
  | errorReported error => exact hknown
  | cached cacheKey v => exact hknown.update (hkey rfl)
  | moduleRead chunkname loadname cacheKey =>
    exact (hknown.update (hkey rfl)).congr ((load_blind C _ _ _).resolved _)

theorem lua_requireinternal_eq (fast : Bool) (C : Configuration σ) (w : World σ)
    (requirerChunkname : Bytes) {arg : Value} {path : Bytes} (hpath : arg.toStr = some path)
    {n : ℕ} {s : Stack} (hcheck : checkRegisteredModules w path [arg] = (n, s)) :
    lua_requireinternal fast C w requirerChunkname arg =
      if n = 1 then (w, .returned [top s])
      else match (if fast then w.resolved (compositeKey requirerChunkname path) else none) with
        | none => resolveAndLoad C w requirerChunkname path s
        | some key =>
          if w.modules key = .nil then resolveAndLoad C w requirerChunkname path s
          else (markProvided C w key (w.modules key), .returned [w.modules key]) := by
  rw [lua_requireinternal, hpath]
  simp only [hcheck]
  by_cases hn : n = 1
  · subst hn
    rfl
  · rw [if_neg hn]
    split
    · rename_i h
      exact absurd (Prod.ext_iff.1 h).1 hn
    · rename_i h
      obtain rfl := (Prod.ext_iff.1 h).2
      cases hfast : (if fast then w.resolved (compositeKey requirerChunkname path) else none) with
      | none => rfl
      | some key =>
        simp only [Option.bind_some, checkCachedModule]
        by_cases hv : w.modules key = .nil
        · simp only [if_pos hv]
          rfl
        · simp only [if_neg hv]

theorem checkRegisteredModules_moved (w : World σ) (ctx : σ) (resolved : Bytes → Option Bytes)
    (path : Bytes) (s : Stack) :
    checkRegisteredModules (w.moved ctx resolved) path s = checkRegisteredModules w path s := by
  have hmeta : ∀ v, (w.moved ctx resolved).metatableOf v = w.metatableOf v := by
    intro v
    cases v <;> rfl
  simp only [checkRegisteredModules, hmeta]
  rfl

/-- The run with the lookup, and the run without it. -/
theorem lua_requireinternal_moved {C : Configuration σ} {w : World σ} (h : Known C w) (ctx : σ)
    (resolved : Bytes → Option Bytes) (requirerChunkname : Bytes) (arg : Value) :
    ∃ ctx' resolved',
      lua_requireinternal false C (w.moved ctx resolved) requirerChunkname arg =
        ((lua_requireinternal true C w requirerChunkname arg).1.moved ctx' resolved',
          (lua_requireinternal true C w requirerChunkname arg).2) := by
  cases hpath : arg.toStr with
  | none => exact ⟨ctx, resolved, by simp [lua_requireinternal, hpath]⟩
  | some path =>
    obtain ⟨⟨n, s⟩, hcheck⟩ : ∃ x, checkRegisteredModules w path [arg] = x := ⟨_, rfl⟩
    rw [lua_requireinternal_eq true C w requirerChunkname hpath hcheck,
      lua_requireinternal_eq false C (w.moved ctx resolved) requirerChunkname hpath
        ((checkRegisteredModules_moved w ctx resolved path [arg]).trans hcheck)]
    by_cases hn : n = 1
    · simp only [if_pos hn]
      exact ⟨ctx, resolved, rfl⟩
    · simp only [if_neg hn, if_true, Bool.false_eq_true, if_false]
      have hslow := resolveAndLoad_moved C w ctx resolved requirerChunkname path s
      cases hkey : w.resolved (compositeKey requirerChunkname path) with
      | none => exact hslow
      | some key =>
        by_cases hv : w.modules key = .nil
        · simp only [if_pos hv]
          exact hslow
        · -- The module is cached: the navigation would find the same key.
          simp only [if_neg hv]
          obtain ⟨ctx', cacheKey, rfl, hres⟩ := resolveRequire_of_resolves
            (w := w.moved ctx resolved) (h _ _ _ hkey) hv
          refine ⟨ctx', Function.update resolved (compositeKey requirerChunkname path)
            (some (cstr cacheKey)), ?_⟩
          rw [resolveAndLoad, hres, markProvided_moved]
          rfl

theorem lua_requireinternal_known {C : Configuration σ} {w : World σ} (h : Known C w)
    (requirerChunkname : Bytes) (arg : Value) :
    Known C (lua_requireinternal true C w requirerChunkname arg).1 := by
  cases hpath : arg.toStr with
  | none =>
    simp only [lua_requireinternal, hpath]
    exact h
  | some path =>
    obtain ⟨⟨n, s⟩, hcheck⟩ : ∃ x, checkRegisteredModules w path [arg] = x := ⟨_, rfl⟩
    rw [lua_requireinternal_eq true C w requirerChunkname hpath hcheck]
    have hslow := resolveAndLoad_known h requirerChunkname path s
    split
    · exact h
    · split
      · exact hslow
      · split
        · exact hslow
        · exact h.congr (markProvided_resolved C w _ _)

theorem step_moved {C : Configuration σ} {w : World σ} (h : Known C w) (ctx : σ)
    (resolved : Bytes → Option Bytes) (input : Input) :
    ∃ ctx' resolved', step false C (w.moved ctx resolved) input =
      ((step true C w input).1.moved ctx' resolved', (step true C w input).2) := by
  cases input with
  | require requirerChunkname arg => exact lua_requireinternal_moved h ctx resolved _ _
  | stop id status results =>
    refine ⟨ctx, resolved, ?_⟩
    have hframes : (w.moved ctx resolved).frames id = w.frames id := rfl
    simp only [step, hframes]
    cases w.frames id with
    | none => rfl
    | some frame => exact stop_blind C id frame status results w ctx resolved
  | registerModule args => exact ⟨ctx, resolved, registerModuleImpl_blind args w ctx resolved⟩
  | clearCacheEntry arg => exact ⟨ctx, resolved, clearCacheEntry_blind arg w ctx resolved⟩
  | clearCache => exact ⟨ctx, fun _ => none, rfl⟩
  | code tables nextTable globals => exact ⟨ctx, resolved, rfl⟩

theorem step_known {C : Configuration σ} {w : World σ} (h : Known C w) (input : Input) :
    Known C (step true C w input).1 := by
  cases input with
  | require requirerChunkname arg => exact lua_requireinternal_known h _ _
  | stop id status results =>
    rw [step]
    cases w.frames id with
    | none => exact h
    | some frame => exact h.congr ((stop_blind C id frame status results).resolved w)
  | registerModule args => exact h.congr ((registerModuleImpl_blind args).resolved w)
  | clearCacheEntry arg => exact h.congr ((clearCacheEntry_blind arg).resolved w)
  | clearCache => exact fun _ _ _ h => by cases h
  | code tables nextTable globals => exact h

theorem outputs_moved {C : Configuration σ} {w : World σ} (h : Known C w) (ctx : σ)
    (resolved : Bytes → Option Bytes) (inputs : List Input) :
    outputs false C (w.moved ctx resolved) inputs = outputs true C w inputs := by
  induction inputs generalizing w ctx resolved with
  | nil => rfl
  | cons input inputs ih =>
    obtain ⟨ctx', resolved', hstep⟩ := step_moved h ctx resolved input
    rw [outputs, outputs, hstep]
    exact congrArg _ (ih (step_known h input) ctx' resolved')

end Require

end Jaci
