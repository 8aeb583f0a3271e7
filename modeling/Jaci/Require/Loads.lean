import Jaci.Lib.Machine
import Jaci.Require.FastPath
import Jaci.Require.Registered

/-!
# Runs of loads

Code requires modules, and the code of the modules requires modules in turn, also in cycles.  A run
records what `require` has returned and which loads have been overtaken by another load of the same
module.

* `Repl` : the configuration of the command line;
* `Run`, `loads` : runs of calls of `require`;
* `require_cases`, `load_cases`, `stop_cases` : all that a step can do.
-/

namespace Jaci

namespace Require

open Wire

/-! ### Runs -/

/-- The configuration of the command line, with placeholders: the module is loaded by its absolute
path, which is also its key. -/
structure Repl (σ : Type) extends Configuration σ where
  loadname_eq : ∀ s, toConfiguration.getLoadname s = toConfiguration.getCacheKey s
  cyclic : toConfiguration.shortCircuit = true

/-- The cache key of a load. -/
def Frame.key (f : Frame) : Option Bytes := (slot f.stack 2).toStr.map cstr

/-- The load raises if the code of the module stops in this way. -/
def Frame.fails (f : Frame) (status : Status) (results : List Value) : Bool :=
  match status with
  | .ok => if f.native then 1 < results.length else results.length ≠ 1
  | .yielded => !f.native
  | .failed _ => true

/-- The state of a run. -/
structure Run (σ : Type) where
  world : World σ
  /-- What `require` has returned so far. -/
  given : List Value
  /-- Another load of the same module has ended with a value since the load began. -/
  again : ℕ → Bool
  last : Output

variable {σ : Type}

/-- Two loads are of the same module. -/
def World.sameModule (w : World σ) (id id' : ℕ) : Bool :=
  match w.frames id, w.frames id' with
  | some f, some f' => f.key = f'.key
  | _, _ => false

def Output.values : Output → List Value
  | .returned values => values
  | _ => []

/-- The loads that a step overtakes. -/
def World.overtaken (w : World σ) (input : Input) (output : Output) (id' : ℕ) : Bool :=
  match input with
  | .stop id _ _ => output.values.length = 1 && w.sameModule id id'
  | _ => false

def Run.exec (C : Repl σ) (s : Run σ) (input : Input) : Run σ :=
  let r := step true C.toConfiguration s.world input
  { world := r.1
    given := r.2.values ++ s.given
    again := fun id => s.again id || s.world.overtaken input r.2 id
    last := r.2 }

/-- Code only has tables that exist, and the placeholders that `require` has returned. -/
def Has (w : World σ) (given : List Value) (v : Value) : Prop :=
  (∀ t, v = .table t → t < w.nextTable) ∧ (w.isPlaceholder v = true → v ∈ given)

/-- The metatables of tables. -/
def HasMetatables (w : World σ) (given : List Value) : Prop :=
  ∀ t m, (w.tables t).metatable = some m → Has w given (.table m)

/-- Nothing has been required.  Modules may be registered. -/
structure Fresh (s : Run σ) : Prop where
  modules : s.world.modules = fun _ => .nil
  resolved : s.world.resolved = fun _ => none
  provided : s.world.provided = fun _ => false
  placeholderMetatable : s.world.placeholderMetatable = none
  frames : s.world.frames = fun _ => none
  given : s.given = []
  again : s.again = fun _ => false
  last : s.last = .done
  metatables : HasMetatables s.world []
  registered : ∀ path, Has s.world [] (s.world.registered path)
  globals : ∀ name, Has s.world [] (s.world.globals name)

/-- What code can do.  A placeholder is locked, so code does not make or change one; the code of a
module with exports returns the table of its exports. -/
def Possible (s : Run σ) : Input → Prop
  | .require _ _ => True
  | .stop id status results => ∃ f, s.world.frames id = some f ∧
      (∀ v ∈ results, Has s.world s.given v) ∧
      match status with
      | .ok => f.usesExport = true → ∃ t, results = [.table t] ∧
          s.world.isPlaceholder (.table t) = false
      | _ => True
  | .code tables nextTable globals =>
    let w : World σ := { s.world with tables := tables, nextTable := nextTable, globals := globals }
    s.world.nextTable ≤ nextTable ∧ (∀ v, w.isPlaceholder v = s.world.isPlaceholder v) ∧
      HasMetatables w s.given ∧ ∀ name, Has w s.given (globals name)
  | _ => False

/-- Runs of calls of `require`. -/
def loads (C : Repl σ) : Machine (Run σ) Input where
  init := Fresh
  enabled := Possible
  exec := Run.exec C

/-! ### What a step can do -/

theorem cstr_cstr (s : Bytes) : cstr (cstr s) = cstr s := by
  rw [cstr, List.takeWhile_eq_self_iff]
  exact fun c hc => List.mem_takeWhile_imp (p := fun c => decide (c ≠ 0)) hc

/-- What `checkRegisteredModules` gives is registered, the metatable of a table, or global. -/
theorem checkRegisteredModules_cases {w : World σ} (path : Bytes) (s : Stack)
    (hreg : ∀ path, w.isPlaceholder (w.registered path) = false) :
    checkRegisteredModules w path s = (0, s) ∨
      ∃ v s', checkRegisteredModules w path s = (1, v :: s') ∧
        ((∃ path, v = w.registered path) ∨ (∃ t m, (w.tables t).metatable = some m ∧ v = .table m) ∨
          ∃ name, v = w.globals name) := by
  rw [checkRegisteredModules_eq]
  by_cases hv : w.registered (toLower (cstr path)) = .nil
  · simp only [hv, if_true]
    rcases checkStdLibs_cases w (toLower (cstr path)) s with h | ⟨name, -, h⟩
    · exact .inl h
    · exact .inr ⟨_, _, h, .inr (.inr ⟨name, rfl⟩)⟩
  · simp only [hv, if_false, hreg, Bool.false_eq_true]
    cases hm : w.metatableOf (w.registered (toLower (cstr path))) with
    | none => exact .inr ⟨_, _, rfl, .inl ⟨_, rfl⟩⟩
    | some m =>
      refine .inr ⟨_, _, rfl, .inr (.inl ?_)⟩
      cases ht : w.registered (toLower (cstr path)) with
      | table t => exact ⟨t, m, by simpa [ht, World.metatableOf] using hm, rfl⟩
      | _ => simp [ht, World.metatableOf] at hm

/-- A load of the module with this key, as it begins. -/
structure Frame.Fits (C : Configuration σ) (f : Frame) (key : Bytes) : Prop where
  key_eq : f.key = some key
  length_eq : f.stack.length = kRequireStackValues
  native_eq : f.native = isNative key
  script_eq : f.native = false → C.script key = .compiled f.usesExport
  plain : f.native = true → f.usesExport = false
  placeholder_eq : f.placeholder.isSome = f.usesExport

theorem Frame.Fits.usesExport_eq {C : Configuration σ} {f f' : Frame} {key : Bytes}
    (h : f.Fits C key) (h' : f'.Fits C key) : f.usesExport = f'.usesExport := by
  cases hnative : isNative key with
  | true => rw [h.plain (h.native_eq.trans hnative), h'.plain (h'.native_eq.trans hnative)]
  | false =>
    have hs := h.script_eq (h.native_eq.trans hnative)
    have hs' := h'.script_eq (h'.native_eq.trans hnative)
    rw [hs] at hs'
    simpa using hs'

/-- What a call of `require` can do. -/
inductive Requires (C : Configuration σ) (w : World σ) : World σ × Output → Prop where
  | raises (ctx : σ) (resolved : Bytes → Option Bytes) (error : Error) :
      Requires C w (w.moved ctx resolved, .raised none error)
  | hangs (ctx : σ) (resolved : Bytes → Option Bytes) :
      Requires C w (w.moved ctx resolved, .hangs)
  | registered {v : Value} (hv : (∃ path, v = w.registered path) ∨
      (∃ t m, (w.tables t).metatable = some m ∧ v = .table m) ∨ ∃ name, v = w.globals name) :
      Requires C w (w, .returned [v])
  | cached (ctx : σ) (resolved : Bytes → Option Bytes) {key : Bytes}
      (hkey : w.modules key ≠ .nil) :
      Requires C w ((markProvided C w key (w.modules key)).moved ctx resolved,
        .returned [w.modules key])
  | missing (ctx : σ) (resolved : Bytes → Option Bytes) {key : Bytes} (error : Error)
      (hkey : w.modules key = .nil) :
      Requires C w (w.moved ctx resolved, .raised (some key) error)
  | begins (ctx : σ) (resolved : Bytes → Option Bytes) {key : Bytes} {f : Frame}
      (chunkname loadname : Value) (hkey : w.modules key = .nil) (hf : f.Fits C key)
      (hexport : f.placeholder = none) :
      Requires C w ((w.moved ctx resolved).push f, .loading w.nextFrame chunkname loadname)
  | publishes (ctx : σ) (resolved : Bytes → Option Bytes) {key : Bytes} {f : Frame}
      (chunkname loadname : Value) (hkey : w.modules key = .nil) (hf : f.Fits C key)
      (hexport : f.placeholder = some w.nextTable) :
      Requires C w ((createPlaceholder (w.moved ctx resolved) key).1.push f,
        .loading w.nextFrame chunkname loadname)

theorem createPlaceholder_nextFrame (w : World σ) (key : Bytes) :
    (createPlaceholder w key).1.nextFrame = w.nextFrame := by
  simp only [createPlaceholder, World.placeholderMeta]
  cases w.placeholderMetatable <;> rfl

/-- All that `load` does before the code of the module runs. -/
theorem load_cases {C : Configuration σ} {w : World σ} {key chunkname : Bytes} {t : Stack}
    (hcyclic : C.shortCircuit = true) (ctx : σ) (resolved : Bytes → Option Bytes)
    (hcstr : cstr key = key) (hkey : w.modules key = .nil)
    (hslot : (slot t 2).toStr.map cstr = some key) (hlength : t.length = kRequireStackValues) :
    Requires C w (load C (w.moved ctx resolved) t (.string chunkname) (.string key)) := by
  have hname : cstr ((Value.string key).toStr.getD []) = key := hcstr
  simp only [load, hslot, hname]
  cases hnative : isNative key with
  | true =>
    exact .begins ctx resolved _ _ hkey
      ⟨hslot, hlength, hnative.symm, (fun h => by cases h), fun _ => rfl, rfl⟩ rfl
  | false =>
    cases hscript : C.script key with
    | missing => exact .missing ctx resolved _ hkey
    | invalid error => exact .missing ctx resolved _ hkey
    | compiled usesExport =>
      rw [hcyclic]
      cases usesExport with
      | false =>
        exact .begins ctx resolved _ _ hkey
          ⟨hslot, hlength, hnative.symm, fun _ => hscript, (fun h => by cases h), rfl⟩ rfl
      | true =>
        have h := Requires.publishes (w := w) (f := ⟨t, false, true, some w.nextTable⟩) ctx resolved
          (.string chunkname) (.string key) hkey
          ⟨hslot, hlength, hnative.symm, fun _ => hscript, (fun h => by cases h), rfl⟩ rfl
        have hframe : (createPlaceholder (w.moved ctx resolved) key).1.nextFrame = w.nextFrame :=
          createPlaceholder_nextFrame _ _
        rw [← hframe] at h
        exact h

theorem afterNavigation_cases (C : Configuration σ) (w : World σ) :
    (∃ error, afterNavigation C w = (w, .errorReported error)) ∨
      (∃ key, w.modules (cstr key) ≠ .nil ∧ afterNavigation C w =
        (markProvided C w (cstr key) (w.modules (cstr key)), .cached key (w.modules (cstr key)))) ∨
      ∃ chunkname loadname key, w.modules (cstr key) = .nil ∧
        C.getLoadname w.ctx = some loadname ∧ C.getCacheKey w.ctx = some key ∧
        afterNavigation C w = (w, .moduleRead chunkname loadname key) := by
  rw [afterNavigation]
  cases hpresent : C.isModulePresent w.ctx with
  | false => exact .inl ⟨_, rfl⟩
  | true =>
    cases hkey : C.getCacheKey w.ctx with
    | none => exact .inl ⟨_, rfl⟩
    | some key =>
      by_cases hv : w.modules (cstr key) = .nil
      · have hcached : checkCachedModule C w (cstr key) = (w, none) := if_pos hv
        simp only [hcached, Bool.not_true, Bool.false_eq_true, if_false]
        cases hchunk : C.getChunkname w.ctx with
        | none => exact .inl ⟨_, rfl⟩
        | some chunkname =>
          cases hload : C.getLoadname w.ctx with
          | none => exact .inl ⟨_, rfl⟩
          | some loadname =>
            exact .inr (.inr ⟨chunkname, loadname, key, hv, rfl, rfl, rfl⟩)
      · have hcached : checkCachedModule C w (cstr key) =
            (markProvided C w (cstr key) (w.modules (cstr key)), some (w.modules (cstr key))) :=
          if_neg hv
        simp only [hcached]
        exact .inr (.inl ⟨key, hv, rfl⟩)

theorem resolveAndLoad_cases (C : Repl σ) (w : World σ) (requirerChunkname path : Bytes)
    (arg : Value) : Requires C.toConfiguration w
      (resolveAndLoad C.toConfiguration w requirerChunkname path [arg]) := by
  rw [resolveAndLoad]
  cases hallowed : C.isRequireAllowed (cstr requirerChunkname) with
  | false =>
    simp only [resolveRequire, hallowed, Bool.not_false, if_true]
    exact .raises w.ctx w.resolved _
  | true =>
    rw [resolveRequire_eq hallowed]
    rcases navigate C.toContext (cstr requirerChunkname) (cstr path) w.ctx with _ | ⟨message | _, ctx⟩
    · exact .hangs w.ctx w.resolved
    · exact .raises ctx w.resolved _
    · have hmoved : ({ w with ctx := ctx } : World σ) = w.moved ctx w.resolved := rfl
      dsimp only
      rw [hmoved]
      rcases afterNavigation_cases C.toConfiguration (w.moved ctx w.resolved) with
        ⟨error, h⟩ | ⟨key, hkey, h⟩ | ⟨chunkname, loadname, key, hkey, hload, hcache, h⟩
      · rw [h]
        exact .raises ctx w.resolved _
      · rw [h, markProvided_moved]
        exact .cached ctx _ hkey
      · -- The absolute path is both the key and what is loaded.
        obtain rfl : loadname = key := by
          rw [C.loadname_eq, hcache] at hload
          exact (Option.some.inj hload).symm
        rw [h]
        exact load_cases C.cyclic ctx _ (cstr_cstr loadname) hkey (congrArg some (cstr_cstr loadname))
          rfl

/-- All that a call of `require` can do. -/
theorem require_cases (C : Repl σ) {w : World σ} (requirerChunkname : Bytes) (arg : Value)
    (hreg : ∀ path, w.isPlaceholder (w.registered path) = false) :
    Requires C.toConfiguration w
      (lua_requireinternal true C.toConfiguration w requirerChunkname arg) := by
  cases hpath : arg.toStr with
  | none =>
    simp only [lua_requireinternal, hpath]
    exact .raises w.ctx w.resolved _
  | some path =>
    rcases checkRegisteredModules_cases path [arg] hreg with hcheck | ⟨v, s, hcheck, hv⟩
    · rw [lua_requireinternal_eq true _ w requirerChunkname hpath hcheck]
      simp only [zero_ne_one, if_false, if_true]
      cases w.resolved (compositeKey requirerChunkname path) with
      | none => exact resolveAndLoad_cases C w _ _ _
      | some key =>
        by_cases hkey : w.modules key = .nil
        · simp only [if_pos hkey]
          exact resolveAndLoad_cases C w _ _ _
        · simp only [if_neg hkey]
          have h := markProvided_moved C.toConfiguration w w.ctx w.resolved key (w.modules key)
          change markProvided C.toConfiguration w key (w.modules key) = _ at h
          rw [h]
          exact .cached w.ctx w.resolved hkey
    · rw [lua_requireinternal_eq true _ w requirerChunkname hpath hcheck]
      exact .registered hv

/-- The world after a load, when the mark of its key is taken back. -/
def World.unmark (w : World σ) (id : ℕ) (key : Bytes) : World σ :=
  { w.pop id with provided := Function.update w.provided key false }

/-- What the end of a load can do. -/
inductive Stops (w : World σ) (id : ℕ) (f : Frame) (key : Bytes) :
    Status → List Value → World σ × Output → Prop where
  | raises {status : Status} {results : List Value} (error : Error)
      (hfails : f.fails status results = true) :
      Stops w id f key status results (w.pop id, .raised (some key) error)
  | waits (results : List Value) (hnative : f.native = true) :
      Stops w id f key .yielded results (w, .done)
  | nothing (hnative : f.native = true) : Stops w id f key .ok [] (w.pop id, .returned [])
  | caches (v : Value) (hprovided : w.provided key = false) :
      Stops w id f key .ok [v]
        ({ w.unmark id key with modules := Function.update w.modules key v }, .returned [v])
  | populates (v : Value) {w' : World σ} (hprovided : w.provided key = true)
      (hw' : populatePlaceholder (w.unmark id key) (w.modules key) v = some w') :
      Stops w id f key .ok [v] (w', .returned [w'.modules key])
  /-- The value of the module, or what is in the cache, is not a table. -/
  | asserts (v : Value) (hprovided : w.provided key = true)
      (hnone : populatePlaceholder (w.unmark id key) (w.modules key) v = none) :
      Stops w id f key .ok [v] (w.unmark id key, .undefined)

theorem slot_append {s : Stack} {i : ℕ} (hi : 0 < i) (hs : i ≤ s.length) (results : List Value) :
    slot (results ++ s) i = slot s i := by
  have h : i - 1 < s.reverse.length := by
    rw [List.length_reverse]
    omega
  rw [slot, slot, List.reverse_append, List.getD_eq_getElem?_getD, List.getD_eq_getElem?_getD,
    List.getElem?_append_left h]

theorem lua_requirecont_nil {C : Configuration σ} {w : World σ} {s : Stack} {key : Bytes}
    (hkey : (slot s 2).toStr.map cstr = some key) (hs : s.length = kRequireStackValues) :
    lua_requirecont C w s = (w, .returned []) := by
  obtain ⟨k, hk, rfl⟩ := Option.map_eq_some_iff.1 hkey
  simp [lua_requirecont, hk, hs]

theorem lua_requirecont_many {C : Configuration σ} {w : World σ} {s : Stack} {key : Bytes}
    (hkey : (slot s 2).toStr.map cstr = some key) (hs : s.length = kRequireStackValues)
    {results : List Value} (hresults : 1 < results.length) :
    lua_requirecont C w (results ++ s) =
      (w, .raised (some key) (.message (text "module must return a single value"))) := by
  rw [← slot_append (by decide) (by rw [hs]; decide) results] at hkey
  obtain ⟨k, hk, rfl⟩ := Option.map_eq_some_iff.1 hkey
  simp only [lua_requirecont, hk, List.length_append, hs, Nat.add_sub_cancel, gt_iff_lt, hresults,
    if_true]

theorem lua_requirecont_single {C : Configuration σ} {w : World σ} {s : Stack} {key : Bytes}
    (hcyclic : C.shortCircuit = true) (hkey : (slot s 2).toStr.map cstr = some key)
    (hs : s.length = kRequireStackValues) (v : Value) :
    lua_requirecont C w (v :: s) =
      let w' := { w with provided := Function.update w.provided key false }
      if w.provided key then
        match populatePlaceholder w' (w.modules key) v with
        | none => (w', .undefined)
        | some w'' => (w'', .returned [w''.modules key])
      else ({ w' with modules := Function.update w.modules key v }, .returned [v]) := by
  have hslot := slot_append (by decide : 0 < 2) (by rw [hs]; decide : 2 ≤ s.length) [v]
  change slot (v :: s) 2 = _ at hslot
  obtain ⟨k, hk, rfl⟩ := Option.map_eq_some_iff.1 hkey
  have htop : slot (v :: s) (kRequireStackValues + 1) = v := by
    rw [← hs]
    exact slot_top v s
  have hlength : (v :: s).length - kRequireStackValues = 1 := by
    rw [List.length_cons, hs, Nat.add_sub_cancel_left]
  simp only [lua_requirecont, hslot, hk, hlength, htop, hcyclic, gt_iff_lt, Nat.lt_irrefl, if_false,
    if_true]
  all_goals rfl

/-- All that the end of a load can do. -/
theorem stop_cases {C : Configuration σ} {w : World σ} {id : ℕ} {f : Frame} {key : Bytes}
    (hcyclic : C.shortCircuit = true) (hf : f.Fits C key) (status : Status)
    (results : List Value) :
    Stops w id f key status results (stop C w id f status results) := by
  have hkey : (slot f.stack 2).toStr.map cstr = some key := hf.key_eq
  have hcont : ∀ v, Stops w id f key .ok [v]
      (lua_requirecont C (w.pop id) (v :: f.stack)) := by
    intro v
    rw [lua_requirecont_single hcyclic hkey hf.length_eq]
    change Stops w id f key .ok [v] (if w.provided key then _ else _)
    cases hprovided : w.provided key with
    | false => exact .caches v hprovided
    | true =>
      cases hw' : populatePlaceholder (w.unmark id key) (w.modules key) v with
      | none =>
        have h := Stops.asserts (f := f) v hprovided hw'
        simp only [World.unmark, World.pop] at hw' h ⊢
        simp only [hw']
        exact h
      | some w' =>
        have h := Stops.populates (f := f) v hprovided hw'
        simp only [World.unmark, World.pop] at hw' ⊢
        simp only [hw']
        exact h
  simp only [stop, hkey]
  cases hnative : f.native with
  | true =>
    cases status with
    | failed error => exact .raises _ rfl
    | yielded =>
      rw [hf.length_eq]
      exact .waits results hnative
    | ok =>
      rcases results with _ | ⟨v, _ | ⟨v', results⟩⟩
      · change Stops w id f key .ok [] (lua_requirecont C (w.pop id) f.stack)
        rw [lua_requirecont_nil hkey hf.length_eq]
        exact .nothing hnative
      · exact hcont v
      · have hresults : 1 < (v :: v' :: results).reverse.length := by simp
        simp only [if_true]
        rw [lua_requirecont_many hkey hf.length_eq hresults]
        exact .raises _ (by simp [Frame.fails, hnative])
  | false =>
    cases status with
    | failed error => exact .raises _ rfl
    | yielded => exact .raises _ (by simp [Frame.fails, hnative])
    | ok =>
      by_cases hresults : results.length = 1
      · obtain ⟨v, rfl⟩ := List.length_eq_one_iff.1 hresults
        exact hcont v
      · simp only [Bool.false_eq_true, if_false, ne_eq, hresults, not_false_eq_true, if_true]
        exact .raises _ (by simp [Frame.fails, hnative, hresults])

end Require

end Jaci
