import Jaci.Require.Loads

/-!
# Placeholders

The table of exports of a module is in the cache while its code runs, as a placeholder, so that
modules can require each other in a cycle.  It becomes the value of the module when the load ends.
When the load fails instead, it stays in the cache.

* `Heap`, `Loading` : the invariants of runs;
* `Good` : failed loads leave nothing, and placeholders are of modules that are still loading;
* `Meets` : when the load of a module may fail, or overtake another one;
* `good_of_reach` : every state of such a run is good.
-/

namespace Jaci

namespace Require

open Wire

variable {σ : Type}

/-! ### What runs keep -/

/-- The value is the placeholder of a module that is still loading. -/
def Owned (w : World σ) (v : Value) (key : Bytes) : Prop :=
  ∃ id f p, w.frames id = some f ∧ f.key = some key ∧ f.placeholder = some p ∧ v = .table p

/-- The tables that code and the library know. -/
structure Heap (w : World σ) (given : List Value) : Prop where
  metatables : HasMetatables w given
  sentinel : ∀ m, w.placeholderMetatable = some m →
    m < w.nextTable ∧ w.isPlaceholder (.table m) = false
  registered : ∀ path, Has w [] (w.registered path)
  globals : ∀ name, Has w given (w.globals name)
  modules : ∀ key t, w.modules key = .table t → t < w.nextTable
  given : ∀ t, .table t ∈ given → t < w.nextTable

/-- The loads, the cache and the marks. -/
structure Loading (C : Configuration σ) (w : World σ) (given : List Value) (again : ℕ → Bool) :
    Prop where
  frames_lt : ∀ id f, w.frames id = some f → id < w.nextFrame
  fits : ∀ id f, w.frames id = some f → ∃ key, f.Fits C key
  published : ∀ id f key p, w.frames id = some f → f.key = some key → f.placeholder = some p →
    w.modules key = .table p ∧ w.isPlaceholder (.table p) = true
  alone : ∀ id id' f f' key, w.frames id = some f → w.frames id' = some f' → f.key = some key →
    f'.key = some key → f.usesExport = true → id = id'
  distinct : ∀ id id' f f' p, w.frames id = some f → w.frames id' = some f' →
    f.placeholder = some p → f'.placeholder = some p → id = id'
  pending : ∀ id f key, w.frames id = some f → f.key = some key → f.placeholder = none →
    again id = false → w.modules key = .nil
  provided : ∀ key, w.provided key = true → w.modules key ≠ .nil
  cached : ∀ key, w.isPlaceholder (w.modules key) = true →
    Owned w (w.modules key) key ∨ w.modules key ∈ given
  owned : ∀ v ∈ given, w.isPlaceholder v = true → ∃ key, Owned w v key ∧ w.provided key = true

/-! ### Tables -/

theorem isPlaceholder_congr {w w' : World σ} (htables : w'.tables = w.tables)
    (hmeta : w'.placeholderMetatable = w.placeholderMetatable) (v : Value) :
    w'.isPlaceholder v = w.isPlaceholder v := by
  cases v with
  | table t =>
    simp only [World.isPlaceholder, World.metatableOf, World.sentinel, htables, hmeta]
    rfl
  | _ => rfl

theorem Has.mono {w w' : World σ} {given given' : List Value} {v : Value} (h : Has w given v)
    (hnext : w.nextTable ≤ w'.nextTable)
    (hplaceholder : (∀ t, v = .table t → t < w.nextTable) → w'.isPlaceholder v = true →
      w.isPlaceholder v = true) (hgiven : given ⊆ given') : Has w' given' v :=
  ⟨fun t ht => (h.1 t ht).trans_le hnext, fun hv => hgiven (h.2 (hplaceholder h.1 hv))⟩

/-- A step that makes no tables and changes none. -/
theorem Heap.keep {w w' : World σ} {given given' : List Value} (h : Heap w given)
    (htables : w'.tables = w.tables)
    (hmeta : w'.placeholderMetatable = w.placeholderMetatable) (hnext : w'.nextTable = w.nextTable)
    (hreg : w'.registered = w.registered) (hglobals : w'.globals = w.globals)
    (hmodules : ∀ key t, w'.modules key = .table t → t < w.nextTable) (hsub : given ⊆ given')
    (hgiven : ∀ t, .table t ∈ given' → t < w.nextTable) : Heap w' given' := by
  have hplaceholder := isPlaceholder_congr htables hmeta
  have hhas : ∀ {g g' : List Value} {v : Value}, g ⊆ g' → Has w g v → Has w' g' v := by
    intro g g' v hg hv
    exact hv.mono hnext.ge (fun _ => (hplaceholder v ▸ ·)) hg
  refine ⟨fun t m hm => ?_, fun m hm => ?_, fun path => ?_, fun name => ?_, fun key t ht => ?_,
    fun t ht => ?_⟩
  · rw [htables] at hm
    exact hhas hsub (h.metatables t m hm)
  · rw [hmeta] at hm
    rw [hnext, hplaceholder]
    exact h.sentinel m hm
  · rw [hreg]
    exact hhas (List.Subset.refl _) (h.registered path)
  · rw [hglobals]
    exact hhas hsub (h.globals name)
  · rw [hnext]
    exact hmodules key t ht
  · rw [hnext]
    exact hgiven t ht

theorem sentinel_eq_iff (w : World σ) (m : ℕ) :
    w.sentinel = .table m ↔ w.placeholderMetatable = some m := by
  rw [World.sentinel]
  cases w.placeholderMetatable <;> simp

theorem isPlaceholder_iff (w : World σ) (v : Value) : w.isPlaceholder v = true ↔
    ∃ t m, v = .table t ∧ (w.tables t).metatable = some m ∧ w.placeholderMetatable = some m := by
  cases v with
  | table t =>
    simp only [World.isPlaceholder, World.metatableOf]
    cases ht : (w.tables t).metatable with
    | none => simp [ht]
    | some m => simp [ht, sentinel_eq_iff]
  | _ => simp [World.isPlaceholder, World.metatableOf]

/-- What `createPlaceholder` changes: one more table is a placeholder. -/
theorem createPlaceholder_eq {w : World σ} {given : List Value} (h : Heap w given) (key : Bytes) :
    ∃ tables nextTable m, (createPlaceholder w key).1 =
        { w with tables := tables, nextTable := nextTable, placeholderMetatable := some m,
                 modules := Function.update w.modules key (.table w.nextTable) } ∧
      w.nextTable < nextTable ∧ m < nextTable ∧ m ≠ w.nextTable ∧
      w.isPlaceholder (.table m) = false ∧
      (∀ v, (createPlaceholder w key).1.isPlaceholder v = true ↔
        v = .table w.nextTable ∨ w.isPlaceholder v = true) ∧
      ∀ t m', (tables t).metatable = some m' → m' = m ∨ (w.tables t).metatable = some m' := by
  cases hm : w.placeholderMetatable with
  | some m =>
    obtain ⟨hlt, hplain⟩ := h.sentinel m hm
    refine ⟨Function.update w.tables w.nextTable { metatable := some m, readonly := true },
      w.nextTable + 1, m, ?_, by omega, by omega, by omega, hplain, fun v => ?_, fun t m' => ?_⟩
    · simp only [createPlaceholder, World.placeholderMeta, hm]
    · simp only [isPlaceholder_iff, createPlaceholder, World.placeholderMeta, hm]
      constructor
      · rintro ⟨t, m', rfl, ht, hm'⟩
        by_cases htp : t = w.nextTable
        · exact .inl (by rw [htp])
        · exact .inr ⟨t, m', rfl, by rwa [Function.update_of_ne htp] at ht, hm'⟩
      · rintro (rfl | ⟨t, m', rfl, ht, hm'⟩)
        · exact ⟨_, m, rfl, by rw [Function.update_self], rfl⟩
        · by_cases htp : t = w.nextTable
          · exact ⟨t, m, rfl, by rw [htp, Function.update_self], rfl⟩
          · exact ⟨t, m', rfl, by rwa [Function.update_of_ne htp], hm'⟩
    · by_cases htp : t = w.nextTable
      · intro hm'
        rw [htp, Function.update_self] at hm'
        exact .inl (Option.some.inj hm').symm
      · rw [Function.update_of_ne htp]
        exact .inr
  | none =>
    have hnone : ∀ v, ¬ w.isPlaceholder v = true := by
      intro v hv
      obtain ⟨t, m, -, -, hm'⟩ := (isPlaceholder_iff w v).1 hv
      rw [hm] at hm'
      cases hm'
    refine ⟨Function.update (Function.update w.tables (w.nextTable + 1) {}) w.nextTable
      { metatable := some (w.nextTable + 1), readonly := true }, w.nextTable + 2, w.nextTable + 1,
      ?_, by omega, by omega, by omega, by simpa using hnone _, fun v => ?_, fun t m' => ?_⟩
    · simp only [createPlaceholder, World.placeholderMeta, hm]
    · simp only [hnone, Bool.false_eq_true, or_false]
      rw [isPlaceholder_iff]
      simp only [createPlaceholder, World.placeholderMeta, hm]
      constructor
      · rintro ⟨t, m', rfl, ht, hm'⟩
        obtain rfl := Option.some.inj hm'
        by_cases htp : t = w.nextTable
        · rw [htp]
        · rw [Function.update_of_ne htp] at ht
          by_cases htm : t = w.nextTable + 1
          · rw [htm, Function.update_self] at ht
            cases ht
          · rw [Function.update_of_ne htm] at ht
            have := (h.metatables t _ ht).1 _ rfl
            omega
      · rintro rfl
        exact ⟨_, _, rfl, by rw [Function.update_self], rfl⟩
    · by_cases htp : t = w.nextTable
      · intro hm'
        rw [htp, Function.update_self] at hm'
        exact .inl (Option.some.inj hm').symm
      · rw [Function.update_of_ne htp]
        by_cases htm : t = w.nextTable + 1
        · rw [htm, Function.update_self]
          intro hm'
          cases hm'
        · rw [Function.update_of_ne htm]
          exact .inr

theorem Heap.createPlaceholder {w : World σ} {given : List Value} (h : Heap w given) (key : Bytes) :
    Heap (createPlaceholder w key).1 given := by
  obtain ⟨tables, nextTable, m, hw, hnext, hm, hne, hplain, hplaceholder, htables⟩ :=
    createPlaceholder_eq h key
  have hsame : ∀ v, (∀ t, v = .table t → t < w.nextTable) →
      (Require.createPlaceholder w key).1.isPlaceholder v = true → w.isPlaceholder v = true := by
    intro v hv hp
    rcases (hplaceholder v).1 hp with rfl | hp
    · exact absurd (hv _ rfl) (lt_irrefl _)
    · exact hp
  have hplain' : (Require.createPlaceholder w key).1.isPlaceholder (.table m) = false := by
    rw [← Bool.not_eq_true, hplaceholder]
    simp [hne, hplain]
  have hhas : ∀ {g : List Value} {v : Value}, Has w g v →
      Has (Require.createPlaceholder w key).1 g v := by
    intro g v hv
    have hle : w.nextTable ≤ (Require.createPlaceholder w key).1.nextTable := by
      rw [hw]
      exact hnext.le
    exact hv.mono hle (hsame v) (List.Subset.refl _)
  rw [hw] at hplain' hhas ⊢
  refine ⟨fun t m' hm' => ?_, fun m' hm' => ?_, fun path => hhas (h.registered path),
    fun name => hhas (h.globals name), fun key' t ht => ?_, fun t ht => (h.given t ht).trans hnext⟩
  · rcases htables t m' hm' with rfl | hold
    · exact ⟨fun t ht => by cases ht; exact hm, fun hp => by rw [hplain'] at hp; cases hp⟩
    · exact hhas (h.metatables t m' hold)
  · obtain rfl := Option.some.inj hm'
    exact ⟨hm, hplain'⟩
  · by_cases hkey : key' = key
    · simp only [hkey, Function.update_self, Value.table.injEq] at ht
      exact ht ▸ hnext
    · simp only [Function.update_of_ne hkey] at ht
      exact (h.modules key' t ht).trans hnext

theorem populatePlaceholder_isPlaceholder {w w' : World σ} {p r : ℕ}
    (h : populatePlaceholder w (.table p) (.table r) = some w')
    (hr : w.isPlaceholder (.table r) = false) (v : Value) :
    w'.isPlaceholder v = true ↔ v ≠ .table p ∧ w.isPlaceholder v = true := by
  obtain rfl := (Option.some.inj h).symm
  simp only [isPlaceholder_iff]
  constructor
  · rintro ⟨t, m, rfl, ht, hm⟩
    by_cases htp : t = p
    · rw [htp, Function.update_self] at ht
      have := (isPlaceholder_iff w (.table r)).2 ⟨r, m, rfl, ht, hm⟩
      rw [hr] at this
      cases this
    · exact ⟨by simpa using htp, t, m, rfl, by rwa [Function.update_of_ne htp] at ht, hm⟩
  · rintro ⟨hv, t, m, rfl, ht, hm⟩
    have htp : t ≠ p := by simpa using hv
    exact ⟨t, m, rfl, by rwa [Function.update_of_ne htp], hm⟩

theorem Heap.populate {w w' : World σ} {given : List Value} (h : Heap w given) {p r : ℕ}
    (hw' : populatePlaceholder w (.table p) (.table r) = some w')
    (hr : w.isPlaceholder (.table r) = false) : Heap w' given := by
  have hplaceholder := populatePlaceholder_isPlaceholder hw' hr
  have hhas : ∀ {g : List Value} {v : Value}, Has w g v → Has w' g v := by
    intro g v hv
    have hle : w.nextTable ≤ w'.nextTable := by
      rw [← Option.some.inj hw']
    exact hv.mono hle (fun _ hp => ((hplaceholder v).1 hp).2) (List.Subset.refl _)
  have hplain : ∀ m, w.isPlaceholder (.table m) = false → w'.isPlaceholder (.table m) = false := by
    intro m hm
    rw [← Bool.not_eq_true, hplaceholder, hm]
    simp
  obtain rfl := (Option.some.inj hw').symm
  refine ⟨fun t m hm => ?_, fun m hm => ⟨(h.sentinel m hm).1, hplain m (h.sentinel m hm).2⟩,
    fun path => hhas (h.registered path), fun name => hhas (h.globals name), h.modules, h.given⟩
  by_cases htp : t = p
  · simp only [htp, Function.update_self] at hm
    exact hhas (h.metatables r m hm)
  · simp only [Function.update_of_ne htp] at hm
    exact hhas (h.metatables t m hm)

/-! ### Loads -/

variable {C : Configuration σ} {w w' : World σ} {given : List Value} {again : ℕ → Bool}

theorem Loading.usesExport_iff (h : Loading C w given again) {id : ℕ} {f : Frame}
    (hf : w.frames id = some f) : f.usesExport = true ↔ ∃ p, f.placeholder = some p := by
  obtain ⟨key, hfits⟩ := h.fits id f hf
  rw [← hfits.placeholder_eq, Option.isSome_iff_exists]

/-- A key belongs to one kind of module. -/
theorem Loading.fits_key (h : Loading C w given again) {id : ℕ} {f : Frame} {key : Bytes}
    (hf : w.frames id = some f) (hkey : f.key = some key) : f.Fits C key := by
  obtain ⟨key', hfits⟩ := h.fits id f hf
  obtain rfl : key' = key := Option.some.inj (hfits.key_eq.symm.trans hkey)
  exact hfits

/-- While a module with exports is loading it is in the cache, so no other load of it begins. -/
theorem Loading.ne_nil (h : Loading C w given again) {id : ℕ} {f : Frame} {key : Bytes}
    (hf : w.frames id = some f) (hkey : f.key = some key) (hexport : f.usesExport = true) :
    w.modules key ≠ .nil := by
  obtain ⟨p, hp⟩ := (h.usesExport_iff hf).1 hexport
  rw [(h.published id f key p hf hkey hp).1]
  exact Value.noConfusion

/-- Only the state of the navigation, the resolved paths, the global variables and tables that are
no placeholders change. -/
theorem Loading.keep (h : Loading C w given again) (hframes : w'.frames = w.frames)
    (hnext : w'.nextFrame = w.nextFrame) (hmodules : w'.modules = w.modules)
    (hprovided : w'.provided = w.provided)
    (hplaceholder : ∀ v, w'.isPlaceholder v = w.isPlaceholder v) : Loading C w' given again := by
  have howned : ∀ v key, Owned w' v key ↔ Owned w v key := fun v key => by rw [Owned, Owned, hframes]
  constructor
  · rw [hframes, hnext]
    exact h.frames_lt
  · rw [hframes]
    exact h.fits
  · simp only [hframes, hmodules, hplaceholder]
    exact h.published
  · rw [hframes]
    exact h.alone
  · rw [hframes]
    exact h.distinct
  · rw [hframes, hmodules]
    exact h.pending
  · rw [hprovided, hmodules]
    exact h.provided
  · simp only [hmodules, hplaceholder, howned]
    exact h.cached
  · simp only [hprovided, hplaceholder, howned]
    exact h.owned

/-- `require` returns what code has already, or what is no placeholder. -/
theorem Loading.give (h : Loading C w given again) {v : Value}
    (hv : w.isPlaceholder v = true → v ∈ given) : Loading C w (v :: given) again where
  frames_lt := h.frames_lt
  fits := h.fits
  published := h.published
  alone := h.alone
  distinct := h.distinct
  pending := h.pending
  provided := h.provided
  cached key hkey := (h.cached key hkey).imp_right (List.mem_cons_of_mem v)
  owned v' hv' hp := by
    rcases List.mem_cons.1 hv' with rfl | hv'
    · exact h.owned _ (hv hp) hp
    · exact h.owned v' hv' hp

/-- `require` returns what is in the cache; a placeholder is marked. -/
theorem Loading.markProvided (h : Loading C w given again) (hcyclic : C.shortCircuit = true)
    {key : Bytes} (hkey : w.modules key ≠ .nil) :
    Loading C (markProvided C w key (w.modules key)) (w.modules key :: given) again := by
  cases hp : w.isPlaceholder (w.modules key) with
  | false =>
    rw [Require.markProvided, hp, Bool.and_false]
    exact h.give fun hv => by rw [hp] at hv; cases hv
  | true =>
    have hmarked : Require.markProvided C w key (w.modules key) =
        { w with provided := Function.update w.provided key true } := by
      rw [Require.markProvided, hp, hcyclic]
      rfl
    rw [hmarked]
    have hplaceholder : ∀ v, World.isPlaceholder { w with
        provided := Function.update w.provided key true } v = w.isPlaceholder v :=
      isPlaceholder_congr rfl rfl
    have hmark : ∀ key', w.provided key' = true →
        Function.update w.provided key true key' = true := by
      intro key' hkey'
      by_cases hk : key' = key
      · rw [hk, Function.update_self]
      · rwa [Function.update_of_ne hk]
    refine ⟨h.frames_lt, h.fits, fun id f key' p hf hkey' hplace => ?_, h.alone, h.distinct,
      h.pending, fun key' hkey' => ?_, fun key' hkey' => ?_, fun v hv hpv => ?_⟩
    · exact (hplaceholder _).symm ▸ h.published id f key' p hf hkey' hplace
    · by_cases hk : key' = key
      · exact hk ▸ hkey
      · simp only [Function.update_of_ne hk] at hkey'
        exact h.provided key' hkey'
    · rw [hplaceholder] at hkey'
      exact (h.cached key' hkey').imp_right (List.mem_cons_of_mem _)
    · rw [hplaceholder] at hpv
      rcases List.mem_cons.1 hv with rfl | hv
      · rcases h.cached key hp with howned | hgiven
        · exact ⟨key, howned, Function.update_self _ _ _⟩
        · obtain ⟨key', howned, hkey'⟩ := h.owned _ hgiven hp
          exact ⟨key', howned, hmark key' hkey'⟩
      · obtain ⟨key', howned, hkey'⟩ := h.owned v hv hpv
        exact ⟨key', howned, hmark key' hkey'⟩

theorem push_frames {id : ℕ} {f f' : Frame} :
    (w.push f).frames id = some f' ↔ (id = w.nextFrame ∧ f' = f) ∨
      (id ≠ w.nextFrame ∧ w.frames id = some f') := by
  by_cases hid : id = w.nextFrame
  · simp [World.push, hid, eq_comm]
  · simp [World.push, hid]

theorem Owned.push {v : Value} {key : Bytes} (h : Owned w v key)
    (hlt : ∀ id f, w.frames id = some f → id < w.nextFrame) (f : Frame) :
    Owned (w.push f) v key := by
  obtain ⟨id, f', p, hf, hkey, hp, hv⟩ := h
  exact ⟨id, f', p, push_frames.2 (.inr ⟨(hlt id f' hf).ne, hf⟩), hkey, hp, hv⟩

/-- A load begins. -/
theorem Loading.push (h : Loading C w given again) {f : Frame} {key : Bytes} (hf : f.Fits C key)
    (hkey : w.modules key = .nil) (hexport : f.placeholder = none) :
    Loading C (w.push f) given again := by
  have hplain : f.usesExport = false := by rw [← hf.placeholder_eq, hexport, Option.isSome_none]
  have hplaceholder : ∀ v, (w.push f).isPlaceholder v = w.isPlaceholder v :=
    isPlaceholder_congr rfl rfl
  -- Another load of the module is not of one with exports either.
  have hother : ∀ {id f' key'}, w.frames id = some f' → f'.key = some key' → f.key = some key' →
      f'.usesExport = false := by
    intro id f' key' hf' hkey' hfkey
    obtain rfl : key = key' := Option.some.inj (hf.key_eq.symm.trans hfkey)
    rw [(h.fits_key hf' hkey').usesExport_eq hf, hplain]
  constructor
  · intro id f' hf'
    rcases push_frames.1 hf' with ⟨rfl, -⟩ | ⟨-, hold⟩
    · exact Nat.lt_succ_self _
    · exact (h.frames_lt id f' hold).trans (Nat.lt_succ_self _)
  · intro id f' hf'
    rcases push_frames.1 hf' with ⟨-, rfl⟩ | ⟨-, hold⟩
    · exact ⟨key, hf⟩
    · exact h.fits id f' hold
  · intro id f' key' p hf' hkey' hp
    rcases push_frames.1 hf' with ⟨-, rfl⟩ | ⟨-, hold⟩
    · rw [hexport] at hp
      cases hp
    · rw [hplaceholder]
      exact h.published id f' key' p hold hkey' hp
  · intro id id' f₁ f₂ key' h₁ h₂ hkey₁ hkey₂ hexport₁
    rcases push_frames.1 h₁ with ⟨rfl, rfl⟩ | ⟨-, hold₁⟩
    · rw [hplain] at hexport₁
      cases hexport₁
    · rcases push_frames.1 h₂ with ⟨rfl, rfl⟩ | ⟨-, hold₂⟩
      · rw [hother hold₁ hkey₁ hkey₂] at hexport₁
        cases hexport₁
      · exact h.alone id id' f₁ f₂ key' hold₁ hold₂ hkey₁ hkey₂ hexport₁
  · intro id id' f₁ f₂ p h₁ h₂ hp₁ hp₂
    rcases push_frames.1 h₁ with ⟨rfl, rfl⟩ | ⟨-, hold₁⟩
    · rw [hexport] at hp₁
      cases hp₁
    · rcases push_frames.1 h₂ with ⟨rfl, rfl⟩ | ⟨-, hold₂⟩
      · rw [hexport] at hp₂
        cases hp₂
      · exact h.distinct id id' f₁ f₂ p hold₁ hold₂ hp₁ hp₂
  · intro id f' key' hf' hkey' hp hagain
    rcases push_frames.1 hf' with ⟨-, rfl⟩ | ⟨-, hold⟩
    · obtain rfl : key = key' := Option.some.inj (hf.key_eq.symm.trans hkey')
      exact hkey
    · exact h.pending id f' key' hold hkey' hp hagain
  · exact h.provided
  · intro key' hp
    rw [hplaceholder] at hp
    exact (h.cached key' hp).imp_left fun howned => howned.push h.frames_lt f
  · intro v hv hp
    rw [hplaceholder] at hp
    obtain ⟨key', howned, hmark⟩ := h.owned v hv hp
    exact ⟨key', howned.push h.frames_lt f, hmark⟩

/-- A load of a module with exports begins. -/
theorem Loading.publish (h : Loading C w given again) (hheap : Heap w given) {f : Frame}
    {key : Bytes} (hf : f.Fits C key) (hkey : w.modules key = .nil)
    (hexport : f.placeholder = some w.nextTable) :
    Loading C ((createPlaceholder w key).1.push f) given again := by
  obtain ⟨tables, nextTable, m, hw, -, -, -, -, hplaceholder, -⟩ := createPlaceholder_eq hheap key
  have husesExport : f.usesExport = true := by rw [← hf.placeholder_eq, hexport, Option.isSome_some]
  have hpush : ∀ v, ((createPlaceholder w key).1.push f).isPlaceholder v = true ↔
      v = .table w.nextTable ∨ w.isPlaceholder v = true := by
    intro v
    have hsame : ((createPlaceholder w key).1.push f).isPlaceholder v =
        (createPlaceholder w key).1.isPlaceholder v := isPlaceholder_congr rfl rfl v
    rw [hsame]
    exact hplaceholder v
  -- No other load is of this module: it would be in the cache.
  have hother : ∀ {id f' key'}, w.frames id = some f' → f'.key = some key' → f.key = some key' →
      False := by
    intro id f' key' hf' hkey' hfkey
    obtain rfl : key = key' := Option.some.inj (hf.key_eq.symm.trans hfkey)
    exact h.ne_nil hf' hkey' ((h.fits_key hf' hkey').usesExport_eq hf ▸ husesExport) hkey
  have hlt : ∀ {id f' p}, w.frames id = some f' → f'.placeholder = some p → p < w.nextTable := by
    intro id f' p hf' hp
    obtain ⟨key', hfits⟩ := h.fits id f' hf'
    exact hheap.modules key' p (h.published id f' key' p hf' hfits.key_eq hp).1
  have hframes : ∀ {id f'}, ((createPlaceholder w key).1.push f).frames id = some f' ↔
      (id = w.nextFrame ∧ f' = f) ∨ (id ≠ w.nextFrame ∧ w.frames id = some f') := by
    intro id f'
    rw [push_frames, hw]
  have hmodules : ((createPlaceholder w key).1.push f).modules =
      Function.update w.modules key (.table w.nextTable) := by
    rw [hw]
    rfl
  have howned : ∀ {v key'}, Owned w v key' → Owned ((createPlaceholder w key).1.push f) v key' := by
    rintro v key' ⟨id, f', p, hf', hkey', hp, hv⟩
    exact ⟨id, f', p, hframes.2 (.inr ⟨(h.frames_lt id f' hf').ne, hf'⟩), hkey', hp, hv⟩
  constructor
  · intro id f' hf'
    have hnext : ((createPlaceholder w key).1.push f).nextFrame = w.nextFrame + 1 := by
      rw [hw]
      rfl
    rw [hnext]
    rcases hframes.1 hf' with ⟨rfl, -⟩ | ⟨-, hold⟩
    · exact Nat.lt_succ_self _
    · exact (h.frames_lt id f' hold).trans (Nat.lt_succ_self _)
  · intro id f' hf'
    rcases hframes.1 hf' with ⟨-, rfl⟩ | ⟨-, hold⟩
    · exact ⟨key, hf⟩
    · exact h.fits id f' hold
  · intro id f' key' p hf' hkey' hp
    rw [hmodules, hpush]
    rcases hframes.1 hf' with ⟨-, rfl⟩ | ⟨-, hold⟩
    · obtain rfl : key = key' := Option.some.inj (hf.key_eq.symm.trans hkey')
      obtain rfl : w.nextTable = p := Option.some.inj (hexport.symm.trans hp)
      exact ⟨Function.update_self _ _ _, .inl rfl⟩
    · have hne : key' ≠ key := by
        rintro rfl
        exact hother hold hkey' hf.key_eq
      rw [Function.update_of_ne hne]
      exact (h.published id f' key' p hold hkey' hp).imp_right .inr
  · intro id id' f₁ f₂ key' h₁ h₂ hkey₁ hkey₂ hexport₁
    rcases hframes.1 h₁ with ⟨rfl, rfl⟩ | ⟨-, hold₁⟩
    · rcases hframes.1 h₂ with ⟨rfl, -⟩ | ⟨-, hold₂⟩
      · rfl
      · exact (hother hold₂ hkey₂ hkey₁).elim
    · rcases hframes.1 h₂ with ⟨rfl, rfl⟩ | ⟨-, hold₂⟩
      · exact (hother hold₁ hkey₁ hkey₂).elim
      · exact h.alone id id' f₁ f₂ key' hold₁ hold₂ hkey₁ hkey₂ hexport₁
  · intro id id' f₁ f₂ p h₁ h₂ hp₁ hp₂
    rcases hframes.1 h₁ with ⟨rfl, rfl⟩ | ⟨-, hold₁⟩
    · rcases hframes.1 h₂ with ⟨rfl, -⟩ | ⟨-, hold₂⟩
      · rfl
      · have := hlt hold₂ hp₂
        rw [hexport, Option.some.injEq] at hp₁
        omega
    · rcases hframes.1 h₂ with ⟨rfl, rfl⟩ | ⟨-, hold₂⟩
      · have := hlt hold₁ hp₁
        rw [hexport, Option.some.injEq] at hp₂
        omega
      · exact h.distinct id id' f₁ f₂ p hold₁ hold₂ hp₁ hp₂
  · intro id f' key' hf' hkey' hp hagain
    rcases hframes.1 hf' with ⟨-, rfl⟩ | ⟨-, hold⟩
    · rw [hexport] at hp
      cases hp
    · have hne : key' ≠ key := by
        rintro rfl
        exact hother hold hkey' hf.key_eq
      rw [hmodules, Function.update_of_ne hne]
      exact h.pending id f' key' hold hkey' hp hagain
  · intro key' hkey'
    have hprovided : w.provided key' = true := by
      rw [hw] at hkey'
      exact hkey'
    have hne : key' ≠ key := by
      rintro rfl
      exact h.provided key' hprovided hkey
    rw [hmodules, Function.update_of_ne hne]
    exact h.provided key' hprovided
  · intro key' hp
    rw [hmodules] at hp ⊢
    by_cases hne : key' = key
    · subst hne
      rw [Function.update_self]
      exact .inl ⟨w.nextFrame, f, w.nextTable, hframes.2 (.inl ⟨rfl, rfl⟩), hf.key_eq, hexport, rfl⟩
    · rw [Function.update_of_ne hne] at hp ⊢
      rcases (hpush _).1 hp with hnew | hp
      · exact absurd (hheap.modules key' _ hnew) (lt_irrefl _)
      · exact (h.cached key' hp).imp_left howned
  · intro v hv hp
    rcases (hpush _).1 hp with rfl | hp
    · exact absurd (hheap.given _ hv) (lt_irrefl _)
    · obtain ⟨key', hown, hmark⟩ := h.owned v hv hp
      refine ⟨key', howned hown, ?_⟩
      rw [hw]
      exact hmark

theorem pop_frames {id id' : ℕ} {f' : Frame} :
    (w.pop id).frames id' = some f' ↔ id' ≠ id ∧ w.frames id' = some f' := by
  by_cases hid : id' = id
  · simp [World.pop, hid]
  · simp [World.pop, hid]

/-- The owner of a placeholder is another load. -/
theorem Owned.of_ne {v : Value} {key : Bytes} (h : Owned w v key) {id : ℕ}
    (hframes : ∀ id' f', id' ≠ id → w.frames id' = some f' → w'.frames id' = some f')
    (hne : ∀ f p, w.frames id = some f → f.key = some key → f.placeholder = some p →
      v ≠ .table p) : Owned w' v key := by
  obtain ⟨id', f', p, hf', hkey, hp, hv⟩ := h
  refine ⟨id', f', p, hframes id' f' ?_ hf', hkey, hp, hv⟩
  rintro rfl
  exact hne f' p hf' hkey hp hv

/-- The load of a module without exports ends without a value. -/
theorem Loading.pop (h : Loading C w given again) {id : ℕ} {f : Frame} (hf : w.frames id = some f)
    (hexport : f.placeholder = none) {again' : ℕ → Bool}
    (hagain : ∀ id', again' id' = false → again id' = false) :
    Loading C (w.pop id) given again' := by
  have hplaceholder : ∀ v, (w.pop id).isPlaceholder v = w.isPlaceholder v :=
    isPlaceholder_congr rfl rfl
  have howned : ∀ {v key}, Owned w v key → Owned (w.pop id) v key := by
    intro v key howned
    refine howned.of_ne (fun id' f' hne hf' => pop_frames.2 ⟨hne, hf'⟩) fun f' p hf' _ hp => ?_
    rw [hf, Option.some.injEq] at hf'
    rw [← hf', hexport] at hp
    cases hp
  constructor
  · exact fun id' f' hf' => h.frames_lt id' f' (pop_frames.1 hf').2
  · exact fun id' f' hf' => h.fits id' f' (pop_frames.1 hf').2
  · intro id' f' key p hf' hkey hp
    rw [hplaceholder]
    exact h.published id' f' key p (pop_frames.1 hf').2 hkey hp
  · exact fun id₁ id₂ f₁ f₂ key h₁ h₂ => h.alone id₁ id₂ f₁ f₂ key (pop_frames.1 h₁).2 (pop_frames.1 h₂).2
  · exact fun id₁ id₂ f₁ f₂ p h₁ h₂ => h.distinct id₁ id₂ f₁ f₂ p (pop_frames.1 h₁).2 (pop_frames.1 h₂).2
  · exact fun id' f' key hf' hkey hp ha =>
      h.pending id' f' key (pop_frames.1 hf').2 hkey hp (hagain id' ha)
  · exact h.provided
  · intro key hp
    rw [hplaceholder] at hp
    exact (h.cached key hp).imp_left howned
  · intro v hv hp
    rw [hplaceholder] at hp
    obtain ⟨key, hown, hmark⟩ := h.owned v hv hp
    exact ⟨key, howned hown, hmark⟩

/-- The value of a module goes to the cache.  Nobody has got its placeholder, if it has one. -/
theorem Loading.caches (h : Loading C w given again) {id : ℕ} {f : Frame} {key : Bytes}
    (hf : w.frames id = some f) (hkey : f.key = some key) (hprovided : w.provided key = false)
    {v : Value} (hv : w.isPlaceholder v = true → v ∈ given) {again' : ℕ → Bool}
    (hagain : ∀ id', again' id' = false → again id' = false)
    (hsame : ∀ id' f', w.frames id' = some f' → f'.key = some key → again' id' = true) :
    Loading C { w.unmark id key with modules := Function.update w.modules key v } (v :: given)
      again' := by
  have hplaceholder : ∀ v', World.isPlaceholder { w.unmark id key with
      modules := Function.update w.modules key v } v' = w.isPlaceholder v' :=
    isPlaceholder_congr rfl rfl
  have hframes : ∀ {id' f'}, World.frames { w.unmark id key with
      modules := Function.update w.modules key v } id' = some f' ↔
        id' ≠ id ∧ w.frames id' = some f' := pop_frames
  -- A load of another module.
  have howned : ∀ {v' key'}, key' ≠ key → Owned w v' key' → Owned { w.unmark id key with
      modules := Function.update w.modules key v } v' key' := by
    intro v' key' hne howned
    refine howned.of_ne (fun id' f' hid hf' => hframes.2 ⟨hid, hf'⟩) fun f' p hf' hkey' _ => ?_
    rw [hf, Option.some.injEq] at hf'
    rw [← hf', hkey, Option.some.injEq] at hkey'
    exact absurd hkey'.symm hne
  have hnotmark : ∀ {key'}, Function.update w.provided key false key' = true →
      key' ≠ key ∧ w.provided key' = true := by
    intro key' hkey'
    by_cases hne : key' = key
    · rw [hne, Function.update_self] at hkey'
      cases hkey'
    · rw [Function.update_of_ne hne] at hkey'
      exact ⟨hne, hkey'⟩
  have hmark : ∀ {key'}, w.provided key' = true →
      key' ≠ key ∧ Function.update w.provided key false key' = true := by
    intro key' hkey'
    have hne : key' ≠ key := by
      rintro rfl
      rw [hprovided] at hkey'
      cases hkey'
    exact ⟨hne, by rwa [Function.update_of_ne hne]⟩
  constructor
  · exact fun id' f' hf' => h.frames_lt id' f' (hframes.1 hf').2
  · exact fun id' f' hf' => h.fits id' f' (hframes.1 hf').2
  · intro id' f' key' p hf' hkey' hp
    obtain ⟨hid, hold⟩ := hframes.1 hf'
    have hne : key' ≠ key := by
      rintro rfl
      exact hid (h.alone id' id f' f key' hold hf hkey' hkey ((h.usesExport_iff hold).2 ⟨p, hp⟩))
    rw [hplaceholder]
    change Function.update w.modules key v key' = _ ∧ _
    rw [Function.update_of_ne hne]
    exact h.published id' f' key' p hold hkey' hp
  · exact fun id₁ id₂ f₁ f₂ key' h₁ h₂ =>
      h.alone id₁ id₂ f₁ f₂ key' (hframes.1 h₁).2 (hframes.1 h₂).2
  · exact fun id₁ id₂ f₁ f₂ p h₁ h₂ => h.distinct id₁ id₂ f₁ f₂ p (hframes.1 h₁).2 (hframes.1 h₂).2
  · intro id' f' key' hf' hkey' hp ha
    obtain ⟨hid, hold⟩ := hframes.1 hf'
    have hne : key' ≠ key := by
      rintro rfl
      rw [hsame id' f' hold hkey'] at ha
      cases ha
    change Function.update w.modules key v key' = _
    rw [Function.update_of_ne hne]
    exact h.pending id' f' key' hold hkey' hp (hagain id' ha)
  · intro key' hkey'
    obtain ⟨hne, hold⟩ := hnotmark hkey'
    change Function.update w.modules key v key' ≠ _
    rw [Function.update_of_ne hne]
    exact h.provided key' hold
  · intro key' hp
    rw [hplaceholder] at hp
    change w.isPlaceholder (Function.update w.modules key v key') = true at hp
    change Owned _ (Function.update w.modules key v key') key' ∨
      Function.update w.modules key v key' ∈ v :: given
    by_cases hne : key' = key
    · rw [hne, Function.update_self]
      exact .inr List.mem_cons_self
    · rw [Function.update_of_ne hne] at hp ⊢
      rcases h.cached key' hp with hown | hgiven
      · exact .inl (howned hne hown)
      · exact .inr (List.mem_cons_of_mem v hgiven)
  · intro v' hv' hp
    rw [hplaceholder] at hp
    have hold : v' ∈ given := by
      rcases List.mem_cons.1 hv' with rfl | hv'
      · exact hv hp
      · exact hv'
    obtain ⟨key', hown, hkey'⟩ := h.owned v' hold hp
    obtain ⟨hne, hkey'⟩ := hmark hkey'
    exact ⟨key', howned hne hown, hkey'⟩

/-- The value of a module with exports goes to the placeholder. -/
theorem Loading.populates (h : Loading C w given again) {id : ℕ} {f : Frame} {key : Bytes} {p r : ℕ}
    (hf : w.frames id = some f) (hkey : f.key = some key) (hp : f.placeholder = some p)
    (hr : w.isPlaceholder (.table r) = false)
    (hw' : populatePlaceholder (w.unmark id key) (.table p) (.table r) = some w')
    {again' : ℕ → Bool} (hagain : ∀ id', again' id' = false → again id' = false) :
    Loading C w' (.table p :: given) again' := by
  have hplaceholder : ∀ v, w'.isPlaceholder v = true ↔ v ≠ .table p ∧ w.isPlaceholder v = true := by
    have hsame : ∀ v, (w.unmark id key).isPlaceholder v = w.isPlaceholder v :=
      isPlaceholder_congr rfl rfl
    intro v
    rw [← hsame v]
    exact populatePlaceholder_isPlaceholder hw' ((hsame _).trans hr) v
  have hframes : ∀ {id' f'}, w'.frames id' = some f' ↔ id' ≠ id ∧ w.frames id' = some f' := by
    rw [← Option.some.inj hw']
    exact pop_frames
  have hmodules : w'.modules = w.modules := by
    rw [← Option.some.inj hw']
    rfl
  have hprovided : w'.provided = Function.update w.provided key false := by
    rw [← Option.some.inj hw']
    rfl
  have hnextFrame : w'.nextFrame = w.nextFrame := by
    rw [← Option.some.inj hw']
    rfl
  have hexport : f.usesExport = true := (h.usesExport_iff hf).2 ⟨p, hp⟩
  have howned : ∀ {v key'}, v ≠ .table p → Owned w v key' → key' ≠ key ∧ Owned w' v key' := by
    rintro v key' hv ⟨id', f', p', hf', hkey', hp', rfl⟩
    have hid : id' ≠ id := by
      rintro rfl
      rw [hf, Option.some.injEq] at hf'
      rw [← hf', hp, Option.some.injEq] at hp'
      exact hv (by rw [hp'])
    refine ⟨?_, id', f', p', hframes.2 ⟨hid, hf'⟩, hkey', hp', rfl⟩
    rintro rfl
    exact hid (h.alone id id' f f' key' hf hf' hkey hkey' hexport).symm
  constructor
  · intro id' f' hf'
    rw [hnextFrame]
    exact h.frames_lt id' f' (hframes.1 hf').2
  · exact fun id' f' hf' => h.fits id' f' (hframes.1 hf').2
  · intro id' f' key' p' hf' hkey' hp'
    obtain ⟨hid, hold⟩ := hframes.1 hf'
    obtain ⟨hcached, hplace⟩ := h.published id' f' key' p' hold hkey' hp'
    rw [hmodules, hplaceholder]
    refine ⟨hcached, fun heq => ?_, hplace⟩
    rw [Value.table.injEq] at heq
    exact hid (h.distinct id' id f' f p' hold hf hp' (heq ▸ hp))
  · exact fun id₁ id₂ f₁ f₂ key' h₁ h₂ =>
      h.alone id₁ id₂ f₁ f₂ key' (hframes.1 h₁).2 (hframes.1 h₂).2
  · exact fun id₁ id₂ f₁ f₂ p h₁ h₂ => h.distinct id₁ id₂ f₁ f₂ p (hframes.1 h₁).2 (hframes.1 h₂).2
  · intro id' f' key' hf' hkey' hplain ha
    rw [hmodules]
    exact h.pending id' f' key' (hframes.1 hf').2 hkey' hplain (hagain id' ha)
  · intro key' hkey'
    rw [hmodules]
    rw [hprovided] at hkey'
    by_cases hne : key' = key
    · rw [hne]
      exact h.ne_nil hf hkey hexport
    · rw [Function.update_of_ne hne] at hkey'
      exact h.provided key' hkey'
  · intro key' hp'
    rw [hmodules] at hp' ⊢
    obtain ⟨hne, hold⟩ := (hplaceholder _).1 hp'
    rcases h.cached key' hold with hown | hgiven
    · exact .inl (howned hne hown).2
    · exact .inr (List.mem_cons_of_mem _ hgiven)
  · intro v hv hp'
    obtain ⟨hne, hold⟩ := (hplaceholder v).1 hp'
    rcases List.mem_cons.1 hv with rfl | hv
    · exact absurd rfl hne
    · obtain ⟨key', hown, hkey'⟩ := h.owned v hv hold
      obtain ⟨hnekey, hown⟩ := howned hne hown
      exact ⟨key', hown, by rwa [hprovided, Function.update_of_ne hnekey]⟩

/-! ### Steps -/

/-- A module whose load has failed is not in the cache, and has no mark.  A placeholder that
`require` has returned is that of a module whose load has not ended. -/
structure Good (s : Run σ) : Prop where
  failed : ∀ key error, s.last = .raised (some key) error →
    s.world.modules key = .nil ∧ s.world.provided key = false
  placeholders : ∀ v ∈ s.given, s.world.isPlaceholder v = true → ∃ key, Owned s.world v key

/-- A load that fails is of a module without exports, and no other load of the module has ended
with a value since it began; if one has, then the load does not end after a placeholder was
returned for the module. -/
def Meets (s : Run σ) : Input → Prop
  | .stop id status results => ∀ f key, s.world.frames id = some f → f.key = some key →
      (f.fails status results = true → f.usesExport = false ∧ s.again id = false) ∧
      (status = .ok → s.again id = true → s.world.provided key = false)
  | _ => True

/-- What holds in every state. -/
structure Inv (C : Configuration σ) (s : Run σ) : Prop where
  heap : Heap s.world s.given
  loading : Loading C s.world s.given s.again

theorem markProvided_eq (C : Configuration σ) (w : World σ) (key : Bytes) (v : Value) :
    ∃ provided, markProvided C w key v = { w with provided := provided } := by
  rw [markProvided]
  split
  · exact ⟨_, rfl⟩
  · exact ⟨w.provided, rfl⟩

theorem Requires.inv {r : World σ × Output} (hr : Requires C w r) (hcyclic : C.shortCircuit = true)
    (hheap : Heap w given) (hload : Loading C w given again) :
    Heap r.1 (r.2.values ++ given) ∧ Loading C r.1 (r.2.values ++ given) again ∧
      ∀ key error, r.2 = .raised (some key) error →
        r.1.modules key = .nil ∧ r.1.provided key = false := by
  have hmoved : ∀ (ctx : σ) resolved, Heap (w.moved ctx resolved) given ∧
      Loading C (w.moved ctx resolved) given again := fun ctx resolved =>
    ⟨hheap.keep rfl rfl rfl rfl rfl hheap.modules (List.Subset.refl _) hheap.given,
      hload.keep rfl rfl rfl rfl (isPlaceholder_congr rfl rfl)⟩
  cases hr with
  | raises ctx resolved error =>
    exact ⟨(hmoved ctx resolved).1, (hmoved ctx resolved).2, nofun⟩
  | hangs ctx resolved => exact ⟨(hmoved ctx resolved).1, (hmoved ctx resolved).2, nofun⟩
  | @registered v hv =>
    have hhas : Has w given v := by
      rcases hv with ⟨path, rfl⟩ | ⟨t, m, hm, rfl⟩ | ⟨name, rfl⟩
      · exact (hheap.registered path).mono le_rfl (fun _ => id) (List.nil_subset _)
      · exact hheap.metatables t m hm
      · exact hheap.globals name
    refine ⟨hheap.keep rfl rfl rfl rfl rfl hheap.modules (List.subset_cons_self v given)
      fun t ht => ?_, hload.give hhas.2, nofun⟩
    rcases List.mem_cons.1 ht with ht | ht
    · exact hhas.1 t ht.symm
    · exact hheap.given t ht
  | @cached ctx resolved key hkey =>
    have hmark := hload.markProvided hcyclic hkey
    obtain ⟨provided, hw⟩ := markProvided_eq C w key (w.modules key)
    refine ⟨?_, hmark.keep rfl rfl rfl rfl (isPlaceholder_congr rfl rfl), nofun⟩
    rw [hw]
    refine hheap.keep rfl rfl rfl rfl rfl hheap.modules (List.subset_cons_self _ given)
      fun t ht => ?_
    rcases List.mem_cons.1 ht with ht | ht
    · exact hheap.modules key t ht.symm
    · exact hheap.given t ht
  | @missing ctx resolved key error hkey =>
    refine ⟨(hmoved ctx resolved).1, (hmoved ctx resolved).2, fun key' error' h => ?_⟩
    obtain rfl : key = key' := by simpa using (Output.raised.inj h).1
    have hmark : w.provided key = false := by simpa [hkey] using mt (hload.provided key)
    exact ⟨hkey, hmark⟩
  | @begins ctx resolved key f chunkname loadname hkey hf hexport =>
    obtain ⟨hheap', hload'⟩ := hmoved ctx resolved
    exact ⟨hheap'.keep rfl rfl rfl rfl rfl hheap'.modules (List.Subset.refl _) hheap'.given,
      hload'.push hf hkey hexport, nofun⟩
  | @publishes ctx resolved key f chunkname loadname hkey hf hexport =>
    obtain ⟨hheap', hload'⟩ := hmoved ctx resolved
    have hcreate := hheap'.createPlaceholder key
    exact ⟨hcreate.keep rfl rfl rfl rfl rfl hcreate.modules (List.Subset.refl _) hcreate.given,
      hload'.publish hheap' hf hkey hexport, nofun⟩

theorem Inv.require {C : Repl σ} {s : Run σ} (h : Inv C.toConfiguration s)
    (requirerChunkname : Bytes) (arg : Value) :
    Inv C.toConfiguration (s.exec C (.require requirerChunkname arg)) ∧
      ∀ key error, (s.exec C (.require requirerChunkname arg)).last = .raised (some key) error →
        (s.exec C (.require requirerChunkname arg)).world.modules key = .nil ∧
          (s.exec C (.require requirerChunkname arg)).world.provided key = false := by
  have hreg : ∀ path, s.world.isPlaceholder (s.world.registered path) = false := by
    intro path
    simpa using (h.heap.registered path).2
  have hr := require_cases C requirerChunkname arg hreg
  obtain ⟨hheap, hload, hfailed⟩ := hr.inv C.cyclic h.heap h.loading
  refine ⟨⟨hheap, ?_⟩, hfailed⟩
  have hagain : (s.exec C (.require requirerChunkname arg)).again = s.again := by
    funext id
    exact Bool.or_false _
  rw [hagain]
  exact hload

theorem Inv.stop {C : Repl σ} {s : Run σ} (h : Inv C.toConfiguration s) {id : ℕ} {status : Status}
    {results : List Value} (hpossible : Possible s (.stop id status results))
    (hmeets : Meets s (.stop id status results)) :
    Inv C.toConfiguration (s.exec C (.stop id status results)) ∧
      ∀ key error, (s.exec C (.stop id status results)).last = .raised (some key) error →
        (s.exec C (.stop id status results)).world.modules key = .nil ∧
          (s.exec C (.stop id status results)).world.provided key = false := by
  obtain ⟨hheap, hload⟩ := h
  obtain ⟨f, hf, hhas, hok⟩ := hpossible
  obtain ⟨key, hfits⟩ := hload.fits id f hf
  have hkey := hfits.key_eq
  obtain ⟨hfails, hovertaken⟩ := hmeets f key hf hkey
  have hr : Stops s.world id f key status results
      (Require.stop C.toConfiguration s.world id f status results) :=
    stop_cases C.cyclic hfits status results
  have hexec : step true C.toConfiguration s.world (.stop id status results) =
      Require.stop C.toConfiguration s.world id f status results := by
    rw [step, hf]
  simp only [Run.exec, hexec]
  generalize Require.stop C.toConfiguration s.world id f status results = r at hr
  have hagain : ∀ id', (s.again id' ||
      s.world.overtaken (.stop id status results) r.2 id') = false → s.again id' = false := by
    intro id' h
    exact (Bool.or_eq_false_iff.1 h).1
  have hpop : Heap (s.world.pop id) s.given :=
    hheap.keep rfl rfl rfl rfl rfl hheap.modules (List.Subset.refl _) hheap.given
  have hplain : f.usesExport = false → f.placeholder = none := by
    intro hexport
    rw [← Option.not_isSome_iff_eq_none, hfits.placeholder_eq, hexport]
    exact Bool.false_ne_true
  -- A mark is only there for what is in the cache.
  have hmark : s.world.modules key = .nil → s.world.provided key = false := by
    intro hnil
    simpa [hnil] using mt (hload.provided key)
  -- The mark of a module without exports comes from another load of it.
  have hexports : status = .ok → s.world.provided key = true → f.usesExport = true := by
    intro hstatus hprovided
    by_contra hexport
    rw [Bool.not_eq_true] at hexport
    cases hnot : s.again id with
    | true =>
      rw [hovertaken hstatus hnot] at hprovided
      cases hprovided
    | false =>
      have hnil := hload.pending id f key hf hkey (hplain hexport) hnot
      rw [hmark hnil] at hprovided
      cases hprovided
  cases hr with
  | raises error hfail =>
    obtain ⟨hexport, hnotagain⟩ := hfails hfail
    refine ⟨⟨hpop, hload.pop hf (hplain hexport) hagain⟩, fun key' error' h => ?_⟩
    obtain rfl : key = key' := by simpa using (Output.raised.inj h).1
    have hnil := hload.pending id f key hf hkey (hplain hexport) hnotagain
    exact ⟨hnil, hmark hnil⟩
  | waits results hnative =>
    have hsame : (fun id' => s.again id' || s.world.overtaken (.stop id .yielded results) .done id') =
        s.again := by
      funext id'
      exact Bool.or_false _
    refine ⟨⟨hheap, ?_⟩, fun _ _ h => by cases h⟩
    simp only [hsame]
    exact hload
  | nothing hnative =>
    exact ⟨⟨hpop, hload.pop hf (hplain (hfits.plain hnative)) hagain⟩, fun _ _ h => by cases h⟩
  | caches v hprovided =>
    have hv := hhas v List.mem_cons_self
    refine ⟨⟨?_, ?_⟩, fun _ _ h => by cases h⟩
    · refine hpop.keep rfl rfl rfl rfl rfl (fun key' t ht => ?_) (List.subset_cons_self v _)
        fun t ht => ?_
      · by_cases hne : key' = key
        · simp only [hne, Function.update_self] at ht
          exact hv.1 t ht
        · simp only [Function.update_of_ne hne] at ht
          exact hheap.modules key' t ht
      · rcases List.mem_cons.1 ht with ht | ht
        · exact hv.1 t ht.symm
        · exact hheap.given t ht
    · refine hload.caches hf hkey hprovided hv.2 hagain fun id' f' hf' hkey' => ?_
      have hmodule : s.world.sameModule id id' = true := by
        simp [World.sameModule, hf, hf', hkey, hkey']
      simp [World.overtaken, Output.values, hmodule]
  | @populates v w' hprovided hw' =>
    have hexport := hexports rfl hprovided
    obtain ⟨t, ht, hnot⟩ := hok hexport
    obtain rfl : v = .table t := (List.cons.inj ht).1
    obtain ⟨p, hp⟩ := (hload.usesExport_iff hf).1 hexport
    have hcached := (hload.published id f key p hf hkey hp).1
    rw [hcached] at hw'
    have hmodules : w'.modules key = .table p := by
      rw [← Option.some.inj hw']
      exact hcached
    have hunmark : Heap (s.world.unmark id key) s.given :=
      hpop.keep rfl rfl rfl rfl rfl hpop.modules (List.Subset.refl _) hpop.given
    have hheap' := hunmark.populate hw' ((isPlaceholder_congr rfl rfl _).trans hnot)
    simp only [hmodules]
    refine ⟨⟨hheap'.keep rfl rfl rfl rfl rfl hheap'.modules (List.subset_cons_self _ _)
      fun t' ht' => ?_, hload.populates hf hkey hp hnot hw' ?_⟩, fun _ _ h => by cases h⟩
    · rcases List.mem_cons.1 ht' with ht' | ht'
      · exact hheap'.modules key t' (hmodules.trans ht'.symm)
      · exact hheap'.given t' ht'
    · intro id' h
      exact (Bool.or_eq_false_iff.1 h).1
  | asserts v hprovided hnone =>
    have hexport := hexports rfl hprovided
    obtain ⟨t, ht, -⟩ := hok hexport
    obtain rfl : v = .table t := (List.cons.inj ht).1
    obtain ⟨p, hp⟩ := (hload.usesExport_iff hf).1 hexport
    rw [(hload.published id f key p hf hkey hp).1] at hnone
    cases hnone

theorem Inv.code {C : Repl σ} {s : Run σ} (h : Inv C.toConfiguration s) {tables : ℕ → TableData}
    {nextTable : ℕ} {globals : Bytes → Value}
    (hpossible : Possible s (.code tables nextTable globals)) :
    Inv C.toConfiguration (s.exec C (.code tables nextTable globals)) := by
  obtain ⟨hheap, hload⟩ := h
  obtain ⟨hnext, hplaceholder, hmetatables, hglobals⟩ := hpossible
  have hagain : (s.exec C (.code tables nextTable globals)).again = s.again := by
    funext id
    exact Bool.or_false _
  refine ⟨⟨hmetatables, fun m hm => ?_, fun path => ?_, hglobals, fun key t ht => ?_,
    fun t ht => ?_⟩, ?_⟩
  · obtain ⟨hlt, hplain⟩ := hheap.sentinel m hm
    exact ⟨hlt.trans_le hnext, (hplaceholder _).trans hplain⟩
  · exact (hheap.registered path).mono hnext (fun _ hp => (hplaceholder _).symm.trans hp)
      (List.Subset.refl _)
  · exact (hheap.modules key t ht).trans_le hnext
  · exact (hheap.given t ht).trans_le hnext
  · rw [hagain]
    exact hload.keep rfl rfl rfl rfl hplaceholder

theorem Fresh.inv {C : Configuration σ} {s : Run σ} (h : Fresh s) : Inv C s := by
  obtain ⟨hmodules, -, hprovided, hmeta, hframes, hgiven, -, -, hmetatables, hregistered, hglobals⟩ := h
  refine ⟨⟨?_, fun m hm => ?_, hregistered, ?_, fun key t ht => ?_, fun t ht => ?_⟩, ?_⟩
  · rw [hgiven]
    exact hmetatables
  · rw [hmeta] at hm
    cases hm
  · rw [hgiven]
    exact hglobals
  · simp [hmodules] at ht
  · simp [hgiven] at ht
  · constructor
    all_goals simp [hframes, hmodules, hprovided, hgiven, World.isPlaceholder, World.metatableOf]

theorem Inv.step {C : Repl σ} {s : Run σ} (h : Inv C.toConfiguration s) {input : Input}
    (hpossible : Possible s input) (hmeets : Meets s input) :
    Inv C.toConfiguration (s.exec C input) ∧
      ∀ key error, (s.exec C input).last = .raised (some key) error →
        (s.exec C input).world.modules key = .nil ∧ (s.exec C input).world.provided key = false := by
  cases input with
  | require requirerChunkname arg => exact h.require requirerChunkname arg
  | stop id status results => exact h.stop hpossible hmeets
  | code tables nextTable globals => exact ⟨h.code hpossible, nofun⟩
  | registerModule args => exact hpossible.elim
  | clearCacheEntry arg => exact hpossible.elim
  | clearCache => exact hpossible.elim

theorem Inv.good {C : Configuration σ} {s : Run σ} (h : Inv C s)
    (hfailed : ∀ key error, s.last = .raised (some key) error →
      s.world.modules key = .nil ∧ s.world.provided key = false) : Good s := by
  refine ⟨hfailed, fun v hv hp => ?_⟩
  obtain ⟨key, howned, -⟩ := h.loading.owned v hv hp
  exact ⟨key, howned⟩

/-- **A failed load leaves nothing behind**, and nobody keeps a placeholder after the module has
loaded, in every run where no module with exports fails to load, and no load fails or ends after a
placeholder was returned for its module when another load of the module has overtaken it. -/
theorem good_of_reach {C : Repl σ} {s : Run σ} (h : Machine.Reach (loads C) Meets s) : Good s := by
  have hinv := h.invariant (I := fun s => Inv C.toConfiguration s ∧ ∀ key error,
    s.last = .raised (some key) error → s.world.modules key = .nil ∧ s.world.provided key = false)
    (fun s hs => ⟨Fresh.inv hs, by rw [hs.last]; exact nofun⟩)
    fun s input hs hpossible hmeets => hs.1.step hpossible hmeets
  exact hinv.1.good hinv.2

/-- One module with exports, which every path leads to. -/
def exportRepl : Repl Unit where
  reset _ _ := (.Success, ())
  jumpToAlias _ _ := (.NotFound, ())
  toAliasOverride := none
  toAliasFallback := none
  toParent _ := (.Success, ())
  toChild _ _ := (.Success, ())
  resetIsDirectoryModule := none
  isModulePresent _ := true
  getChunkname _ := some (text "@/m.luau")
  getLoadname _ := some (text "/m.luau")
  getCacheKey _ := some (text "/m.luau")
  getConfigStatus _ := .Absent
  getAlias := none
  getConfig _ := none
  parseConfig _ := .ok []
  extractLuauConfig _ := .ok []
  selfIsSelf := true
  rounds := 0
  reset_result _ _ _ := rfl
  reset_state _ _ _ _ := rfl
  isRequireAllowed _ := true
  script _ := .compiled true
  shortCircuit := true
  loadname_eq _ := rfl
  cyclic := rfl

/-- A run with one table begins. -/
def freshRun : Run Unit where
  world :=
    { ctx := (), registered := fun _ => .nil, modules := fun _ => .nil, resolved := fun _ => none
      provided := fun _ => false, placeholderMetatable := none, tables := fun _ => {}
      nextTable := 1, globals := fun _ => .nil, frames := fun _ => none, nextFrame := 0 }
  given := []
  again _ := false
  last := .done

theorem freshRun_fresh : Fresh freshRun := by
  constructor
  all_goals simp [freshRun, HasMetatables, Has, World.isPlaceholder, World.metatableOf]

/-- The module is required. -/
def requireModule : Input := .require (text "@/main.luau") (.string (text "./m"))

/-- A module requires itself, and gets the placeholder; then its load ends. -/
theorem good_of_reach_self :
    Good ([requireModule, requireModule, .stop 0 .ok [.table 0]].foldl (Run.exec exportRepl) freshRun) := by
  refine good_of_reach (C := exportRepl) (Machine.Reach.run (.init freshRun_fresh) ?_)
  refine ⟨trivial, trivial, trivial, trivial, ⟨_, rfl, fun v hv => ?_, fun _ => ⟨0, rfl, ?_⟩⟩,
    fun f key hf hkey => ⟨fun hfails => ?_, fun _ hagain => ?_⟩, trivial⟩
  · obtain rfl := List.mem_singleton.1 hv
    refine ⟨fun t ht => ?_, fun hp => ?_⟩
    · obtain rfl := Value.table.inj ht
      decide
    · exact absurd hp (by decide)
  · decide
  · cases hf
    exact absurd hfails (by decide)
  · exact absurd hagain (by decide)

/-- The module fails: its placeholder stays in the cache. -/
theorem failed_export_not_good : ¬ ∀ s, Machine.Reach (loads exportRepl) (fun _ _ => True) s → Good s := by
  intro h
  have hreach : Machine.Reach (loads exportRepl) (fun _ _ => True)
      ([requireModule, .stop 0 (.failed .nil) []].foldl (Run.exec exportRepl) freshRun) := by
    refine Machine.Reach.run (.init freshRun_fresh) ⟨trivial, trivial, ?_, trivial, trivial⟩
    exact ⟨_, rfl, by simp, trivial⟩
  have := (h _ hreach).failed (text "/m.luau") (.message (text "unknown error while running module"))
    (by decide)
  exact absurd this.1 (by decide)

end Require

end Jaci
