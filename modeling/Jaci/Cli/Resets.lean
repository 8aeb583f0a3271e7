import Jaci.Cli.VfsNavigator
import Jaci.Lib.Machine

/-!
# Is a module found again under its name?

A module is loaded under the path at which the navigator has found it, and its own requires start
with a reset to that path.  The reset strips a suffix and looks the rest up, which is the first
look-up again in most cases.  The others are excluded by `Resettable`.

* `reset_again` : a file that was found is found again;
* `navigations` : the machine of all resets and steps;
* `resets_again` : **the same for every run**;
* `not_resets_again` : a declaration file beside a native library is ambiguous under its own name.
-/

namespace Jaci

namespace Cli

open Wire Require

section

variable (fs : FileSystem)

/-- The absolute module path of a file. -/
def absoluteModule (f : Path) : Path :=
  if isAbsolutePath f then getModulePath f
  else getModulePath (normalizePath ((fs.getCurrentWorkingDirectory.getD []) ++ slash :: f))

/-- The file that is found at the module path, if there is one, can be found under its own path. -/
structure Resettable (m : Path) : Prop where
  normal : ∀ e, Finds fs m e → normalizePath (m ++ e) = m ++ e
  /-- A relative path has no more components than are kept, also below the working directory. -/
  shallow : ∀ e cwd, Finds fs m e → isAbsolutePath (m ++ e) = false →
    fs.getCurrentWorkingDirectory = some cwd →
      Shallow (m ++ e) ∧ Shallow (cwd ++ slash :: (m ++ e))
  /-- The path of a declaration file without the second half of its suffix stands for that file. -/
  declaration : ∀ s ∈ scriptSuffixes, Finds fs m (declared ++ s) → Finds fs (m ++ declared) s
  /-- A script that is called `init.d` or `index.d` is the entry point of its directory. -/
  collapsed : ∀ d n s, n ∈ entryNames → s ∈ scriptSuffixes → m = d ++ slash :: (n ++ declared) →
    Finds fs m s → Finds fs d (slash :: (n ++ declared) ++ s)
  /-- If it is the entry point of the working directory, or of one above, then that directory is
  found under its absolute path, too. -/
  top : ∀ e k, Finds fs m e → getModulePath (m ++ e) = climbed k →
    Present fs (absoluteModule fs (m ++ e))

end

section Reset

variable {fs : FileSystem} {m e f : Path}

theorem beforeSlash_of_absolute (h : isAbsolutePath f = true) : beforeSlash f = [] := by
  cases f with
  | nil => rfl
  | cons c f =>
    have hc : c = slash := by simpa [isAbsolutePath] using h
    rw [beforeSlash, hc, List.idxOf_cons_self, List.take_zero]

theorem isAbsolutePath_joinKept (h : isAbsolutePath f = true) (kept : List Path) :
    isAbsolutePath (joinKept f kept) = true := by
  rw [joinKept, h, if_pos rfl, headD_splitOnP h, List.nil_append, joinComponents]
  split_ifs <;> rfl

/-- A path that is absolute stays so, if its normal form is defined. -/
theorem isAbsolutePath_normalizePath (h : isAbsolutePath f = true) :
    normalizePath f = [] ∨ isAbsolutePath (normalizePath f) = true := by
  unfold normalizePath
  split
  · exact .inl rfl
  · exact .inr (isAbsolutePath_joinKept h _)

theorem beforeSlash_normalizePath (h : isAbsolutePath f = true) :
    beforeSlash (normalizePath f) = [] := by
  rcases isAbsolutePath_normalizePath h with hnil | habs
  · rw [hnil]
    rfl
  · exact beforeSlash_of_absolute habs

/-- Where a reset goes to, for a path in normal form. -/
theorem resetPaths_eq (hf : normalizePath f = f) (hcwd : isAbsolutePath f = false → fs.cwd ≠ none)
    (v : VfsNavigator) :
    resetPaths fs f v = some { v with
      modulePath := getModulePath f
      absoluteModulePath := absoluteModule fs f
      absolutePathPrefix := [] } := by
  cases habs : isAbsolutePath f with
  | true =>
    simp only [resetPaths, hf, habs, if_true, absoluteModule, beforeSlash_of_absolute habs]
  | false =>
    obtain ⟨c, hc⟩ := Option.ne_none_iff_exists'.mp (hcwd habs)
    have hjoined : beforeSlash (normalizePath ((slash :: [slash].intercalate c) ++ slash :: f)) = [] :=
      beforeSlash_normalizePath rfl
    simp only [resetPaths, hf, habs, Bool.false_eq_true, if_false, absoluteModule,
      FileSystem.getCurrentWorkingDirectory, hc, Option.map_some, Option.getD_some, hjoined]

/-- The module path of a file that was found stands for that file. -/
theorem finds_getModulePath (h : Finds fs m e) (hr : Resettable fs m) :
    ∃ e', Finds fs (getModulePath (m ++ e)) e' ∧ getModulePath (m ++ e) ++ e' = m ++ e := by
  have hb : ∀ c ∈ m ++ e, c ≠ backslash := fun c hc =>
    ne_backslash_of_mem ((hr.normal e h).symm ▸ hc)
  rcases h.mem with ⟨he, hm⟩ | he
  · have hkinds : ∀ e ∈ kSuffixes ++ kNativeSuffixes, e ∈ scriptSuffixes ∨
        (∃ s ∈ scriptSuffixes, e = declared ++ s) ∨ e ∈ kNativeSuffixes := by decide
    rcases hkinds e he with hs | ⟨s, hs, rfl⟩ | hs
    · rcases getModulePath_script hs hm hb with hpath | ⟨d, n, hn, hd, hpath⟩
      · rw [hpath]
        exact ⟨e, h, rfl⟩
      · -- The script is taken for an entry point.
        rw [hpath]
        refine ⟨_, hr.collapsed d n e hn hs hd h, ?_⟩
        rw [hd]
        simp
    · rw [getModulePath_declaration hs hm hb]
      exact ⟨s, hr.declaration s hs h, List.append_assoc _ _ _⟩
    · rw [getModulePath_native hs hb]
      exact ⟨e, h, rfl⟩
  · rw [getModulePath_entry he hb]
    exact ⟨e, h, rfl⟩

theorem Finds.ne_concat_slash (h : Finds fs m e) (q : Path) : m ++ e ≠ q ++ [slash] := by
  have hlast : ∀ e ∈ kSuffixes ++ kNativeSuffixes ++ (kInitSuffixes ++ kIndexSuffixes),
      e ≠ [] ∧ e.getLast? ≠ some slash := by decide
  have he : e ∈ kSuffixes ++ kNativeSuffixes ++ (kInitSuffixes ++ kIndexSuffixes) := by
    rcases h.mem with ⟨he, -⟩ | he
    · exact List.mem_append_left _ he
    · exact List.mem_append_right _ he
  obtain ⟨hne, hslash⟩ := hlast e he
  intro heq
  have hend : (m ++ e).getLast? = some slash := by rw [heq]; simp
  rw [List.getLast?_append_of_ne_nil _ hne] at hend
  exact hslash hend

/-- The absolute module path of a file that was found is present. -/
theorem present_absoluteModule (h : Finds fs m e) (hr : Resettable fs m)
    (hcwd : isAbsolutePath (m ++ e) = false → fs.cwd ≠ none) :
    Present fs (absoluteModule fs (m ++ e)) := by
  obtain ⟨e', hfinds, -⟩ := finds_getModulePath h hr
  cases habs : isAbsolutePath (m ++ e) with
  | true =>
    rw [absoluteModule, habs, if_pos rfl]
    exact .inl ⟨e', hfinds⟩
  | false =>
    obtain ⟨c, hc⟩ := Option.ne_none_iff_exists'.mp (hcwd habs)
    have hshallow := hr.shallow e (slash :: [slash].intercalate c) h habs
      (by rw [FileSystem.getCurrentWorkingDirectory, hc, Option.map_some])
    have hnormal : referencePath (m ++ e) = m ++ e :=
      (normalizePath_eq hshallow.1).symm.trans (hr.normal e h)
    obtain ⟨k, g, hg, hjoin⟩ := referencePath_relative hnormal habs h.ne_concat_slash
    have hjoined := (normalizePath_eq hshallow.2).trans (hjoin c (fs.names c hc))
    obtain ⟨r, hprefix, hunder⟩ := getModulePath_under g
    -- The suffix is cut off in the same way from the relative and the absolute path.
    have hrel : getModulePath (m ++ e) = climbed k ++ r := by
      rw [hg]
      refine hunder _ fun d hd => ne_backslash_of_mem (p := m ++ e) ?_
      rw [hr.normal e h, hg]
      exact hd
    have hmodule : absoluteModule fs (m ++ e) = directory c k ++ r := by
      rw [absoluteModule, habs, if_neg Bool.false_ne_true]
      show getModulePath (normalizePath ((fs.cwd.map fun c => _).getD [] ++ _)) = _
      rw [hc, Option.map_some, Option.getD_some, hjoined]
      exact hunder _ fun d hd => ne_backslash_of_mem (hjoined.symm ▸ hd)
    cases r with
    | nil =>
      rw [List.append_nil] at hrel
      exact hr.top e k h hrel
    | cons d r =>
      obtain rfl : d = slash := (List.cons_prefix_cons.mp hprefix).1
      rw [hmodule]
      refine .inl ⟨e', (hrel ▸ hfinds).congr (lastComponent_congr _ _ _) (fun s => ?_)
        (fs.isDirectory_relative c hc k r)⟩
      have hrelative := fs.isFile_relative c hc k (r ++ s)
      simpa using hrelative

/-- **A file that was found is found again**, by any navigator that is reset to its path. -/
theorem reset_again (h : Finds fs m e) (hr : Resettable fs m)
    (hcwd : isAbsolutePath (m ++ e) = false → fs.cwd ≠ none) (v : VfsNavigator) :
    (resetToPath fs (m ++ e) v).1 = .Success ∧ (resetToPath fs (m ++ e) v).2.realPath = m ++ e := by
  obtain ⟨e', hfinds, hpath⟩ := finds_getModulePath h hr
  have hreal := hfinds.lookup
  have habsolute := (getRealPath_status fs _).mpr (present_absoluteModule h hr hcwd)
  rw [hpath] at hreal
  simp only [resetToPath, resetPaths_eq (hr.normal e h) hcwd, updateRealPaths, hreal, habsolute]
  simp

end Reset

/-! ### Ordinary modules -/

section Ordinary

variable {fs : FileSystem} {m e e' : Path}

theorem Finds.eq_of_realPath (h : Finds fs m e) (hreal : (getRealPath fs m).realPath = m ++ e') :
    e = e' := by
  rw [h.lookup] at hreal
  exact List.append_cancel_left hreal

/-- A script that is not called `init.d` or `index.d` is found again. -/
theorem Resettable.of_script {s : Path} (hs : s ∈ scriptSuffixes)
    (hreal : (getRealPath fs m).realPath = m ++ s) (hnormal : normalizePath (m ++ s) = m ++ s)
    (hshallow : ∀ cwd, fs.getCurrentWorkingDirectory = some cwd →
      Shallow (m ++ s) ∧ Shallow (cwd ++ slash :: (m ++ s)))
    (hname : ∀ n ∈ entryNames, hasSuffix m (slash :: (n ++ declared)) = false)
    (habs : (getRealPath fs (absoluteModule fs (m ++ s))).status = .Success) : Resettable fs m where
  normal e he := he.eq_of_realPath hreal ▸ hnormal
  shallow e cwd he _ hcwd := he.eq_of_realPath hreal ▸ hshallow cwd hcwd
  declaration s' hs' he := by
    have hne : ∀ s' ∈ scriptSuffixes, ∀ s ∈ scriptSuffixes, declared ++ s' ≠ s := by decide
    exact absurd (he.eq_of_realPath hreal) (hne s' hs' s hs)
  collapsed d n s' hn _ hd _ := by
    have hsuffix : hasSuffix m (slash :: (n ++ declared)) = true := by
      rw [hasSuffix, List.isSuffixOf_iff_suffix, hd]
      exact List.suffix_append _ _
    rw [hname n hn] at hsuffix
    cases hsuffix
  top e k he _ := he.eq_of_realPath hreal ▸ (getRealPath_status fs _).mp habs

/-- Nothing is found at a directory without an entry point. -/
theorem Resettable.of_bare (hreal : (getRealPath fs m).realPath = m) : Resettable fs m := by
  have hno : ∀ e, ¬ Finds fs m e := by
    intro e he
    have hnil : e = [] := he.eq_of_realPath (hreal.trans (List.append_nil m).symm)
    rcases he.mem with ⟨hmem, -⟩ | hmem
    · exact (show [] ∉ kSuffixes ++ kNativeSuffixes by decide) (hnil ▸ hmem)
    · exact (show [] ∉ kInitSuffixes ++ kIndexSuffixes by decide) (hnil ▸ hmem)
  exact ⟨fun e he => absurd he (hno e), fun e _ he => absurd he (hno e), fun _ _ he => absurd he (hno _),
    fun _ _ _ _ _ _ he => absurd he (hno _), fun e _ he => absurd he (hno e)⟩

end Ordinary

/-! ### Runs -/

/-- A navigator, with the status of its last step. -/
structure Session where
  status : NavigationStatus
  navigator : VfsNavigator

/-- What is done with a navigator. -/
inductive Step where
  | resetToPath (path : Path)
  | toParent
  | toChild (name : Path)

section Runs

variable (fs : FileSystem)

def Step.paths : Step → VfsNavigator → Option VfsNavigator
  | .resetToPath path, v => resetPaths fs path v
  | .toParent, v => parentPaths v
  | .toChild name, v => childPaths name v

def Session.exec (s : Session) : Step → Session
  | .resetToPath path => ⟨(resetToPath fs path s.navigator).1, (resetToPath fs path s.navigator).2⟩
  | .toParent => ⟨(toParent fs s.navigator).1, (toParent fs s.navigator).2⟩
  | .toChild name => ⟨(toChild fs name s.navigator).1, (toChild fs name s.navigator).2⟩

def navigations : Machine Session Step where
  init s := s = ⟨.NotFound, .new⟩
  enabled _ _ := True
  exec := Session.exec fs

/-- Where the step goes, a file that is found can be found under its own path; this does not matter
if the absolute path is not found, as nothing is written then. -/
def Settles (s : Session) (step : Step) : Prop :=
  ∀ v, step.paths fs s.navigator = some v → Present fs v.absoluteModulePath →
    Resettable fs v.modulePath

/-- A reset to the path finds it again. -/
def FoundAgain (f : Path) : Prop :=
  ∀ v, (resetToPath fs f v).1 = .Success ∧ (resetToPath fs f v).2.realPath = f

/-- What holds in a run. -/
structure NavigatorInv (v : VfsNavigator) : Prop where
  found : fs.isFile v.realPath = true → FoundAgain fs v.realPath
  start : v.absolutePathPrefix = []
  relative : fs.cwd = none → v.modulePath = [] ∨ isAbsolutePath v.modulePath = true

end Runs

section Runs

variable {fs : FileSystem} {s : Session}

theorem isAbsolutePath_take {f : Path} (h : isAbsolutePath f = true) (n : ℕ) :
    f.take n = [] ∨ isAbsolutePath (f.take n) = true := by
  cases f with
  | nil => cases h
  | cons c f =>
    cases n with
    | zero => exact .inl rfl
    | succ n => exact .inr h

theorem isAbsolutePath_getModulePath {f : Path} (h : isAbsolutePath f = true)
    (hb : ∀ c ∈ f, c ≠ backslash) :
    getModulePath f = [] ∨ isAbsolutePath (getModulePath f) = true := by
  rw [getModulePath_eq hb]
  split
  · exact isAbsolutePath_take h _
  · exact .inr h

/-- A path below an absolute one, or below the root, is absolute. -/
theorem isAbsolutePath_below {m g : Path} (h : m = [] ∨ isAbsolutePath m = true) :
    normalizePath (m ++ slash :: g) = [] ∨
      isAbsolutePath (normalizePath (m ++ slash :: g)) = true := by
  refine isAbsolutePath_normalizePath ?_
  rcases h with rfl | h
  · rfl
  · cases m with
    | nil => rfl
    | cons c m => exact h

/-- A file that is found at an absolute path, or at the empty one, has an absolute path. -/
theorem isAbsolutePath_found {m e : Path} (h : Finds fs m e) (hr : Resettable fs m)
    (hm : m = [] ∨ isAbsolutePath m = true) : isAbsolutePath (m ++ e) = true := by
  rcases hm with rfl | hm
  · -- A suffix alone is not in normal form, unless it is that of an entry point.
    have hnormal : normalizePath e = e := hr.normal e h
    rcases h.mem with ⟨he, -⟩ | he
    · exact absurd hnormal
        ((show ∀ e ∈ kSuffixes ++ kNativeSuffixes, normalizePath e ≠ e by decide) e he)
    · exact (show ∀ e ∈ kInitSuffixes ++ kIndexSuffixes, isAbsolutePath e = true by decide) e he
  · cases m with
    | nil => cases hm
    | cons c m => exact hm

/-- The invariant does not depend on where the navigator is, or on the flag. -/
theorem NavigatorInv.move {v w : VfsNavigator} (h : NavigatorInv fs v) (hreal : w.realPath = v.realPath)
    (hstart : w.absolutePathPrefix = [])
    (hrel : fs.cwd = none → w.modulePath = [] ∨ isAbsolutePath w.modulePath = true) :
    NavigatorInv fs w := ⟨hreal ▸ h.found, hstart, hrel⟩

/-- Wherever a step goes, the rest of the navigator stays as it was. -/
theorem NavigatorInv.paths {v w : VfsNavigator} (h : NavigatorInv fs v) {step : Step}
    (hw : step.paths fs v = some w) : NavigatorInv fs w := by
  cases step with
  | resetToPath path =>
    simp only [Step.paths, resetPaths] at hw
    split_ifs at hw with habs
    · obtain rfl := Option.some.inj hw
      exact h.move rfl (beforeSlash_of_absolute habs) fun _ =>
        isAbsolutePath_getModulePath habs fun c hc => ne_backslash_of_mem hc
    · cases hc : fs.cwd with
      | none =>
        simp only [FileSystem.getCurrentWorkingDirectory, hc, Option.map_none] at hw
        cases hw
      | some c =>
        simp only [FileSystem.getCurrentWorkingDirectory, hc, Option.map_some] at hw
        obtain rfl := Option.some.inj hw
        exact h.move rfl (beforeSlash_normalizePath rfl)
          fun hnone => by rw [hc] at hnone; cases hnone
  | toParent =>
    simp only [Step.paths, parentPaths] at hw
    split_ifs at hw
    obtain rfl := Option.some.inj hw
    exact h.move rfl h.start fun hnone => isAbsolutePath_below (h.relative hnone)
  | toChild name =>
    simp only [Step.paths, childPaths] at hw
    split_ifs at hw
    obtain rfl := Option.some.inj hw
    exact h.move rfl h.start fun hnone => isAbsolutePath_below (h.relative hnone)

/-- A file that is written down by `updateRealPaths` is found again. -/
theorem NavigatorInv.update {v : VfsNavigator} (h : NavigatorInv fs v)
    (hr : Present fs v.absoluteModulePath → Resettable fs v.modulePath) :
    NavigatorInv fs (updateRealPaths fs v).2 := by
  rw [updateRealPaths]
  by_cases hfail : (getRealPath fs v.modulePath).status ≠ .Success ∨
      (getRealPath fs v.absoluteModulePath).status ≠ .Success
  · rw [if_pos hfail]
    exact h
  rw [if_neg hfail, h.start]
  rw [not_or, not_not, not_not] at hfail
  refine ⟨fun hfile => ?_, rfl, h.relative⟩
  simp only [List.nil_append, ite_self] at hfile ⊢
  rcases (getRealPath_status fs _).mp hfail.1 with ⟨e, he⟩ | hbare
  · rw [he.lookup]
    have hreset := hr ((getRealPath_status fs _).mp hfail.2)
    exact reset_again he hreset fun hrel hnone =>
      absurd hrel (by rw [isAbsolutePath_found he hreset (h.relative hnone)]; simp)
  · -- A directory is no file.
    rw [hbare.lookup] at hfile
    have hdir := fs.disjoint _ hfile
    rw [hbare.directory] at hdir
    cases hdir

/-- **A step keeps the invariant.** -/
theorem NavigatorInv.exec (h : NavigatorInv fs s.navigator) {step : Step}
    (hok : Settles fs s step) : NavigatorInv fs (s.exec fs step).navigator := by
  have hmoved : ∀ w, step.paths fs s.navigator = some w →
      NavigatorInv fs (updateRealPaths fs w).2 := fun w hw => (h.paths hw).update (hok w hw)
  cases step with
  | resetToPath path =>
    simp only [Session.exec, resetToPath]
    cases hw : resetPaths fs path s.navigator with
    | none => exact h
    | some w =>
      have hupdated := hmoved w hw
      exact hupdated.move rfl hupdated.start hupdated.relative
  | toParent =>
    simp only [Session.exec, toParent]
    cases hw : parentPaths s.navigator with
    | none => exact h
    | some w => exact hmoved w hw
  | toChild name =>
    simp only [Session.exec, toChild]
    cases hw : childPaths name s.navigator with
    | none => exact h
    | some w => exact hmoved w hw

/-- **A file that a run has found is found again** under its own path, if every step of the run
settles. -/
theorem resets_again (h : (navigations fs).Reach (Settles fs) s)
    (hfile : fs.isFile s.navigator.realPath = true) : FoundAgain fs s.navigator.realPath := by
  refine (h.invariant (I := fun s => NavigatorInv fs s.navigator) ?_ ?_).found hfile
  · rintro s rfl
    refine ⟨fun hnil => ?_, rfl, fun _ => .inl rfl⟩
    have hempty : fs.isFile [] = true := hnil
    rw [fs.isFile_nil] at hempty
    cases hempty
  · exact fun s step hinv _ hok => hinv.exec hok

end Runs

/-! ### A directory -/

section Listing

/-- The names that lead to a path. -/
def locate (cwd : List Path) (p : Path) : List Path :=
  (p.splitOnP isSeparator).foldl (keepComponent true) (if isAbsolutePath p then [] else cwd)

theorem isAbsolutePath_climbed (k : ℕ) (g : Path) :
    isAbsolutePath (climbed k ++ slash :: g) = false := by
  cases k with
  | zero => rfl
  | succ k =>
    cases k with
    | zero => rfl
    | succ k => rw [climbed, if_neg (Nat.succ_ne_zero _), Nat.add_sub_cancel, List.replicate_succ]; rfl

theorem locate_relative {cwd : List Path} (hcwd : ∀ n ∈ cwd, IsName n) (k : ℕ) (g : Path) :
    locate cwd (climbed k ++ slash :: g) = locate cwd (directory cwd k ++ slash :: g) := by
  have htake : ∀ n ∈ cwd.take (cwd.length - k), IsName n := fun n hn =>
    hcwd n (List.mem_of_mem_take hn)
  have hclimbed : climbed k ++ slash :: g =
      dirs (if k = 0 then [dot] else List.replicate k dotdot) ++ g := by
    rw [← climbed_slash]
    simp
  have hdirectory : directory cwd k ++ slash :: g = slash :: (dirs (cwd.take (cwd.length - k)) ++ g) := by
    rw [← List.cons_append, ← directory_slash]
    simp
  rw [locate, locate, isAbsolutePath_climbed, if_neg Bool.false_ne_true, hclimbed,
    splitOnP_dirs (separator_climbed k), List.foldl_append, foldl_keepComponent_climbed hcwd,
    hdirectory, show isAbsolutePath (slash :: (dirs (cwd.take (cwd.length - k)) ++ g)) = true from rfl,
    if_pos rfl, List.splitOnP_cons_eq_if_modifyHead, if_pos isSeparator_slash, List.foldl_cons,
    keepComponent_nil, splitOnP_dirs fun n hn => (htake n hn).separator, List.foldl_append,
    foldl_keepComponent_names htake, List.nil_append]

/-- A file system with these files and directories. -/
def listing (cwd : List Path) (hcwd : ∀ n ∈ cwd, IsName n) (files directories : List (List Path)) :
    FileSystem where
  isFile p := p ≠ [] ∧ p.getLast? ≠ some slash ∧ locate cwd p ∈ files
  isDirectory p := p ≠ [] ∧ locate cwd p ∈ directories ∧ locate cwd p ∉ files
  resolveSymlink := some
  cwd := some cwd
  names c hc := Option.some.inj hc ▸ hcwd
  isFile_nil := by simp
  disjoint p hp := by
    simp only [decide_eq_true_eq] at hp
    simp [hp.2.2]
  isFile_relative c hc k g := by
    obtain rfl := Option.some.inj hc
    rw [locate_relative hcwd]
    simp [List.getLast?_append]
  isDirectory_relative c hc k g := by
    obtain rfl := Option.some.inj hc
    rw [locate_relative hcwd]
    simp

/-- The directory `/w` with a module `foo`, of which there is a declaration file, and a library
`foo.d.so` beside it. -/
def shadowed : FileSystem :=
  listing [text "w"] (by
    intro n hn
    rw [List.mem_singleton.mp hn]
    exact ⟨by decide, by decide, by decide, separator_of_all rfl⟩)
    [[text "w", text "main.luau"], [text "w", text "foo.d.luau"], [text "w", text "foo.d.so"],
      [text "w", text "lib.luau"]] [[], [text "w"]]

/-- A program requires a module. -/
def requires (name : Path) : Session :=
  [.resetToPath (text "main.luau"), .toParent, .toChild name].foldl (navigations shadowed).exec
    ⟨.NotFound, .new⟩

theorem requires_reach (name : Path) {ok : Session → Step → Prop}
    (hok : (navigations shadowed).Allowed ok ⟨.NotFound, .new⟩
      [.resetToPath (text "main.luau"), .toParent, .toChild name]) :
    (navigations shadowed).Reach ok (requires name) := Machine.Reach.run (.init rfl) hok

/-- A declaration file beside a native library is ambiguous under its own name. -/
theorem not_resets_again : ¬ ∀ (fs : FileSystem) (s : Session),
    (navigations fs).Reach (fun _ _ => True) s → s.status = .Success →
    fs.isFile s.navigator.realPath = true →
    (resetToPath fs s.navigator.realPath s.navigator).1 = .Success ∧
      (resetToPath fs s.navigator.realPath s.navigator).2.realPath = s.navigator.realPath := by
  intro h
  have hrun : (requires (text "foo")).status = .Success ∧
      shadowed.isFile (requires (text "foo")).navigator.realPath = true ∧
      (resetToPath shadowed (requires (text "foo")).navigator.realPath
        (requires (text "foo")).navigator).1 ≠ .Success := by decide
  exact hrun.2.2 (h shadowed _
    (requires_reach _ ⟨trivial, trivial, trivial, trivial, trivial, trivial, trivial⟩)
    hrun.1 hrun.2.1).1

/-- Where a step of that program goes. -/
theorem settles_of_modulePath {s : Session} {step : Step} {m : Path}
    (hm : (step.paths shadowed s.navigator).map (·.modulePath) = some m)
    (hr : Resettable shadowed m) : Settles shadowed s step := by
  intro v hv _
  rw [hv, Option.map_some, Option.some.injEq] at hm
  rw [hm]
  exact hr

theorem shallow_in_directory {p : Path} (h : Shallow p ∧ Shallow (text "/w" ++ slash :: p)) (cwd : Path)
    (hcwd : shadowed.getCurrentWorkingDirectory = some cwd) :
    Shallow p ∧ Shallow (cwd ++ slash :: p) := by
  obtain rfl : text "/w" = cwd := Option.some.inj hcwd
  exact h

/-- The other module is found again. -/
theorem lib_resets_again : FoundAgain shadowed (text "./lib.luau") := by
  have hmain : Resettable shadowed (text "./main") :=
    .of_script (s := text ".luau") (by decide) (by decide) (by decide)
      (shallow_in_directory (by decide)) (by decide) (by decide)
  have hhere : Resettable shadowed (text "./") := .of_bare (by decide)
  have hlib : Resettable shadowed (text "./lib") :=
    .of_script (s := text ".luau") (by decide) (by decide) (by decide)
      (shallow_in_directory (by decide)) (by decide) (by decide)
  have hreach : (navigations shadowed).Reach (Settles shadowed) (requires (text "lib")) :=
    requires_reach _ ⟨trivial, settles_of_modulePath (by decide) hmain, trivial,
      settles_of_modulePath (by decide) hhere, trivial,
      settles_of_modulePath (by decide) hlib, trivial⟩
  have hpath : (requires (text "lib")).navigator.realPath = text "./lib.luau" := by decide
  have hfound := resets_again hreach (by decide)
  rw [hpath] at hfound
  exact hfound

end Listing

end Cli

end Jaci
