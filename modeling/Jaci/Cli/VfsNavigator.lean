import Jaci.Cli.Suffixes
import Mathlib

/-!
# The navigator of the file system

A navigator is at a module path, which it looks up as a file with one of several suffixes, or as the
directory of an entry point; it does so for the path as it is given and for the absolute one.

* `FileSystem` : what the navigator asks;
* `getRealPath` : the look-up;
* `VfsNavigator` : its state, and `resetToPath`, `toParent`, `toChild`;
* `Finds`, `Bare` : what is found, and `getRealPath_status`.

An assertion of the source that fails has no effect.
-/

namespace Jaci

namespace Cli

open Wire Require

/-! ### File systems -/

/-- A POSIX file system without symbolic links, with its working directory. -/
structure FileSystem where
  isFile : Path → Bool
  isDirectory : Path → Bool
  resolveSymlink : Path → Option Path
  /-- The names of the working directory, if it can be read. -/
  cwd : Option (List Path)
  names : ∀ c, cwd = some c → ∀ n ∈ c, IsName n
  isFile_nil : isFile [] = false
  disjoint : ∀ p, isFile p = true → isDirectory p = false
  /-- A relative path is one below the working directory. -/
  isFile_relative : ∀ c, cwd = some c → ∀ k g,
    isFile (climbed k ++ slash :: g) = isFile (directory c k ++ slash :: g)
  /-- A relative path is one below the working directory. -/
  isDirectory_relative : ∀ c, cwd = some c → ∀ k g,
    isDirectory (climbed k ++ slash :: g) = isDirectory (directory c k ++ slash :: g)

def FileSystem.getCurrentWorkingDirectory (fs : FileSystem) : Option Path :=
  fs.cwd.map fun c => slash :: [slash].intercalate c

inductive NavigationStatus where
  | Success | Ambiguous | NotFound
deriving DecidableEq

structure ResolvedRealPath where
  status : NavigationStatus
  realPath : Path
deriving DecidableEq

section

variable (fs : FileSystem)

/-! ### The look-up -/

/-- The closure `trySuffixes` of `getRealPath`: it fails at the second file. -/
def trySuffixes (modulePath : Path) : List Path → Option Path → Option (Option Path)
  | [], found => some found
  | s :: suffixes, found =>
    if fs.isFile (modulePath ++ s) then
      if found.isSome then none else trySuffixes modulePath suffixes (some s)
    else trySuffixes modulePath suffixes found

/-- A plain file, or a native library. -/
def tryFile (modulePath : Path) : Option (Option Path) :=
  match trySuffixes fs modulePath kSuffixes none with
  | none => none
  | some found => trySuffixes fs modulePath kNativeSuffixes found

/-- The entry point of a directory: an init file, or else an index file. -/
def tryEntryPoint (modulePath : Path) (found : Option Path) : Option (Option Path) :=
  match trySuffixes fs modulePath kInitSuffixes found with
  | none => none
  | some found =>
    if found.isNone then trySuffixes fs modulePath kIndexSuffixes found else some found

/-- The loops over the entry points of a directory. -/
def directoryHasEntryPoint (modulePath : Path) : Bool :=
  kInitSuffixes.any (fun s => fs.isFile (modulePath ++ s)) ||
    kIndexSuffixes.any (fun s => fs.isFile (modulePath ++ s))

/-- The suffix that `getRealPath` finds: no result if that is ambiguous. -/
def findSuffix (modulePath : Path) : Option (Option Path) :=
  let isInitOrIndex : Bool := lastComponent modulePath ∈ entryNames
  if isInitOrIndex && fs.isDirectory modulePath then
    match tryEntryPoint fs modulePath none with
    | none => none
    | some found => some (some (found.getD []))
  else
    match if isInitOrIndex then some none else tryFile fs modulePath with
    | none => none
    | some found =>
      if fs.isDirectory modulePath then
        if found.isSome then
          if directoryHasEntryPoint fs modulePath then none else some found
        else
          match
            if directoryHasEntryPoint fs modulePath then tryEntryPoint fs modulePath found
            else some found with
          | none => none
          -- The directory itself counts as present.
          | some found => some (some (found.getD []))
      else some found

def getRealPath (modulePath : Path) : ResolvedRealPath :=
  match findSuffix fs modulePath with
  | none => ⟨.Ambiguous, []⟩
  | some none => ⟨.NotFound, []⟩
  | some (some suffix) => ⟨.Success, modulePath ++ suffix⟩

/-! ### The navigator -/

structure VfsNavigator where
  realPath : Path
  absoluteRealPath : Path
  /-- What comes before the first slash of an absolute path. -/
  absolutePathPrefix : Path
  modulePath : Path
  absoluteModulePath : Path
  /-- The last reset was to the entry point of a directory. -/
  dirModuleReset : Bool
deriving DecidableEq

def VfsNavigator.new : VfsNavigator := ⟨[], [], [], [], [], false⟩

def updateRealPaths (v : VfsNavigator) : NavigationStatus × VfsNavigator :=
  let result := getRealPath fs v.modulePath
  let absoluteResult := getRealPath fs v.absoluteModulePath
  if result.status ≠ .Success ∨ absoluteResult.status ≠ .Success then (result.status, v)
  else
    let absoluteRealPath := v.absolutePathPrefix ++ absoluteResult.realPath
    (.Success, { v with
      realPath :=
        if isAbsolutePath result.realPath then v.absolutePathPrefix ++ result.realPath
        else result.realPath
      absoluteRealPath := (fs.resolveSymlink absoluteRealPath).getD absoluteRealPath })

/-- What comes before the first slash. -/
def beforeSlash (path : Path) : Path := path.take (path.idxOf slash)

/-- Where `resetToPath` goes. -/
def resetPaths (path : Path) (v : VfsNavigator) : Option VfsNavigator :=
  let normalizedPath := normalizePath path
  if isAbsolutePath normalizedPath then
    some { v with
      modulePath := getModulePath normalizedPath
      absoluteModulePath := getModulePath normalizedPath
      absolutePathPrefix := beforeSlash normalizedPath }
  else
    match fs.getCurrentWorkingDirectory with
    | none => none
    | some cwd =>
      let joinedPath := normalizePath (cwd ++ slash :: normalizedPath)
      some { v with
        modulePath := getModulePath normalizedPath
        absoluteModulePath := getModulePath joinedPath
        absolutePathPrefix := beforeSlash joinedPath }

def resetToPath (path : Path) (v : VfsNavigator) : NavigationStatus × VfsNavigator :=
  match resetPaths fs path v with
  | none => (.NotFound, v)
  | some v =>
    let (status, v) := updateRealPaths fs v
    (status, { v with dirModuleReset := status == .Success && isDirectoryModule v.realPath })

/-- Where `toParent` goes. -/
def parentPaths (v : VfsNavigator) : Option VfsNavigator :=
  if v.absoluteModulePath = [slash] ∨ v.absoluteModulePath.count slash = 1 then none
  else
    some { v with
      modulePath := normalizePath (v.modulePath ++ text "/..")
      absoluteModulePath := normalizePath (v.absoluteModulePath ++ text "/..") }

def toParent (v : VfsNavigator) : NavigationStatus × VfsNavigator :=
  match parentPaths v with
  | none => (.NotFound, v)
  | some v =>
    let (status, v) := updateRealPaths fs v
    (if status = .Ambiguous then .Success else status, v)

/-- Where `toChild` goes. -/
def childPaths (name : Path) (v : VfsNavigator) : Option VfsNavigator :=
  if name = text ".config" then none
  else
    some { v with
      dirModuleReset := false
      modulePath := normalizePath (v.modulePath ++ slash :: name)
      absoluteModulePath := normalizePath (v.absoluteModulePath ++ slash :: name) }

def toChild (name : Path) (v : VfsNavigator) : NavigationStatus × VfsNavigator :=
  match childPaths name v with
  | none => (.NotFound, v)
  | some v => updateRealPaths fs v

/-! ### What is found -/

/-- The suffixes of a list with which the path is that of a file. -/
def candidates (m : Path) (suffixes : List Path) : List Path :=
  suffixes.filter fun s => fs.isFile (m ++ s)

/-- The files beside a directory: an entry point is not looked for there. -/
def fileCandidates (m : Path) : List Path :=
  if lastComponent m ∈ entryNames then [] else candidates fs m (kSuffixes ++ kNativeSuffixes)

/-- The module path stands for the file with that suffix: there is only one file, or one entry point
of the directory, where init files come before index files. -/
inductive Finds (m : Path) : Path → Prop where
  | file {e : Path} : fileCandidates fs m = [e] →
    (fs.isDirectory m = true → candidates fs m kInitSuffixes = [] ∧
      candidates fs m kIndexSuffixes = []) → Finds m e
  | init {e : Path} : fs.isDirectory m = true → fileCandidates fs m = [] →
    candidates fs m kInitSuffixes = [e] → Finds m e
  | index {e : Path} : fs.isDirectory m = true → fileCandidates fs m = [] →
    candidates fs m kInitSuffixes = [] → candidates fs m kIndexSuffixes = [e] → Finds m e

/-- The module path stands for a directory without an entry point. -/
structure Bare (m : Path) : Prop where
  directory : fs.isDirectory m = true
  file : fileCandidates fs m = []
  init : candidates fs m kInitSuffixes = []
  index : candidates fs m kIndexSuffixes = []

/-- The module path stands for a file or a directory. -/
def Present (m : Path) : Prop := (∃ e, Finds fs m e) ∨ Bare fs m

end

section Resolve

variable {fs : FileSystem} {m e : Path}

theorem candidates_append (l l' : List Path) :
    candidates fs m (l ++ l') = candidates fs m l ++ candidates fs m l' := List.filter_append _ _

/-- What the closure finds: it fails if there are two files. -/
theorem trySuffixes_eq (l : List Path) (found : Option Path) :
    trySuffixes fs m l found = match found.toList ++ candidates fs m l with
      | [] => some none
      | [e] => some (some e)
      | _ => none := by
  induction l generalizing found with
  | nil => cases found <;> rfl
  | cons s l ih =>
    rw [trySuffixes, candidates, List.filter_cons]
    by_cases hs : fs.isFile (m ++ s) = true
    · rw [if_pos hs, if_pos hs]
      cases found with
      | none => rw [if_neg (by simp), ih]; rfl
      | some e => rfl
    · rw [if_neg hs, if_neg hs, ih]
      rfl

theorem directoryHasEntryPoint_eq_false (fs : FileSystem) (m : Path) :
    directoryHasEntryPoint fs m = false ↔
      candidates fs m kInitSuffixes = [] ∧ candidates fs m kIndexSuffixes = [] := by
  rw [directoryHasEntryPoint, Bool.or_eq_false_iff, candidates, candidates, List.filter_eq_nil_iff,
    List.filter_eq_nil_iff, List.any_eq_false, List.any_eq_false]

/-- The two loops over the files beside a directory are one. -/
theorem tryFile_eq (fs : FileSystem) (m : Path) : tryFile fs m =
    match candidates fs m (kSuffixes ++ kNativeSuffixes) with
    | [] => some none
    | [e] => some (some e)
    | _ => none := by
  simp only [tryFile, trySuffixes_eq, candidates_append]
  rcases candidates fs m kSuffixes with _ | ⟨e, _ | ⟨e', a⟩⟩
  · rfl
  · rfl
  · rfl

theorem tryEntryPoint_eq (fs : FileSystem) (m : Path) : tryEntryPoint fs m none =
    match candidates fs m kInitSuffixes, candidates fs m kIndexSuffixes with
    | [], [] => some none
    | [e], _ => some (some e)
    | [], [e] => some (some e)
    | _, _ => none := by
  simp only [tryEntryPoint, trySuffixes_eq]
  rcases candidates fs m kInitSuffixes with _ | ⟨e, _ | ⟨e', a⟩⟩
  · rcases candidates fs m kIndexSuffixes with _ | ⟨e, _ | ⟨e', a⟩⟩ <;> rfl
  · rfl
  · rfl

/-- What `findSuffix` finds, by the files that there are. -/
theorem findSuffix_eq : findSuffix fs m =
    match fileCandidates fs m, fs.isDirectory m with
    | [], false => some none
    | [e], false => some (some e)
    | [], true =>
      match candidates fs m kInitSuffixes, candidates fs m kIndexSuffixes with
      | [], [] => some (some [])
      | [e], _ => some (some e)
      | [], [e] => some (some e)
      | _, _ => none
    | [e], true =>
      match candidates fs m kInitSuffixes, candidates fs m kIndexSuffixes with
      | [], [] => some (some e)
      | _, _ => none
    | _, _ => none := by
  have hcheck := directoryHasEntryPoint_eq_false fs m
  rw [findSuffix, fileCandidates]
  generalize hc : candidates fs m (kSuffixes ++ kNativeSuffixes) = c at *
  have hfile := tryFile_eq fs m
  have hentry := tryEntryPoint_eq fs m
  rw [hc] at hfile
  generalize candidates fs m kInitSuffixes = a at *
  generalize candidates fs m kIndexSuffixes = b at *
  by_cases hinit : lastComponent m ∈ entryNames <;> cases hd : fs.isDirectory m
  · simp [hinit]
  · simp only [hinit, decide_true, Bool.and_self, if_true, hentry]
    rcases a with _ | ⟨e, _ | ⟨e', a⟩⟩
    · rcases b with _ | ⟨e, _ | ⟨e', b⟩⟩ <;> rfl
    · rfl
    · rfl
  · simp only [hinit, decide_false, Bool.and_self, Bool.false_eq_true, if_false, hfile]
    rcases c with _ | ⟨e, _ | ⟨e', c⟩⟩ <;> rfl
  · simp only [hinit, decide_false, Bool.false_and, Bool.false_eq_true, if_false, if_true, hfile]
    cases hh : directoryHasEntryPoint fs m with
    | false =>
      obtain ⟨rfl, rfl⟩ := hcheck.mp hh
      rcases c with _ | ⟨e, _ | ⟨e', c⟩⟩ <;> rfl
    | true =>
      -- There is an entry point, so that one of the lists is not empty.
      have hne : ¬ (a = [] ∧ b = []) := fun h => absurd (hcheck.mpr h) (by simp [hh])
      rcases c with _ | ⟨e, _ | ⟨e', c⟩⟩
      · simp only [Option.isSome_none, Bool.false_eq_true, if_false, if_true, hentry]
        rcases a with _ | ⟨e, _ | ⟨e', a⟩⟩
        · rcases b with _ | ⟨e, _ | ⟨e', b⟩⟩
          · exact absurd ⟨rfl, rfl⟩ hne
          · rfl
          · rfl
        · rfl
        · rfl
      · rcases a with _ | ⟨e', a⟩
        · rcases b with _ | ⟨e', b⟩
          · exact absurd ⟨rfl, rfl⟩ hne
          · rfl
        · rfl
      · rfl

theorem Finds.lookup (h : Finds fs m e) : getRealPath fs m = ⟨.Success, m ++ e⟩ := by
  rw [getRealPath, findSuffix_eq]
  cases h with
  | file hfile hentry =>
    cases hd : fs.isDirectory m with
    | false => simp [hfile]
    | true =>
      obtain ⟨hinit, hindex⟩ := hentry hd
      simp [hfile, hinit, hindex]
  | init hd hfile hinit => simp [hd, hfile, hinit]
  | index hd hfile hinit hindex => simp [hd, hfile, hinit, hindex]

theorem Bare.lookup (h : Bare fs m) : getRealPath fs m = ⟨.Success, m⟩ := by
  rw [getRealPath, findSuffix_eq]
  simp [h.directory, h.file, h.init, h.index]

/-- What is looked up successfully is present. -/
theorem present_of_success (h : (getRealPath fs m).status = .Success) : Present fs m := by
  rw [getRealPath, findSuffix_eq] at h
  rcases hc : fileCandidates fs m with _ | ⟨e, _ | ⟨e', c⟩⟩ <;> cases hd : fs.isDirectory m <;>
    simp only [hc, hd] at h
  · cases h
  · rcases ha : candidates fs m kInitSuffixes with _ | ⟨e, _ | ⟨e', a⟩⟩
    · rcases hb : candidates fs m kIndexSuffixes with _ | ⟨e, _ | ⟨e', b⟩⟩
      · exact .inr ⟨hd, hc, ha, hb⟩
      · exact .inl ⟨e, .index hd hc ha hb⟩
      · simp only [ha, hb] at h
        cases h
    · exact .inl ⟨e, .init hd hc ha⟩
    · simp only [ha] at h
      cases h
  · exact .inl ⟨e, .file hc fun hd' => absurd (hd.symm.trans hd') (by simp)⟩
  · rcases ha : candidates fs m kInitSuffixes with _ | ⟨e', a⟩
    · rcases hb : candidates fs m kIndexSuffixes with _ | ⟨e', b⟩
      · exact .inl ⟨e, .file hc fun _ => ⟨ha, hb⟩⟩
      · simp only [ha, hb] at h
        cases h
    · simp only [ha] at h
      cases h
  · cases h
  · cases h

/-- **A path is looked up successfully if and only if it is present.** -/
theorem getRealPath_status (fs : FileSystem) (m : Path) :
    (getRealPath fs m).status = .Success ↔ Present fs m := by
  refine ⟨present_of_success, ?_⟩
  rintro (⟨e, he⟩ | hb)
  · rw [he.lookup]
  · rw [hb.lookup]

/-- A suffix that is found is one of the lists. -/
theorem Finds.mem (h : Finds fs m e) :
    (e ∈ kSuffixes ++ kNativeSuffixes ∧ lastComponent m ∉ entryNames) ∨
      e ∈ kInitSuffixes ++ kIndexSuffixes := by
  have hmem : ∀ {l : List Path}, candidates fs m l = [e] → e ∈ l := by
    intro l hl
    refine List.mem_of_mem_filter (p := fun s => fs.isFile (m ++ s)) ?_
    rw [show l.filter _ = [e] from hl]
    exact List.mem_cons_self
  cases h with
  | file hfile _ =>
    rw [fileCandidates] at hfile
    split_ifs at hfile with hm
    exact .inl ⟨hmem hfile, hm⟩
  | init _ _ hinit => exact .inr (List.mem_append_left _ (hmem hinit))
  | index _ _ _ hindex => exact .inr (List.mem_append_right _ (hmem hindex))

/-- Directories with the same files find the same. -/
theorem Finds.congr {m' : Path} (h : Finds fs m e) (hlast : lastComponent m = lastComponent m')
    (hfile : ∀ s, fs.isFile (m ++ s) = fs.isFile (m' ++ s))
    (hdir : fs.isDirectory m = fs.isDirectory m') : Finds fs m' e := by
  have hcandidates : candidates fs m = candidates fs m' := by
    funext l
    exact List.filter_congr fun s _ => hfile s
  have hfiles : fileCandidates fs m = fileCandidates fs m' := by
    rw [fileCandidates, fileCandidates, hlast, hcandidates]
  cases h with
  | file hf hentry => exact .file (hfiles ▸ hf) fun hd => hcandidates ▸ hentry (hdir.trans hd)
  | init hd hf hinit => exact .init (hdir ▸ hd) (hfiles ▸ hf) (hcandidates ▸ hinit)
  | index hd hf hinit hindex =>
    exact .index (hdir ▸ hd) (hfiles ▸ hf) (hcandidates ▸ hinit) (hcandidates ▸ hindex)

end Resolve

end Cli

end Jaci
