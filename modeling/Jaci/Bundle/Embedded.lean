import Jaci.Bundle.Rebase
import Mathlib

/-!
# The files of a bundle

At its start a bundle registers its files under the normal forms of their paths; of two files with
the same one, the first is kept.  Packages that are moved to the directory of the entry come from
several places.

* `setEmbeddedFiles` : the files that are registered;
* `rebaseModules_distinct_iff` : **no module is lost** if and only if no two packages have the same
  directory and tail, and nothing is there yet.
-/

namespace Jaci

namespace Bundle

open Wire Require Cli

def emplace (files : List (Path × Bytes)) (key : Path) (data : Bytes) : List (Path × Bytes) :=
  if key ∈ files.map Prod.fst then files else files ++ [(key, data)]

/-- `setEmbeddedFiles`: the files that are registered, with their keys. -/
def setEmbeddedFiles (files : List (Path × Bytes)) : List (Path × Bytes) :=
  files.foldl (fun registered file => emplace registered (normalizePath file.1) file.2) []

def DiscoveredModule.file (mod : DiscoveredModule) : Path × Bytes := (mod.absolutePath, mod.source)

/-- The package directory and the tail of a module that is moved. -/
def movedTo (entry names : List Path) : Option (Path × List Path) :=
  if Below entry names then none
  else
    match package names (none, []) with
    | (some d, t) => if t = [] then none else some (d, t)
    | (none, _) => none

/-- Packages that are moved do not get in the way of each other, or of what is there. -/
def KeptApart (entry : List Path) (modules : List (List Path)) : Prop :=
  ∀ p ∈ modules, ∀ d t, movedTo entry p = some (d, t) →
    (entry ≠ [] → entry ++ d :: t ∉ modules) ∧
      ∀ q ∈ modules, movedTo entry q = some (d, t) → q = p

/-! ### Registered files -/

section Registered

variable {files rest : List (Path × Bytes)} {registered : List (Path × Bytes)}

theorem mem_emplace {f : Path × Bytes} (h : f ∈ registered) (key : Path) (data : Bytes) :
    f ∈ emplace registered key data := by
  unfold emplace
  split_ifs
  · exact h
  · exact List.mem_append_left _ h

theorem mem_foldl_emplace {f : Path × Bytes} (h : f ∈ registered) :
    f ∈ files.foldl (fun registered file => emplace registered (normalizePath file.1) file.2)
      registered := by
  induction files generalizing registered with
  | nil => exact h
  | cons file files ih => exact ih (mem_emplace h _ _)

theorem foldl_emplace_keeps (hnew : ∀ f ∈ files, normalizePath f.1 ∉ registered.map Prod.fst)
    (h : (files.map fun f => normalizePath f.1).Nodup) :
    ∀ f ∈ files, (normalizePath f.1, f.2) ∈
      files.foldl (fun registered file => emplace registered (normalizePath file.1) file.2)
        registered := by
  induction files generalizing registered with
  | nil => simp
  | cons file files ih =>
    rw [List.map_cons, List.nodup_cons] at h
    have hadd : emplace registered (normalizePath file.1) file.2 =
        registered ++ [(normalizePath file.1, file.2)] := if_neg (hnew file List.mem_cons_self)
    rw [List.foldl_cons, hadd]
    intro f hf
    rcases List.mem_cons.mp hf with rfl | hf
    · exact mem_foldl_emplace (by simp)
    · refine ih (fun g hg hmem => ?_) h.2 f hf
      rw [List.map_append, List.mem_append] at hmem
      rcases hmem with hmem | hmem
      · exact hnew g (List.mem_cons_of_mem _ hg) hmem
      · exact h.1 (List.mem_map.mpr ⟨g, hg, List.mem_singleton.mp hmem⟩)

/-- The first files are registered if their keys differ. -/
theorem setEmbeddedFiles_keeps (h : (files.map fun f => normalizePath f.1).Nodup) :
    ∀ f ∈ files, (normalizePath f.1, f.2) ∈ setEmbeddedFiles (files ++ rest) := by
  intro f hf
  rw [setEmbeddedFiles, List.foldl_append]
  exact mem_foldl_emplace (foldl_emplace_keeps (by simp) h f hf)

end Registered

/-! ### Where modules go -/

section Modules

variable {entry names : List Path} {file : Path}

/-- The directory of an entry. -/
theorem getParentPath_absolute (hfile : IsName file) :
    getParentPath (absolute (entry ++ [file])) = some (absolute entry) := by
  have hpath : absolute (entry ++ [file]) = (slash :: dirs entry) ++ file := by
    rw [absolute, intercalate_concat, List.cons_append]
  have hne : ¬ (absolute (entry ++ [file]) = [] ∨ absolute (entry ++ [file]) = dot ∨
      absolute (entry ++ [file]) = [slash]) := by
    obtain ⟨c, f, hf⟩ := List.exists_cons_of_ne_nil hfile.ne_nil
    rw [hpath, hf]
    rintro (h | h | h)
    · cases h
    · exact absurd (List.cons.inj h).1 (by decide)
    · simp at h
  -- The last name has no separator, so the search stops right before it.
  have hreverse : (absolute (entry ++ [file])).reverse.dropWhile (fun c => !isSeparator c) =
      (slash :: dirs entry).reverse := by
    rw [hpath, List.reverse_append, List.dropWhile_append_of_pos]
    · rcases List.eq_nil_or_concat' entry with rfl | ⟨l, x, rfl⟩
      · rfl
      · rw [dirs_append]
        simp [isSeparator_slash]
    · intro c hc
      simpa using hfile.separator c (List.mem_reverse.mp hc)
  rw [getParentPath, if_neg hne, hreverse]
  rcases List.eq_nil_or_concat' entry with rfl | ⟨l, x, rfl⟩
  · rfl
  · rw [dirs_append, absolute, intercalate_concat]
    simp

theorem rebase_movedTo (hentry : ∀ n ∈ entry, IsName n) (hnames : ∀ n ∈ names, IsName n) :
    rebase (absolute entry) (absolute names) =
      match movedTo entry names with
      | some (d, t) => moved entry d t
      | none => absolute names := by
  rw [rebase_absolute hentry hnames, movedTo]
  split_ifs
  · rfl
  · rcases package names (none, []) with ⟨_ | d, t⟩
    · rfl
    · by_cases ht : t = []
      · simp only [ht, if_true]
      · simp only [ht, if_false]

/-- What is known of a module that is moved. -/
theorem movedTo_eq_some {d : Path} {t : List Path} (hnames : ∀ n ∈ names, IsName n)
    (h : movedTo entry names = some (d, t)) :
    t ≠ [] ∧ d ∈ kPkgDirs ∧ IsName d ∧ ∀ n ∈ t, IsName n := by
  unfold movedTo at h
  split_ifs at h
  cases hpackage : package names (none, []) with
  | mk found t' =>
    cases found with
    | none => simp only [hpackage] at h; cases h
    | some d' =>
      simp only [hpackage] at h
      split_ifs at h with ht
      obtain ⟨rfl, rfl⟩ := Prod.mk.inj (Option.some.inj h)
      obtain ⟨hd, htail⟩ := name_of_package hnames hpackage
      refine ⟨ht, ?_, hd, htail⟩
      cases hsplit : splitPackage names with
      | none =>
        rw [package_of_none hsplit] at hpackage
        cases hpackage
      | some r =>
        obtain ⟨x, d, t⟩ := r
        obtain ⟨more, heq, -⟩ := package_of_split hsplit (none, [])
        rw [hpackage] at heq
        rw [Option.some.inj (Prod.mk.inj heq).1]
        exact (eq_of_splitPackage hsplit).2

/-- The names of the path that a module gets. -/
def destination (entry names : List Path) : List Path :=
  match movedTo entry names with
  | some (d, t) => entry ++ d :: t
  | none => names

theorem referenceComponents_absolute (hnames : ∀ n ∈ names, IsName n) :
    referenceComponents (absolute names) = names ∧
      referenceComponents (slash :: absolute names) = names := by
  have hfold : (([slash].intercalate names).splitOnP isSeparator).foldl (keepComponent true) [] =
      names := foldl_keepComponent_cwd hnames
  have habs : isAbsolutePath (absolute names) = true := rfl
  have habs' : isAbsolutePath (slash :: absolute names) = true := rfl
  rw [referenceComponents, pathComponents, habs, if_pos rfl, absolute,
    List.splitOnP_cons_eq_if_modifyHead, if_pos isSeparator_slash, List.tail_cons]
  refine ⟨hfold, ?_⟩
  rw [referenceComponents, pathComponents, ← absolute, habs', if_pos rfl,
    List.splitOnP_cons_eq_if_modifyHead, if_pos isSeparator_slash, List.tail_cons, absolute,
    List.splitOnP_cons_eq_if_modifyHead, if_pos isSeparator_slash, List.foldl_cons,
    keepComponent_nil, hfold]

theorem referenceComponents_rebase (hentry : ∀ n ∈ entry, IsName n) (hnames : ∀ n ∈ names, IsName n) :
    referenceComponents (rebase (absolute entry) (absolute names)) = destination entry names := by
  rw [rebase_movedTo hentry hnames, destination]
  cases hmoved : movedTo entry names with
  | none => exact (referenceComponents_absolute hnames).1
  | some r =>
    obtain ⟨d, t⟩ := r
    obtain ⟨ht, -, hd, htail⟩ := movedTo_eq_some hnames hmoved
    have htarget : ∀ n ∈ entry ++ d :: t, IsName n :=
      List.forall_mem_append.mpr ⟨hentry, List.forall_mem_cons.mpr ⟨hd, htail⟩⟩
    by_cases hne : entry = []
    · subst hne
      simp only [moved_root ht]
      exact (referenceComponents_absolute htarget).2
    · simp only [moved_eq hne ht]
      exact (referenceComponents_absolute htarget).1

/-- A package in the root is moved to where it is. -/
theorem movedTo_root {d : Path} {t : List Path} (hd : d ∈ kPkgDirs) (ht : t ≠ []) :
    movedTo [] (d :: t) ≠ none := by
  have hsome : ∀ (names : List Path) (d : Path) (t : List Path),
      ∃ d' more, package names (some d, t) = (some d', t ++ more) := by
    intro names
    induction names with
    | nil => exact fun d t => ⟨d, [], by rw [List.append_nil]; rfl⟩
    | cons n names ih =>
      intro d t
      rw [package]
      by_cases hn : n ∈ kPkgDirs
      · obtain ⟨d', more, heq⟩ := ih n (t ++ names)
        exact ⟨d', names ++ more, by rw [if_pos hn, heq, List.append_assoc]⟩
      · rw [if_neg hn]
        exact ih d t
  obtain ⟨d', more, heq⟩ := hsome t d t
  rw [movedTo, if_neg fun h => h.1 rfl, package, if_pos hd, List.nil_append, heq]
  simp [ht]

end Modules

/-! ### Are modules lost? -/

section Distinct

variable {entry : List Path} {file : Path} {paths : List (List Path)}
  {modules : List DiscoveredModule}

/-- Packages that are kept apart have different destinations. -/
theorem KeptApart.injective (h : KeptApart entry paths)
    (hpaths : ∀ p ∈ paths, ∀ n ∈ p, IsName n) {p q : List Path} (hp : p ∈ paths) (hq : q ∈ paths)
    (heq : destination entry p = destination entry q) : p = q := by
  -- A module that is moved is not moved to one that is not.
  have hstays : ∀ {p q : List Path}, p ∈ paths → q ∈ paths → ∀ {d t},
      movedTo entry p = some (d, t) → movedTo entry q = none → q ≠ entry ++ d :: t := by
    rintro p q hp hq d t hmoved hnone rfl
    obtain ⟨ht, hd, -⟩ := movedTo_eq_some (hpaths p hp) hmoved
    by_cases hne : entry = []
    · subst hne
      exact movedTo_root hd ht hnone
    · exact (h p hp d t hmoved).1 hne hq
  rw [destination, destination] at heq
  cases hmoved : movedTo entry p with
  | none =>
    cases hmoved' : movedTo entry q with
    | none => rwa [hmoved, hmoved'] at heq
    | some r =>
      rw [hmoved, hmoved'] at heq
      exact absurd heq (hstays hq hp hmoved' hmoved)
  | some r =>
    cases hmoved' : movedTo entry q with
    | none =>
      rw [hmoved, hmoved'] at heq
      exact absurd heq.symm (hstays hp hq hmoved hmoved')
    | some r' =>
      rw [hmoved, hmoved'] at heq
      obtain ⟨hdir, htail⟩ := List.cons.inj (List.append_cancel_left heq)
      exact ((h p hp r.1 r.2 hmoved).2 q hq (by rw [hmoved', Prod.ext hdir htail])).symm

/-- Otherwise two modules get the same path. -/
theorem keptApart_of_injective (hentry : ∀ n ∈ entry, IsName n)
    (hpaths : ∀ p ∈ paths, ∀ n ∈ p, IsName n)
    (h : ∀ p ∈ paths, ∀ q ∈ paths, rebase (absolute entry) (absolute p) =
      rebase (absolute entry) (absolute q) → p = q) : KeptApart entry paths := by
  intro p hp d t hmoved
  have ht := (movedTo_eq_some (hpaths p hp) hmoved).1
  have hpath : rebase (absolute entry) (absolute p) = moved entry d t := by
    rw [rebase_movedTo hentry (hpaths p hp), hmoved]
  refine ⟨fun hne hmem => ?_, fun q hq hmoved' => ?_⟩
  · have hbelow : Below entry (entry ++ d :: t) := ⟨hne, List.prefix_append _ _, by simp⟩
    have hstays : movedTo entry (entry ++ d :: t) = none := if_pos hbelow
    have hsame : p = entry ++ d :: t := h p hp _ hmem (by
      rw [hpath, rebase_movedTo hentry (hpaths _ hmem), hstays, moved_eq hne ht])
    rw [hsame, hstays] at hmoved
    cases hmoved
  · exact h q hq p hp (by rw [hpath, rebase_movedTo hentry (hpaths q hq), hmoved'])

/-- The paths after the loop. -/
theorem map_rebaseModules (hfile : IsName file)
    (hmodules : modules.map DiscoveredModule.absolutePath = paths.map absolute) :
    (rebaseModules (absolute (entry ++ [file])) modules).map DiscoveredModule.absolutePath =
      paths.map fun p => rebase (absolute entry) (absolute p) := by
  rw [rebaseModules, getParentPath_absolute hfile]
  calc (modules.map _).map DiscoveredModule.absolutePath
      = (modules.map DiscoveredModule.absolutePath).map (rebase (absolute entry)) := by simp
    _ = paths.map fun p => rebase (absolute entry) (absolute p) := by rw [hmodules, List.map_map]; rfl

/-- **The modules have different paths after the loop**, and so all of them are registered, if and
only if the packages are kept apart. -/
theorem rebaseModules_distinct_iff (hentry : ∀ n ∈ entry, IsName n) (hfile : IsName file)
    (hpaths : ∀ p ∈ paths, ∀ n ∈ p, IsName n)
    (hmodules : modules.map DiscoveredModule.absolutePath = paths.map absolute)
    (hdistinct : (modules.map DiscoveredModule.absolutePath).Nodup) :
    ((((rebaseModules (absolute (entry ++ [file])) modules).map
          DiscoveredModule.absolutePath).Nodup ∧
      ∀ rest, (∀ mod ∈ rebaseModules (absolute (entry ++ [file])) modules,
          Shallow mod.absolutePath) →
        ∀ mod ∈ rebaseModules (absolute (entry ++ [file])) modules,
          (normalizePath mod.absolutePath, mod.source) ∈ setEmbeddedFiles
            ((rebaseModules (absolute (entry ++ [file])) modules).map DiscoveredModule.file ++
              rest)) ↔
      KeptApart entry paths) := by
  have hnodup : paths.Nodup := by
    rw [hmodules] at hdistinct
    exact hdistinct.of_map
  have hmap := @map_rebaseModules entry _ _ _ hfile hmodules
  constructor
  · rintro ⟨hrebased, -⟩
    rw [hmap, List.nodup_map_iff_inj_on hnodup] at hrebased
    exact keptApart_of_injective hentry hpaths hrebased
  · intro hapart
    -- Different paths, and each file is found under its own.
    refine ⟨?_, fun rest hshallow mod hmod => ?_⟩
    · rw [hmap, List.nodup_map_iff_inj_on hnodup]
      intro p hp q hq heq
      refine hapart.injective hpaths hp hq ?_
      rw [← referenceComponents_rebase hentry (hpaths p hp), heq,
        referenceComponents_rebase hentry (hpaths q hq)]
    · have hkeys : (((rebaseModules (absolute (entry ++ [file])) modules).map
          DiscoveredModule.file).map fun f => normalizePath f.1) =
          paths.map fun p => normalizePath (rebase (absolute entry) (absolute p)) := by
        calc _ = ((rebaseModules (absolute (entry ++ [file])) modules).map
              DiscoveredModule.absolutePath).map normalizePath := by
              rw [List.map_map, List.map_map]
              rfl
          _ = _ := by rw [hmap, List.map_map]; rfl
      have hpath : ∀ p ∈ paths, Shallow (rebase (absolute entry) (absolute p)) := by
        intro p hp
        have hmem : rebase (absolute entry) (absolute p) ∈
            (rebaseModules (absolute (entry ++ [file])) modules).map
              DiscoveredModule.absolutePath := hmap ▸ List.mem_map_of_mem hp
        obtain ⟨mod, hmod, heq⟩ := List.mem_map.mp hmem
        exact heq ▸ hshallow mod hmod
      -- No other module has the normal form of this path.
      refine setEmbeddedFiles_keeps ?_ mod.file (List.mem_map_of_mem hmod)
      rw [hkeys, List.nodup_map_iff_inj_on hnodup]
      intro p hp q hq heq
      rw [normalizePath_eq (hpath p hp), normalizePath_eq (hpath q hq)] at heq
      refine hapart.injective hpaths hp hq ?_
      rw [← referenceComponents_rebase hentry (hpaths p hp),
        ← referenceComponents_rebase hentry (hpaths q hq), ← referenceComponents_referencePath,
        heq, referenceComponents_referencePath]

/-- An entry and a package of the toolchain. -/
theorem rebaseModules_distinct_fmt :
    ((((rebaseModules (absolute ([text "w"] ++ [text "main.luau"]))
          [⟨text "/w/main.luau", []⟩, ⟨text "/x/packages/fmt.luau", []⟩]).map
            DiscoveredModule.absolutePath).Nodup ∧
      ∀ rest, (∀ mod ∈ rebaseModules (absolute ([text "w"] ++ [text "main.luau"]))
          [⟨text "/w/main.luau", []⟩, ⟨text "/x/packages/fmt.luau", []⟩],
          Shallow mod.absolutePath) →
        ∀ mod ∈ rebaseModules (absolute ([text "w"] ++ [text "main.luau"]))
            [⟨text "/w/main.luau", []⟩, ⟨text "/x/packages/fmt.luau", []⟩],
          (normalizePath mod.absolutePath, mod.source) ∈ setEmbeddedFiles
            ((rebaseModules (absolute ([text "w"] ++ [text "main.luau"]))
              [⟨text "/w/main.luau", []⟩, ⟨text "/x/packages/fmt.luau", []⟩]).map
                DiscoveredModule.file ++ rest)) ↔
      KeptApart [text "w"]
        [[text "w", text "main.luau"], [text "x", text "packages", text "fmt.luau"]]) :=
  rebaseModules_distinct_iff (forall_isName (by decide))
    (forall_isName (l := [text "main.luau"]) (by decide) _ List.mem_cons_self)
    (List.forall_mem_cons.mpr ⟨forall_isName (by decide), List.forall_mem_cons.mpr
      ⟨forall_isName (by decide), by simp⟩⟩)
    (by decide) (by decide)

/-- Two toolchains have a package `fmt` each. -/
theorem not_rebaseModules_distinct : ¬ ∀ (entry : List Path) (file : Path)
    (paths : List (List Path)) (modules : List DiscoveredModule), (∀ n ∈ entry, IsName n) →
    IsName file → (∀ p ∈ paths, ∀ n ∈ p, IsName n) →
    modules.map DiscoveredModule.absolutePath = paths.map absolute →
    (modules.map DiscoveredModule.absolutePath).Nodup →
    ((rebaseModules (absolute (entry ++ [file])) modules).map
      DiscoveredModule.absolutePath).Nodup := by
  intro h
  have hdistinct := h [text "w"] (text "main.luau")
    [[text "x", text "packages", text "fmt.luau"], [text "y", text "packages", text "fmt.luau"]]
    [⟨text "/x/packages/fmt.luau", []⟩, ⟨text "/y/packages/fmt.luau", []⟩]
    (forall_isName (by decide)) (forall_isName (l := [text "main.luau"]) (by decide) _
      List.mem_cons_self)
    (List.forall_mem_cons.mpr ⟨forall_isName (by decide), List.forall_mem_cons.mpr
      ⟨forall_isName (by decide), by simp⟩⟩)
    (by decide) (by decide)
  revert hdistinct
  decide

end Distinct

end Bundle

end Jaci
