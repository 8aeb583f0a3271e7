import Jaci.Bundle.Container
import Jaci.Cli.NormalForm
import Mathlib

/-!
# Rebasing packages

The modules of a package that lies outside the directory of the entry are bundled under paths below
that directory.  The loop looks for the deepest package directory of a path, and collects what comes
after each of them.

* `rebase`, `rebaseModules` : the loop of `discoverModules`;
* `rebase_absolute` : what it does to the components of a path;
* `rebase_target_iff` : **a path is rebased as the last package directory says** if and only if it
  has no other, and the entry is not in the root or below what the package is in.
-/

namespace Jaci

namespace Bundle

open Wire Require Cli

/-! ### The loop -/

def kPkgDirs : List Path :=
  [text "klur_modules", text "luau_packages", text "packages", text "node_modules"]

def getParentPath (path : Path) : Option Path :=
  if path = [] ∨ path = dot ∨ path = [slash] then none
  else
    match path.reverse.dropWhile fun c => !isSeparator c with
    | [] => some []
    | _ :: directory => some (if directory = [] then [slash] else directory.reverse)

/-- Another component of `tail`, or of `x`. -/
def addComponent (tail component : Path) : Path :=
  if tail = [] then component else tail ++ slash :: component

/-- The variables of the loop over the components. -/
structure Package where
  pkgDir : Path
  tail : Path
  pkgPos : ℕ

/-- The loop over the components, from an index on. -/
def findPackage : ℕ → List Path → Package → Package
  | _, [], s => s
  | i, component :: components, s =>
    findPackage (i + 1) components
      -- The tail of a package directory further up is not forgotten.
      (if component ∈ kPkgDirs then ⟨component, components.foldl addComponent s.tail, i⟩ else s)

/-- The path up to the package directory. -/
def joinNonempty (components : List Path) : Path :=
  components.foldl (fun x component => if component = [] then x else addComponent x component) []

/-- What becomes of the path of a module. -/
def rebase (entryDir path : Path) : Path :=
  if entryDir.length < path.length ∧ path.take entryDir.length = entryDir ∧
      path[entryDir.length]? = some slash then path
  else
    let components := path.splitOnP (· == slash)
    let s := findPackage 0 components ⟨[], [], 0⟩
    if s.pkgDir = [] ∨ s.tail = [] then path
    else
      let x := joinNonempty (components.take s.pkgPos)
      if x.length < entryDir.length ∧ 0 < x.length ∧ entryDir.take x.length = x ∧
          (entryDir.length = x.length ∨ entryDir[x.length]? = some slash) then path
      else entryDir ++ slash :: (s.pkgDir ++ slash :: s.tail)

/-- The last part of `discoverModules`. -/
def rebaseModules (entryAbsPath : Path) (outModules : List DiscoveredModule) :
    List DiscoveredModule :=
  match getParentPath entryAbsPath with
  | none => outModules
  | some entryDir =>
    outModules.map fun mod => { mod with absolutePath := rebase entryDir mod.absolutePath }

/-! ### Absolute paths -/

/-- The absolute path of these names. -/
def absolute (names : List Path) : Path := slash :: [slash].intercalate names

section Absolute

variable {l names names' : List Path} {p : UInt8 → Bool}

/-- A slash is a separator for `p`, and the names have none. -/
theorem splitOnP_intercalate_names (hp : p slash = true) (h : ∀ n ∈ names, ∀ c ∈ n, p c = false)
    (hne : names ≠ []) : ([slash].intercalate names).splitOnP p = names := by
  induction names with
  | nil => exact absurd rfl hne
  | cons n names ih =>
    have hn := h n List.mem_cons_self
    cases names with
    | nil =>
      rw [List.intercalate_singleton]
      exact List.splitOnP_eq_singleton hn
    | cons m names =>
      rw [List.intercalate_cons_of_ne_nil (by simp), List.append_assoc, List.singleton_append,
        List.splitOnP_append_cons_of_forall_mem hn slash hp,
        ih (fun k hk => h k (List.mem_cons_of_mem _ hk)) (by simp)]

theorem splitOnP_absolute (hp : p slash = true) (h : ∀ n ∈ names, ∀ c ∈ n, p c = false)
    (hne : names ≠ []) : (absolute names).splitOnP p = [] :: names := by
  rw [absolute, List.splitOnP_cons_eq_if_modifyHead, if_pos hp,
    splitOnP_intercalate_names hp h hne]

theorem slash_of_isName {n : Path} (h : IsName n) : ∀ c ∈ n, (c == slash) = false := by
  intro c hc
  have hsep := h.separator c hc
  rw [isSeparator, Bool.or_eq_false_iff] at hsep
  exact hsep.1

theorem intercalate_eq_nil (h : ∀ n ∈ names, IsName n) :
    [slash].intercalate names = [] ↔ names = [] := by
  refine ⟨fun hnil => ?_, fun hnil => by rw [hnil]; rfl⟩
  cases names with
  | nil => rfl
  | cons n names =>
    exfalso
    have hn := (h n List.mem_cons_self).ne_nil
    cases names with
    | nil => exact hn (by simpa using hnil)
    | cons m names =>
      rw [List.intercalate_cons_of_ne_nil (by simp)] at hnil
      simp at hnil

/-- The names can be read off a path. -/
theorem absolute_injective (h : ∀ n ∈ names, IsName n) (h' : ∀ n ∈ names', IsName n)
    (heq : absolute names = absolute names') : names = names' := by
  have hjoin : [slash].intercalate names = [slash].intercalate names' := (List.cons.inj heq).2
  by_cases hnil : names = []
  · rw [hnil]
    rw [hnil] at hjoin
    exact ((intercalate_eq_nil h').mp hjoin.symm).symm
  · have hnil' : names' ≠ [] := by
      rintro rfl
      exact hnil ((intercalate_eq_nil h).mp hjoin)
    rw [← splitOnP_intercalate_names isSeparator_slash (fun n hn => (h n hn).separator) hnil,
      ← splitOnP_intercalate_names isSeparator_slash (fun n hn => (h' n hn).separator) hnil', hjoin]

theorem absolute_append (h : names ≠ []) (h' : names' ≠ []) :
    absolute (names ++ names') = absolute names ++ absolute names' := by
  rw [absolute, absolute, absolute]
  obtain ⟨l, x, rfl⟩ := (List.eq_nil_or_concat' names).resolve_left h
  obtain ⟨l', x', rfl⟩ := (List.eq_nil_or_concat' names').resolve_left h'
  rw [← List.append_assoc, intercalate_concat, intercalate_concat, intercalate_concat, dirs_append,
    dirs_append]
  simp

end Absolute

/-! ### What the loop finds -/

/-- The deepest package directory, and what is collected as its tail. -/
def package : List Path → Option Path × List Path → Option Path × List Path
  | [], s => s
  | n :: names, s => package names (if n ∈ kPkgDirs then (some n, s.2 ++ names) else s)

/-- A path is cut at its deepest package directory. -/
def splitPackage : List Path → Option (List Path × Path × List Path)
  | [] => none
  | n :: names =>
    match splitPackage names with
    | some (x, d, t) => some (n :: x, d, t)
    | none => if n ∈ kPkgDirs then some ([], n, names) else none

section Package

variable {names tail x t : List Path} {d : Path}

theorem foldl_addComponent (h : ∀ n ∈ tail ++ names, IsName n) :
    names.foldl addComponent ([slash].intercalate tail) = [slash].intercalate (tail ++ names) := by
  induction names generalizing tail with
  | nil => rw [List.append_nil]; rfl
  | cons n names ih =>
    have hn : addComponent ([slash].intercalate tail) n = [slash].intercalate (tail ++ [n]) := by
      rw [addComponent]
      by_cases hnil : tail = []
      · rw [hnil, List.nil_append, List.intercalate_singleton]
        exact if_pos rfl
      · rw [if_neg fun hjoin => hnil ((intercalate_eq_nil fun m hm => h m (by simp [hm])).mp hjoin)]
        obtain ⟨l, y, rfl⟩ := (List.eq_nil_or_concat' tail).resolve_left hnil
        rw [intercalate_concat, intercalate_concat, dirs_append]
        simp
    rw [List.foldl_cons, hn, ih (by simpa using h), List.append_assoc, List.singleton_append]

/-- The loop finds the package of the names. -/
theorem findPackage_eq (i : ℕ) (s : Package) (found : Option Path)
    (h : ∀ n ∈ tail ++ names, IsName n) (hdir : s.pkgDir = found.getD [])
    (htail : s.tail = [slash].intercalate tail) :
    (findPackage i names s).pkgDir = (package names (found, tail)).1.getD [] ∧
      (findPackage i names s).tail = [slash].intercalate (package names (found, tail)).2 := by
  induction names generalizing i s found tail with
  | nil => exact ⟨hdir, htail⟩
  | cons n names ih =>
    rw [findPackage, package]
    by_cases hn : n ∈ kPkgDirs
    · rw [if_pos hn, if_pos hn]
      have hcollected : ∀ m ∈ tail ++ names, IsName m := fun m hm => h m (by
        rcases List.mem_append.mp hm with hm | hm <;> simp [hm])
      refine ih (i + 1) _ (some n) (fun m hm => ?_) rfl (by rw [htail, foldl_addComponent hcollected])
      rcases List.mem_append.mp hm with hm | hm
      · exact hcollected m hm
      · exact h m (by simp [hm])
    · rw [if_neg hn, if_neg hn]
      refine ih (i + 1) s found (fun m hm => h m ?_) hdir htail
      rcases List.mem_append.mp hm with hm | hm <;> simp [hm]

theorem mem_of_package {n : Path} {s : Option Path × List Path} (h : n ∈ (package names s).2) :
    n ∈ s.2 ∨ n ∈ names := by
  induction names generalizing s with
  | nil => exact .inl h
  | cons m names ih =>
    rw [package] at h
    rcases ih h with hn | hn
    · split_ifs at hn
      · rcases List.mem_append.mp hn with hn | hn
        · exact .inl hn
        · exact .inr (List.mem_cons_of_mem _ hn)
      · exact .inl hn
    · exact .inr (List.mem_cons_of_mem _ hn)

theorem mem_of_package_dir {n : Path} {s : Option Path × List Path}
    (h : (package names s).1 = some n) : s.1 = some n ∨ n ∈ names := by
  induction names generalizing s with
  | nil => exact .inl h
  | cons m names ih =>
    rw [package] at h
    rcases ih h with hn | hn
    · split_ifs at hn
      · rw [Option.some.inj hn]
        exact .inr List.mem_cons_self
      · exact .inl hn
    · exact .inr (List.mem_cons_of_mem _ hn)

theorem package_of_none (h : splitPackage names = none) (s : Option Path × List Path) :
    package names s = s := by
  induction names with
  | nil => rfl
  | cons n names ih =>
    rw [splitPackage] at h
    cases hsplit : splitPackage names with
    | some r => rw [hsplit] at h; cases h
    | none =>
      rw [hsplit] at h
      have hn : n ∉ kPkgDirs := fun hn => by simp only [if_pos hn] at h; cases h
      rw [package, if_neg hn, ih hsplit]

/-- The tail is what comes after the deepest package directory, unless there is another. -/
theorem package_of_split (h : splitPackage names = some (x, d, t)) (s : Option Path × List Path) :
    ∃ more, package names s = (some d, s.2 ++ (more ++ t)) ∧
      (more = [] ↔ ∀ n ∈ x, n ∉ kPkgDirs) := by
  induction names generalizing x s with
  | nil => cases h
  | cons n names ih =>
    rw [splitPackage] at h
    cases hsplit : splitPackage names with
    | none =>
      simp only [hsplit] at h
      split_ifs at h with hn
      simp only [Option.some.injEq, Prod.mk.injEq] at h
      obtain ⟨rfl, rfl, rfl⟩ := h
      refine ⟨[], ?_, by simp⟩
      rw [package, if_pos hn, package_of_none hsplit, List.nil_append]
    | some r =>
      obtain ⟨x', d', t'⟩ := r
      simp only [hsplit, Option.some.injEq, Prod.mk.injEq] at h
      obtain ⟨rfl, rfl, rfl⟩ := h
      rw [package]
      -- A later package directory wins; the names in between go to its tail.
      by_cases hn : n ∈ kPkgDirs
      · obtain ⟨more, heq, -⟩ := ih hsplit (some n, s.2 ++ names)
        refine ⟨names ++ more, by rw [if_pos hn, heq]; simp, ?_⟩
        have hne : names ≠ [] := by
          rintro rfl
          cases hsplit
        simp [hne, hn]
      · obtain ⟨more, heq, hmore⟩ := ih hsplit s
        refine ⟨more, by rw [if_neg hn, heq], hmore.trans ?_⟩
        simp [hn]

theorem eq_of_splitPackage (h : splitPackage names = some (x, d, t)) :
    names = x ++ d :: t ∧ d ∈ kPkgDirs := by
  induction names generalizing x with
  | nil => cases h
  | cons n names ih =>
    rw [splitPackage] at h
    cases hsplit : splitPackage names with
    | none =>
      simp only [hsplit] at h
      split_ifs at h with hn
      simp only [Option.some.injEq, Prod.mk.injEq] at h
      obtain ⟨rfl, rfl, rfl⟩ := h
      exact ⟨rfl, hn⟩
    | some r =>
      obtain ⟨x', d', t'⟩ := r
      simp only [hsplit, Option.some.injEq, Prod.mk.injEq] at h
      obtain ⟨rfl, rfl, rfl⟩ := h
      obtain ⟨heq, hd⟩ := ih hsplit
      exact ⟨by rw [heq]; rfl, hd⟩

end Package

/-! ### What becomes of a path -/

/-- The path is below the directory, as the loop sees it: nothing is below the root. -/
def Below (entry names : List Path) : Prop := entry ≠ [] ∧ entry <+: names ∧ entry ≠ names

instance (entry names : List Path) : Decidable (Below entry names) :=
  inferInstanceAs (Decidable (_ ∧ _ ∧ _))

section Rebase

variable {entry names : List Path}

theorem prefix_concat_iff {l p : Path} {c : UInt8} :
    (l.length < p.length ∧ p.take l.length = l ∧ p[l.length]? = some c) ↔ l ++ [c] <+: p := by
  constructor
  · rintro ⟨hlength, htake, hget⟩
    have hdrop : p.drop l.length = c :: p.drop (l.length + 1) := by
      rw [List.drop_eq_getElem_cons hlength]
      rw [List.getElem?_eq_getElem hlength, Option.some.injEq] at hget
      rw [hget]
    refine ⟨p.drop (l.length + 1), ?_⟩
    calc l ++ [c] ++ p.drop (l.length + 1)
        = p.take l.length ++ p.drop l.length := by rw [hdrop, htake]; simp
      _ = p := List.take_append_drop _ _
  · rintro ⟨r, rfl⟩
    simp

/-- A name does not start with a slash. -/
theorem intercalate_ne_slash (hnames : ∀ n ∈ names, IsName n) (r : Path) :
    [slash].intercalate names ≠ slash :: r := by
  intro hjoin
  have hne : names ≠ [] := by
    rintro rfl
    cases hjoin
  have hcut := splitOnP_intercalate_names isSeparator_slash (fun n hn => (hnames n hn).separator) hne
  rw [hjoin, List.splitOnP_cons_eq_if_modifyHead, if_pos isSeparator_slash] at hcut
  exact absurd rfl (hnames [] (hcut ▸ List.mem_cons_self)).ne_nil

theorem below_iff (hentry : ∀ n ∈ entry, IsName n) (hnames : ∀ n ∈ names, IsName n) :
    ((absolute entry).length < (absolute names).length ∧
      (absolute names).take (absolute entry).length = absolute entry ∧
      (absolute names)[(absolute entry).length]? = some slash) ↔ Below entry names := by
  rw [prefix_concat_iff]
  have hsplit : names ≠ [] → ([slash].intercalate names).splitOnP isSeparator = names :=
    splitOnP_intercalate_names isSeparator_slash fun n hn => (hnames n hn).separator
  constructor
  · rintro ⟨r, hr⟩
    have hjoin : [slash].intercalate entry ++ slash :: r = [slash].intercalate names := by
      simpa [absolute] using hr
    have hne : names ≠ [] := by
      rintro rfl
      simp at hjoin
    by_cases hnil : entry = []
    · rw [hnil] at hjoin
      exact absurd hjoin.symm (intercalate_ne_slash hnames r)
    · -- Cut at the separators, the text of the entry gives the names of the entry.
      have hdirs : [slash].intercalate entry ++ slash :: r = dirs entry ++ r := by
        obtain ⟨l, x, rfl⟩ := (List.eq_nil_or_concat' entry).resolve_left hnil
        rw [intercalate_concat, dirs_append]
        simp
      have hcut := hsplit hne
      rw [← hjoin, hdirs, splitOnP_dirs fun n hn => (hentry n hn).separator] at hcut
      refine ⟨hnil, ⟨_, hcut⟩, fun heq => ?_⟩
      rw [← heq] at hcut
      exact List.splitOnP_ne_nil isSeparator r (List.append_right_eq_self.mp hcut)
  · rintro ⟨hnil, ⟨more, rfl⟩, hproper⟩
    have hmore : more ≠ [] := by
      rintro rfl
      exact hproper (List.append_nil entry).symm
    rw [absolute_append hnil hmore]
    exact ⟨[slash].intercalate more, by simp [absolute]⟩

/-- No path to a package directory starts with a slash. -/
theorem head_joinNonempty {components : List Path}
    (h : ∀ n ∈ components, ∀ c ∈ n, (c == slash) = false) :
    (joinNonempty components).head? ≠ some slash := by
  have hfold : ∀ x : Path, x.head? ≠ some slash →
      (components.foldl (fun x component => if component = [] then x else addComponent x component)
        x).head? ≠ some slash := by
    induction components with
    | nil => exact fun x hx => hx
    | cons n components ih =>
      intro x hx
      refine ih (fun m hm => h m (List.mem_cons_of_mem _ hm)) _ ?_
      change (if n = [] then x else addComponent x n).head? ≠ some slash
      by_cases hn : n = []
      · rwa [if_pos hn]
      · rw [if_neg hn, addComponent]
        by_cases hnil : x = []
        · rw [if_pos hnil]
          obtain ⟨c, n, rfl⟩ := List.exists_cons_of_ne_nil hn
          intro hc
          have hslash := h _ List.mem_cons_self c List.mem_cons_self
          rw [Option.some.inj hc] at hslash
          exact absurd hslash (by decide)
        · rw [if_neg hnil]
          obtain ⟨c, x, rfl⟩ := List.exists_cons_of_ne_nil hnil
          exact hx
  exact hfold [] (by simp)

/-- The components of an absolute path, as the loop sees them. -/
theorem findPackage_absolute (hnames : ∀ n ∈ names, IsName n) :
    (findPackage 0 ((absolute names).splitOnP (· == slash)) ⟨[], [], 0⟩).pkgDir =
        (package names (none, [])).1.getD [] ∧
      (findPackage 0 ((absolute names).splitOnP (· == slash)) ⟨[], [], 0⟩).tail =
        [slash].intercalate (package names (none, [])).2 := by
  by_cases hnil : names = []
  · rw [hnil]
    exact ⟨rfl, rfl⟩
  · rw [splitOnP_absolute rfl (fun n hn => slash_of_isName (hnames n hn)) hnil, findPackage,
      if_neg (by decide)]
    exact findPackage_eq 1 _ none hnames rfl rfl

/-- The path up to the package directory is never found at the start of an absolute one. -/
theorem not_reachable {x : Path} (hx : x.head? ≠ some slash) :
    ¬ (x.length < (absolute entry).length ∧ 0 < x.length ∧ (absolute entry).take x.length = x ∧
      ((absolute entry).length = x.length ∨ (absolute entry)[x.length]? = some slash)) := by
  rintro ⟨-, hpos, htake, -⟩
  obtain ⟨c, x, rfl⟩ := List.exists_cons_of_ne_nil (List.length_pos_iff.mp hpos)
  rw [absolute, List.length_cons, List.take_succ_cons, List.cons.injEq] at htake
  exact hx (by rw [htake.1]; rfl)

theorem slash_of_mem_components (hnames : ∀ n ∈ names, IsName n) :
    ∀ n ∈ (absolute names).splitOnP (· == slash), ∀ c ∈ n, (c == slash) = false := by
  by_cases hnil : names = []
  · rw [hnil, show (absolute []).splitOnP (· == slash) = [[], []] from rfl]
    simp
  · rw [splitOnP_absolute rfl (fun n hn => slash_of_isName (hnames n hn)) hnil]
    intro n hn
    rcases List.mem_cons.mp hn with rfl | hn
    · simp
    · exact slash_of_isName (hnames n hn)

theorem name_of_package {d : Path} {t : List Path} (hnames : ∀ n ∈ names, IsName n)
    (h : package names (none, []) = (some d, t)) : IsName d ∧ ∀ n ∈ t, IsName n := by
  refine ⟨?_, fun n hn => ?_⟩
  · rcases mem_of_package_dir (h ▸ rfl : (package names (none, [])).1 = some d) with hd | hd
    · cases hd
    · exact hnames d hd
  · rcases mem_of_package (show n ∈ (package names (none, [])).2 by rw [h]; exact hn) with hn | hn
    · cases hn
    · exact hnames n hn

/-- The path of a package that is moved. -/
def moved (entry : List Path) (d : Path) (t : List Path) : Path :=
  absolute entry ++ slash :: (d ++ slash :: [slash].intercalate t)

/-- **What becomes of a path**: it stays below the entry, or without a package; else the package is
moved. -/
theorem rebase_absolute (hentry : ∀ n ∈ entry, IsName n) (hnames : ∀ n ∈ names, IsName n) :
    rebase (absolute entry) (absolute names) =
      if Below entry names then absolute names
      else
        match package names (none, []) with
        | (some d, t) =>
          if t = [] then absolute names
          else moved entry d t
        | (none, _) => absolute names := by
  obtain ⟨hdir, htail⟩ := findPackage_absolute hnames
  rw [rebase]
  by_cases hbelow : Below entry names
  · rw [if_pos ((below_iff hentry hnames).mpr hbelow), if_pos hbelow]
  rw [if_neg fun h => hbelow ((below_iff hentry hnames).mp h), if_neg hbelow]
  simp only [hdir, htail]
  cases hpackage : package names (none, []) with
  | mk found t =>
    cases found with
    | none => exact if_pos (.inl rfl)
    | some d =>
      obtain ⟨hd, ht⟩ := name_of_package hnames hpackage
      -- A module is moved if something is left after the package directory.
      simp only [Option.getD_some, hd.ne_nil, false_or, intercalate_eq_nil ht]
      by_cases hnil : t = []
      · rw [if_pos hnil, if_pos hnil]
      · rw [if_neg hnil, if_neg hnil, if_neg (not_reachable (head_joinNonempty fun n hn =>
          slash_of_mem_components hnames n (List.mem_of_mem_take hn)))]
        rfl

theorem moved_eq {d : Path} {t : List Path} (hne : entry ≠ []) (ht : t ≠ []) :
    moved entry d t = absolute (entry ++ d :: t) := by
  rw [absolute_append hne (List.cons_ne_nil d t), moved, absolute, absolute,
    List.intercalate_cons_of_ne_nil ht]
  simp

/-- In the root, the path has two slashes at its start. -/
theorem moved_root {d : Path} {t : List Path} (ht : t ≠ []) :
    moved [] d t = slash :: absolute (d :: t) := by
  rw [moved, absolute, absolute, List.intercalate_cons_of_ne_nil ht]
  simp

end Rebase

/-! ### The target -/

/-- Where a module is to go: its deepest package directory is moved to the entry, unless the module
is below the entry or the entry below what the package directory is in. -/
def rebaseTarget (entry names : List Path) : List Path :=
  match splitPackage names with
  | none => names
  | some (x, d, t) =>
    if t = [] ∨ entry <+: names ∨ x <+: entry then names else entry ++ d :: t

/-- The loop moves the module there, or leaves it where it is, as it is to do. -/
def RebasedRight (entry names : List Path) : Prop :=
  Below entry names ∨
    match splitPackage names with
    | none => True
    | some (x, _, t) =>
      (∀ n ∈ x, n ∉ kPkgDirs) ∧ (t = [] ∨ (entry ≠ [] ∧ ¬ x <+: entry))

section Target

variable {entry names : List Path}

/-- Whether a component is a name can be computed. -/
def isName (n : Path) : Bool :=
  n != [] && n != dot && n != dotdot && n.all fun c => !isSeparator c

theorem forall_isName {l : List Path} (h : l.all isName = true) : ∀ n ∈ l, IsName n := by
  intro n hn
  have hname := List.all_eq_true.mp h n hn
  simp only [isName, Bool.and_eq_true, bne_iff_ne] at hname
  obtain ⟨⟨⟨hnil, hdot⟩, hdd⟩, hsep⟩ := hname
  exact ⟨hnil, hdot, hdd, separator_of_all hsep⟩

theorem moved_ne {d : Path} {t : List Path} (hnames : ∀ n ∈ names, IsName n)
    (hbelow : ¬ Below entry names) (ht : t ≠ []) (hmoved : ∀ n ∈ d :: t, IsName n)
    (hentry : ∀ n ∈ entry, IsName n) : moved entry d t ≠ absolute names := by
  intro heq
  by_cases hne : entry = []
  · rw [hne, moved_root ht] at heq
    exact intercalate_ne_slash hnames _ (List.cons.inj heq).2.symm
  · rw [moved_eq hne ht] at heq
    have hcut := absolute_injective (List.forall_mem_append.mpr ⟨hentry, hmoved⟩) hnames heq
    exact hbelow ⟨hne, ⟨d :: t, hcut⟩, fun h => by simp [← h] at hcut⟩

/-- **A module is rebased as the last package directory says** if and only if it is below the entry
(which is not in the root), or it has no package directory, or only one, which is its last component
or in no directory above the entry. -/
theorem rebase_target_iff (hentry : ∀ n ∈ entry, IsName n) (hnames : ∀ n ∈ names, IsName n) :
    rebase (absolute entry) (absolute names) = absolute (rebaseTarget entry names) ↔
      RebasedRight entry names := by
  rw [rebase_absolute hentry hnames]
  by_cases hbelow : Below entry names
  · have htarget : rebaseTarget entry names = names := by
      rw [rebaseTarget]
      split
      · rfl
      · exact if_pos (.inr (.inl hbelow.2.1))
    rw [if_pos hbelow, htarget]
    exact iff_of_true rfl (.inl hbelow)
  rw [if_neg hbelow, rebaseTarget, RebasedRight]
  cases hsplit : splitPackage names with
  | none => simp [package_of_none hsplit]
  | some r =>
    obtain ⟨x, d, t⟩ := r
    obtain ⟨more, hpackage, hmore⟩ := package_of_split hsplit (none, [])
    have hcut := (eq_of_splitPackage hsplit).1
    have ht := (name_of_package hnames hpackage).2
    simp only [hpackage, List.nil_append, hbelow, false_or, ← hmore] at ht ⊢
    by_cases hnil : more ++ t = []
    · obtain ⟨rfl, rfl⟩ := List.append_eq_nil_iff.mp hnil
      simp
    rw [if_neg hnil]
    by_cases hstays : t = [] ∨ entry <+: names ∨ x <+: entry
    · -- The module is moved, but it is to stay.
      rw [if_pos hstays]
      refine iff_of_false (moved_ne hnames hbelow hnil (List.forall_mem_cons.mpr
        ⟨(name_of_package hnames hpackage).1, ht⟩) hentry) ?_
      rintro ⟨rfl, hright⟩
      rcases hstays with htnil | hunder | hin
      · exact hnil htnil
      · rcases hright with htnil | ⟨hne, hout⟩
        · exact hnil htnil
        · have heq : entry = names := by
            by_contra hproper
            exact hbelow ⟨hne, hunder, hproper⟩
          exact hout (heq ▸ hcut ▸ List.prefix_append x _)
      · rcases hright with htnil | ⟨-, hout⟩
        · exact hnil htnil
        · exact hout hin
    · rw [if_neg hstays]
      obtain ⟨htnil, hunder, hout⟩ : t ≠ [] ∧ ¬ entry <+: names ∧ ¬ x <+: entry := by
        simpa only [not_or] using hstays
      have hne : entry ≠ [] := by
        rintro rfl
        exact hunder List.nil_prefix
      rw [moved_eq hne hnil]
      refine ⟨fun heq => ⟨?_, .inr ⟨hne, hout⟩⟩, fun h => by rw [h.1, List.nil_append]⟩
      have hd := (name_of_package hnames hpackage).1
      have hsame := absolute_injective
        (List.forall_mem_append.mpr ⟨hentry, List.forall_mem_cons.mpr ⟨hd, ht⟩⟩)
        (List.forall_mem_append.mpr ⟨hentry, List.forall_mem_cons.mpr ⟨hd, fun n hn =>
          ht n (List.mem_append_right _ hn)⟩⟩) heq
      exact List.append_left_eq_self.mp (List.cons.inj (List.append_cancel_left hsame)).2

/-- The toolchain's package `fmt`. -/
theorem rebase_target_fmt :
    rebase (absolute [text "w"]) (absolute [text "opt", text "packages", text "fmt.luau"]) =
        absolute (rebaseTarget [text "w"] [text "opt", text "packages", text "fmt.luau"]) ↔
      RebasedRight [text "w"] [text "opt", text "packages", text "fmt.luau"] :=
  rebase_target_iff (forall_isName (by decide)) (forall_isName (by decide))

/-- What is in a package directory of a package is moved with a tail too many. -/
theorem not_rebase_target : ¬ ∀ entry names : List Path, (∀ n ∈ entry, IsName n) →
    (∀ n ∈ names, IsName n) →
      rebase (absolute entry) (absolute names) = absolute (rebaseTarget entry names) := by
  intro h
  have heq := h [text "w"]
    [text "opt", text "packages", text "fmt", text "packages", text "io.luau"]
    (forall_isName (by decide)) (forall_isName (by decide))
  revert heq
  decide

end Target

end Bundle

end Jaci
