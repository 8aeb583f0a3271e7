import Jaci.Require.Navigator

/-!
# Paths of modules

A path is brought into normal form component by component; the module path of a file is its path
without the first suffix of a list that it ends in.

The components that are kept are in an array of 64 entries, and then in a vector.

* `normalizePath`, `getModulePath` : the source, on POSIX systems;
* `referencePath` : the normal form, without the array and the vector;
* `normalizePath_eq` : the source computes it as long as at most 128 components are kept;
* `referencePath_relative` : what a relative path in normal form is below another directory;
* `getModulePath_under` : the suffix does not depend on the directory.
-/

namespace Jaci

namespace Cli

open Wire Require

abbrev Path := Bytes

/-- The byte between the components of a path. -/
def slash : UInt8 := 0x2f

/-- The other byte that `normalizePath` takes for one. -/
def backslash : UInt8 := 0x5c

/-- The component of the directory itself. -/
def dot : Path := text "."

/-- The component of the parent. -/
def dotdot : Path := text ".."

/-! ### Normal form -/

def isAbsolutePath (path : Path) : Bool := path.head? == some slash

/-- A byte between components. -/
def isSeparator (c : UInt8) : Bool := c == slash || c == backslash

def kInlineCapacity : ℕ := 64

/-- The variables of the loop of `normalizePath`. -/
structure Components where
  /-- The first `count` entries of `normalizedComponents`. -/
  kept : List Path
  /-- The size of `heapComponents`. -/
  heapSize : ℕ
  /-- The number of entries for which there is room. -/
  capacity : ℕ

/-- The closure `pushComponent`: without a result if it reads past the inline array. -/
def Components.pushComponent (s : Components) (comp : Path) : Option Components :=
  if s.capacity ≤ s.kept.length then
    if s.heapSize = 0 then
      if s.kept.length ≤ kInlineCapacity then
        some ⟨s.kept ++ [comp], s.kept.length + 1, s.capacity * 2⟩
      else none
    else
      -- The vector grows by one entry from its own size, which is not `count`.
      some ⟨s.kept.take s.heapSize ++ [comp], s.heapSize + 1,
        if s.heapSize = s.capacity then s.capacity * 2 else s.capacity⟩
  else some { s with kept := s.kept ++ [comp] }

/-- The closure `popComponent`. -/
def Components.popComponent (s : Components) : Components :=
  { s with kept := s.kept.dropLast, heapSize := s.heapSize - 1 }

/-- One turn of the loop of `normalizePath`. -/
def Components.step (isAbsolute : Bool) (s : Components) (component : Path) : Option Components :=
  if component = dotdot then
    match s.kept.getLast? with
    | none => if isAbsolute then some s else s.pushComponent dotdot
    | some last => if last = dotdot then s.pushComponent dotdot else some s.popComponent
  else if component ≠ [] ∧ component ≠ dot then s.pushComponent component
  else some s

/-- The loop of `normalizePath`. -/
def Components.run (isAbsolute : Bool) (s : Components) : List Path → Option Components
  | [] => some s
  | component :: components =>
    match s.step isAbsolute component with
    | none => none
    | some s => s.run isAbsolute components

def Components.empty : Components := ⟨[], 0, kInlineCapacity⟩

def hasSuffix (str suffix : Path) : Bool := suffix.isSuffixOf str

/-- The components that are kept, as a path. -/
def joinComponents (start : Path) (kept : List Path) : Path :=
  let normalized := start ++ [slash].intercalate kept
  if hasSuffix normalized dotdot then normalized ++ [slash] else normalized

/-- The path of the components that are kept of `path`. -/
def joinKept (path : Path) (kept : List Path) : Path :=
  if isAbsolutePath path then
    joinComponents ((path.splitOnP isSeparator).headD [] ++ [slash]) kept
  else joinComponents (if kept.head? = some dotdot then [] else text "./") kept

/-- The components of a path that the loop goes through: not the first one of an absolute path. -/
def pathComponents (path : Path) : List Path :=
  if isAbsolutePath path then (path.splitOnP isSeparator).tail else path.splitOnP isSeparator

/-- `normalizePath`.  A read past the inline array has no defined result; it is the empty path
here. -/
def normalizePath (path : Path) : Path :=
  match Components.empty.run (isAbsolutePath path) (pathComponents path) with
  | none => []
  | some s => joinKept path s.kept

/-- What becomes of the components that are kept, at the next one. -/
def keepComponent (isAbsolute : Bool) (kept : List Path) (component : Path) : List Path :=
  if component = dotdot then
    match kept.getLast? with
    | none => if isAbsolute then kept else kept ++ [dotdot]
    | some last => if last = dotdot then kept ++ [dotdot] else kept.dropLast
  else if component ≠ [] ∧ component ≠ dot then kept ++ [component]
  else kept

/-- The components that are to be kept of a path. -/
def referenceComponents (path : Path) : List Path :=
  (pathComponents path).foldl (keepComponent (isAbsolutePath path)) []

/-- What `normalizePath` is to compute. -/
def referencePath (path : Path) : Path := joinKept path (referenceComponents path)

/-! ### Suffixes -/

def kSuffixes : List Path := [text ".luau", text ".lua", text ".d.luau", text ".d.lua"]

def kInitSuffixes : List Path :=
  [text "/init.luau", text "/init.lua", text "/init.d.luau", text "/init.d.lua"]

def kIndexSuffixes : List Path :=
  [text "/index.luau", text "/index.lua", text "/index.d.luau", text "/index.d.lua"]

def kNativeSuffixes : List Path := [text ".so", text ".dylib", text ".dll"]

/-- The suffixes, in the order of the loops of `getModulePath`. -/
def strippedSuffixes : List Path :=
  kInitSuffixes ++ kIndexSuffixes ++ kSuffixes ++ kNativeSuffixes

def getModulePath (filePath : Path) : Path :=
  let filePath := filePath.map fun c => if c = backslash then slash else c
  let pathView :=
    if isAbsolutePath filePath then filePath.drop (filePath.idxOf slash) else filePath
  match strippedSuffixes.find? (hasSuffix pathView) with
  | some suffix => pathView.take (pathView.length - suffix.length)
  | none => pathView

def isDirectoryModule (realPath : Path) : Bool :=
  kInitSuffixes.any (hasSuffix realPath) || kIndexSuffixes.any (hasSuffix realPath)

/-! ### Components -/

/-- A component that names an entry of a directory. -/
structure IsName (n : Path) : Prop where
  ne_nil : n ≠ []
  ne_dot : n ≠ dot
  ne_dotdot : n ≠ dotdot
  separator : ∀ c ∈ n, isSeparator c = false

theorem separator_of_all {n : Path} (h : n.all (fun c => !isSeparator c) = true) :
    ∀ c ∈ n, isSeparator c = false := by
  intro c hc
  simpa using List.all_eq_true.mp h c hc

/-- Directories, each with the slash after it. -/
def dirs (l : List Path) : Path := l.flatMap (· ++ [slash])

@[simp] theorem dirs_nil : dirs [] = [] := rfl

@[simp] theorem dirs_cons (n : Path) (l : List Path) : dirs (n :: l) = n ++ slash :: dirs l := by
  simp [dirs]

@[simp] theorem dirs_append (l l' : List Path) : dirs (l ++ l') = dirs l ++ dirs l' := by
  simp [dirs]

/-- The components, with a last one. -/
theorem intercalate_concat (l : List Path) (x : Path) :
    [slash].intercalate (l ++ [x]) = dirs l ++ x := by
  induction l with
  | nil => simp
  | cons n l ih =>
    rw [List.cons_append, List.intercalate_cons_of_ne_nil (by simp), ih]
    simp

theorem isSeparator_slash : isSeparator slash = true := rfl

/-- The components of a path below directories. -/
theorem splitOnP_dirs {l : List Path} (h : ∀ n ∈ l, ∀ c ∈ n, isSeparator c = false) (g : Path) :
    (dirs l ++ g).splitOnP isSeparator = l ++ g.splitOnP isSeparator := by
  induction l with
  | nil => rfl
  | cons n l ih =>
    rw [dirs_cons, List.append_assoc, List.cons_append,
      List.splitOnP_append_cons_of_forall_mem (h n List.mem_cons_self) slash isSeparator_slash,
      ih fun m hm => h m (List.mem_cons_of_mem _ hm), List.cons_append]

/-- No component has a separator in it. -/
theorem separator_of_mem_splitOnP {p n : Path} (hn : n ∈ p.splitOnP isSeparator) :
    ∀ c ∈ n, isSeparator c = false := by
  induction p generalizing n with
  | nil =>
    rw [List.splitOnP_nil, List.mem_singleton] at hn
    subst hn
    simp
  | cons c p ih =>
    rw [List.splitOnP_cons_eq_if_modifyHead] at hn
    split_ifs at hn with hc
    · rcases List.mem_cons.mp hn with rfl | hn
      · simp
      · exact ih hn
    · obtain ⟨m, l, hl⟩ := List.exists_cons_of_ne_nil (List.splitOnP_ne_nil isSeparator p)
      rw [hl, List.modifyHead_cons] at hn
      rcases List.mem_cons.mp hn with rfl | hn
      · intro d hd
        rcases List.mem_cons.mp hd with rfl | hd
        · simpa using hc
        · exact ih (hl ▸ List.mem_cons_self) d hd
      · exact ih (hl ▸ List.mem_cons_of_mem _ hn)

section Push

variable {isAbsolute : Bool} {l names : List Path}

theorem isName_of_push {n : Path} (hsep : ∀ c ∈ n, isSeparator c = false) (hdd : n ≠ dotdot)
    (h : n ≠ [] ∧ n ≠ dot) : IsName n := ⟨h.1, h.2, hdd, hsep⟩

/-- A name is kept. -/
theorem keepComponent_name {n : Path} (hn : IsName n) : keepComponent isAbsolute l n = l ++ [n] := by
  rw [keepComponent, if_neg hn.ne_dotdot, if_pos ⟨hn.ne_nil, hn.ne_dot⟩]

theorem foldl_keepComponent_names (h : ∀ n ∈ names, IsName n) :
    names.foldl (keepComponent isAbsolute) l = l ++ names := by
  induction names generalizing l with
  | nil => simp
  | cons n names ih =>
    rw [List.foldl_cons, keepComponent_name (h n List.mem_cons_self),
      ih fun m hm => h m (List.mem_cons_of_mem _ hm), List.append_assoc, List.singleton_append]

theorem keepComponent_nil (isAbsolute : Bool) (l : List Path) :
    keepComponent isAbsolute l [] = l := by
  rw [keepComponent, if_neg (by decide), if_neg (by simp)]

theorem keepComponent_dot : keepComponent isAbsolute l dot = l := by
  rw [keepComponent, if_neg (by decide), if_neg (by simp)]

/-- Going up from a directory. -/
theorem keepComponent_dotdot (h : ∀ n ∈ l, IsName n) :
    keepComponent true l dotdot = l.take (l.length - 1) := by
  rw [keepComponent, if_pos rfl]
  cases hl : l.getLast? with
  | none =>
    rw [List.getLast?_eq_none_iff] at hl
    simp [hl]
  | some last =>
    rw [← List.dropLast_eq_take]
    exact if_neg (h last (List.mem_of_getLast? hl)).ne_dotdot

theorem foldl_keepComponent_dotdot (h : ∀ n ∈ l, IsName n) (k : ℕ) :
    (List.replicate k dotdot).foldl (keepComponent true) l = l.take (l.length - k) := by
  induction k generalizing l with
  | zero => simp
  | succ k ih =>
    rw [List.replicate_succ, List.foldl_cons, keepComponent_dotdot h,
      ih fun n hn => h n (List.mem_of_mem_take hn), List.take_take, List.length_take]
    congr 1
    omega

/-- What is kept of a relative path: steps up, and then names. -/
theorem foldl_keepComponent_relative {components : List Path}
    (h : ∀ n ∈ components, ∀ c ∈ n, isSeparator c = false) {k : ℕ} (hnames : ∀ n ∈ names, IsName n) :
    ∃ k' names', (∀ n ∈ names', IsName n) ∧
      components.foldl (keepComponent false) (List.replicate k dotdot ++ names) =
        List.replicate k' dotdot ++ names' := by
  induction components generalizing k names with
  | nil => exact ⟨k, names, hnames, rfl⟩
  | cons n components ih =>
    have hrest := fun m hm => h m (List.mem_cons_of_mem n hm)
    rw [List.foldl_cons]
    by_cases hdd : n = dotdot
    · rcases List.eq_nil_or_concat names with rfl | ⟨names, x, rfl⟩
      · -- There is nothing to go up from, so that the step is kept.
        have hpush : keepComponent false (List.replicate k dotdot ++ []) n =
            List.replicate (k + 1) dotdot ++ [] := by
          rw [keepComponent, if_pos hdd, List.append_nil, List.append_nil, List.replicate_succ']
          cases k with
          | zero => rfl
          | succ k => simp [List.replicate_succ']
        rw [hpush]
        exact ih hrest (by simp)
      · have hx := hnames x (by simp)
        have hpush : keepComponent false (List.replicate k dotdot ++ names.concat x) n =
            List.replicate k dotdot ++ names := by
          rw [keepComponent, if_pos hdd, List.concat_eq_append, ← List.append_assoc]
          simp [hx.ne_dotdot]
        rw [hpush]
        exact ih hrest fun m hm => hnames m (by simp [hm])
    · by_cases hkeep : n ≠ [] ∧ n ≠ dot
      · have hn := isName_of_push (h n List.mem_cons_self) hdd hkeep
        rw [keepComponent_name hn, List.append_assoc]
        refine ih hrest fun m hm => ?_
        rcases List.mem_append.mp hm with hm | hm
        · exact hnames m hm
        · rw [List.mem_singleton.mp hm]
          exact hn
      · rw [keepComponent, if_neg hdd, if_neg hkeep]
        exact ih hrest hnames

end Push

/-! ### The array and the vector -/

/-- No more than 128 components are kept at any time. -/
def Shallow (path : Path) : Prop :=
  ∀ l ∈ (pathComponents path).inits, (l.foldl (keepComponent (isAbsolutePath path)) []).length ≤ 128

instance (path : Path) : Decidable (Shallow path) := inferInstanceAs (Decidable (∀ l ∈ _, _))

/-- The components are in the array, or the vector has room for 128. -/
def Components.Roomy (s : Components) : Prop :=
  (s.capacity = kInlineCapacity ∧ s.heapSize = 0 ∧ s.kept.length ≤ kInlineCapacity) ∨
    (s.capacity = 128 ∧ s.heapSize ≤ 65)

section Steps

variable {isAbsolute : Bool} {s s' : Components} {n : Path} {components : List Path}

/-- Up to 128 components, nothing is lost. -/
theorem Components.pushComponent_eq (hs : s.Roomy) (hlength : s.kept.length < 128) (n : Path) :
    ∃ s', s.pushComponent n = some s' ∧ s'.kept = s.kept ++ [n] ∧ s'.Roomy := by
  unfold Components.pushComponent
  rcases hs with ⟨hcap, hheap, hinline⟩ | ⟨hcap, hheap⟩
  · by_cases hfull : s.capacity ≤ s.kept.length
    · -- The array is copied to the vector.
      rw [if_pos hfull, if_pos hheap, if_pos hinline]
      rw [hcap] at hfull ⊢
      exact ⟨_, rfl, rfl, .inr ⟨rfl, Nat.succ_le_succ hinline⟩⟩
    · rw [if_neg hfull]
      refine ⟨_, rfl, rfl, .inl ⟨hcap, hheap, ?_⟩⟩
      rw [hcap] at hfull
      rw [List.length_append]
      exact Nat.not_le.mp hfull
  · rw [if_neg (by omega)]
    exact ⟨_, rfl, rfl, .inr ⟨hcap, hheap⟩⟩

/-- The 129th component takes the place of the one at the end of the vector. -/
theorem Components.length_pushComponent (hs : s.Roomy) (hlength : 128 ≤ s.kept.length)
    (h : s.pushComponent n = some s') : s'.kept.length ≤ 66 := by
  unfold Components.pushComponent at h
  rcases hs with ⟨hcap, hheap, hinline⟩ | ⟨hcap, hheap⟩
  · exact absurd (hlength.trans hinline) (by decide)
  · rw [if_pos (by omega)] at h
    have hinline : ¬ s.kept.length ≤ kInlineCapacity := by rw [kInlineCapacity]; omega
    rw [if_neg hinline] at h
    split_ifs at h
    all_goals
      obtain rfl := Option.some.inj h
      rw [List.length_append, List.length_take, List.length_singleton]
      omega

theorem Components.Roomy.popComponent (hs : s.Roomy) : s.popComponent.Roomy := by
  unfold Components.Roomy Components.popComponent
  rcases hs with ⟨hcap, hheap, hinline⟩ | ⟨hcap, hheap⟩
  · refine .inl ⟨hcap, by simp [hheap], ?_⟩
    simp only [List.length_dropLast]
    omega
  · exact .inr ⟨hcap, (Nat.sub_le _ _).trans hheap⟩

/-- A turn pushes a component that is kept, pops the last one, or does nothing. -/
theorem Components.step_cases (isAbsolute : Bool) (s : Components) (n : Path) :
    (s.step isAbsolute n = s.pushComponent n ∧ keepComponent isAbsolute s.kept n = s.kept ++ [n]) ∨
    (s.step isAbsolute n = some s.popComponent ∧
      keepComponent isAbsolute s.kept n = s.kept.dropLast) ∨
    (s.step isAbsolute n = some s ∧ keepComponent isAbsolute s.kept n = s.kept) := by
  unfold Components.step keepComponent
  by_cases hdd : n = dotdot
  · subst hdd
    simp only [if_true]
    -- A double dot takes back the last name, if there is one.
    cases s.kept.getLast? with
    | none =>
      cases isAbsolute with
      | true => exact .inr (.inr ⟨by simp, by simp⟩)
      | false => exact .inl ⟨by simp, by simp⟩
    | some last =>
      by_cases hlast : last = dotdot
      · simp only [hlast, if_true]
        exact .inl ⟨by simp, by simp⟩
      · simp only [hlast, if_false]
        exact .inr (.inl ⟨by simp, by simp⟩)
  · by_cases hkeep : n ≠ [] ∧ n ≠ dot
    · simp only [hdd, if_false, if_pos hkeep]
      exact .inl ⟨by simp, by simp⟩
    · simp only [hdd, if_false, if_neg hkeep]
      exact .inr (.inr ⟨by simp, by simp⟩)

/-- A turn keeps what is to be kept, if that is not too much. -/
theorem Components.step_eq (hs : s.Roomy)
    (hlength : (keepComponent isAbsolute s.kept n).length ≤ 128) :
    ∃ s', s.step isAbsolute n = some s' ∧ s'.kept = keepComponent isAbsolute s.kept n ∧
      s'.Roomy := by
  rcases Components.step_cases isAbsolute s n with ⟨hstep, hkeep⟩ | ⟨hstep, hkeep⟩ | ⟨hstep, hkeep⟩
  · rw [hkeep] at hlength ⊢
    rw [List.length_append, List.length_singleton] at hlength
    rw [hstep]
    exact Components.pushComponent_eq hs hlength n
  · exact ⟨_, hstep, hkeep.symm, hs.popComponent⟩
  · exact ⟨_, hstep, hkeep.symm, hs⟩

theorem Components.run_eq (hs : s.Roomy)
    (hlength : ∀ l ∈ components.inits, (l.foldl (keepComponent isAbsolute) s.kept).length ≤ 128) :
    ∃ s', s.run isAbsolute components = some s' ∧
      s'.kept = components.foldl (keepComponent isAbsolute) s.kept ∧ s'.Roomy := by
  induction components generalizing s with
  | nil => exact ⟨s, rfl, rfl, hs⟩
  | cons n components ih =>
    simp only [List.mem_inits] at hlength ih
    have hfirst : [n] <+: n :: components := ⟨components, rfl⟩
    obtain ⟨t, hstep, hkept, ht⟩ := Components.step_eq hs (hlength [n] hfirst)
    obtain ⟨s', hrun, hkept', hs'⟩ := ih ht fun l hl => by
      rw [hkept]
      exact hlength (n :: l) (List.cons_prefix_cons.mpr ⟨rfl, hl⟩)
    refine ⟨s', ?_, ?_, hs'⟩
    · rw [Components.run, hstep]
      exact hrun
    · rw [hkept', hkept, List.foldl_cons]

theorem Components.roomy_empty : Components.empty.Roomy := .inl ⟨rfl, rfl, Nat.zero_le _⟩

/-- **`normalizePath` computes the normal form** of a path of which no more than 128 components are
kept at any time. -/
theorem normalizePath_eq {path : Path} (h : Shallow path) :
    normalizePath path = referencePath path := by
  obtain ⟨s, hrun, hkept, -⟩ := Components.run_eq Components.roomy_empty h
  rw [normalizePath, hrun]
  exact congrArg (joinKept path) hkept

end Steps

/-! ### Relative paths -/

/-- The directory `k` levels above the working directory, without the last slash. -/
def climbed (k : ℕ) : Path := if k = 0 then dot else dirs (List.replicate (k - 1) dotdot) ++ dotdot

/-- The same directory, if `cwd` are the names of the working directory. -/
def directory (cwd : List Path) (k : ℕ) : Path :=
  (cwd.take (cwd.length - k)).flatMap fun n => slash :: n

theorem climbed_slash (k : ℕ) :
    climbed k ++ [slash] = dirs (if k = 0 then [dot] else List.replicate k dotdot) := by
  cases k with
  | zero => rfl
  | succ k =>
    rw [climbed, if_neg (Nat.succ_ne_zero k), if_neg (Nat.succ_ne_zero k), List.replicate_succ',
      Nat.add_sub_cancel, dirs_append]
    simp

theorem directory_slash (cwd : List Path) (k : ℕ) :
    directory cwd k ++ [slash] = slash :: dirs (cwd.take (cwd.length - k)) := by
  rw [directory]
  induction cwd.take (cwd.length - k) with
  | nil => rfl
  | cons n l ih =>
    rw [List.flatMap_cons, List.append_assoc, ih]
    simp

/-- What is kept below a directory of the working directory. -/
theorem foldl_keepComponent_climbed {cwd : List Path} (hcwd : ∀ n ∈ cwd, IsName n) (k : ℕ) :
    (if k = 0 then [dot] else List.replicate k dotdot).foldl (keepComponent true) cwd =
      cwd.take (cwd.length - k) := by
  cases k with
  | zero =>
    rw [if_pos rfl, List.foldl_cons, keepComponent_dot]
    simp
  | succ k =>
    rw [if_neg (Nat.succ_ne_zero k)]
    exact foldl_keepComponent_dotdot hcwd (k + 1)

theorem separator_climbed (k : ℕ) :
    ∀ n ∈ (if k = 0 then [dot] else List.replicate k dotdot), ∀ c ∈ n, isSeparator c = false := by
  intro n hn
  split_ifs at hn
  · rw [List.mem_singleton.mp hn]
    exact separator_of_all rfl
  · rw [(List.mem_replicate.mp hn).2]
    exact separator_of_all rfl

/-- The end of a path decides on its short suffixes. -/
theorem hasSuffix_append (p : Path) {t s : Path} (h : s.length ≤ t.length) :
    hasSuffix (p ++ t) s = hasSuffix t s := by
  rw [hasSuffix, hasSuffix, Bool.eq_iff_iff, List.isSuffixOf_iff_suffix, List.isSuffixOf_iff_suffix]
  exact ⟨fun hs => List.suffix_of_suffix_length_le hs (List.suffix_append p t) h,
    fun hs => hs.trans (List.suffix_append p t)⟩

/-- A path that does not end in a slash is in normal form when its components are joined. -/
theorem joinComponents_eq {start p : Path} {kept : List Path} (h : joinComponents start kept = p)
    (hend : ∀ q, p ≠ q ++ [slash]) :
    p = start ++ [slash].intercalate kept ∧ hasSuffix p dotdot = false := by
  rw [joinComponents] at h
  split_ifs at h with hs
  · exact absurd h.symm (hend _)
  · rw [← h]
    exact ⟨rfl, by simpa using hs⟩

/-- The start of a relative path in normal form. -/
theorem start_climbed {k : ℕ} {names : List Path} (hnames : ∀ n ∈ names, IsName n) (l : List Path)
    (x : Path) (hsplit : names = l ++ [x]) :
    (if (List.replicate k dotdot ++ names).head? = some dotdot then [] else text "./") ++
      [slash].intercalate (List.replicate k dotdot ++ names) =
    climbed k ++ slash :: (dirs l ++ x) := by
  rw [hsplit, ← List.append_assoc, intercalate_concat, dirs_append]
  cases k with
  | zero =>
    have hhead : ([] ++ l ++ [x]).head? ≠ some dotdot := by
      intro he
      exact (hnames dotdot (hsplit ▸ List.mem_of_head? he)).ne_dotdot rfl
    rw [List.replicate_zero, if_neg hhead]
    rfl
  | succ k =>
    have hhead : (List.replicate (k + 1) dotdot ++ l ++ [x]).head? = some dotdot := by
      simp [List.replicate_succ]
    have hclimb := climbed_slash (k + 1)
    rw [if_neg (Nat.succ_ne_zero k)] at hclimb
    rw [if_pos hhead, ← hclimb]
    simp

/-- What is kept of the working directory. -/
theorem foldl_keepComponent_cwd {cwd : List Path} (hcwd : ∀ n ∈ cwd, IsName n) :
    (([slash].intercalate cwd).splitOnP isSeparator).foldl (keepComponent true) [] = cwd := by
  rcases List.eq_nil_or_concat' cwd with rfl | ⟨l, x, rfl⟩
  · exact keepComponent_nil true []
  · rw [intercalate_concat,
      splitOnP_dirs fun n hn => (hcwd n (by simp [hn])).separator,
      List.splitOnP_eq_singleton (hcwd x (by simp)).separator, foldl_keepComponent_names hcwd,
      List.nil_append]

/-- What is kept of a relative path: steps up, and then names. -/
theorem referenceComponents_relative {f : Path} (hrel : isAbsolutePath f = false) :
    ∃ k names, (∀ n ∈ names, IsName n) ∧
      referenceComponents f = List.replicate k dotdot ++ names := by
  rw [referenceComponents, pathComponents, hrel, if_neg Bool.false_ne_true]
  exact foldl_keepComponent_relative (k := 0) (fun n hn => separator_of_mem_splitOnP hn)
    (show ∀ n ∈ [], IsName n by simp)

/-- **A relative path in normal form** climbs some levels, and then has names only; its normal form
below the working directory has the same names. -/
theorem referencePath_relative {f : Path} (hnormal : referencePath f = f)
    (hrel : isAbsolutePath f = false) (hend : ∀ q, f ≠ q ++ [slash]) :
    ∃ k g, f = climbed k ++ slash :: g ∧
      ∀ cwd : List Path, (∀ n ∈ cwd, IsName n) →
        referencePath ((slash :: [slash].intercalate cwd) ++ slash :: f) =
          directory cwd k ++ slash :: g := by
  obtain ⟨k, names, hnames, hfold⟩ := referenceComponents_relative hrel
  rw [referencePath, joinKept, hrel, if_neg Bool.false_ne_true, hfold] at hnormal
  obtain ⟨hf, hdots⟩ := joinComponents_eq hnormal hend
  rcases List.eq_nil_or_concat' names with rfl | ⟨l, x, hsplit⟩
  · -- Without names it ends in a slash.
    exfalso
    cases k with
    | zero => exact hend dot hf
    | succ k =>
      have hlast : f = dirs (List.replicate k dotdot) ++ dotdot := by
        rw [hf, List.append_nil, ← intercalate_concat, ← List.replicate_succ']
        simp [List.replicate_succ]
      rw [hlast, hasSuffix_append _ (Nat.le_refl _)] at hdots
      revert hdots
      decide
  have hg : f = climbed k ++ slash :: (dirs l ++ x) := hf.trans (start_climbed hnames l x hsplit)
  subst hsplit
  have hsep : ∀ n ∈ l ++ [x], ∀ c ∈ n, isSeparator c = false := fun n hn => (hnames n hn).separator
  have hl : ∀ n ∈ l, ∀ c ∈ n, isSeparator c = false := fun n hn => hsep n (by simp [hn])
  have hx := hsep x (by simp)
  refine ⟨k, dirs l ++ x, hg, fun cwd hcwd => ?_⟩
  have hsplitf : f.splitOnP isSeparator =
      (if k = 0 then [dot] else List.replicate k dotdot) ++ (l ++ [x]) := by
    rw [hg, ← List.singleton_append, ← List.append_assoc, climbed_slash,
      splitOnP_dirs (separator_climbed k), splitOnP_dirs hl, List.splitOnP_eq_singleton hx]
  have hcomponents : ((slash :: [slash].intercalate cwd) ++ slash :: f).splitOnP isSeparator =
      [] :: (([slash].intercalate cwd).splitOnP isSeparator ++ f.splitOnP isSeparator) := by
    rw [List.splitOnP_append_cons _ _ isSeparator_slash, List.splitOnP_cons_eq_if_modifyHead,
      if_pos isSeparator_slash, List.cons_append]
  have habs : isAbsolutePath ((slash :: [slash].intercalate cwd) ++ slash :: f) = true := rfl
  have hpathComponents : pathComponents ((slash :: [slash].intercalate cwd) ++ slash :: f) =
      ([slash].intercalate cwd).splitOnP isSeparator ++ f.splitOnP isSeparator := by
    rw [pathComponents, habs, if_pos rfl, hcomponents, List.tail_cons]
  rw [referencePath, joinKept, habs, if_pos rfl, hcomponents, referenceComponents, habs,
    hpathComponents, List.foldl_append, foldl_keepComponent_cwd hcwd, hsplitf, List.foldl_append,
    foldl_keepComponent_climbed hcwd, foldl_keepComponent_names hnames, List.headD_cons,
    List.nil_append, joinComponents]
  have hpath : [slash] ++ [slash].intercalate (cwd.take (cwd.length - k) ++ (l ++ [x])) =
      directory cwd k ++ slash :: (dirs l ++ x) := by
    rw [← List.append_assoc (cwd.take _), intercalate_concat, dirs_append,
      ← List.singleton_append (l := dirs l ++ x), ← List.append_assoc (directory cwd k),
      directory_slash]
    simp
  rw [hpath, if_neg]
  rw [hg] at hdots
  have hlen : dotdot.length ≤ (slash :: (dirs l ++ x)).length := by
    have hne := List.length_pos_iff.mpr (hnames x (by simp)).ne_nil
    simp only [List.length_cons, List.length_append]
    show 2 ≤ _
    omega
  rw [hasSuffix_append _ hlen] at hdots ⊢
  rw [hdots]
  exact Bool.false_ne_true

/-! ### The suffix of a path -/

section Run

variable {isAbsolute : Bool} {s s' : Components} {n m : Path} {components : List Path}

/-- Whatever is kept was kept before, or is the component. -/
theorem Components.mem_pushComponent (h : s.pushComponent n = some s') (hm : m ∈ s'.kept) :
    m ∈ s.kept ∨ m = n := by
  unfold Components.pushComponent at h
  split_ifs at h
  all_goals
    obtain rfl := Option.some.inj h
    rcases List.mem_append.mp hm with hm | hm
    · first | exact .inl hm | exact .inl (List.mem_of_mem_take hm)
    · exact .inr (List.mem_singleton.mp hm)

theorem Components.mem_step (h : s.step isAbsolute n = some s') (hm : m ∈ s'.kept) :
    m ∈ s.kept ∨ m = n := by
  unfold Components.step at h
  by_cases hdd : n = dotdot
  · subst hdd
    rw [if_pos rfl] at h
    cases hl : s.kept.getLast? with
    | none =>
      simp only [hl] at h
      cases isAbsolute with
      | true => exact .inl (Option.some.inj h ▸ hm)
      | false => exact mem_pushComponent h hm
    | some last =>
      simp only [hl] at h
      by_cases hlast : last = dotdot
      · rw [if_pos hlast] at h
        exact mem_pushComponent h hm
      · rw [if_neg hlast] at h
        obtain rfl := Option.some.inj h
        exact .inl (List.mem_of_mem_dropLast hm)
  · rw [if_neg hdd] at h
    by_cases hkeep : n ≠ [] ∧ n ≠ dot
    · rw [if_pos hkeep] at h
      exact mem_pushComponent h hm
    · rw [if_neg hkeep] at h
      exact .inl (Option.some.inj h ▸ hm)

theorem Components.separator_run (h : s.run isAbsolute components = some s')
    (hcomponents : ∀ n ∈ components, ∀ c ∈ n, isSeparator c = false)
    (hs : ∀ n ∈ s.kept, ∀ c ∈ n, isSeparator c = false) :
    ∀ n ∈ s'.kept, ∀ c ∈ n, isSeparator c = false := by
  induction components generalizing s with
  | nil => exact Option.some.inj h ▸ hs
  | cons n components ih =>
    unfold Components.run at h
    cases hstep : s.step isAbsolute n with
    | none => simp only [hstep] at h; cases h
    | some t =>
      simp only [hstep] at h
      refine ih h (fun m hm => hcomponents m (List.mem_cons_of_mem _ hm)) fun m hm => ?_
      rcases mem_step hstep hm with hm | rfl
      · exact hs m hm
      · exact hcomponents m List.mem_cons_self

end Run

theorem separator_pathComponents {p n : Path} (hn : n ∈ pathComponents p) :
    ∀ c ∈ n, isSeparator c = false := by
  unfold pathComponents at hn
  split_ifs at hn
  · exact separator_of_mem_splitOnP (List.mem_of_mem_tail hn)
  · exact separator_of_mem_splitOnP hn

theorem headD_splitOnP {p : Path} (h : isAbsolutePath p = true) :
    (p.splitOnP isSeparator).headD [] = [] := by
  cases p with
  | nil => cases h
  | cons c p =>
    obtain rfl : c = slash := by simpa [isAbsolutePath] using h
    rw [List.splitOnP_cons_eq_if_modifyHead, if_pos isSeparator_slash, List.headD_cons]

/-- The bytes of a path are those of its components, and dots and slashes. -/
theorem mem_joinKept {p : Path} {kept : List Path} {c : UInt8} (hc : c ∈ joinKept p kept) :
    c ∈ dot ++ [slash] ∨ ∃ n ∈ kept, c ∈ n := by
  have hslash : slash ∈ dot ++ [slash] := by simp
  have hjoin : ∀ {start : Path}, (∀ d ∈ start, d ∈ dot ++ [slash]) → c ∈ joinComponents start kept →
      c ∈ dot ++ [slash] ∨ ∃ n ∈ kept, c ∈ n := by
    intro start hstart hc
    -- The slash at the end, or something before it.
    have hbody : c ∈ start ++ [slash].intercalate kept ∨ c = slash := by
      rw [joinComponents] at hc
      split_ifs at hc
      · rcases List.mem_append.mp hc with hc | hc
        · exact .inl hc
        · exact .inr (List.mem_singleton.mp hc)
      · exact .inl hc
    rcases hbody with hc | rfl
    · rcases List.mem_append.mp hc with hc | hc
      · exact .inl (hstart c hc)
      · rcases List.eq_nil_or_concat' kept with rfl | ⟨l, x, rfl⟩
        · cases hc
        · rw [intercalate_concat, List.mem_append] at hc
          rcases hc with hc | hc
          · obtain ⟨n, hn, hc⟩ := List.mem_flatMap.mp hc
            rcases List.mem_append.mp hc with hc | hc
            · exact .inr ⟨n, by simp [hn], hc⟩
            · exact .inl (List.mem_singleton.mp hc ▸ hslash)
          · exact .inr ⟨x, by simp, hc⟩
    · exact .inl hslash
  unfold joinKept at hc
  split_ifs at hc with habs hhead
  · exact hjoin (by rw [headD_splitOnP habs]; simp) hc
  · exact hjoin (by simp) hc
  · exact hjoin (fun d hd => hd) hc

/-- A path in normal form has no backslash. -/
theorem ne_backslash_of_mem {p : Path} {c : UInt8} (hc : c ∈ normalizePath p) : c ≠ backslash := by
  unfold normalizePath at hc
  split at hc
  · cases hc
  · next s hrun =>
    rcases mem_joinKept hc with hc | ⟨n, hn, hc⟩
    · rcases List.mem_append.mp hc with hc | hc
      · rintro rfl
        exact absurd hc (by decide)
      · rw [List.mem_singleton.mp hc]
        decide
    · have hsep := Components.separator_run hrun (fun m hm => separator_pathComponents hm)
        (by simp [Components.empty]) n hn c hc
      rintro rfl
      exact absurd hsep (by decide)

/-- `getModulePath` of a path without a backslash. -/
theorem getModulePath_eq {p : Path} (hp : ∀ c ∈ p, c ≠ backslash) :
    getModulePath p = match strippedSuffixes.find? (hasSuffix p) with
      | some suffix => p.take (p.length - suffix.length)
      | none => p := by
  have hmap : (p.map fun c => if c = backslash then slash else c) = p := by
    refine (List.map_congr_left fun c hc => ?_).trans (List.map_id p)
    exact if_neg (hp c hc)
  have hdrop : (if isAbsolutePath p then p.drop (p.idxOf slash) else p) = p := by
    split_ifs with habs
    · cases p with
      | nil => rfl
      | cons c p =>
        have hc : c = slash := by simpa [isAbsolutePath] using habs
        rw [hc, List.idxOf_cons_self, List.drop_zero]
    · rfl
  simp only [getModulePath, hmap, hdrop]

/-- A suffix of a path, below a directory, is one of what follows the directory. -/
theorem hasSuffix_under (D g : Path) {s : Path} (hs : s ∈ strippedSuffixes) :
    hasSuffix (D ++ slash :: g) s = hasSuffix (slash :: g) s := by
  rcases Nat.lt_or_ge (slash :: g).length s.length with hlt | hge
  · have hshort : ¬ s <:+ slash :: g := fun h => Nat.not_lt.mpr h.length_le hlt
    have hlong : ¬ s <:+ D ++ slash :: g := by
      intro h
      obtain ⟨t, ht⟩ := List.suffix_of_suffix_length_le (List.suffix_append D (slash :: g)) h
        (Nat.le_of_lt hlt)
      -- The slash is not at the start of the suffix.
      have hslash : ∀ s ∈ strippedSuffixes, slash ∉ s.tail := by decide
      refine hslash s hs ?_
      cases t with
      | nil =>
        rw [List.nil_append] at ht
        exact absurd hlt (ht ▸ Nat.lt_irrefl _)
      | cons c t =>
        rw [← ht]
        simp
    rw [hasSuffix, hasSuffix, Bool.eq_iff_iff, List.isSuffixOf_iff_suffix,
      List.isSuffixOf_iff_suffix]
    exact iff_of_false hlong hshort
  · exact hasSuffix_append D hge

theorem find?_congr {α : Type} {l : List α} {p q : α → Bool} (h : ∀ a ∈ l, p a = q a) :
    l.find? p = l.find? q := by
  induction l with
  | nil => rfl
  | cons a l ih =>
    rw [List.find?_cons, List.find?_cons, h a List.mem_cons_self,
      ih fun b hb => h b (List.mem_cons_of_mem _ hb)]

/-- **The module path below a directory** does not depend on the directory. -/
theorem getModulePath_under (g : Path) : ∃ r, r <+: slash :: g ∧
    ∀ D : Path, (∀ c ∈ D ++ slash :: g, c ≠ backslash) → getModulePath (D ++ slash :: g) = D ++ r := by
  -- A suffix is no longer than what follows the slash, so only that decides.
  have hfind : ∀ D : Path, strippedSuffixes.find? (hasSuffix (D ++ slash :: g)) =
      strippedSuffixes.find? (hasSuffix (slash :: g)) :=
    fun D => find?_congr fun s hs => hasSuffix_under D g hs
  cases hs : strippedSuffixes.find? (hasSuffix (slash :: g)) with
  | none =>
    refine ⟨slash :: g, List.prefix_refl _, fun D hD => ?_⟩
    rw [getModulePath_eq hD, hfind, hs]
  | some s =>
    have hsuffix : hasSuffix (slash :: g) s = true := List.find?_some hs
    have hle : s.length ≤ (slash :: g).length :=
      (List.isSuffixOf_iff_suffix.mp hsuffix).length_le
    refine ⟨(slash :: g).take ((slash :: g).length - s.length), List.take_prefix _ _, fun D hD => ?_⟩
    rw [getModulePath_eq hD, hfind, hs]
    show (D ++ slash :: g).take _ = _
    have hD : D.length ≤ (D ++ slash :: g).length - s.length := by
      rw [List.length_append]
      omega
    rw [List.take_append, List.take_of_length_le hD]
    congr 2
    rw [List.length_append]
    omega

end Cli

end Jaci
