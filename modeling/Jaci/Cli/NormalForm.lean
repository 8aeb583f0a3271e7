import Jaci.Cli.Paths

/-!
# Is a path brought into normal form?

`normalizePath` copies the components from the array to a vector when there are more than 64 of
them.  Later components are written behind the end of the vector, which does not count them; at the
129th, the vector goes on from its own size.

* `referencePath_joinKept` : a normal form is its own normal form;
* `normalizes_iff` : **the normal form is computed** for all beginnings of a path if and only if no
  more than 128 components are kept at any time.
-/

namespace Jaci

namespace Cli

open Wire Require

/-! ### Normal forms -/

/-- The components of a path in normal form. -/
def IsNormal (isAbsolute : Bool) (kept : List Path) : Prop :=
  ∃ k names, (∀ n ∈ names, IsName n) ∧ kept = List.replicate k dotdot ++ names ∧
    (isAbsolute = true → k = 0)

section Normal

variable {isAbsolute : Bool} {p q : Path} {kept names components : List Path}

/-- What is kept of an absolute path: names. -/
theorem foldl_keepComponent_absolute (h : ∀ n ∈ components, ∀ c ∈ n, isSeparator c = false)
    (hnames : ∀ n ∈ names, IsName n) :
    ∀ n ∈ components.foldl (keepComponent true) names, IsName n := by
  induction components generalizing names with
  | nil => exact hnames
  | cons n components ih =>
    refine ih (fun m hm => h m (List.mem_cons_of_mem n hm)) ?_
    by_cases hdd : n = dotdot
    · rw [hdd, keepComponent_dotdot hnames]
      exact fun m hm => hnames m (List.mem_of_mem_take hm)
    · by_cases hkeep : n ≠ [] ∧ n ≠ dot
      · have hn := isName_of_push (h n List.mem_cons_self) hdd hkeep
        rw [keepComponent_name hn]
        intro m hm
        rcases List.mem_append.mp hm with hm | hm
        · exact hnames m hm
        · rw [List.mem_singleton.mp hm]
          exact hn
      · rw [keepComponent, if_neg hdd, if_neg hkeep]
        exact hnames

theorem isNormal_referenceComponents (p : Path) :
    IsNormal (isAbsolutePath p) (referenceComponents p) := by
  cases habs : isAbsolutePath p with
  | true =>
    refine ⟨0, referenceComponents p, ?_, rfl, fun _ => rfl⟩
    rw [referenceComponents, habs]
    exact foldl_keepComponent_absolute (fun n hn => separator_pathComponents hn) (by simp)
  | false =>
    obtain ⟨k, names, hnames, heq⟩ := referenceComponents_relative habs
    exact ⟨k, names, hnames, heq, by simp⟩

theorem IsNormal.separator (h : IsNormal isAbsolute kept) :
    ∀ n ∈ kept, ∀ c ∈ n, isSeparator c = false := by
  obtain ⟨k, names, hnames, rfl, -⟩ := h
  intro n hn
  rcases List.mem_append.mp hn with hn | hn
  · rw [(List.mem_replicate.mp hn).2]
    exact separator_of_all rfl
  · exact (hnames n hn).separator

/-- The steps up at the front of a relative path are kept. -/
theorem foldl_keepComponent_steps (j k : ℕ) :
    (List.replicate k dotdot).foldl (keepComponent false) (List.replicate j dotdot) =
      List.replicate (j + k) dotdot := by
  induction k generalizing j with
  | zero => rfl
  | succ k ih =>
    have hkeep : keepComponent false (List.replicate j dotdot) dotdot =
        List.replicate (j + 1) dotdot := by
      rw [keepComponent, if_pos rfl, List.replicate_succ']
      cases j with
      | zero => rfl
      | succ j => simp [List.replicate_succ']
    rw [List.replicate_succ, List.foldl_cons, hkeep, ih]
    congr 1
    omega

theorem IsNormal.foldl (h : IsNormal isAbsolute kept) :
    kept.foldl (keepComponent isAbsolute) [] = kept := by
  obtain ⟨k, names, hnames, rfl, hk⟩ := h
  rw [List.foldl_append]
  cases isAbsolute with
  | true =>
    rw [hk rfl]
    exact foldl_keepComponent_names hnames
  | false =>
    have hsteps := foldl_keepComponent_steps 0 k
    rw [List.replicate_zero, Nat.zero_add] at hsteps
    rw [hsteps, foldl_keepComponent_names hnames]

/-- Components that are not kept. -/
theorem foldl_keepComponent_skip (h : ∀ n ∈ components, n = [] ∨ n = dot) :
    components.foldl (keepComponent isAbsolute) kept = kept := by
  induction components with
  | nil => rfl
  | cons n components ih =>
    have hskip : keepComponent isAbsolute kept n = kept := by
      rcases h n List.mem_cons_self with rfl | rfl
      · exact keepComponent_nil isAbsolute kept
      · exact keepComponent_dot
    rw [List.foldl_cons, hskip, ih fun m hm => h m (List.mem_cons_of_mem _ hm)]

/-- A path ends in its last component, or in a slash. -/
theorem exists_joinComponents (start : Path) (kept : List Path) :
    ∃ t, (t = [] ∨ t = [slash]) ∧
      joinComponents start kept = start ++ ([slash].intercalate kept ++ t) := by
  rw [joinComponents]
  split_ifs
  · exact ⟨[slash], .inr rfl, List.append_assoc _ _ _⟩
  · exact ⟨[], .inl rfl, by rw [List.append_nil]⟩

theorem splitOnP_intercalate (h : ∀ n ∈ kept, ∀ c ∈ n, isSeparator c = false) {t : Path}
    (ht : t = [] ∨ t = [slash]) : ∃ post, (∀ n ∈ post, n = []) ∧
      ([slash].intercalate kept ++ t).splitOnP isSeparator = kept ++ post := by
  rcases List.eq_nil_or_concat' kept with rfl | ⟨l, x, rfl⟩
  · rcases ht with rfl | rfl
    · exact ⟨[[]], by simp, rfl⟩
    · exact ⟨[[], []], by simp, rfl⟩
  · have hx := h x (by simp)
    rw [intercalate_concat, List.append_assoc, splitOnP_dirs fun n hn => h n (by simp [hn])]
    rcases ht with rfl | rfl
    · exact ⟨[], by simp, by rw [List.append_nil, List.splitOnP_eq_singleton hx, List.append_nil]⟩
    · refine ⟨[[]], by simp, ?_⟩
      rw [List.splitOnP_append_cons_of_forall_mem hx slash isSeparator_slash, List.splitOnP_nil,
        List.append_assoc, List.singleton_append]

/-- The components of a path that is joined, with some that are not kept. -/
theorem pathComponents_joinKept (h : IsNormal (isAbsolutePath p) kept) :
    isAbsolutePath (joinKept p kept) = isAbsolutePath p ∧
      ∃ pre post, (∀ n ∈ pre, n = [] ∨ n = dot) ∧ (∀ n ∈ post, n = [] ∨ n = dot) ∧
        pathComponents (joinKept p kept) = pre ++ (kept ++ post) := by
  have hsplit := fun t ht => splitOnP_intercalate h.separator (t := t) ht
  unfold joinKept
  split_ifs with habs hhead
  · rw [habs, headD_splitOnP habs]
    -- Absolute: the slash in front is not a component.
    obtain ⟨t, ht, heq⟩ := exists_joinComponents ([] ++ [slash]) kept
    obtain ⟨post, hpost, hcomponents⟩ := hsplit t ht
    rw [heq]
    refine ⟨rfl, [], post, by simp, fun n hn => .inl (hpost n hn), ?_⟩
    have habs' : isAbsolutePath ([] ++ [slash] ++ ([slash].intercalate kept ++ t)) = true := rfl
    rw [pathComponents, habs', if_pos rfl, List.nil_append, List.singleton_append,
      List.splitOnP_cons_eq_if_modifyHead, if_pos isSeparator_slash, List.tail_cons, hcomponents,
      List.nil_append]
  · obtain ⟨t, ht, heq⟩ := exists_joinComponents [] kept
    obtain ⟨post, hpost, hcomponents⟩ := hsplit t ht
    rw [heq, List.nil_append]
    have hrel : isAbsolutePath ([slash].intercalate kept ++ t) = false := by
      cases kept with
      | nil => cases hhead
      | cons n kept =>
        obtain rfl : n = dotdot := Option.some.inj hhead
        cases kept <;> rfl
    refine ⟨by rw [hrel]; simpa using habs, [], post, by simp, fun n hn => .inl (hpost n hn), ?_⟩
    rw [pathComponents, hrel, if_neg Bool.false_ne_true, hcomponents, List.nil_append]
  · -- Relative, and not upwards: the dot in front is a component that is not kept.
    obtain ⟨t, ht, heq⟩ := exists_joinComponents (text "./") kept
    obtain ⟨post, hpost, hcomponents⟩ := hsplit t ht
    rw [heq]
    have hrel : isAbsolutePath (text "./" ++ ([slash].intercalate kept ++ t)) = false := rfl
    refine ⟨by rw [hrel]; simpa using habs, [dot], post, by simp, fun n hn => .inl (hpost n hn), ?_⟩
    have hdirs : text "./" = dirs [dot] := rfl
    rw [pathComponents, hrel, if_neg Bool.false_ne_true, hdirs,
      splitOnP_dirs (by intro n hn; rw [List.mem_singleton.mp hn]; exact separator_of_all rfl),
      hcomponents]

theorem joinKept_congr (h : isAbsolutePath p = isAbsolutePath q) :
    joinKept p kept = joinKept q kept := by
  unfold joinKept
  rw [h]
  split_ifs with habs
  · rw [headD_splitOnP habs, headD_splitOnP (h.trans habs)]
  · rfl
  · rfl

theorem referenceComponents_joinKept (h : IsNormal (isAbsolutePath p) kept) :
    referenceComponents (joinKept p kept) = kept := by
  obtain ⟨habs, pre, post, hpre, hpost, hcomponents⟩ := pathComponents_joinKept h
  rw [referenceComponents, habs, hcomponents, List.foldl_append, foldl_keepComponent_skip hpre,
    List.foldl_append, h.foldl, foldl_keepComponent_skip hpost]

theorem referenceComponents_referencePath (p : Path) :
    referenceComponents (referencePath p) = referenceComponents p :=
  referenceComponents_joinKept (isNormal_referenceComponents p)

/-- **A normal form is its own normal form.** -/
theorem referencePath_referencePath (p : Path) :
    referencePath (referencePath p) = referencePath p := by
  have hnormal := isNormal_referenceComponents p
  rw [referencePath, referenceComponents_referencePath, referencePath]
  exact joinKept_congr (pathComponents_joinKept hnormal).1

/-! ### Shallow paths -/

/-- A component that may be kept. -/
def counts (n : Path) : Bool := n ≠ [] ∧ n ≠ dot

theorem length_keepComponent (isAbsolute : Bool) (kept : List Path) (n : Path) :
    (keepComponent isAbsolute kept n).length ≤ kept.length + if counts n then 1 else 0 := by
  have hpush : ∀ m : Path, (kept ++ [m]).length ≤ kept.length + 1 := fun m => by simp
  unfold keepComponent
  by_cases hdd : n = dotdot
  · have hcounts : counts n = true := by rw [hdd]; rfl
    rw [if_pos hdd, hcounts, if_pos rfl]
    split
    · split_ifs
      · exact Nat.le_succ _
      · exact hpush dotdot
    · split_ifs
      · exact hpush dotdot
      · exact (List.dropLast_prefix kept).length_le.trans (Nat.le_succ _)
  · rw [if_neg hdd]
    by_cases hkeep : n ≠ [] ∧ n ≠ dot
    · have hcounts : counts n = true := decide_eq_true hkeep
      rw [if_pos hkeep, hcounts, if_pos rfl]
      exact hpush n
    · rw [if_neg hkeep]
      exact Nat.le_add_right _ _

theorem length_foldl_keepComponent (components kept : List Path) :
    (components.foldl (keepComponent isAbsolute) kept).length ≤
      kept.length + components.countP counts := by
  induction components generalizing kept with
  | nil => exact Nat.le_refl _
  | cons n components ih =>
    rw [List.foldl_cons, List.countP_cons]
    have hstep := length_keepComponent isAbsolute kept n
    have hrest := ih (keepComponent isAbsolute kept n)
    omega

theorem shallow_of_countP (h : (pathComponents p).countP counts ≤ 128) : Shallow p := by
  intro l hl
  have hprefix : l.countP counts ≤ (pathComponents p).countP counts :=
    ((List.mem_inits _ _).mp hl).sublist.countP_le
  have hlength := @length_foldl_keepComponent (isAbsolutePath p) l []
  rw [List.length_nil] at hlength
  omega

/-- The normal form of a shallow path is shallow. -/
theorem Shallow.referencePath (h : Shallow p) : Shallow (referencePath p) := by
  have hnormal := isNormal_referenceComponents p
  obtain ⟨-, pre, post, hpre, hpost, hcomponents⟩ := pathComponents_joinKept hnormal
  have hskip : ∀ l : List Path, (∀ n ∈ l, n = [] ∨ n = dot) → l.countP counts = 0 := by
    intro l hl
    rw [List.countP_eq_zero]
    intro n hn
    rcases hl n hn with rfl | rfl <;> decide
  have hlength : (referenceComponents p).length ≤ 128 := h _ ((List.mem_inits _ _).mpr (List.prefix_refl _))
  refine shallow_of_countP ?_
  rw [Cli.referencePath, hcomponents, List.countP_append, List.countP_append, hskip pre hpre,
    hskip post hpost]
  have := List.countP_le_length (p := counts) (l := referenceComponents p)
  omega

theorem Shallow.idempotent (h : Shallow p) : normalizePath (normalizePath p) = normalizePath p := by
  rw [normalizePath_eq h, normalizePath_eq h.referencePath, referencePath_referencePath]

end Normal

/-! ### Deep paths -/

/-- `q` is a path of the first components of `p`. -/
def IsStart (q p : Path) : Prop :=
  isAbsolutePath q = isAbsolutePath p ∧ pathComponents q <+: pathComponents p

section Deep

variable {isAbsolute : Bool} {p q : Path} {kept components l : List Path} {n : Path}

theorem Shallow.isStart (h : Shallow p) (hq : IsStart q p) : Shallow q := by
  intro l hl
  rw [hq.1]
  exact h l ((List.mem_inits _ _).mpr (((List.mem_inits _ _).mp hl).trans hq.2))

/-- The first components of a path are those of a path. -/
theorem exists_splitOnP (p : Path) (hl : l <+: p.splitOnP isSeparator) (hne : l ≠ []) :
    ∃ q, q <+: p ∧ q.splitOnP isSeparator = l := by
  induction p generalizing l with
  | nil =>
    rw [List.splitOnP_nil] at hl
    refine ⟨[], List.prefix_refl _, ?_⟩
    obtain ⟨n, rfl⟩ := List.length_eq_one_iff.mp
      (Nat.le_antisymm hl.length_le (List.length_pos_iff.mpr hne))
    rw [List.splitOnP_nil, (List.cons_prefix_cons.mp hl).1]
  | cons c p ih =>
    rw [List.splitOnP_cons_eq_if_modifyHead] at hl
    obtain ⟨n, l, rfl⟩ := List.exists_cons_of_ne_nil hne
    -- A separator begins a component, any other byte belongs to the one after it.
    by_cases hc : isSeparator c = true
    · rw [if_pos hc, List.cons_prefix_cons] at hl
      obtain ⟨rfl, hl⟩ := hl
      by_cases hnil : l = []
      · exact ⟨[], List.nil_prefix, by rw [hnil, List.splitOnP_nil]⟩
      · obtain ⟨q, hq, rfl⟩ := ih hl hnil
        refine ⟨c :: q, List.cons_prefix_cons.mpr ⟨rfl, hq⟩, ?_⟩
        rw [List.splitOnP_cons_eq_if_modifyHead, if_pos hc]
    · obtain ⟨m, ms, hsplit⟩ := List.exists_cons_of_ne_nil (List.splitOnP_ne_nil isSeparator p)
      rw [if_neg hc, hsplit, List.modifyHead_cons, List.cons_prefix_cons] at hl
      obtain ⟨rfl, hl⟩ := hl
      have hprefix : m :: l <+: p.splitOnP isSeparator := by
        rw [hsplit]
        exact List.cons_prefix_cons.mpr ⟨rfl, hl⟩
      obtain ⟨q, hq, heq⟩ := ih hprefix (by simp)
      refine ⟨c :: q, List.cons_prefix_cons.mpr ⟨rfl, hq⟩, ?_⟩
      rw [List.splitOnP_cons_eq_if_modifyHead, if_neg hc, heq, List.modifyHead_cons]

theorem exists_isStart (hl : l <+: pathComponents p) (hne : l ≠ []) :
    ∃ q, isAbsolutePath q = isAbsolutePath p ∧ pathComponents q = l := by
  have hhead : ∀ {q : Path}, q <+: p → q ≠ [] → isAbsolutePath q = isAbsolutePath p := by
    intro q hq hnil
    obtain ⟨c, q, rfl⟩ := List.exists_cons_of_ne_nil hnil
    obtain ⟨r, rfl⟩ := hq
    rfl
  unfold pathComponents at hl
  cases habs : isAbsolutePath p with
  | true =>
    rw [habs, if_pos rfl] at hl
    -- The component before the first slash is empty.
    have hcons : p.splitOnP isSeparator = [] :: (p.splitOnP isSeparator).tail := by
      obtain ⟨n, ns, hsplit⟩ := List.exists_cons_of_ne_nil (List.splitOnP_ne_nil isSeparator p)
      have hn := headD_splitOnP habs
      rw [hsplit, List.headD_cons] at hn
      rw [hsplit, hn, List.tail_cons]
    obtain ⟨q, hq, heq⟩ := exists_splitOnP (l := [] :: l) p
      (by rw [hcons]; exact List.cons_prefix_cons.mpr ⟨rfl, hl⟩) (by simp)
    have hnil : q ≠ [] := by
      rintro rfl
      rw [List.splitOnP_nil, List.cons.injEq] at heq
      exact hne heq.2.symm
    have habs' := (hhead hq hnil).trans habs
    exact ⟨q, habs', by rw [pathComponents, habs', if_pos rfl, heq, List.tail_cons]⟩
  | false =>
    rw [habs, if_neg Bool.false_ne_true] at hl
    obtain ⟨q, hq, heq⟩ := exists_splitOnP p hl hne
    have habs' : isAbsolutePath q = false := by
      by_cases hnil : q = []
      · rw [hnil]; rfl
      · exact (hhead hq hnil).trans habs
    exact ⟨q, habs', by rw [pathComponents, habs', if_neg Bool.false_ne_true, heq]⟩

/-- The first time that more than 128 components are kept. -/
theorem exists_first_deep (h : ∃ l, l <+: components ∧
      128 < (l.foldl (keepComponent isAbsolute) []).length) :
    ∃ l n, l ++ [n] <+: components ∧
      (∀ k ∈ l.inits, (k.foldl (keepComponent isAbsolute) []).length ≤ 128) ∧
      128 < ((l ++ [n]).foldl (keepComponent isAbsolute) []).length := by
  induction components using List.reverseRecOn with
  | nil =>
    obtain ⟨l, hl, hdeep⟩ := h
    rw [List.prefix_nil.mp hl] at hdeep
    exact absurd hdeep (by simp)
  | append_singleton components n ih =>
    by_cases hfirst : ∃ l, l <+: components ∧ 128 < (l.foldl (keepComponent isAbsolute) []).length
    · obtain ⟨l, m, hl, hshallow, hdeep⟩ := ih hfirst
      exact ⟨l, m, hl.trans (List.prefix_append _ _), hshallow, hdeep⟩
    · obtain ⟨l, hl, hdeep⟩ := h
      rcases List.prefix_concat_iff.mp hl with rfl | hl
      · refine ⟨components, n, List.prefix_refl _, fun k hk => ?_, hdeep⟩
        by_contra hk'
        exact hfirst ⟨k, (List.mem_inits _ _).mp hk, Nat.not_le.mp hk'⟩
      · exact absurd ⟨l, hl, hdeep⟩ hfirst

theorem Components.run_append (s : Components) (l : List Path) (n : Path) :
    s.run isAbsolute (l ++ [n]) = (s.run isAbsolute l).bind fun s => s.step isAbsolute n := by
  induction l generalizing s with
  | nil =>
    rw [List.nil_append, Components.run, Components.run, Option.bind_some]
    cases s.step isAbsolute n <;> rfl
  | cons m l ih =>
    rw [List.cons_append, Components.run, Components.run]
    cases s.step isAbsolute m with
    | none => rfl
    | some t => exact ih t

/-- The slashes of a path tell how many components are kept. -/
theorem count_slash_joinKept (h : ∀ n ∈ kept, ∀ c ∈ n, isSeparator c = false) (p : Path) :
    kept.length ≤ (joinKept p kept).count slash + 1 ∧
      (joinKept p kept).count slash ≤ kept.length + 2 := by
  have hcomponent : ∀ n ∈ kept, n.count slash = 0 := fun n hn =>
    List.count_eq_zero.mpr fun hc => absurd (h n hn slash hc) (by decide)
  have hdirs : ∀ l : List Path, (∀ n ∈ l, n.count slash = 0) → (dirs l).count slash = l.length := by
    intro l hl
    induction l with
    | nil => rfl
    | cons n l ih =>
      rw [dirs_cons, List.count_append, List.count_cons_self, hl n List.mem_cons_self,
        ih fun m hm => hl m (List.mem_cons_of_mem _ hm), List.length_cons, Nat.zero_add]
  -- There is a slash between components, and at most one in front and one at the end.
  have hjoin : ∀ start : Path, start.count slash ≤ 1 →
      kept.length ≤ (joinComponents start kept).count slash + 1 ∧
        (joinComponents start kept).count slash ≤ kept.length + 2 := by
    intro start hstart
    obtain ⟨t, ht, heq⟩ := exists_joinComponents start kept
    have htail : t.count slash ≤ 1 := by rcases ht with rfl | rfl <;> decide
    rw [heq, List.count_append, List.count_append]
    rcases List.eq_nil_or_concat' kept with rfl | ⟨l, x, rfl⟩
    · have hnil : ([slash].intercalate ([] : List Path)).count slash = 0 := rfl
      rw [hnil, List.length_nil]
      omega
    · rw [intercalate_concat, List.count_append, hdirs l fun n hn => hcomponent n (by simp [hn]),
        hcomponent x (by simp), List.length_append, List.length_singleton]
      omega
  unfold joinKept
  split_ifs with habs hhead
  · exact hjoin _ (by rw [headD_splitOnP habs]; decide)
  · exact hjoin _ (by decide)
  · exact hjoin _ (by decide)

/-- The first path that is too deep loses components. -/
theorem normalizePath_ne (hq : pathComponents q = l ++ [n])
    (hshallow : ∀ k ∈ l.inits, (k.foldl (keepComponent (isAbsolutePath q)) []).length ≤ 128)
    (hdeep : 128 < (referenceComponents q).length) : normalizePath q ≠ referencePath q := by
  obtain ⟨s, hrun, hkept, hroomy⟩ := Components.run_eq Components.roomy_empty hshallow
  have hreference : referenceComponents q = keepComponent (isAbsolutePath q) s.kept n := by
    rw [referenceComponents, hq, List.foldl_append, hkept]
    rfl
  have hlength : s.kept.length ≤ 128 := by
    rw [hkept]
    exact hshallow l ((List.mem_inits _ _).mpr (List.prefix_refl _))
  -- Only a push makes it more.
  have hstep : s.step (isAbsolutePath q) n = s.pushComponent n ∧ 128 ≤ s.kept.length := by
    rw [hreference] at hdeep
    rcases Components.step_cases (isAbsolutePath q) s n with ⟨hstep, hkeep⟩ | ⟨-, hkeep⟩ |
      ⟨-, hkeep⟩
    · rw [hkeep, List.length_append, List.length_singleton] at hdeep
      exact ⟨hstep, Nat.lt_succ_iff.mp hdeep⟩
    · rw [hkeep] at hdeep
      exact absurd ((List.dropLast_prefix s.kept).length_le.trans hlength) (Nat.not_le.mpr hdeep)
    · rw [hkeep] at hdeep
      exact absurd hlength (Nat.not_le.mpr hdeep)
  have hpath : Components.empty.run (isAbsolutePath q) (pathComponents q) = s.pushComponent n := by
    rw [hq, Components.run_append, hrun, Option.bind_some, hstep.1]
  have hslashes := (count_slash_joinKept (isNormal_referenceComponents q).separator q).1
  intro heq
  rw [← referencePath, ← heq, normalizePath, hpath] at hslashes
  cases hpush : s.pushComponent n with
  | none =>
    rw [hpush] at hslashes
    simp only [List.count_nil] at hslashes
    omega
  | some s' =>
    rw [hpush] at hslashes hpath
    have hlost := Components.length_pushComponent hroomy hstep.2 hpush
    have hfew := (count_slash_joinKept (Components.separator_run hpath
      (fun m hm => separator_pathComponents hm) (by simp [Components.empty])) q).2
    simp only at hslashes
    omega

/-- **The normal form of a path, and of all its beginnings, is computed** if and only if no more than
128 components are kept at any time. -/
theorem normalizes_iff (p : Path) :
    (∀ q, IsStart q p → normalizePath q = referencePath q ∧
      normalizePath (normalizePath q) = normalizePath q) ↔ Shallow p := by
  constructor
  · intro h
    by_contra hnot
    have hsome : ∃ l, l <+: pathComponents p ∧
        128 < (l.foldl (keepComponent (isAbsolutePath p)) []).length := by
      by_contra hno
      exact hnot fun l hl => Nat.not_lt.mp fun hlt => hno ⟨l, (List.mem_inits _ _).mp hl, hlt⟩
    obtain ⟨l, n, hl, hshallow, hdeep⟩ := exists_first_deep hsome
    obtain ⟨q, habs, hq⟩ := exists_isStart hl (by simp)
    rw [← habs] at hshallow hdeep
    rw [← hq] at hdeep
    exact normalizePath_ne hq hshallow hdeep (h q ⟨habs, hq ▸ hl⟩).1
  · intro h q hq
    exact ⟨normalizePath_eq (h.isStart hq), (h.isStart hq).idempotent⟩

/-- Of 129 directories, 66 are left. -/
theorem not_normalizes : ¬ ∀ p : Path, normalizePath p = referencePath p := by
  intro h
  have heq := h (dirs (List.replicate 129 (text "a")))
  revert heq
  decide +kernel

end Deep

end Cli

end Jaci
