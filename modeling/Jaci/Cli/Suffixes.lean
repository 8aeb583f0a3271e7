import Jaci.Cli.Paths

/-!
# The module path of a file that was found

A file is found at a module path with one of fifteen suffixes.  Its own module path is that path
again, apart from a declaration file, of which only the second half of the suffix goes, and from a
script called `init.d` or `index.d`, which is taken for an entry point of its directory.

* `overhang` : how a suffix can end a path whose end is known;
* `getModulePath_entry`, `getModulePath_native`, `getModulePath_declaration`,
  `getModulePath_script` : the module paths.
-/

namespace Jaci

namespace Cli

open Wire Require

/-- The last component of a path. -/
def lastComponent (path : Path) : Path := (path.reverse.takeWhile (· ≠ slash)).reverse

/-- The names of entry points. -/
def entryNames : List Path := [text "init", text "index"]

/-- The suffixes of scripts. -/
def scriptSuffixes : List Path := [text ".luau", text ".lua"]

/-- The first half of the suffix of a declaration file. -/
def declared : Path := text ".d"

/-! ### Ends of paths -/

theorem lastComponent_under (D : Path) {g : Path} (hg : slash ∉ g) :
    lastComponent (D ++ slash :: g) = g := by
  have hall : ∀ c ∈ g.reverse, decide (c ≠ slash) = true := by
    intro c hc
    simp only [decide_eq_true_eq]
    rintro rfl
    exact hg (List.mem_reverse.mp hc)
  rw [lastComponent, List.reverse_append, List.reverse_cons, List.append_assoc,
    List.takeWhile_append_of_pos hall]
  simp

/-- The last component does not depend on the directory. -/
theorem lastComponent_congr (D D' g : Path) :
    lastComponent (D ++ slash :: g) = lastComponent (D' ++ slash :: g) := by
  have hstop : ∀ E : Path, lastComponent (E ++ slash :: g) = lastComponent (slash :: g) := by
    intro E
    have hcut : ∀ a b : Path, (a ++ slash :: b).takeWhile (· ≠ slash) =
        (a ++ [slash]).takeWhile (· ≠ slash) := by
      intro a b
      induction a with
      | nil => simp
      | cons c a ih => simp only [List.cons_append, List.takeWhile_cons, ih]
    rw [lastComponent, lastComponent, List.reverse_append, List.reverse_cons, List.append_assoc,
      List.singleton_append, hcut]
  rw [hstop D, hstop D']

/-- What must come before `e` for the suffix `s`, if `s` can end a path that ends in `e`. -/
def overhang (e s : Path) : Option Path :=
  if e.isSuffixOf s then some (s.take (s.length - e.length))
  else if s.isSuffixOf e then some []
  else none

theorem hasSuffix_nil (m : Path) : hasSuffix m [] = true := by
  rw [hasSuffix, List.isSuffixOf_iff_suffix]
  exact List.nil_suffix

theorem hasSuffix_overhang (m e s : Path) :
    hasSuffix (m ++ e) s = match overhang e s with
      | some t => hasSuffix m t
      | none => false := by
  rw [overhang]
  by_cases he : e.isSuffixOf s = true
  · rw [if_pos he]
    obtain ⟨t, rfl⟩ := List.isSuffixOf_iff_suffix.mp he
    have ht : (t ++ e).take ((t ++ e).length - e.length) = t := by simp
    show hasSuffix (m ++ e) (t ++ e) = hasSuffix m _
    rw [ht, hasSuffix, hasSuffix, Bool.eq_iff_iff, List.isSuffixOf_iff_suffix,
      List.isSuffixOf_iff_suffix, List.suffix_append_self_iff]
  · rw [if_neg he]
    by_cases hs : s.isSuffixOf e = true
    · rw [if_pos hs]
      show _ = hasSuffix m []
      rw [hasSuffix_nil, hasSuffix, List.isSuffixOf_iff_suffix]
      exact (List.isSuffixOf_iff_suffix.mp hs).trans (List.suffix_append m e)
    · rw [if_neg hs]
      show _ = false
      rw [hasSuffix, Bool.eq_false_iff, Ne, List.isSuffixOf_iff_suffix]
      intro h
      rcases Nat.le_total s.length e.length with hle | hle
      · exact hs (List.isSuffixOf_iff_suffix.mpr
          (List.suffix_of_suffix_length_le h (List.suffix_append m e) hle))
      · exact he (List.isSuffixOf_iff_suffix.mpr
          (List.suffix_of_suffix_length_le (List.suffix_append m e) h hle))

/-- The suffixes that can end a path that ends in `e`, with what must come before. -/
def overhangs (e : Path) : List (Path × Path) :=
  strippedSuffixes.filterMap fun s => (overhang e s).map fun t => (s, t)

/-- The first suffix of such a list that ends the path. -/
def firstEnd (m : Path) : List (Path × Path) → Option Path
  | [] => none
  | (s, t) :: l => if hasSuffix m t then some s else firstEnd m l

theorem find?_overhangs (m e : Path) :
    strippedSuffixes.find? (hasSuffix (m ++ e)) = firstEnd m (overhangs e) := by
  rw [overhangs]
  induction strippedSuffixes with
  | nil => rfl
  | cons s l ih =>
    rw [List.find?_cons, List.filterMap_cons, hasSuffix_overhang]
    cases ho : overhang e s with
    | none => exact ih
    | some t =>
      show (match hasSuffix m t with | true => some s | false => _) = _
      rw [Option.map_some, firstEnd]
      cases hasSuffix m t with
      | true => rfl
      | false => exact ih

section ModulePath

variable {m e s : Path}

/-- The module path, if the suffix is known. -/
theorem getModulePath_of_find (hb : ∀ c ∈ m ++ e, c ≠ backslash)
    (hfind : firstEnd m (overhangs e) = some s) :
    getModulePath (m ++ e) = (m ++ e).take ((m ++ e).length - s.length) := by
  rw [getModulePath_eq hb, find?_overhangs, hfind]

theorem getModulePath_of_first (hb : ∀ c ∈ m ++ e, c ≠ backslash)
    (hfirst : (overhangs e).head? = some (e, [])) : getModulePath (m ++ e) = m := by
  obtain ⟨l, hl⟩ := List.head?_eq_some_iff.mp hfirst
  have hfind : firstEnd m (overhangs e) = some e := by
    rw [hl, firstEnd, if_pos (hasSuffix_nil m)]
  rw [getModulePath_of_find hb hfind]
  simp

/-- **An entry point** has the module path of its directory. -/
theorem getModulePath_entry (he : e ∈ kInitSuffixes ++ kIndexSuffixes)
    (hb : ∀ c ∈ m ++ e, c ≠ backslash) : getModulePath (m ++ e) = m :=
  getModulePath_of_first hb
    ((show ∀ e ∈ kInitSuffixes ++ kIndexSuffixes, (overhangs e).head? = some (e, []) by
      decide) e he)

/-- **A native library** has the module path without its suffix. -/
theorem getModulePath_native (he : e ∈ kNativeSuffixes) (hb : ∀ c ∈ m ++ e, c ≠ backslash) :
    getModulePath (m ++ e) = m :=
  getModulePath_of_first hb
    ((show ∀ e ∈ kNativeSuffixes, (overhangs e).head? = some (e, []) by decide) e he)

/-- A path that ends in a slash and a name has that name as its last component. -/
theorem lastComponent_of_hasSuffix {n : Path} (hn : slash ∉ n) (h : hasSuffix m (slash :: n) = true) :
    lastComponent m = n := by
  obtain ⟨D, rfl⟩ := List.isSuffixOf_iff_suffix.mp h
  exact lastComponent_under D hn

/-- The path does not end in the name of an entry point. -/
theorem hasSuffix_entryName (hm : lastComponent m ∉ entryNames) {n : Path} (hn : n ∈ entryNames) :
    hasSuffix m (slash :: n) = false := by
  rw [Bool.eq_false_iff]
  intro h
  refine hm ?_
  rw [lastComponent_of_hasSuffix ((show ∀ n ∈ entryNames, slash ∉ n by decide) n hn) h]
  exact hn

/-- **A declaration file** keeps the first half of its suffix. -/
theorem getModulePath_declaration (hs : s ∈ scriptSuffixes) (hm : lastComponent m ∉ entryNames)
    (hb : ∀ c ∈ m ++ (declared ++ s), c ≠ backslash) :
    getModulePath (m ++ (declared ++ s)) = m ++ declared := by
  have hinit := hasSuffix_entryName hm (n := text "init") (by decide)
  have hindex := hasSuffix_entryName hm (n := text "index") (by decide)
  have hoverhangs : ∀ s ∈ scriptSuffixes, ∃ l, overhangs (declared ++ s) =
      (text "/init" ++ declared ++ s, slash :: text "init") ::
        (text "/index" ++ declared ++ s, slash :: text "index") :: (s, []) :: l := by
    intro s hs
    rcases List.mem_pair.mp hs with rfl | rfl
    · exact ⟨_, rfl⟩
    · exact ⟨_, rfl⟩
  obtain ⟨l, hl⟩ := hoverhangs s hs
  have hfind : firstEnd m (overhangs (declared ++ s)) = some s := by
    simp only [hl, firstEnd, hinit, hindex, hasSuffix_nil, Bool.false_eq_true, if_false, if_true]
  rw [getModulePath_of_find hb hfind, ← List.append_assoc, List.length_append, Nat.add_sub_cancel,
    List.take_left]

/-- **A script** has the module path without its suffix, unless it is called `init.d` or
`index.d`. -/
theorem getModulePath_script (hs : s ∈ scriptSuffixes) (hm : lastComponent m ∉ entryNames)
    (hb : ∀ c ∈ m ++ s, c ≠ backslash) :
    getModulePath (m ++ s) = m ∨
      ∃ d n, n ∈ entryNames ∧ m = d ++ slash :: (n ++ declared) ∧ getModulePath (m ++ s) = d := by
  have hoverhangs : ∀ s ∈ scriptSuffixes, ∃ l, overhangs s =
      (text "/init" ++ s, slash :: text "init") ::
        (text "/init" ++ declared ++ s, slash :: (text "init" ++ declared)) ::
        (text "/index" ++ s, slash :: text "index") ::
        (text "/index" ++ declared ++ s, slash :: (text "index" ++ declared)) :: (s, []) :: l := by
    intro s hs
    rcases List.mem_pair.mp hs with rfl | rfl
    · exact ⟨_, rfl⟩
    · exact ⟨_, rfl⟩
  obtain ⟨l, hl⟩ := hoverhangs s hs
  have hinit := hasSuffix_entryName hm (n := text "init") (by decide)
  have hindex := hasSuffix_entryName hm (n := text "index") (by decide)
  -- The path without the name of the entry point, if it ends in one of these.
  have hstrip : ∀ {n : Path}, hasSuffix m (slash :: (n ++ declared)) = true →
      firstEnd m (overhangs s) = some (slash :: (n ++ declared) ++ s) →
      ∃ d, m = d ++ slash :: (n ++ declared) ∧ getModulePath (m ++ s) = d := by
    intro n hsuffix hfind
    obtain ⟨d, rfl⟩ := List.isSuffixOf_iff_suffix.mp hsuffix
    refine ⟨d, rfl, ?_⟩
    rw [getModulePath_of_find hb hfind, List.append_assoc]
    simp
  by_cases hi : hasSuffix m (slash :: (text "init" ++ declared)) = true
  · obtain ⟨d, hd, hpath⟩ := hstrip hi (by
      simp only [hl, firstEnd, hinit, hi, Bool.false_eq_true, if_false, if_true]
      rfl)
    exact .inr ⟨d, _, by decide, hd, hpath⟩
  by_cases hx : hasSuffix m (slash :: (text "index" ++ declared)) = true
  · obtain ⟨d, hd, hpath⟩ := hstrip hx (by
      simp only [hl, firstEnd, hinit, hindex, hi, hx, Bool.false_eq_true, if_false, if_true]
      rfl)
    exact .inr ⟨d, _, by decide, hd, hpath⟩
  · left
    have hfind : firstEnd m (overhangs s) = some s := by
      simp only [hl, firstEnd, hinit, hindex, hi, hx, hasSuffix_nil, Bool.false_eq_true, if_false,
        if_true]
    rw [getModulePath_of_find hb hfind]
    simp

end ModulePath

end Cli

end Jaci
