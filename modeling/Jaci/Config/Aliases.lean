import Jaci.Lib.Wire

/-!
# Aliases of configuration files

Several files are parsed into one configuration.  An alias is stored under its name in lower case,
and an option says whether a later definition replaces it.

* `Config.setAlias`, `parseAlias`, `parseConfig` : the code, over the settings of a file;
* `definitions` : the definitions of aliases that files make;
* **`precedence_iff`** : when the first definition of every alias wins without the option.
-/

namespace Jaci

namespace Luaurc

open Wire

/-- The bytes of a literal. -/
def text (s : String) : Bytes := s.toUTF8.data.toList

/-! ### The code -/

def toLower (s : Bytes) : Bytes :=
  s.map fun c => if 0x41 ≤ c ∧ c ≤ 0x5a then c + (0x61 - 0x41) else c

structure AliasInfo where
  value : Bytes
  /-- `configLocation`, empty if it is not known. -/
  configLocation : Bytes
  originalCase : Bytes
deriving DecidableEq

/-- `Config`: its aliases. -/
structure Config where
  aliases : Bytes → Option AliasInfo

/-- `Config()`. -/
def Config.empty : Config := ⟨fun _ => none⟩

/-- `Config::setAlias`, with and without a location. -/
def Config.setAlias (config : Config) (name value : Bytes) (configLocation : Option Bytes) :
    Config where
  aliases k :=
    if k = toLower name then some ⟨value, configLocation.getD [], name⟩ else config.aliases k

def isValidAlias (name : Bytes) : Bool :=
  name ≠ [] && (name ≠ text "." && name ≠ text ".." && !name.any fun c => c = 0x5c || c = 0x2f)
    && (if name.head? = some 0x40 then name.tail else name).all fun ch =>
      (0x41 ≤ ch && ch ≤ 0x5a) || (0x61 ≤ ch && ch ≤ 0x7a) || (0x30 ≤ ch && ch ≤ 0x39)
        || ch = 0x2d || ch = 0x5f || ch = 0x2e

structure AliasOptions where
  configLocation : Option Bytes
  /-- Whether a definition replaces an earlier one. -/
  overwriteAliases : Bool

def parseAlias (config : Config) (aliasKey aliasValue : Bytes)
    (aliasOptions : Option AliasOptions) : Except Bytes Config :=
  if ¬ isValidAlias aliasKey then .error (text "Invalid alias " ++ aliasKey)
  else
    match aliasOptions with
    | none => .error (text "Cannot parse aliases without alias options")
    | some options =>
      if options.overwriteAliases ∨ (config.aliases aliasKey).isNone then
        .ok (config.setAlias aliasKey aliasValue options.configLocation)
      else .ok config

/-- What `parseConfig` is told of a leaf of a file. -/
inductive Setting where
  | entry (key value : Bytes)
  /-- Another setting, which does not change the aliases, and its error. -/
  | other (error : Option Bytes)
deriving DecidableEq

/-- `parseConfig`, over the leaves of a file up to its end or its first mistake.  Parsing stops at
the first error. -/
def parseConfig (aliasOptions : Option AliasOptions) : List Setting → Config → Config × Option Bytes
  | [], config => (config, none)
  | .other none :: settings, config => parseConfig aliasOptions settings config
  | .other (some e) :: _, config => (config, some e)
  | .entry key value :: settings, config =>
    match parseAlias config key value aliasOptions with
    | .ok config' => parseConfig aliasOptions settings config'
    | .error e => (config, some e)

/-- A file: its settings and where it is. -/
structure File where
  settings : List Setting
  /-- `configLocation`. -/
  location : Option Bytes

/-- Parse files into one configuration. -/
def parseFiles (overwrite : Bool) (files : List File) : Config :=
  files.foldl (fun config file =>
    (parseConfig (some ⟨file.location, overwrite⟩) file.settings config).1) .empty

/-! ### Definitions -/

/-- A definition of an alias. -/
structure Definition where
  key : Bytes
  value : Bytes
  location : Option Bytes
deriving DecidableEq

/-- The definitions of a file, up to the first error. -/
def reached (location : Option Bytes) : List Setting → List Definition
  | [] => []
  | .other none :: settings => reached location settings
  | .other (some _) :: _ => []
  | .entry key value :: settings =>
    if isValidAlias key then ⟨key, value, location⟩ :: reached location settings else []

/-- The definitions of files, in order. -/
def definitions (files : List File) : List Definition :=
  files.flatMap fun file => reached file.location file.settings

/-- The definitions of one alias, in any case. -/
def definitionsOf (ds : List Definition) (k : Bytes) : List Definition :=
  ds.filter fun d => toLower d.key = k

/-- The value and the location of an alias. -/
def valueAt (config : Config) (k : Bytes) : Option (Bytes × Bytes) :=
  (config.aliases k).map fun i => (i.value, i.configLocation)

/-- The value and the location that a definition gives. -/
def Definition.meaning (d : Definition) : Bytes × Bytes := (d.value, d.location.getD [])

/-- The first definition of every alias wins, or the last one with the option; a file changes no
alias that it does not define. -/
structure Precedence (overwrite : Bool) (files : List File) : Prop where
  chosen : ∀ k, valueAt (parseFiles overwrite files) k =
    (if overwrite then (definitionsOf (definitions files) k).getLast?
      else (definitionsOf (definitions files) k).head?).map Definition.meaning
  frame : ∀ (config : Config) (file : File) (k : Bytes),
    definitionsOf (reached file.location file.settings) k = [] →
    (parseConfig (some ⟨file.location, overwrite⟩) file.settings config).1.aliases k =
      config.aliases k

/-- The last definition of an alias that is written with a capital letter, if there is one, gives
the value and the location of the first. -/
def Agrees (files : List File) : Prop :=
  ∀ k, ∀ first last, (definitionsOf (definitions files) k).head? = some first →
    ((definitionsOf (definitions files) k).filter fun d => d.key ≠ k).getLast? = some last →
    last.meaning = first.meaning

/-! ### One definition after the other -/

theorem toLower_toLower (s : Bytes) : toLower (toLower s) = toLower s := by
  rw [toLower, toLower, List.map_map]
  refine List.map_congr_left fun c _ => ?_
  by_cases hc : 0x41 ≤ c ∧ c ≤ 0x5a
  · have hlower : ¬ (0x41 ≤ c + (0x61 - 0x41) ∧ c + (0x61 - 0x41) ≤ 0x5a) := by grind
    rw [Function.comp_apply, if_pos hc, if_neg hlower]
  · rw [Function.comp_apply, if_neg hc, if_neg hc]

/-- What a definition makes of the aliases. -/
def define (overwrite : Bool) (config : Config) (d : Definition) : Config :=
  if overwrite ∨ (config.aliases d.key).isNone then config.setAlias d.key d.value d.location
  else config

theorem parseConfig_eq (overwrite : Bool) (location : Option Bytes) (settings : List Setting)
    (config : Config) : (parseConfig (some ⟨location, overwrite⟩) settings config).1 =
      (reached location settings).foldl (define overwrite) config := by
  induction settings generalizing config with
  | nil => rfl
  | cons setting settings ih =>
    match setting with
    | .other none => exact ih config
    | .other (some e) => rfl
    | .entry key value =>
      rw [parseConfig, reached, parseAlias]
      by_cases hvalid : isValidAlias key
      · rw [if_neg (not_not.mpr hvalid), if_pos hvalid, List.foldl_cons, define]
        split_ifs
        · exact ih _
        · exact ih _
      · rw [if_pos hvalid, if_neg hvalid]
        rfl

theorem parseFiles_eq (overwrite : Bool) (files : List File) :
    parseFiles overwrite files = (definitions files).foldl (define overwrite) .empty := by
  rw [parseFiles, definitions, List.foldl_flatMap]
  refine congrArg (fun f => files.foldl f Config.empty) ?_
  funext config file
  exact parseConfig_eq _ _ _ _

theorem define_other {overwrite : Bool} {config : Config} {d : Definition} {k : Bytes}
    (h : toLower d.key ≠ k) : (define overwrite config d).aliases k = config.aliases k := by
  rw [define]
  split
  · exact if_neg h.symm
  · rfl

theorem foldl_define_other {overwrite : Bool} {ds : List Definition} {k : Bytes}
    (h : definitionsOf ds k = []) (config : Config) :
    (ds.foldl (define overwrite) config).aliases k = config.aliases k := by
  induction ds generalizing config with
  | nil => rfl
  | cons d ds ih =>
    have hd : toLower d.key ≠ k := fun hk => by simp [definitionsOf, hk] at h
    have htail : definitionsOf ds k = [] := by simpa [definitionsOf, hd] using h
    rw [List.foldl_cons, ih htail, define_other hd]

/-- The names under which aliases are stored are in lower case. -/
def Config.Lower (config : Config) : Prop := ∀ k, config.aliases k ≠ none → toLower k = k

theorem lower_define {overwrite : Bool} {config : Config} (h : config.Lower) (d : Definition) :
    (define overwrite config d).Lower := by
  intro k hk
  by_cases hd : toLower d.key = k
  · rw [← hd, toLower_toLower]
  · exact h k (by rwa [define_other hd] at hk)

theorem lower_foldl {overwrite : Bool} (ds : List Definition) :
    (ds.foldl (define overwrite) .empty).Lower :=
  List.foldlRecOn ds _ (fun _ hk => absurd rfl hk) fun _ h d _ => lower_define h d

/-! ### Which definition an alias has -/

/-- The definition that an alias has after a list of them. -/
def chosenOf (overwrite : Bool) (ds : List Definition) (k : Bytes) : Option Definition :=
  if overwrite then (definitionsOf ds k).getLast?
  else ((definitionsOf ds k).filter fun d => d.key ≠ k).getLast?.or (definitionsOf ds k).head?

theorem valueAt_foldl (overwrite : Bool) (ds : List Definition) (k : Bytes) :
    valueAt (ds.foldl (define overwrite) .empty) k =
      (chosenOf overwrite ds k).map Definition.meaning := by
  induction ds using List.reverseRecOn with
  | nil => cases overwrite <;> rfl
  | append_singleton ds d ih =>
    rw [List.foldl_append, List.foldl_cons, List.foldl_nil]
    by_cases hk : toLower d.key = k
    · have hset : ∀ c : Config,
          valueAt (c.setAlias d.key d.value d.location) k = some d.meaning := fun c => by
        have hat : (c.setAlias d.key d.value d.location).aliases k =
            some ⟨d.value, d.location.getD [], d.key⟩ := if_pos hk.symm
        rw [valueAt, hat]
        rfl
      have hdefs : definitionsOf (ds ++ [d]) k = definitionsOf ds k ++ [d] := by
        simp [definitionsOf, hk]
      rw [define, chosenOf, hdefs]
      cases overwrite with
      | true => rw [if_pos (.inl rfl), hset, if_pos rfl, List.getLast?_concat]; rfl
      | false =>
        rw [if_neg Bool.false_ne_true, List.filter_append]
        by_cases hlow : d.key = k
        · -- a name in lower case is looked up where it is stored
          have hfilter : [d].filter (fun d => d.key ≠ k) = [] := by simp [hlow]
          rw [hfilter, List.append_nil]
          rw [chosenOf, if_neg Bool.false_ne_true] at ih
          cases hds : definitionsOf ds k with
          | nil =>
            rw [hds] at ih
            have hnone : (ds.foldl (define false) Config.empty).aliases d.key = none := by
              rw [hlow]
              exact Option.map_eq_none_iff.mp ih
            rw [hnone, if_pos (.inr rfl), hset]
            rfl
          | cons first rest =>
            rw [hds] at ih
            have hsome : ¬ ((ds.foldl (define false) Config.empty).aliases d.key).isNone := by
              rw [hlow, Option.isNone_iff_eq_none]
              intro hnone
              rw [valueAt, hnone, List.head?_cons, Option.or_some] at ih
              cases ih
            rw [if_neg (not_or.mpr ⟨Bool.false_ne_true, hsome⟩)]
            exact ih
        · -- a name with a capital letter is not found
          have hfilter : [d].filter (fun d => d.key ≠ k) = [d] := by simp [hlow]
          have hnone : (ds.foldl (define false) Config.empty).aliases d.key = none := by
            by_contra hne
            exact hlow ((lower_foldl ds d.key hne).symm.trans hk)
          rw [hfilter, hnone, if_pos (.inr rfl), hset, List.getLast?_concat]
          rfl
    · have hdefs : definitionsOf (ds ++ [d]) k = definitionsOf ds k := by
        simp [definitionsOf, hk]
      rw [valueAt, define_other hk, chosenOf, hdefs]
      exact ih

theorem valueAt_parseFiles (overwrite : Bool) (files : List File) (k : Bytes) :
    valueAt (parseFiles overwrite files) k =
      (chosenOf overwrite (definitions files) k).map Definition.meaning := by
  rw [parseFiles_eq, valueAt_foldl]

/-- **Without the option the first definition of every alias wins exactly when the last one that is
written with a capital letter says the same; with it the last one always does.** -/
theorem precedence_iff (overwrite : Bool) (files : List File) :
    Precedence overwrite files ↔ (overwrite = false → Agrees files) := by
  have hframe : ∀ (config : Config) (file : File) (k : Bytes),
      definitionsOf (reached file.location file.settings) k = [] →
      (parseConfig (some ⟨file.location, overwrite⟩) file.settings config).1.aliases k =
        config.aliases k := fun config file k h => by
    rw [parseConfig_eq, foldl_define_other h]
  cases overwrite with
  | true => exact iff_of_true ⟨fun k => valueAt_parseFiles true files k, hframe⟩ fun h => by cases h
  | false =>
    constructor
    · intro h _ k first last hfirst hlast
      have hchosen := h.chosen k
      rw [valueAt_parseFiles, chosenOf, if_neg Bool.false_ne_true, if_neg Bool.false_ne_true, hlast,
        hfirst, Option.some_or] at hchosen
      exact Option.some.inj hchosen
    · refine fun h => ⟨fun k => ?_, hframe⟩
      rw [valueAt_parseFiles, chosenOf, if_neg Bool.false_ne_true, if_neg Bool.false_ne_true]
      cases hlast : ((definitionsOf (definitions files) k).filter fun d => d.key ≠ k).getLast? with
      | none => rfl
      | some last =>
        obtain ⟨first, hfirst⟩ : ∃ first,
            (definitionsOf (definitions files) k).head? = some first := by
          have hmem := List.mem_of_mem_filter (List.mem_of_getLast? hlast)
          cases hds : definitionsOf (definitions files) k with
          | nil => rw [hds] at hmem; cases hmem
          | cons first rest => exact ⟨first, rfl⟩
        rw [hfirst, Option.some_or, Option.map_some, Option.map_some,
          h rfl k first last hfirst hlast]

/-- **The second of two files replaces an alias that is written with a capital letter.** -/
theorem capital_replaced : ¬ ∀ files, Precedence false files := by
  intro h
  have hchosen := (h [⟨[.entry (text "Pkg") (text "./a")], some (text "/a/.luaurc")⟩,
    ⟨[.entry (text "Pkg") (text "./b")], some (text "/.luaurc")⟩]).chosen (text "pkg")
  revert hchosen
  decide

end Luaurc

end Jaci
