import Jaci.Class.Basic
import Mathlib.Data.List.Nodup

/-!
# The layout of one class

The members of a class are in a list without repetitions, and the table has the place of each name.
The loops of `luaR_inheritclass` fill both from the front.

* `tableOf` : the table of a list of names;
* `Layout` : what holds of a class object;
* `Layout.setStatic` : a static member gets a value;
* `flatten_run`, `flattened_spec` : **the members of a derived class**, one list after the other.
-/

namespace Jaci

namespace Class

variable {β : Type}

/-! ### Tables of names -/

/-- The place of each name. -/
def tableOf (names : List String) (name : String) : Option ℕ :=
  if name ∈ names then some (names.idxOf name) else none

theorem tableOf_eq_some {names : List String} (h : names.Nodup) {name : String} {i : ℕ} :
    tableOf names name = some i ↔ names[i]? = some name := by
  rw [tableOf]
  constructor
  · intro hi
    split_ifs at hi with hmem
    obtain rfl := Option.some.inj hi
    exact List.getElem?_idxOf hmem
  · intro hi
    obtain ⟨hlt, rfl⟩ := List.getElem?_eq_some_iff.mp hi
    rw [if_pos (List.getElem_mem hlt), h.idxOf_getElem i hlt]

theorem tableOf_eq_none {names : List String} {name : String} :
    tableOf names name = none ↔ name ∉ names := by
  rw [tableOf]
  split_ifs with h <;> simp [h]

theorem update_tableOf {names : List String} {name : String} (h : name ∉ names) :
    Function.update (tableOf names) name (some names.length) = tableOf (names ++ [name]) := by
  funext k
  by_cases hk : k = name
  · subst hk
    rw [Function.update_self, tableOf, if_pos (by simp), List.idxOf_append, if_neg h]
    simp
  · rw [Function.update_of_ne hk, tableOf, tableOf]
    by_cases hmem : k ∈ names
    · rw [if_pos hmem, if_pos (List.mem_append_left _ hmem), List.idxOf_append, if_pos hmem]
    · rw [if_neg hmem, if_neg (by simp [hmem, hk])]

theorem readMembers_eq {done names : List String} (h : (done ++ names).Nodup) :
    readMembers names done.length (tableOf done) = tableOf (done ++ names) := by
  induction names generalizing done with
  | nil => rw [readMembers, List.append_nil]
  | cons name names ih =>
    rw [List.append_cons] at h ⊢
    have hnew : name ∉ done := by
      have hd := (List.nodup_append.mp h).1
      rw [List.nodup_append] at hd
      exact fun hm => hd.2.2 name hm name (by simp) rfl
    rw [readMembers, update_tableOf hnew, ← ih h, List.length_append, List.length_singleton]

/-! ### Classes -/

/-- The names of the instance members. -/
def LuauClass.instances (c : LuauClass β) : List String :=
  c.offsettomember.take c.numberofinstancemembers

/-- The names of the static members. -/
def LuauClass.staticNames (c : LuauClass β) : List String :=
  c.offsettomember.drop c.numberofinstancemembers

/-- The static members with their values. -/
def LuauClass.statics (c : LuauClass β) : List (String × Static β) :=
  c.staticNames.zip c.staticmembers

/-- What holds of every class object. -/
structure Layout (c : LuauClass β) : Prop where
  table : c.memberstooffset = tableOf c.offsettomember
  nodup : c.offsettomember.Nodup
  length : c.offsettomember.length = c.numberofallmembers
  statics : c.numberofinstancemembers + c.staticmembers.length = c.numberofallmembers
  new : "new" ∈ c.staticNames
  init : "__init" ∈ c.staticNames

/-- A list of members in which one name gets another value. -/
def override (name : String) (v : Static β) (l : List (String × Static β)) :
    List (String × Static β) :=
  l.map fun p => if p.1 = name then (p.1, v) else p

section Layout

variable {c : LuauClass β}

theorem Layout.length_staticNames (h : Layout c) : c.staticNames.length = c.staticmembers.length := by
  have hstatics := h.statics
  rw [LuauClass.staticNames, List.length_drop, h.length]
  omega

theorem Layout.length_instances (h : Layout c) :
    c.instances.length = c.numberofinstancemembers := by
  have hstatics := h.statics
  rw [LuauClass.instances, List.length_take, h.length]
  omega

theorem Layout.map_fst (h : Layout c) : c.statics.map Prod.fst = c.staticNames := by
  rw [LuauClass.statics, List.map_fst_zip (Nat.le_of_eq h.length_staticNames)]

theorem instances_append (c : LuauClass β) : c.instances ++ c.staticNames = c.offsettomember :=
  List.take_append_drop _ _

/-- Where a static member is in the table. -/
theorem Layout.offset_static (h : Layout c) {name : String} (hname : name ∈ c.staticNames) :
    c.memberstooffset name =
      some (c.numberofinstancemembers + c.staticNames.idxOf name) := by
  have hnodup := h.nodup
  rw [← instances_append] at hnodup
  have hnot : name ∉ c.instances := fun hm =>
    (List.nodup_append.mp hnodup).2.2 name hm name hname rfl
  rw [h.table, ← instances_append, tableOf, if_pos (List.mem_append_right _ hname),
    List.idxOf_append, if_neg hnot, h.length_instances, Nat.add_comm]

/-- Where a static member is. -/
theorem Layout.staticOffset (h : Layout c) {name : String} (hname : name ∈ c.staticNames) :
    c.staticOffset name = .ok (c.staticNames.idxOf name) ∧
      c.staticNames.idxOf name < c.staticmembers.length := by
  have hlt : c.staticNames.idxOf name < c.staticmembers.length := by
    rw [← h.length_staticNames]
    exact List.idxOf_lt_length_of_mem hname
  refine ⟨?_, hlt⟩
  have hstatics := h.statics
  simp only [LuauClass.staticOffset, h.offset_static hname]
  rw [if_pos (by omega), Nat.add_sub_cancel_left]

theorem override_of_notMem {name : String} {l : List (String × Static β)}
    (h : name ∉ l.map Prod.fst) (v : Static β) : override name v l = l := by
  refine (List.map_congr_left fun p hp => if_neg fun e => h ?_).trans (List.map_id l)
  rw [← e]
  exact List.mem_map_of_mem hp

theorem zip_set {names : List String} (hnodup : names.Nodup) {vals : List (Static β)}
    {name : String} (hname : name ∈ names) (v : Static β) :
    names.zip (vals.set (names.idxOf name) v) = override name v (names.zip vals) := by
  induction names generalizing vals with
  | nil => cases hname
  | cons n names ih =>
    obtain ⟨hn, hnodup⟩ := List.nodup_cons.mp hnodup
    cases vals with
    | nil => simp [override]
    | cons w vals =>
      by_cases hk : n = name
      · subst hk
        have htail : n ∉ (names.zip vals).map Prod.fst := fun hm => by
          obtain ⟨p, hp, rfl⟩ := List.mem_map.mp hm
          exact hn (List.of_mem_zip hp).1
        rw [List.idxOf_cons_self, List.set_cons_zero, List.zip_cons_cons, List.zip_cons_cons,
          override, List.map_cons, if_pos rfl]
        exact congrArg _ (override_of_notMem htail v).symm
      · have hmem : name ∈ names := (List.mem_cons.mp hname).resolve_left (Ne.symm hk)
        rw [List.idxOf_cons_ne _ hk, List.set_cons_succ, List.zip_cons_cons, List.zip_cons_cons,
          ih hnodup hmem, override, override, List.map_cons, if_neg hk]

/-- **A static member gets a value**, and nothing else changes. -/
theorem Layout.setStatic (h : Layout c) {name : String} (hname : name ∈ c.staticNames)
    (v : Static β) :
    ∃ vals, c.setStatic name v = .ok { c with staticmembers := vals } ∧
      vals.length = c.staticmembers.length ∧
      c.staticNames.zip vals = override name v c.statics := by
  obtain ⟨hoffset, hlt⟩ := h.staticOffset hname
  have hnodup : c.staticNames.Nodup := h.nodup.sublist (List.drop_sublist _ _)
  refine ⟨c.staticmembers.set (c.staticNames.idxOf name) v, ?_, List.length_set, zip_set hnodup hname v⟩
  rw [LuauClass.setStatic, hoffset]
  show (store c.staticmembers _ v >>= fun vals => _) = _
  rw [store, if_pos hlt]
  rfl

/-- The values do not matter for the layout. -/
theorem Layout.of_values (h : Layout c) {vals : List (Static β)}
    (hvals : vals.length = c.staticmembers.length) : Layout { c with staticmembers := vals } :=
  ⟨h.table, h.nodup, h.length, hvals ▸ h.statics, h.new, h.init⟩

/-- `luaR_setupconstructor` gives both constructors their closures. -/
theorem Layout.setupconstructor (h : Layout c) (r : Ref) :
    ∃ vals, luaR_setupconstructor c r = .ok { c with staticmembers := vals } ∧
      vals.length = c.staticmembers.length ∧
      c.staticNames.zip vals =
        override "__init" (.defaultCtor r) (override "new" (.constructor r) c.statics) := by
  obtain ⟨vals, hset, hlen, hzip⟩ := h.setStatic h.new (.constructor r)
  obtain ⟨vals', hset', hlen', hzip'⟩ := (h.of_values hlen).setStatic h.init (.defaultCtor r)
  refine ⟨vals', ?_, hlen'.trans hlen, ?_⟩
  · rw [luaR_setupconstructor, hset]
    exact hset'
  · rw [← hzip]
    exact hzip'

end Layout

/-! ### Loops -/

/-- A class whose members are filled in from the front: `names` of `N` names, `vals` of `S` values. -/
def fill (base : LuauClass β) (N : ℕ) (names : List String) (S : ℕ) (vals : List (Static β)) :
    LuauClass β :=
  { base with
    offsettomember := names ++ List.replicate (N - names.length) ""
    memberstooffset := tableOf names
    staticmembers := vals ++ List.replicate (S - vals.length) .nil }

theorem store_fill {α : Type} {l : List α} {N : ℕ} (h : l.length < N) (a d : α) :
    store (l ++ List.replicate (N - l.length) d) l.length a =
      .ok ((l ++ [a]) ++ List.replicate (N - (l ++ [a]).length) d) := by
  obtain ⟨k, hk⟩ : ∃ k, N - l.length = k + 1 := ⟨N - l.length - 1, by omega⟩
  have hk' : N - (l ++ [a]).length = k := by
    rw [List.length_append, List.length_singleton]
    omega
  rw [store, hk, hk', if_pos (by simp), List.set_append_right _ _ (Nat.le_refl _)]
  simp [List.replicate_succ]

section Loops

variable {base source : LuauClass β} {N S : ℕ} {names : List String} {vals : List (Static β)}

theorem register_fill {name : String} (hnew : name ∉ names) (hN : names.length < N) :
    (fill base N names S vals).register name names.length =
      .ok (fill base N (names ++ [name]) S vals) := by
  rw [LuauClass.register]
  simp only [fill, store_fill hN]
  show Except.ok _ = _
  rw [update_tableOf hnew]

theorem registerstaticmember_fill {name : String} (v : Static β) (hnew : name ∉ names)
    (hN : names.length < N) (hS : vals.length < S) :
    luaR_registerstaticmember (fill base N names S vals) name v names.length vals.length =
      .ok (fill base N (names ++ [name]) S (vals ++ [v])) := by
  rw [luaR_registerstaticmember]
  simp only [fill, store_fill hS]
  have hname : (fill base N names S (vals ++ [v])).register name names.length = _ :=
    register_fill hnew hN
  exact hname

/-- What `load` reads at these places of an array. -/
theorem load_eq {α : Type} {l : List α} {i : ℕ} {a : α} (h : l[i]? = some a) : load l i = .ok a := by
  rw [load, h]

theorem load_none {α : Type} {l : List α} {i : ℕ} (h : l[i]? = none) :
    load l i = .error .fault := by
  rw [load, h]

/-- The loop over instance members appends their names. -/
theorem copyInstances_fill {is : List ℕ} {new : List String}
    (hload : is.map (source.offsettomember[·]?) = new.map some) (hnodup : (names ++ new).Nodup)
    (hN : names.length + new.length ≤ N) :
    copyInstances source is (fill base N names S vals, names.length) =
      .ok (fill base N (names ++ new) S vals, (names ++ new).length) := by
  induction is generalizing names new with
  | nil =>
    obtain rfl : new = [] := by simpa using hload.symm
    rw [copyInstances, List.append_nil]
  | cons idx is ih =>
    cases new with
    | nil => cases hload
    | cons name new =>
      obtain ⟨hname, hload⟩ := List.cons.inj hload
      rw [List.length_cons] at hN
      rw [List.append_cons] at hnodup ⊢
      have hnew : name ∉ names := fun hm =>
        (List.nodup_append.mp (List.nodup_append.mp hnodup).1).2.2 name hm name (by simp) rfl
      have hrest := ih hload hnodup (by simp; omega)
      rw [List.length_append, List.length_singleton] at hrest
      rw [copyInstances, load_eq hname]
      show ((fill base N names S vals).register name names.length >>= fun c => _) = _
      rw [register_fill hnew (by omega)]
      exact hrest

/-- What the loops over static members read at these offsets. -/
def Reads (source : LuauClass β) (is : List ℕ) (ps : List (String × Static β)) : Prop :=
  is.map (fun i => (source.offsettomember[i]?,
    source.staticmembers[i - source.numberofinstancemembers]?)) = ps.map fun p => (some p.1, some p.2)

theorem Reads.cons {idx : ℕ} {is : List ℕ} {ps : List (String × Static β)}
    (h : Reads source (idx :: is) ps) :
    ∃ name v ps', ps = (name, v) :: ps' ∧ source.offsettomember[idx]? = some name ∧
      source.staticmembers[idx - source.numberofinstancemembers]? = some v ∧ Reads source is ps' := by
  cases ps with
  | nil => cases h
  | cons p ps =>
    obtain ⟨hp, hrest⟩ := List.cons.inj h
    obtain ⟨hname, hv⟩ := Prod.mk.inj hp
    exact ⟨p.1, p.2, ps, rfl, hname, hv, hrest⟩

/-- The loop that counts. -/
theorem countStatics_eq {child : LuauClass β} {is : List ℕ} {ps : List (String × Static β)}
    (h : Reads source is ps) (n : ℕ) :
    countStatics child source is n =
      .ok (n + (ps.filter fun p => (child.memberstooffset p.1).isNone).length) := by
  induction is generalizing ps n with
  | nil =>
    obtain rfl : ps = [] := by simpa [Reads] using h.symm
    rfl
  | cons idx is ih =>
    obtain ⟨name, v, ps, rfl, hname, -, hrest⟩ := h.cons
    rw [countStatics, load_eq hname]
    show countStatics child source is _ = _
    rw [ih hrest, List.filter_cons]
    split_ifs with hnone
    · rw [List.length_cons, Nat.add_assoc, Nat.add_comm 1]
    · rfl

/-- The loop over static members appends those that are copied. -/
theorem copyStatics_fill {copied : String → Bool} {is : List ℕ} {ps : List (String × Static β)}
    (h : Reads source is ps)
    (hnodup : (names ++ (ps.filter fun p => copied p.1).map Prod.fst).Nodup)
    (hN : names.length + (ps.filter fun p => copied p.1).length ≤ N)
    (hS : vals.length + (ps.filter fun p => copied p.1).length ≤ S) :
    copyStatics source copied is (fill base N names S vals, names.length, vals.length) =
      .ok (fill base N (names ++ (ps.filter fun p => copied p.1).map Prod.fst) S
          (vals ++ (ps.filter fun p => copied p.1).map Prod.snd),
        (names ++ (ps.filter fun p => copied p.1).map Prod.fst).length,
        (vals ++ (ps.filter fun p => copied p.1).map Prod.snd).length) := by
  induction is generalizing names vals ps with
  | nil =>
    obtain rfl : ps = [] := by simpa [Reads] using h.symm
    simp [copyStatics]
  | cons idx is ih =>
    obtain ⟨name, v, ps, rfl, hname, hv, hrest⟩ := h.cons
    rw [copyStatics, load_eq hname]
    show (if copied name then _ else _) = _
    cases hc : copied name with
    | false =>
      rw [if_neg (by simp)]
      rw [List.filter_cons_of_neg (by simp [hc])] at hnodup hN hS ⊢
      exact ih hrest hnodup hN hS
    | true =>
      rw [List.filter_cons_of_pos (by simpa using hc)] at hnodup hN hS ⊢
      rw [List.length_cons] at hN hS
      rw [List.map_cons, List.append_cons] at hnodup ⊢
      rw [List.map_cons, List.append_cons vals]
      have hnew : name ∉ names := fun hm =>
        (List.nodup_append.mp (List.nodup_append.mp hnodup).1).2.2 name hm name (by simp) rfl
      have hN' : (names ++ [name]).length + (ps.filter fun p => copied p.1).length ≤ N := by
        rw [List.length_append, List.length_singleton]
        omega
      have hS' : (vals ++ [v]).length + (ps.filter fun p => copied p.1).length ≤ S := by
        rw [List.length_append, List.length_singleton]
        omega
      have hloop := ih hrest hnodup hN' hS'
      rw [List.length_append, List.length_append, List.length_singleton, List.length_singleton]
        at hloop
      rw [if_pos rfl, load_eq hv]
      show (luaR_registerstaticmember _ _ _ _ _ >>= fun c => _) = _
      rw [registerstaticmember_fill v hnew (by omega) (by omega)]
      exact hloop

end Loops

/-! ### Derived classes -/

section Flatten

variable {c p : LuauClass β}

theorem Layout.load_instances (h : Layout p) :
    p.instanceOffsets.map (p.offsettomember[·]?) = p.instances.map some := by
  have hlen := h.length_instances
  refine List.ext_getElem (by simp [LuauClass.instanceOffsets, hlen]) fun i h1 h2 => ?_
  have hi : i < p.instances.length := by simpa using h2
  rw [List.getElem_map, List.getElem_map]
  simp only [LuauClass.instanceOffsets, List.getElem_range, LuauClass.instances, List.getElem_take]
  rw [List.getElem?_eq_getElem]

theorem Layout.reads_statics (h : Layout p) : Reads p p.staticOffsets p.statics := by
  have hstatics := h.statics
  have hlen := h.length
  have hzip : p.statics.length = p.staticmembers.length := by
    rw [LuauClass.statics, List.length_zip, h.length_staticNames, Nat.min_self]
  have hcount : p.numberofallmembers - p.numberofinstancemembers = p.staticmembers.length := by omega
  refine List.ext_getElem (by simp [LuauClass.staticOffsets, hzip, hcount]) fun i h1 h2 => ?_
  have hi : i < p.staticmembers.length := by simpa [hzip] using h2
  rw [List.getElem_map, List.getElem_map]
  simp only [LuauClass.staticOffsets, List.getElem_range', LuauClass.statics, List.getElem_zip,
    LuauClass.staticNames, List.getElem_drop, Nat.one_mul, Nat.add_sub_cancel_left]
  rw [List.getElem?_eq_getElem (by omega), List.getElem?_eq_getElem hi]

/-- The static members of the parent that the child does not declare. -/
def kept (c p : LuauClass β) : List (String × Static β) :=
  p.statics.filter fun q => (c.memberstooffset q.1).isNone

theorem Layout.mem_kept (h : Layout c) {q : String × Static β} :
    q ∈ kept c p ↔ q ∈ p.statics ∧ q.1 ∉ c.offsettomember := by
  rw [kept, List.mem_filter, Option.isNone_iff_eq_none, h.table, tableOf_eq_none]

/-- The names of a derived class are different. -/
theorem nodup_flatten (hc : Layout c) (hp : Layout p)
    (hover : ∀ name ∈ p.instances, name ∉ c.offsettomember) :
    (p.instances ++ c.instances ++ (kept c p).map Prod.fst ++ c.statics.map Prod.fst).Nodup := by
  have hparent : (p.instances ++ (kept c p).map Prod.fst).Nodup := by
    refine hp.nodup.sublist ?_
    have hsub : List.Sublist ((kept c p).map Prod.fst) p.staticNames := by
      rw [← hp.map_fst]
      exact List.filter_sublist.map _
    rw [← instances_append p]
    exact List.Sublist.append (List.Sublist.refl _) hsub
  have hall : (p.instances ++ (kept c p).map Prod.fst ++ c.offsettomember).Nodup := by
    refine List.nodup_append.mpr ⟨hparent, hc.nodup, ?_⟩
    rintro name hname name' hname' rfl
    rcases List.mem_append.mp hname with hm | hm
    · exact hover name hm hname'
    · obtain ⟨q, hq, rfl⟩ := List.mem_map.mp hm
      exact (hc.mem_kept.mp hq).2 hname'
  rw [← instances_append c, ← hc.map_fst] at hall
  refine (List.Perm.nodup_iff ?_).mp hall
  simp only [List.append_assoc]
  refine List.Perm.append_left _ ?_
  rw [← List.append_assoc, ← List.append_assoc]
  exact List.perm_append_comm.append_right _

/-- What `luaR_inheritclass` has made before it sets the constructors. -/
structure Flattened (n c p : LuauClass β) (parentRef : Ref) : Prop where
  layout : Layout n
  super : n.super = some parentRef
  flag : n.hasuserinitinchain = p.hasuserinitinchain
  /-- The instance members of the parent come first. -/
  instances : n.instances = p.instances ++ c.instances
  /-- The static members of the parent that are left, and then those of the child. -/
  statics : n.statics = kept c p ++ c.statics

/-- The names of a derived class. -/
def flatNames (c p : LuauClass β) : List String :=
  p.instances ++ c.instances ++ (kept c p).map Prod.fst ++ c.statics.map Prod.fst

/-- The values of its static members. -/
def flatValues (c p : LuauClass β) : List (Static β) :=
  (kept c p).map Prod.snd ++ c.statics.map Prod.snd

/-- The object that the loops fill in. -/
def flatBase (c p : LuauClass β) (r : Ref) : LuauClass β :=
  { (luaR_newblankclass c.name c.isopen : LuauClass β) with
    super := some r
    numberofallmembers := c.numberofallmembers + p.numberofinstancemembers + (0 + (kept c p).length)
    hasuserinitinchain := p.hasuserinitinchain }

/-- The object with the members that it gets. -/
def flattened (c p : LuauClass β) (r : Ref) : LuauClass β :=
  { flatBase c p r with
    offsettomember := flatNames c p
    memberstooffset := tableOf (flatNames c p)
    staticmembers := flatValues c p
    numberofinstancemembers := (p.instances ++ c.instances).length
    instancemetatable := p.instancemetatable }

theorem Layout.length_statics (hc : Layout c) : c.statics.length = c.staticmembers.length := by
  rw [LuauClass.statics, List.length_zip, hc.length_staticNames, Nat.min_self]

theorem length_flatNames (hc : Layout c) (hp : Layout p) :
    (flatNames c p).length =
      c.numberofallmembers + p.numberofinstancemembers + (0 + (kept c p).length) := by
  have hstatics := hc.statics
  simp only [flatNames, List.length_append, List.length_map, hp.length_instances,
    hc.length_instances, hc.length_statics]
  omega

theorem length_flatValues (hc : Layout c) (hp : Layout p) :
    (p.instances ++ c.instances).length + (flatValues c p).length =
      c.numberofallmembers + p.numberofinstancemembers + (0 + (kept c p).length) := by
  rw [← length_flatNames hc hp]
  simp only [flatNames, flatValues, List.length_append, List.length_map]
  omega

/-- The loops fill in both arrays. -/
theorem flatten_run (hc : Layout c) (hp : Layout p)
    (hover : ∀ name ∈ p.instances, name ∉ c.offsettomember) (r : Ref) :
    flatten c p r = .ok (flattened c p r) := by
  have hnodup := nodup_flatten hc hp hover
  have hnames := length_flatNames hc hp
  have hvals := length_flatValues hc hp
  have hfst : ((kept c p).map Prod.fst).length = (kept c p).length := List.length_map _
  have hsnd : ((kept c p).map Prod.snd).length = (kept c p).length := List.length_map _
  have hcS : (c.statics.map Prod.snd).length = c.statics.length := List.length_map _
  have hcstatics := hc.length_statics
  have hcall := hc.statics
  -- The sizes of the new arrays.
  obtain ⟨N, hN⟩ : ∃ N, N = c.numberofallmembers + p.numberofinstancemembers +
      (0 + (kept c p).length) := ⟨_, rfl⟩
  obtain ⟨S, hS⟩ : ∃ S, S = N - (p.instances ++ c.instances).length := ⟨_, rfl⟩
  rw [← hN] at hnames hvals
  have hlen : (flatValues c p).length = (kept c p).length + c.statics.length := by
    rw [flatValues, List.length_append, hsnd, hcS]
  have hstart : { (luaR_newblankclass c.name c.isopen : LuauClass β) with
      super := some r
      offsettomember := List.replicate N ""
      numberofallmembers := N
      hasuserinitinchain := p.hasuserinitinchain } = fill (flatBase c p r) N [] 0 [] := by
    have hempty : (fun _ => none) = tableOf [] := by
      funext name
      simp [tableOf]
    simp only [fill, flatBase, luaR_newblankclass, ← hempty, ← hN]
    rfl
  -- The instance members of the parent, and then those of the child.
  have hprefix := (List.nodup_append.mp (List.nodup_append.mp hnodup).1).1
  have hinstances : (p.instances ++ c.instances).length = p.instances.length + c.instances.length :=
    List.length_append
  have hfirst : copyInstances p p.instanceOffsets (fill (flatBase c p r) N [] 0 [], 0) =
      .ok (fill (flatBase c p r) N p.instances 0 [], p.instances.length) :=
    copyInstances_fill hp.load_instances (List.nodup_append.mp hprefix).1
      (show 0 + p.instances.length ≤ N by omega)
  have hsecond : copyInstances c c.instanceOffsets
      (fill (flatBase c p r) N p.instances 0 [], p.instances.length) =
      .ok (fill (flatBase c p r) N (p.instances ++ c.instances) 0 [],
        (p.instances ++ c.instances).length) :=
    copyInstances_fill hc.load_instances hprefix (by omega)
  obtain ⟨base, hbase⟩ : ∃ base, base = { flatBase c p r with
      numberofinstancemembers := (p.instances ++ c.instances).length } := ⟨_, rfl⟩
  have hmiddle : { fill (flatBase c p r) N (p.instances ++ c.instances) 0 [] with
      staticmembers := List.replicate S .nil
      numberofinstancemembers := (p.instances ++ c.instances).length } =
      fill base N (p.instances ++ c.instances) S [] := by
    rw [hbase]
    rfl
  -- The static members that are kept, and then those of the child.
  have hthird : copyStatics p (fun name => (c.memberstooffset name).isNone) p.staticOffsets
      (fill base N (p.instances ++ c.instances) S [], (p.instances ++ c.instances).length, 0) =
      .ok (fill base N (p.instances ++ c.instances ++ (kept c p).map Prod.fst) S
          ((kept c p).map Prod.snd),
        (p.instances ++ c.instances ++ (kept c p).map Prod.fst).length,
        ((kept c p).map Prod.snd).length) :=
    copyStatics_fill hp.reads_statics (List.nodup_append.mp hnodup).1
      (show _ + (kept c p).length ≤ N by omega) (show 0 + (kept c p).length ≤ S by omega)
  have hall : (c.statics.filter fun q => (fun _ : String => true) q.1) = c.statics :=
    List.filter_true _
  have hfourth : copyStatics c (fun _ => true) c.staticOffsets
      (fill base N (p.instances ++ c.instances ++ (kept c p).map Prod.fst) S
          ((kept c p).map Prod.snd),
        (p.instances ++ c.instances ++ (kept c p).map Prod.fst).length,
        ((kept c p).map Prod.snd).length) =
      .ok (fill base N (flatNames c p) S (flatValues c p), (flatNames c p).length,
        (flatValues c p).length) := by
    rw [← hall] at hnodup
    refine (copyStatics_fill hc.reads_statics hnodup ?_ ?_).trans (by rw [hall]; rfl)
    · rw [hall, List.length_append, hfst]
      omega
    · rw [hall, hsnd]
      omega
  -- Both arrays are full, so that nothing of their first contents is left.
  have hfull : { fill base N (flatNames c p) S (flatValues c p) with
      instancemetatable := p.instancemetatable } = flattened c p r := by
    rw [hbase]
    simp only [fill, flattened, hnames, show (flatValues c p).length = S by omega, Nat.sub_self,
      List.replicate_zero, List.append_nil]
  have hcount : countStatics c p p.staticOffsets 0 = .ok (0 + (kept c p).length) :=
    countStatics_eq hp.reads_statics 0
  unfold flatten
  simp only [hcount, bind, Except.bind, ← hN, hstart, hfirst, hsecond, ← hS, hmiddle, hthird, hfourth]
  rw [if_neg (by omega), hfull]

/-- **The members of a derived class**, one list after the other. -/
theorem flattened_spec (hc : Layout c) (hp : Layout p)
    (hover : ∀ name ∈ p.instances, name ∉ c.offsettomember) (r : Ref) :
    Flattened (flattened c p r) c p r := by
  have hdrop : (flatNames c p).drop (p.instances ++ c.instances).length =
      (kept c p ++ c.statics).map Prod.fst := by
    rw [flatNames, List.append_assoc, List.drop_left, List.map_append]
  have hmem : ∀ name ∈ c.staticNames, name ∈ (flattened c p r).staticNames := by
    intro name hname
    show name ∈ (flatNames c p).drop (p.instances ++ c.instances).length
    rw [hdrop, List.map_append, hc.map_fst]
    exact List.mem_append_right _ hname
  refine ⟨⟨rfl, nodup_flatten hc hp hover, length_flatNames hc hp, length_flatValues hc hp,
    hmem _ hc.new, hmem _ hc.init⟩, rfl, rfl, ?_, ?_⟩
  · show (flatNames c p).take (p.instances ++ c.instances).length = _
    rw [flatNames, List.append_assoc, List.take_left]
  · show ((flatNames c p).drop (p.instances ++ c.instances).length).zip (flatValues c p) = _
    rw [hdrop, flatValues, ← List.map_append, List.zip_map']
    exact List.map_id _

end Flatten

/-! ### Operations -/

section Operations

variable {h : Heap β} {c p : LuauClass β}

theorem zip_replicate (l : List String) (v : Static β) :
    l.zip (List.replicate l.length v) = l.map fun name => (name, v) := by
  induction l with
  | nil => rfl
  | cons name l ih => rw [List.length_cons, List.replicate_succ, List.zip_cons_cons, ih, List.map_cons]

/-- **`loadClassShape`** makes a class with the members of the declaration, without values. -/
theorem loadClassShape_spec (h : Heap β) (name : String) {properties methods : List String}
    (hnodup : (properties ++ methods).Nodup) (hnew : "new" ∈ methods) (hinit : "__init" ∈ methods) :
    ∃ c, loadClassShape h name properties methods = .ok (h.length, h ++ [c]) ∧ Layout c ∧
      c.super = none ∧ c.hasuserinitinchain = false ∧ c.instances = properties ∧
      c.statics = override "__init" (.defaultCtor h.length) (override "new" (.constructor h.length)
        (methods.map fun m => (m, .nil))) := by
  have htable : readMembers (properties ++ methods) 0 (fun _ => none) =
      tableOf (properties ++ methods) := by
    have hempty : (fun _ => none) = tableOf [] := by
      funext name
      simp [tableOf]
    have hread : readMembers (properties ++ methods) ([] : List String).length (tableOf []) =
        tableOf ([] ++ (properties ++ methods)) := readMembers_eq hnodup
    rw [hempty]
    exact hread
  obtain ⟨c, hc⟩ : ∃ c : LuauClass β, c = { (luaR_newblankclass name false : LuauClass β) with
    staticmembers := List.replicate methods.length .nil
    memberstooffset := tableOf (properties ++ methods)
    offsettomember := properties ++ methods
    numberofinstancemembers := properties.length
    numberofallmembers := properties.length + methods.length } := ⟨_, rfl⟩
  have hnames : c.staticNames = methods := by
    rw [hc]
    exact List.drop_left
  have hlayout : Layout c := by
    refine ⟨by rw [hc], by rw [hc]; exact hnodup, ?_, ?_, hnames.symm ▸ hnew, hnames.symm ▸ hinit⟩
    · rw [hc]
      exact List.length_append
    · rw [hc]
      exact congrArg _ List.length_replicate
  have hstatics : c.statics = methods.map fun m => (m, .nil) := by
    rw [LuauClass.statics, hnames, hc]
    exact zip_replicate methods .nil
  obtain ⟨vals, hset, hlen, hzip⟩ := hlayout.setupconstructor h.length
  refine ⟨{ c with staticmembers := vals }, ?_, hlayout.of_values hlen, by rw [hc]; rfl,
    by rw [hc]; rfl, ?_, ?_⟩
  · rw [loadClassShape, luaR_newclass, htable]
    show (luaR_setupconstructor _ h.length >>= fun c => _) = _
    rw [← hc, hset]
    rfl
  · show c.instances = _
    rw [hc]
    exact List.take_left
  · rw [← hstatics]
    exact hzip

/-- The check for overrides passes, or names a member. -/
theorem checkOverrides_cases {is : List ℕ} {names : List String}
    (hload : is.map (p.offsettomember[·]?) = names.map some) :
    (checkOverrides c p is = .ok () ∧ ∀ name ∈ names, c.memberstooffset name = none) ∨
      ∃ name, checkOverrides c p is = .error (.override name p.name c.name) := by
  induction is generalizing names with
  | nil =>
    obtain rfl : names = [] := by simpa using hload.symm
    exact .inl ⟨rfl, by simp⟩
  | cons idx is ih =>
    cases names with
    | nil => cases hload
    | cons name names =>
      obtain ⟨hname, hload⟩ := List.cons.inj hload
      simp only [checkOverrides, load_eq hname, bind, Except.bind]
      cases hm : c.memberstooffset name with
      | some i => exact .inr ⟨name, if_pos rfl⟩
      | none =>
        simp only [Option.isSome_none, Bool.false_eq_true, if_false]
        rcases ih hload with ⟨hok, hall⟩ | herr
        · exact .inl ⟨hok, by simpa [hm] using hall⟩
        · exact .inr herr

/-- What `luaR_inheritclass` makes at the end of the heap. -/
structure Derived (h : Heap β) (n c p : LuauClass β) (parent : Ref) : Prop where
  layout : Layout n
  super : n.super = some parent
  flag : n.hasuserinitinchain = p.hasuserinitinchain
  /-- The instance members of the parent come first. -/
  instances : n.instances = p.instances ++ c.instances
  /-- The child declares none of the instance members of the parent. -/
  checked : ∀ name ∈ p.instances, name ∉ c.offsettomember
  /-- The static members of the parent that are left, those of the child, and new constructors. -/
  statics : n.statics = override "__init" (.defaultCtor h.length)
    (override "new" (.constructor h.length) (kept c p ++ c.statics))

/-- **`luaR_inheritclass`** makes a derived class after all other objects, or raises one of its two
errors. -/
theorem luaR_inheritclass_spec {child parent : Ref} (hchild : h[child]? = some c)
    (hparent : h[parent]? = some p) (hc : Layout c) (hp : Layout p) :
    (∃ e, luaR_inheritclass h child parent = .error e ∧ e ≠ .fault) ∨
      ∃ n, luaR_inheritclass h child parent = .ok (h.length, h ++ [n]) ∧
        Derived h n c p parent := by
  rw [luaR_inheritclass, load_eq hchild, load_eq hparent]
  show (∃ e, (if p.isopen = false then _ else _) = _ ∧ _) ∨
    ∃ n, (if p.isopen = false then _ else _) = _ ∧ _
  by_cases hopen : p.isopen = false
  · rw [if_pos hopen]
    exact .inl ⟨_, rfl, by simp⟩
  rw [if_neg hopen]
  rcases checkOverrides_cases (c := c) hp.load_instances with ⟨hcheck, hnone⟩ | ⟨name, hcheck⟩
  · right
    have hover : ∀ name ∈ p.instances, name ∉ c.offsettomember := by
      intro name hname
      rw [← tableOf_eq_none, ← hc.table]
      exact hnone name hname
    have hflat := flattened_spec hc hp hover parent
    obtain ⟨vals, hset, hlen, hzip⟩ := hflat.layout.setupconstructor h.length
    refine ⟨{ flattened c p parent with staticmembers := vals }, ?_, hflat.layout.of_values hlen,
      hflat.super, hflat.flag, hflat.instances, hover, ?_⟩
    · rw [hcheck]
      show (flatten c p parent >>= fun c => _) = _
      rw [flatten_run hc hp hover]
      show (luaR_setupconstructor _ h.length >>= fun c => _) = _
      rw [hset]
      rfl
    · rw [← hflat.statics]
      exact hzip
  · rw [hcheck]
    exact .inl ⟨_, rfl, by simp⟩

/-- **`luaR_addclassmember`** gives a static member its value. -/
theorem luaR_addclassmember_spec {r : Ref} {name : String} (hr : h[r]? = some c) (hc : Layout c)
    (hname : name ∈ c.staticNames) (v : β) :
    ∃ n, luaR_addclassmember h r name v = .ok (h.set r n) ∧ Layout n ∧ n.super = c.super ∧
      n.instances = c.instances ∧
      n.hasuserinitinchain = (c.hasuserinitinchain || name == "__init") ∧
      n.statics = override name (.function v) c.statics := by
  obtain ⟨vals, hset, hlen, hzip⟩ := hc.setStatic hname (.function v)
  have hlayout := hc.of_values hlen
  obtain ⟨table, htable⟩ : ∃ table, LuauClass.setMetamethod { c with
      staticmembers := vals, hasuserinitinchain := c.hasuserinitinchain || name == "__init" } name v =
      { c with
        staticmembers := vals
        hasuserinitinchain := c.hasuserinitinchain || name == "__init"
        instancemetatable := table } := by
    unfold LuauClass.setMetamethod
    split_ifs
    · exact ⟨_, rfl⟩
    · exact ⟨_, rfl⟩
  refine ⟨{ c with
    staticmembers := vals
    hasuserinitinchain := c.hasuserinitinchain || name == "__init"
    instancemetatable := table }, ?_, ?_, rfl, rfl, rfl, hzip⟩
  · rw [luaR_addclassmember, load_eq hr]
    show (c.setStatic name (.function v) >>= fun c => _) = _
    rw [hset, ← htable]
    rfl
  · exact ⟨hlayout.table, hlayout.nodup, hlayout.length, hlayout.statics, hlayout.new, hlayout.init⟩

end Operations

end Class

end Jaci
