import Jaci.Class.Layout
import Jaci.Lib.Machine

/-!
# Chains of classes

Classes are loaded, derived from each other and given their members, in any order, as long as a
class has its members before it is extended.

* `World`, `Op`, `classes` : the objects with their declarations, and the machine that makes them;
* `Resolves` : the value that the nearest class of a chain defines;
* `Known` : what holds of each object;
* `classes_laid_out` : **the layout of the classes of every chain.**
-/

namespace Jaci

namespace Class

variable {β : Type}

/-! ### Declarations -/

/-- What is declared for a class object. -/
structure Info (β : Type) where
  properties : List String
  methods : List String
  parent : Option Ref
  /-- The functions that were added, the latest first. -/
  added : List (String × β)

/-- The value of a static member that the class declares. -/
def Info.own (i : Info β) (r : Ref) (name : String) : Static β :=
  match i.added.lookup name with
  | some f => .function f
  | none =>
    if name = "new" then .constructor r else if name = "__init" then .defaultCtor r else .nil

/-- The class defines `__init`. -/
def Info.DefinesInit (i : Info β) : Prop := "__init" ∈ i.added.map Prod.fst

/-- The value of a static member: that of the nearest class of the chain that declares it. -/
inductive Resolves (info : List (Info β)) : Ref → String → Static β → Prop where
  | own {r : Ref} {i : Info β} {name : String} : info[r]? = some i → name ∈ i.methods →
    Resolves info r name (i.own r name)
  | inherited {r p : Ref} {i : Info β} {name : String} {v : Static β} : info[r]? = some i →
    name ∉ i.properties ++ i.methods → i.parent = some p → Resolves info p name v →
    Resolves info r name v

/-- The names of the members: those that the class or one that it is derived from declares. -/
inductive Declared (info : List (Info β)) : Ref → String → Prop where
  | own {r : Ref} {i : Info β} {name : String} : info[r]? = some i →
    name ∈ i.properties ++ i.methods → Declared info r name
  | inherited {r p : Ref} {i : Info β} {name : String} : info[r]? = some i → i.parent = some p →
    Declared info p name → Declared info r name

/-- The class or one that it is derived from defines `__init`. -/
inductive UserInit (info : List (Info β)) : Ref → Prop where
  | own {r : Ref} {i : Info β} : info[r]? = some i → i.DefinesInit → UserInit info r
  /-- The parent does, or one that it is derived from. -/
  | inherited {r p : Ref} {i : Info β} : info[r]? = some i → i.parent = some p → UserInit info p →
    UserInit info r

/-! ### The machine -/

/-- The class objects, and what is declared for them. -/
structure World (β : Type) where
  heap : Heap β
  info : List (Info β)

/-- What a program does. -/
inductive Op (β : Type) where
  | load (name : String) (properties methods : List String)
  | setOpen (r : Ref) (isopen : Bool)
  /-- A class is derived, with the declaration of the child. -/
  | derive (child parent : Ref)
  | add (r : Ref) (name : String) (f : β)

/-- One step.  A call that raises an error makes no object. -/
def World.exec (w : World β) : Op β → World β
  | .load name properties methods =>
    match loadClassShape w.heap name properties methods with
    | .ok (_, heap) => ⟨heap, w.info ++ [⟨properties, methods, none, []⟩]⟩
    | .error _ => w
  | .setOpen r isopen => { w with heap := w.heap.modify r fun c => { c with isopen } }
  | .derive child parent =>
    match luaR_inheritclass w.heap child parent, w.info[child]? with
    | .ok (_, heap), some i => ⟨heap, w.info ++ [{ i with parent := some parent }]⟩
    | _, _ => w
  | .add r name f =>
    match luaR_addclassmember w.heap r name f with
    | .ok heap => ⟨heap, w.info.modify r fun i => { i with added := (name, f) :: i.added }⟩
    | .error _ => w

/-- The names of a declaration are different, and the constructors are static; a class is derived
with a declaration that no member was added to; members are declared static members other than
`new`, and come before the class is extended. -/
def Proper (w : World β) : Op β → Prop
  | .load _ properties methods =>
    (properties ++ methods).Nodup ∧ "new" ∈ methods ∧ "__init" ∈ methods
  | .setOpen _ _ => True
  | .derive child _ => ∀ i, w.info[child]? = some i → i.parent = none ∧ i.added = []
  | .add r name _ => (∃ i, w.info[r]? = some i ∧ name ∈ i.methods) ∧ name ≠ "new" ∧
    ∀ i ∈ w.info, i.parent ≠ some r

def classes (β : Type) : Machine (World β) (Op β) where
  init w := w = ⟨[], []⟩
  enabled _ _ := True
  exec := World.exec

/-! ### What is kept -/

/-- What is known of the class object `c` at `r`, which is declared by `i`. -/
structure Known (w : World β) (r : Ref) (c : LuauClass β) (i : Info β) : Prop where
  layout : Layout c
  super : c.super = i.parent
  nodup : (i.properties ++ i.methods).Nodup
  new : "new" ∈ i.methods
  init : "__init" ∈ i.methods
  root : i.parent = none → c.instances = i.properties ∧ c.staticNames = i.methods
  parent : ∀ p, i.parent = some p → ∃ pc, w.heap[p]? = some pc ∧ p < r ∧
    c.instances = pc.instances ++ i.properties
  names : ∀ name, name ∈ c.offsettomember ↔ Declared w.info r name
  methods : ∀ name ∈ i.methods, name ∈ c.staticNames
  added : ∀ a ∈ i.added, a.1 ∈ i.methods ∧ a.1 ≠ "new"
  resolved : ∀ q ∈ c.statics, Resolves w.info r q.1 q.2
  flag : c.hasuserinitinchain = true ↔ UserInit w.info r

/-- Every object is known. -/
structure Inv (w : World β) : Prop where
  length : w.heap.length = w.info.length
  known : ∀ r c i, w.heap[r]? = some c → w.info[r]? = some i → Known w r c i

section Chains

variable {w : World β} {r : Ref} {c : LuauClass β} {i : Info β}

theorem mem_override {name : String} {v : Static β} {l : List (String × Static β)}
    {q : String × Static β} (h : q ∈ override name v l) :
    (q.1 = name ∧ q.2 = v) ∨ q.1 ≠ name ∧ q ∈ l := by
  obtain ⟨q', hq', rfl⟩ := List.mem_map.mp h
  by_cases hname : q'.1 = name
  · rw [if_pos hname]
    exact .inl ⟨hname, rfl⟩
  · rw [if_neg hname]
    exact .inr ⟨hname, hq'⟩

theorem map_fst_override (name : String) (v : Static β) (l : List (String × Static β)) :
    (override name v l).map Prod.fst = l.map Prod.fst := by
  rw [override, List.map_map]
  refine List.map_congr_left fun q _ => ?_
  rw [Function.comp_apply]
  split_ifs <;> rfl

/-- The own value of a class without added functions. -/
theorem own_of_nil (h : i.added = []) (r : Ref) (name : String) :
    i.own r name =
      if name = "new" then .constructor r else if name = "__init" then .defaultCtor r else .nil := by
  rw [Info.own, h]
  rfl

/-! ### Changes of the declarations -/

/-- The declarations differ at most at `r₀`, which no class extends. -/
structure SameBut (r₀ : Ref) (info info' : List (Info β)) : Prop where
  same : ∀ k : Ref, k ≠ r₀ → info'[k]? = info[k]?
  leaf : ∀ (k : Ref) (i : Info β), info[k]? = some i → i.parent ≠ some r₀
  leaf' : ∀ (k : Ref) (i : Info β), info'[k]? = some i → i.parent ≠ some r₀

namespace SameBut

variable {r₀ : Ref} {info info' : List (Info β)}

theorem symm (h : SameBut r₀ info info') : SameBut r₀ info' info :=
  ⟨fun r hr => (h.same r hr).symm, h.leaf', h.leaf⟩

theorem resolves (h : SameBut r₀ info info') {name : String} {v : Static β} (hr : r ≠ r₀)
    (hv : Resolves info r name v) : Resolves info' r name v := by
  induction hv with
  | own hi hname => exact .own ((h.same _ hr).trans hi) hname
  | inherited hi hname hp _ ih =>
    exact .inherited ((h.same _ hr).trans hi) hname hp (ih fun e => h.leaf _ _ hi (e ▸ hp))

theorem declared (h : SameBut r₀ info info') {name : String} (hr : r ≠ r₀)
    (hv : Declared info r name) : Declared info' r name := by
  induction hv with
  | own hi hname => exact .own ((h.same _ hr).trans hi) hname
  | inherited hi hp _ ih =>
    exact .inherited ((h.same _ hr).trans hi) hp (ih fun e => h.leaf _ _ hi (e ▸ hp))

theorem userInit (h : SameBut r₀ info info') (hr : r ≠ r₀) (hv : UserInit info r) :
    UserInit info' r := by
  induction hv with
  | own hi hdef => exact .own ((h.same _ hr).trans hi) hdef
  | inherited hi hp _ ih =>
    exact .inherited ((h.same _ hr).trans hi) hp (ih fun e => h.leaf _ _ hi (e ▸ hp))

end SameBut

/-- What is known of a class does not change with the declarations of others. -/
theorem Known.congr {w' : World β} (h : Known w r c i) {r₀ : Ref} (hr : r ≠ r₀)
    (hinfo : SameBut r₀ w.info w'.info)
    (hheap : ∀ (p : Ref) (pc : LuauClass β), w.heap[p]? = some pc →
      ∃ pc' : LuauClass β, w'.heap[p]? = some pc' ∧ pc'.instances = pc.instances) :
    Known w' r c i where
  layout := h.layout
  super := h.super
  nodup := h.nodup
  new := h.new
  init := h.init
  root := h.root
  parent p hp := by
    obtain ⟨pc, hpc, hlt, hinst⟩ := h.parent p hp
    obtain ⟨pc', hpc', hsame⟩ := hheap p pc hpc
    exact ⟨pc', hpc', hlt, hsame ▸ hinst⟩
  names name := (h.names name).trans ⟨hinfo.declared hr, hinfo.symm.declared hr⟩
  methods := h.methods
  added := h.added
  resolved q hq := hinfo.resolves hr (h.resolved q hq)
  flag := h.flag.trans ⟨hinfo.userInit hr, hinfo.symm.userInit hr⟩

/-! ### A new class -/

theorem getElem?_append_some {α : Type} {l : List α} {k : ℕ} {a : α} (h : l[k]? = some a)
    (l' : List α) : (l ++ l')[k]? = some a := by
  rw [List.getElem?_append_left (List.getElem?_eq_some_iff.mp h).1]
  exact h

theorem getElem?_concat {α : Type} {l : List α} {k : ℕ} {a b : α} (h : (l ++ [b])[k]? = some a) :
    (k ≠ l.length ∧ l[k]? = some a) ∨ k = l.length ∧ a = b := by
  rcases Nat.lt_trichotomy k l.length with hk | rfl | hk
  · rw [List.getElem?_append_left hk] at h
    exact .inl ⟨Nat.ne_of_lt hk, h⟩
  · rw [List.getElem?_concat_length] at h
    exact .inr ⟨rfl, (Option.some.inj h).symm⟩
  · rw [List.getElem?_eq_none (by simp; omega)] at h
    cases h

theorem Inv.parent_lt (h : Inv w) {k : Ref} {j : Info β} {p : Ref} (hj : w.info[k]? = some j)
    (hp : j.parent = some p) : p < w.heap.length := by
  have hk : k < w.heap.length := by
    rw [h.length]
    exact (List.getElem?_eq_some_iff.mp hj).1
  obtain ⟨-, -, hlt, -⟩ := (h.known k _ j (List.getElem?_eq_getElem hk) hj).parent p hp
  exact Nat.lt_trans hlt hk

theorem Inv.sameBut (h : Inv w) {j : Info β} (hj : ∀ p, j.parent = some p → p < w.heap.length) :
    SameBut w.heap.length w.info (w.info ++ [j]) := by
  have hleaf : ∀ (k : Ref) (i : Info β), w.info[k]? = some i → i.parent ≠ some w.heap.length :=
    fun k i hi hp => Nat.lt_irrefl _ (h.parent_lt hi hp)
  refine ⟨fun k hk => ?_, hleaf, fun k i hi => ?_⟩
  · rw [h.length] at hk
    rcases Nat.lt_or_gt_of_ne hk with hlt | hgt
    · exact List.getElem?_append_left hlt
    · rw [List.getElem?_eq_none (Nat.le_of_lt hgt), List.getElem?_eq_none (by simp; omega)]
  · rcases getElem?_concat hi with ⟨-, hi⟩ | ⟨-, rfl⟩
    · exact hleaf k i hi
    · exact fun hp => Nat.lt_irrefl _ (hj _ hp)

/-- One more class, of which everything is known. -/
theorem Inv.append (h : Inv w) {n : LuauClass β} {j : Info β}
    (hj : ∀ p, j.parent = some p → p < w.heap.length)
    (hn : Known ⟨w.heap ++ [n], w.info ++ [j]⟩ w.heap.length n j) :
    Inv ⟨w.heap ++ [n], w.info ++ [j]⟩ := by
  refine ⟨by simp [h.length], fun k c i hc hi => ?_⟩
  rcases getElem?_concat hc with ⟨hk, hc⟩ | ⟨rfl, rfl⟩
  · rcases getElem?_concat hi with ⟨-, hi⟩ | ⟨hk', -⟩
    · exact (h.known k c i hc hi).congr hk (h.sameBut hj)
        fun p pc hpc => ⟨pc, getElem?_append_some hpc _, rfl⟩
    · exact absurd (hk'.trans h.length.symm) hk
  · rcases getElem?_concat hi with ⟨hk, -⟩ | ⟨-, rfl⟩
    · exact absurd h.length hk
    · exact hn

/-- The value of a constructor, or of a member that is not one. -/
theorem mem_constructors {R : Ref} {l : List (String × Static β)} {q : String × Static β}
    (h : q ∈ override "__init" (.defaultCtor R) (override "new" (.constructor R) l)) :
    (q.1 = "new" ∧ q.2 = .constructor R) ∨ (q.1 = "__init" ∧ q.2 = .defaultCtor R) ∨
      (q.1 ≠ "new" ∧ q.1 ≠ "__init" ∧ q ∈ l) := by
  rcases mem_override h with hinit | ⟨hinit, h⟩
  · exact .inr (.inl hinit)
  rcases mem_override h with hnew | ⟨hnew, h⟩
  · exact .inl hnew
  · exact .inr (.inr ⟨hnew, hinit, h⟩)

/-- The own members of a class without added functions. -/
theorem resolves_of_nil {info : List (Info β)} (hi : info[r]? = some i) (hadded : i.added = [])
    {name : String} (hname : name ∈ i.methods) {v : Static β}
    (hv : v = if name = "new" then .constructor r else
      if name = "__init" then .defaultCtor r else .nil) : Resolves info r name v := by
  rw [← own_of_nil hadded] at hv
  subst hv
  exact .own hi hname

theorem not_definesInit_of_nil (h : i.added = []) : ¬ i.DefinesInit := by
  rw [Info.DefinesInit, h]
  exact List.not_mem_nil

theorem getElem?_length {α : Type} (l : List α) (a : α) {k : ℕ} (hk : k = l.length) :
    (l ++ [a])[k]? = some a := by
  rw [hk, List.getElem?_concat_length]

/-- **A declaration is loaded.** -/
theorem Inv.load (h : Inv w) (name : String) {properties methods : List String}
    (hok : Proper w (.load name properties methods)) :
    Inv (w.exec (.load name properties methods)) := by
  obtain ⟨hnodup, hnew, hinit⟩ := hok
  obtain ⟨n, hload, hlayout, hsuper, hflag, hinst, hstatics⟩ :=
    loadClassShape_spec w.heap name hnodup hnew hinit
  have hexec : w.exec (.load name properties methods) =
      ⟨w.heap ++ [n], w.info ++ [⟨properties, methods, none, []⟩]⟩ := by
    simp only [World.exec, hload]
  have hi := getElem?_length w.info (⟨properties, methods, none, []⟩ : Info β) h.length
  have hnames : n.staticNames = methods := by
    rw [← hlayout.map_fst, hstatics, map_fst_override, map_fst_override, List.map_map]
    exact List.map_id _
  rw [hexec]
  refine h.append (by rintro p ⟨⟩) ⟨hlayout, hsuper, hnodup, hnew, hinit, fun _ => ⟨hinst, hnames⟩,
    by rintro p ⟨⟩, fun m => ?_, fun m hm => hnames.symm ▸ hm, by rintro a ⟨⟩, fun q hq => ?_, ?_⟩
  · rw [← instances_append, hinst, hnames]
    refine ⟨fun hm => .own hi hm, fun hm => ?_⟩
    cases hm with
    | own hi' hm =>
      obtain rfl := Option.some.inj (hi.symm.trans hi')
      exact hm
    | inherited hi' hp _ =>
      obtain rfl := Option.some.inj (hi.symm.trans hi')
      cases hp
  · have hmem : q.1 ∈ methods := by
      rw [← hnames, ← hlayout.map_fst]
      exact List.mem_map_of_mem hq
    refine resolves_of_nil hi rfl hmem ?_
    rw [hstatics] at hq
    rcases mem_constructors hq with ⟨hq1, hq2⟩ | ⟨hq1, hq2⟩ | ⟨hq1, hq2, hq⟩
    · rw [hq2, if_pos hq1]
    · rw [hq2, if_neg (by rw [hq1]; decide), if_pos hq1]
    · obtain ⟨m, -, rfl⟩ := List.mem_map.mp hq
      rw [if_neg hq1, if_neg hq2]
  · rw [hflag]
    refine iff_of_false (by decide) fun hu => ?_
    cases hu with
    | own hi' hdef =>
      obtain rfl := Option.some.inj (hi.symm.trans hi')
      exact not_definesInit_of_nil rfl hdef
    | inherited hi' hp _ =>
      obtain rfl := Option.some.inj (hi.symm.trans hi')
      cases hp

/-- The members of a derived class. -/
theorem mem_derived {n cc pc : LuauClass β} {parent : Ref} (hd : Derived w.heap n cc pc parent)
    (hc : Layout cc) (hp : Layout pc) {name : String} :
    name ∈ n.offsettomember ↔ name ∈ pc.offsettomember ∨ name ∈ cc.offsettomember := by
  have hstatic : n.staticNames = (kept cc pc).map Prod.fst ++ cc.staticNames := by
    rw [← hd.layout.map_fst, hd.statics, map_fst_override, map_fst_override, List.map_append,
      hc.map_fst]
  have hkept : name ∈ (kept cc pc).map Prod.fst ↔ name ∈ pc.staticNames ∧ name ∉ cc.offsettomember := by
    rw [← hp.map_fst, List.mem_map, List.mem_map]
    constructor
    · rintro ⟨q, hq, rfl⟩
      obtain ⟨hq, hnot⟩ := hc.mem_kept.mp hq
      exact ⟨⟨q, hq, rfl⟩, hnot⟩
    · rintro ⟨⟨q, hq, rfl⟩, hnot⟩
      exact ⟨q, hc.mem_kept.mpr ⟨hq, hnot⟩, rfl⟩
  rw [← instances_append n, hd.instances, hstatic, ← instances_append pc]
  simp only [List.mem_append, hkept, ← instances_append cc]
  tauto

/-- What a derived class is known for. -/
theorem Derived.known (h : Inv w) {n cc pc : LuauClass β} {child parent : Ref}
    (hderived : Derived w.heap n cc pc parent) (hc : Known w child cc i)
    (hroot : i.parent = none) (hadded : i.added = []) (hchild : w.info[child]? = some i)
    (hpc : w.heap[parent]? = some pc) {j : Info β} (hp : Known w parent pc j) :
    Known ⟨w.heap ++ [n], w.info ++ [{ i with parent := some parent }]⟩ w.heap.length n
      { i with parent := some parent } := by
  obtain ⟨hinst, hnames⟩ := hc.root hroot
  have hlt : parent < w.heap.length := (List.getElem?_eq_some_iff.mp hpc).1
  have hi := getElem?_length w.info { i with parent := some parent } h.length
  have hsame : SameBut w.heap.length w.info (w.info ++ [{ i with parent := some parent }]) :=
    h.sameBut fun p hp => Option.some.inj hp ▸ hlt
  have hstatic : n.staticNames = (kept cc pc ++ cc.statics).map Prod.fst := by
    rw [← hderived.layout.map_fst, hderived.statics, map_fst_override, map_fst_override]
  refine ⟨hderived.layout, hderived.super, hc.nodup, hc.new, hc.init, by rintro ⟨⟩, ?_, ?_, ?_,
    fun a ha => absurd (hadded ▸ ha) List.not_mem_nil, fun q hq => ?_, ?_⟩
  · rintro p ⟨⟩
    refine ⟨pc, getElem?_append_some hpc _, hlt, ?_⟩
    rw [hderived.instances, hinst]
  · -- What the child declares is there, and the kept members are all others of the parent.
    intro name
    rw [mem_derived hderived hc.layout hp.layout, hp.names, ← instances_append cc, hinst, hnames]
    constructor
    · rintro (hn | hn)
      · exact .inherited hi rfl (hsame.declared (Nat.ne_of_lt hlt) hn)
      · exact .own hi hn
    · intro hn
      cases hn with
      | own hi' hn =>
        obtain rfl := Option.some.inj (hi.symm.trans hi')
        exact .inr hn
      | inherited hi' hp' hn =>
        obtain rfl := Option.some.inj (hi.symm.trans hi')
        obtain rfl := Option.some.inj hp'
        exact .inl (hsame.symm.declared (Nat.ne_of_lt hlt) hn)
  · intro name hname
    rw [hstatic, List.map_append, hc.layout.map_fst]
    exact List.mem_append_right _ (hc.methods name hname)
  · rw [hderived.statics] at hq
    rcases mem_constructors hq with ⟨hq1, hq2⟩ | ⟨hq1, hq2⟩ | ⟨hq1, hq2, hq⟩
    · refine resolves_of_nil hi hadded (hq1 ▸ hc.new) ?_
      rw [hq2, if_pos hq1]
    · refine resolves_of_nil hi hadded (hq1 ▸ hc.init) ?_
      rw [hq2, if_neg (by rw [hq1]; decide), if_pos hq1]
    rcases List.mem_append.mp hq with hq | hq
    · -- The parent has it, and the child does not declare it.
      obtain ⟨hq, hnot⟩ := hc.layout.mem_kept.mp hq
      rw [← instances_append, hinst, hnames] at hnot
      exact .inherited hi hnot rfl
        (hsame.resolves (Nat.ne_of_lt hlt) (hp.resolved q hq))
    · -- The child declares it, and it has no value yet.
      have hmem : q.1 ∈ i.methods := by
        rw [← hnames, ← hc.layout.map_fst]
        exact List.mem_map_of_mem hq
      refine resolves_of_nil hi hadded hmem ?_
      have hval := hc.resolved q hq
      generalize q.2 = v at hval ⊢
      cases hval with
      | own hi' _ =>
        obtain rfl := Option.some.inj (hchild.symm.trans hi')
        rw [own_of_nil hadded, if_neg hq1, if_neg hq2, if_neg hq1, if_neg hq2]
      | inherited hi' hno _ _ =>
        obtain rfl := Option.some.inj (hchild.symm.trans hi')
        exact absurd (List.mem_append_right _ hmem) hno
  · rw [hderived.flag, hp.flag]
    constructor
    · intro hu
      exact .inherited hi rfl (hsame.userInit (Nat.ne_of_lt hlt) hu)
    · intro hu
      cases hu with
      | own hi' hdef =>
        obtain rfl := Option.some.inj (hi.symm.trans hi')
        exact absurd hdef (not_definesInit_of_nil hadded)
      | inherited hi' hp' hu =>
        obtain rfl := Option.some.inj (hi.symm.trans hi')
        obtain rfl := Option.some.inj hp'
        exact hsame.symm.userInit (Nat.ne_of_lt hlt) hu

/-- **A class is derived.** -/
theorem Inv.derive (h : Inv w) {child parent : Ref} (hok : Proper w (.derive child parent)) :
    Inv (w.exec (.derive child parent)) := by
  have hfail : luaR_inheritclass w.heap child parent = .error .fault →
      Inv (w.exec (.derive child parent)) := fun hf => by
    simp only [World.exec, hf]
    exact h
  cases hcc : w.heap[child]? with
  | none =>
    refine hfail ?_
    rw [luaR_inheritclass, load_none hcc]
    rfl
  | some cc =>
  cases hpc : w.heap[parent]? with
  | none =>
    refine hfail ?_
    rw [luaR_inheritclass, load_eq hcc, load_none hpc]
    rfl
  | some pc =>
  have hltc : child < w.info.length := h.length ▸ (List.getElem?_eq_some_iff.mp hcc).1
  have hltp : parent < w.info.length := h.length ▸ (List.getElem?_eq_some_iff.mp hpc).1
  have hi := List.getElem?_eq_getElem hltc
  have hj := List.getElem?_eq_getElem hltp
  obtain ⟨hroot, hadded⟩ := hok _ hi
  have hc := h.known child cc _ hcc hi
  have hp := h.known parent pc _ hpc hj
  rcases luaR_inheritclass_spec hcc hpc hc.layout hp.layout with ⟨e, he, -⟩ | ⟨n, hn, hderived⟩
  · simp only [World.exec, he]
    exact h
  · simp only [World.exec, hn, hi]
    refine h.append (fun p hp => ?_) (hderived.known h hc hroot hadded hi hpc hp)
    obtain rfl := Option.some.inj hp
    exact (List.getElem?_eq_some_iff.mp hpc).1

/-! ### Members -/

theorem lookup_cons_ne {name k : String} (f : β) (l : List (String × β)) (h : k ≠ name) :
    ((name, f) :: l).lookup k = l.lookup k := by
  rw [List.lookup_cons]
  have hk : (k == name) = false := by simpa using h
  rw [hk]

/-- What is known of a class when one of its static members gets a function. -/
theorem Known.add {w' : World β} (hk : Known w r c i) (hi : w.info[r]? = some i) {name : String}
    {f : β} (hname : name ∈ i.methods) (hnew : name ≠ "new")
    (hi' : w'.info[r]? = some { i with added := (name, f) :: i.added })
    (hsame : SameBut r w.info w'.info)
    (hheap : ∀ (p : Ref) (pc : LuauClass β), w.heap[p]? = some pc →
      ∃ pc' : LuauClass β, w'.heap[p]? = some pc' ∧ pc'.instances = pc.instances)
    {n : LuauClass β} (hlayout : Layout n) (hsuper : n.super = c.super)
    (hinst : n.instances = c.instances)
    (hflag : n.hasuserinitinchain = (c.hasuserinitinchain || name == "__init"))
    (hstatics : n.statics = override name (.function f) c.statics) :
    Known w' r n { i with added := (name, f) :: i.added } := by
  have hnames : n.staticNames = c.staticNames := by
    rw [← hlayout.map_fst, hstatics, map_fst_override, hk.layout.map_fst]
  have hparent : ∀ p, i.parent = some p → p ≠ r := fun p hp e => hsame.leaf _ _ hi (e ▸ hp)
  refine ⟨hlayout, hsuper.trans hk.super, hk.nodup, hk.new, hk.init,
    fun hp => ⟨hinst ▸ (hk.root hp).1, hnames ▸ (hk.root hp).2⟩, ?_, fun m => ?_,
    fun m hm => hnames ▸ hk.methods m hm, ?_, fun q hq => ?_, ?_⟩
  · intro p hp
    obtain ⟨pc, hpc, hplt, hpinst⟩ := hk.parent p hp
    obtain ⟨pc', hpc', hsamei⟩ := hheap p pc hpc
    exact ⟨pc', hpc', hplt, by rw [hinst, hsamei, hpinst]⟩
  · rw [← instances_append, hinst, hnames, instances_append, hk.names]
    constructor
    · intro hm
      cases hm with
      | own hi₀ hm =>
        obtain rfl := Option.some.inj (hi.symm.trans hi₀)
        exact .own hi' hm
      | inherited hi₀ hp hm =>
        obtain rfl := Option.some.inj (hi.symm.trans hi₀)
        exact .inherited hi' hp (hsame.declared (hparent _ hp) hm)
    · intro hm
      cases hm with
      | own hi₀ hm =>
        obtain rfl := Option.some.inj (hi'.symm.trans hi₀)
        exact .own hi hm
      | inherited hi₀ hp hm =>
        obtain rfl := Option.some.inj (hi'.symm.trans hi₀)
        exact .inherited hi hp (hsame.symm.declared (hparent _ hp) hm)
  · intro a ha
    rcases List.mem_cons.mp ha with rfl | ha
    · exact ⟨hname, hnew⟩
    · exact hk.added a ha
  · rw [hstatics] at hq
    rcases mem_override hq with ⟨hq1, hq2⟩ | ⟨hq1, hq⟩
    · -- The member that gets its function.
      have hown : q.2 = Info.own { i with added := (name, f) :: i.added } r q.1 := by
        rw [hq1, hq2, Info.own, List.lookup_cons_self]
      rw [hown]
      exact .own hi' (hq1 ▸ hname)
    · have hval := hk.resolved q hq
      generalize q.2 = v at hval ⊢
      cases hval with
      | own hi₀ hmem =>
        obtain rfl := Option.some.inj (hi.symm.trans hi₀)
        have hown : i.own r q.1 = Info.own { i with added := (name, f) :: i.added } r q.1 := by
          rw [Info.own, Info.own, lookup_cons_ne f i.added hq1]
        rw [hown]
        exact .own hi' hmem
      | inherited hi₀ hmem hp hv =>
        obtain rfl := Option.some.inj (hi.symm.trans hi₀)
        exact .inherited hi' hmem hp (hsame.resolves (hparent _ hp) hv)
  · rw [hflag, Bool.or_eq_true, beq_iff_eq, hk.flag]
    constructor
    · rintro (hu | rfl)
      · cases hu with
        | own hi₀ hdef =>
          obtain rfl := Option.some.inj (hi.symm.trans hi₀)
          exact .own hi' (List.mem_cons_of_mem _ hdef)
        | inherited hi₀ hp hu =>
          obtain rfl := Option.some.inj (hi.symm.trans hi₀)
          exact .inherited hi' hp (hsame.userInit (hparent _ hp) hu)
      · exact .own hi' List.mem_cons_self
    · intro hu
      cases hu with
      | own hi₀ hdef =>
        obtain rfl := Option.some.inj (hi'.symm.trans hi₀)
        rcases List.mem_cons.mp hdef with hd | hd
        · exact .inr hd.symm
        · exact .inl (.own hi hd)
      | inherited hi₀ hp hu =>
        obtain rfl := Option.some.inj (hi'.symm.trans hi₀)
        exact .inl (.inherited hi hp (hsame.symm.userInit (hparent _ hp) hu))

/-- **A member gets its function.** -/
theorem Inv.add (h : Inv w) {r : Ref} {name : String} {f : β} (hok : Proper w (.add r name f)) :
    Inv (w.exec (.add r name f)) := by
  obtain ⟨⟨i, hi, hname⟩, hnew, hleaf⟩ := hok
  have hlt : r < w.heap.length := h.length ▸ (List.getElem?_eq_some_iff.mp hi).1
  obtain ⟨c, hc⟩ : ∃ c, w.heap[r]? = some c := ⟨_, List.getElem?_eq_getElem hlt⟩
  have hk := h.known r c i hc hi
  obtain ⟨n, hn, hlayout, hsuper, hinst, hflag, hstatics⟩ :=
    luaR_addclassmember_spec hc hk.layout (hk.methods name hname) f
  simp only [World.exec, hn]
  -- The declarations of the others, and their parents, are the same.
  have hget : ∀ k : Ref, (w.info.modify r fun i => { i with added := (name, f) :: i.added })[k]? =
      if k = r then some { i with added := (name, f) :: i.added } else w.info[k]? := by
    intro k
    rw [List.getElem?_modify]
    by_cases hkr : k = r
    · subst hkr
      rw [if_pos rfl, hi]
      simp
    · rw [if_neg hkr]
      simp [Ne.symm hkr]
  have hno : ∀ (k : Ref) (j : Info β), w.info[k]? = some j → j.parent ≠ some r :=
    fun k j hj => hleaf j (List.mem_of_getElem? hj)
  have hsame : SameBut r w.info (w.info.modify r fun i => { i with added := (name, f) :: i.added }) := by
    refine ⟨fun k hkr => by rw [hget, if_neg hkr], hno, fun k j hj => ?_⟩
    rw [hget] at hj
    split_ifs at hj with hkr
    · obtain rfl := Option.some.inj hj
      exact hno r i hi
    · exact hno k j hj
  have hheap : ∀ (p : Ref) (pc : LuauClass β), w.heap[p]? = some pc →
      ∃ pc' : LuauClass β, (w.heap.set r n)[p]? = some pc' ∧ pc'.instances = pc.instances := by
    intro p pc hpc
    by_cases hpr : p = r
    · subst hpr
      refine ⟨n, List.getElem?_set_self hlt, ?_⟩
      rw [hinst, Option.some.inj (hc.symm.trans hpc)]
    · exact ⟨pc, by rw [List.getElem?_set_ne (Ne.symm hpr)]; exact hpc, rfl⟩
  refine ⟨by simp [h.length], fun k c' i' hc' hi' => ?_⟩
  by_cases hkr : k = r
  · subst hkr
    rw [List.getElem?_set_self hlt, Option.some.injEq] at hc'
    have hi'' := hi'
    rw [hget, if_pos rfl, Option.some.injEq] at hi'
    subst hc' hi'
    exact hk.add hi hname hnew hi'' hsame hheap hlayout hsuper hinst hflag hstatics
  · rw [List.getElem?_set_ne (Ne.symm hkr)] at hc'
    rw [hget, if_neg hkr] at hi'
    exact (h.known k c' i' hc' hi').congr hkr hsame hheap

/-- It does not matter whether a declaration is open. -/
theorem Known.congr_isopen (h : Known w r c i) (w' : World β) (hinfo : w'.info = w.info)
    (hheap : ∀ (p : Ref) (pc : LuauClass β), w.heap[p]? = some pc →
      ∃ pc' : LuauClass β, w'.heap[p]? = some pc' ∧ pc'.instances = pc.instances) (b : Bool) :
    Known w' r { c with isopen := b } i where
  layout := ⟨h.layout.table, h.layout.nodup, h.layout.length, h.layout.statics, h.layout.new,
    h.layout.init⟩
  super := h.super
  nodup := h.nodup
  new := h.new
  init := h.init
  root := h.root
  parent p hp := by
    obtain ⟨pc, hpc, hlt, hinst⟩ := h.parent p hp
    obtain ⟨pc', hpc', hsame⟩ := hheap p pc hpc
    exact ⟨pc', hpc', hlt, hsame ▸ hinst⟩
  names := hinfo ▸ h.names
  methods := h.methods
  added := h.added
  resolved := hinfo ▸ h.resolved
  flag := hinfo ▸ h.flag

/-- **A declaration is made open.** -/
theorem Inv.setOpen (h : Inv w) (r : Ref) (isopen : Bool) : Inv (w.exec (.setOpen r isopen)) := by
  have hget : ∀ (k : Ref) (c : LuauClass β), w.heap[k]? = some c →
      (w.heap.modify r fun c => { c with isopen })[k]? =
        some { c with isopen := if r = k then isopen else c.isopen } := by
    intro k c hc
    rw [List.getElem?_modify, hc]
    by_cases hkr : r = k
    · simp [hkr]
    · simp [hkr]
  refine ⟨by simp [World.exec, h.length], fun k c' i hc' hi => ?_⟩
  have hk : k < w.heap.length := h.length ▸ (List.getElem?_eq_some_iff.mp hi).1
  have hc := List.getElem?_eq_getElem hk
  obtain rfl := Option.some.inj ((hget k _ hc).symm.trans hc')
  exact (h.known k _ i hc hi).congr_isopen (w.exec (.setOpen r isopen)) rfl
    (fun p pc hpc => ⟨_, hget p pc hpc, rfl⟩) _

/-- **Every object is known**, whatever the program does. -/
theorem inv_of_reach (h : (classes β).Reach Proper w) : Inv w := by
  refine h.invariant (I := Inv) ?_ ?_
  · rintro w rfl
    exact ⟨rfl, fun r c i hc => by cases hc⟩
  · intro w op hw _ hok
    cases op with
    | load name properties methods => exact hw.load name hok
    | setOpen r isopen => exact hw.setOpen r isopen
    | derive child parent => exact hw.derive hok
    | add r name f => exact hw.add hok

end Chains

end Class

end Jaci
