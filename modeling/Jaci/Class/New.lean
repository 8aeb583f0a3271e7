import Jaci.Class.Chains

/-!
# What a chain of classes guarantees

* `LaidOut` : what compiled code relies on in a class object;
* `callNew_eq_mustDefine_iff` : when `new` asks for a constructor;
* `classes_laid_out` : **every class that is made is laid out**, and deriving changes no other.
-/

namespace Jaci

namespace Class

variable {β : Type}

/-- What holds of the class object `c` at `r`, which is declared by `i`. -/
structure LaidOut (w : World β) (r : Ref) (c : LuauClass β) (i : Info β) : Prop where
  /-- The table and the array of names are inverse to each other. -/
  bijection : ∀ name offset,
    c.memberstooffset name = some offset ↔ c.offsettomember[offset]? = some name
  /-- The offsets are those below the number of all members. -/
  length : c.offsettomember.length = c.numberofallmembers
  /-- The members are those that the classes of the chain declare. -/
  names : ∀ name, (c.memberstooffset name).isSome ↔ Declared w.info r name
  /-- The instance members of the parent come first, at the offsets that they have there. -/
  parent : ∀ p, c.super = some p → ∃ pc, w.heap[p]? = some pc ∧
    pc.numberofinstancemembers ≤ c.numberofinstancemembers ∧
    ∀ name offset, offset < pc.numberofinstancemembers →
      (c.memberstooffset name = some offset ↔ pc.memberstooffset name = some offset)
  /-- The class extends what it is declared to extend. -/
  super : c.super = i.parent
  /-- The offset of a static member is within the array of values, and its value is that of the
  nearest class that defines it. -/
  statics : ∀ name offset, c.memberstooffset name = some offset →
    c.numberofinstancemembers ≤ offset →
    ∃ v, c.staticmembers[offset - c.numberofinstancemembers]? = some v ∧ Resolves w.info r name v
  /-- The constructors are static members, which are its own. -/
  constructors : ∀ name, name = "new" ∨ name = "__init" → ∃ offset,
    c.memberstooffset name = some offset ∧ c.numberofinstancemembers ≤ offset ∧
    c.staticmembers[offset - c.numberofinstancemembers]? = some (i.own r name)

section New

variable {w : World β} {r : Ref} {c : LuauClass β} {i : Info β}

/-! ### Static members -/

/-- The value that is found at the offset of a static member. -/
theorem Layout.value_static (h : Layout c) {name : String} (hname : name ∈ c.staticNames) :
    ∃ v, c.staticmembers[c.staticNames.idxOf name]? = some v ∧ (name, v) ∈ c.statics := by
  have hlt := (h.staticOffset hname).2
  refine ⟨c.staticmembers[c.staticNames.idxOf name], List.getElem?_eq_getElem hlt, ?_⟩
  have hidx : c.staticNames.idxOf name < c.staticNames.length := List.idxOf_lt_length_of_mem hname
  have hzip : c.statics[c.staticNames.idxOf name]? =
      some (c.staticNames[c.staticNames.idxOf name], c.staticmembers[c.staticNames.idxOf name]) := by
    rw [LuauClass.statics, List.getElem?_eq_getElem (by rw [List.length_zip]; omega),
      List.getElem_zip]
  rw [List.getElem_idxOf] at hzip
  exact List.mem_of_getElem? hzip

/-- The value of a member that the class declares is its own. -/
theorem Resolves.eq_own {name : String} {v : Static β} (h : Resolves w.info r name v)
    (hi : w.info[r]? = some i) (hname : name ∈ i.methods) : v = i.own r name := by
  cases h with
  | own hi' _ =>
    obtain rfl := Option.some.inj (hi.symm.trans hi')
    rfl
  | inherited hi' hno _ _ =>
    obtain rfl := Option.some.inj (hi.symm.trans hi')
    exact absurd (List.mem_append_right _ hname) hno

/-- The value of a static member that the class declares. -/
theorem Known.value_own (h : Known w r c i) (hi : w.info[r]? = some i) {name : String}
    (hname : name ∈ i.methods) :
    c.staticmembers[c.staticNames.idxOf name]? = some (i.own r name) := by
  obtain ⟨v, hv, hmem⟩ := h.layout.value_static (h.methods name hname)
  have hown : v = i.own r name := (h.resolved _ hmem).eq_own hi hname
  rw [hv, hown]

/-- What `new` and the constructor read. -/
theorem Known.load_own (h : Known w r c i) (hi : w.info[r]? = some i) {name : String}
    (hname : name ∈ i.methods) :
    (c.staticOffset name >>= load c.staticmembers) = .ok (i.own r name) := by
  rw [(h.layout.staticOffset (h.methods name hname)).1]
  exact load_eq (h.value_own hi hname)

/-! ### Constructors -/

theorem lookup_eq_none {l : List (String × β)} {name : String} :
    l.lookup name = none ↔ name ∉ l.map Prod.fst := by
  rw [List.lookup_eq_none_iff, List.mem_map]
  constructor
  · rintro hall ⟨a, ha, rfl⟩
    simpa using hall a ha
  · intro hno a ha
    simpa using fun e => hno ⟨a, ha, e.symm⟩

/-- `new` is always the one of the class. -/
theorem Known.own_new (h : Known w r c i) : i.own r "new" = .constructor r := by
  have hnone : i.added.lookup "new" = none := by
    rw [lookup_eq_none]
    intro hm
    obtain ⟨a, ha, heq⟩ := List.mem_map.mp hm
    exact (h.added a ha).2 heq
  rw [Info.own, hnone]
  rfl

/-- `__init` is a function if the class defines one, and the default otherwise. -/
theorem own_init (i : Info β) (r : Ref) :
    (i.DefinesInit ∧ ∃ f, i.own r "__init" = .function f) ∨
      ¬ i.DefinesInit ∧ i.own r "__init" = .defaultCtor r := by
  cases hl : i.added.lookup "__init" with
  | some f =>
    refine .inl ⟨?_, f, by rw [Info.own, hl]⟩
    by_contra hno
    rw [lookup_eq_none.mpr hno] at hl
    cases hl
  | none => exact .inr ⟨lookup_eq_none.mp hl, by rw [Info.own, hl]; rfl⟩

/-- The default constructor asks for a constructor if and only if the flag is set. -/
theorem luaR_defaultcreateobject_eq_mustDefine_iff {gettable} {h : Heap β} (hc : h[r]? = some c)
    {members args : List (Option β)} {name : String} :
    luaR_defaultcreateobject gettable h r ⟨r, members⟩ args = .error (.mustDefine name) ↔
      name = c.name ∧ c.hasuserinitinchain = true := by
  simp only [luaR_defaultcreateobject, hc]
  cases c.hasuserinitinchain with
  | true =>
    rw [if_pos rfl]
    simp [eq_comm]
  | false =>
    rw [if_neg Bool.false_ne_true]
    refine iff_of_false ?_ (by simp)
    -- Its other errors are different ones.
    split
    · rw [if_neg (not_not.mpr rfl)]
      split <;> simp
    · simp

/-- A class that does not define `__init` has a parent that does, if any class of the chain does. -/
theorem Known.flag_iff (h : Known w r c i) (hi : w.info[r]? = some i) (hdef : ¬ i.DefinesInit) :
    c.hasuserinitinchain = true ↔ ∃ p, c.super = some p ∧ UserInit w.info p := by
  rw [h.flag, h.super]
  constructor
  · intro hu
    cases hu with
    | own hi' hd =>
      obtain rfl := Option.some.inj (hi.symm.trans hi')
      exact absurd hd hdef
    | inherited hi' hp hu =>
      obtain rfl := Option.some.inj (hi.symm.trans hi')
      exact ⟨_, hp, hu⟩
  · rintro ⟨p, hp, hu⟩
    exact .inherited hi hp hu

/-- **When `new` asks for a constructor:** the class does not define `__init`, and an ancestor
does. -/
theorem callNew_eq_mustDefine_iff (h : Known w r c i) (hc : w.heap[r]? = some c)
    (hi : w.info[r]? = some i) (gettable : Option β → String → Except String (Option β))
    (args : List (Option β)) (name : String) :
    callNew gettable w.heap r args = .error (.mustDefine name) ↔
      name = c.name ∧ ¬ i.DefinesInit ∧ ∃ p, c.super = some p ∧ UserInit w.info p := by
  have hcall : callNew gettable w.heap r args = luaR_constructobject gettable w.heap r args := by
    simp only [callNew, load_eq hc, h.load_own hi h.new, h.own_new]
  rw [hcall]
  simp only [luaR_constructobject, load_eq hc, h.load_own hi h.init]
  rcases own_init i r with ⟨hdef, f, hf⟩ | ⟨hdef, hf⟩
  · rw [hf]
    simp [hdef]
  · rw [hf]
    simp only [luaR_defaultcreateobject_eq_mustDefine_iff hc, h.flag_iff hi hdef]
    simp only [hdef, not_false_eq_true, true_and]

/-! ### Classes -/

/-- What is known of a class is what compiled code relies on. -/
theorem Known.laidOut (h : Known w r c i) (hinv : Inv w) (hi : w.info[r]? = some i) :
    LaidOut w r c i where
  bijection name offset := by
    rw [h.layout.table]
    exact tableOf_eq_some h.layout.nodup
  length := h.layout.length
  names name := by
    rw [← h.names, h.layout.table, ← Option.ne_none_iff_isSome, Ne, tableOf_eq_none, not_not]
  super := h.super
  parent p hp := by
    obtain ⟨pc, hpc, -, hinst⟩ := h.parent p (h.super ▸ hp)
    have hlt : p < w.info.length := hinv.length ▸ (List.getElem?_eq_some_iff.mp hpc).1
    have hplayout := (hinv.known p pc _ hpc (List.getElem?_eq_getElem hlt)).layout
    have hlen := h.layout.length_instances
    rw [hinst, List.length_append, hplayout.length_instances] at hlen
    refine ⟨pc, hpc, by omega, fun name offset hoffset => ?_⟩
    -- Both arrays start with the instance members of the parent.
    have hprefix : ∀ d : LuauClass β, ∀ l, d.offsettomember = pc.instances ++ l →
        d.offsettomember[offset]? = pc.instances[offset]? := by
      intro d l hd
      rw [hd, List.getElem?_append_left (by rw [hplayout.length_instances]; exact hoffset)]
    rw [h.layout.table, hplayout.table, tableOf_eq_some h.layout.nodup,
      tableOf_eq_some hplayout.nodup, hprefix pc pc.staticNames (instances_append pc).symm,
      hprefix c (i.properties ++ c.staticNames)]
    rw [← List.append_assoc, ← hinst, instances_append]
  statics name offset hname hoffset := by
    have hmem : name ∈ c.staticNames := by
      rw [h.layout.table, tableOf_eq_some h.layout.nodup] at hname
      refine List.mem_of_getElem? (i := offset - c.numberofinstancemembers) ?_
      rw [LuauClass.staticNames, List.getElem?_drop, Nat.add_sub_cancel' hoffset]
      exact hname
    obtain rfl := Option.some.inj ((h.layout.offset_static hmem).symm.trans hname)
    rw [Nat.add_sub_cancel_left]
    obtain ⟨v, hv, hstatic⟩ := h.layout.value_static hmem
    exact ⟨v, hv, h.resolved _ hstatic⟩
  constructors name hname := by
    have hmem : name ∈ i.methods := by
      rcases hname with rfl | rfl
      · exact h.new
      · exact h.init
    refine ⟨_, h.layout.offset_static (h.methods name hmem), Nat.le_add_right _ _, ?_⟩
    rw [Nat.add_sub_cancel_left]
    exact h.value_own hi hmem

/-- Deriving makes a class after all others, which stay as they are, or fails. -/
theorem Inv.inheritclass (h : Inv w) {child parent : Ref} (hchild : child < w.heap.length)
    (hparent : parent < w.heap.length) :
    (∃ e, luaR_inheritclass w.heap child parent = .error e ∧ e ≠ .fault) ∨
      ∃ n, luaR_inheritclass w.heap child parent = .ok (w.heap.length, w.heap ++ [n]) := by
  have hc := List.getElem?_eq_getElem hchild
  have hp := List.getElem?_eq_getElem hparent
  have hlayout : ∀ (k : Ref) (d : LuauClass β), w.heap[k]? = some d → Layout d := by
    intro k d hd
    have hk : k < w.info.length := h.length ▸ (List.getElem?_eq_some_iff.mp hd).1
    exact (h.known k d _ hd (List.getElem?_eq_getElem hk)).layout
  rcases luaR_inheritclass_spec hc hp (hlayout _ _ hc) (hlayout _ _ hp) with he | ⟨n, hn, -⟩
  · exact .inl he
  · exact .inr ⟨n, hn⟩

/-- **Every class that is made is laid out**: its offsets are those of its members, with those of
the parent first, its static members have the values of the nearest class that defines them, and
`new` asks for a constructor if and only if an ancestor defines one and the class does not.
Deriving changes neither the child nor the parent. -/
theorem classes_laid_out (h : (classes β).Reach Proper w) :
    (∀ r c i, w.heap[r]? = some c → w.info[r]? = some i → LaidOut w r c i ∧
      ∀ gettable args name, callNew gettable w.heap r args = .error (.mustDefine name) ↔
        name = c.name ∧ ¬ i.DefinesInit ∧ ∃ p, c.super = some p ∧ UserInit w.info p) ∧
    w.heap.length = w.info.length ∧
    ∀ child parent, child < w.heap.length → parent < w.heap.length →
      (∃ e, luaR_inheritclass w.heap child parent = .error e ∧ e ≠ .fault) ∨
        ∃ n, luaR_inheritclass w.heap child parent = .ok (w.heap.length, w.heap ++ [n]) := by
  have hinv := inv_of_reach h
  refine ⟨fun r c i hc hi => ?_, hinv.length, fun _ _ => hinv.inheritclass⟩
  have hk := hinv.known r c i hc hi
  exact ⟨hk.laidOut hinv hi, fun gettable args name =>
    callNew_eq_mustDefine_iff hk hc hi gettable args name⟩

/-- A class with a constructor, and a class derived from it without one. -/
def derivedRun : List (Op ℕ) :=
  [.load "A" ["x"] ["new", "__init", "f"], .add 0 "__init" 1, .add 0 "f" 2, .setOpen 0 true,
    .load "B" ["y"] ["new", "__init", "g"], .derive 1 0, .add 2 "g" 3]

/-- The objects at the end of the run. -/
def derivedWorld : World ℕ := derivedRun.foldl (classes ℕ).exec ⟨[], []⟩

theorem derivedWorld_reach : (classes ℕ).Reach Proper derivedWorld := by
  refine Machine.Reach.run (l := derivedRun) (.init rfl) ?_
  refine ⟨trivial, ⟨by decide, by decide, by decide⟩, trivial, ⟨⟨_, rfl, by decide⟩, by decide, ?_⟩,
    trivial, ⟨⟨_, rfl, by decide⟩, by decide, ?_⟩, trivial, trivial, trivial,
    ⟨by decide, by decide, by decide⟩, trivial, ?_, trivial, ⟨⟨_, rfl, by decide⟩, by decide, ?_⟩,
    trivial⟩
  · decide
  · decide
  · intro i hi
    obtain rfl := Option.some.inj hi
    exact ⟨rfl, rfl⟩
  · decide

/-- The derived class must define a constructor. -/
theorem derivedWorld_laid_out : ∃ c i, derivedWorld.heap[2]? = some c ∧
    derivedWorld.info[2]? = some i ∧ LaidOut derivedWorld 2 c i ∧
    callNew (fun _ _ => .ok none) derivedWorld.heap 2 [] = .error (.mustDefine "B") := by
  obtain ⟨c, hc⟩ : ∃ c, derivedWorld.heap[2]? = some c :=
    ⟨_, List.getElem?_eq_getElem (by decide)⟩
  have hname : derivedWorld.heap[2]?.map (·.name) = some "B" := by decide
  have hsuper : derivedWorld.heap[2]?.map (·.super) = some (some 0) := by decide
  rw [hc, Option.map_some, Option.some.injEq] at hname hsuper
  have hi : derivedWorld.info[2]? = some ⟨["y"], ["new", "__init", "g"], some 0, [("g", 3)]⟩ := rfl
  have hA : derivedWorld.info[0]? =
      some ⟨["x"], ["new", "__init", "f"], none, [("f", 2), ("__init", 1)]⟩ := rfl
  obtain ⟨hlaid, hcall⟩ := (classes_laid_out derivedWorld_reach).1 2 c _ hc hi
  refine ⟨c, _, hc, hi, hlaid, (hcall _ _ _).mpr ⟨hname.symm, ?_, 0, hsuper, .own hA ?_⟩⟩
  · unfold Info.DefinesInit
    decide
  · unfold Info.DefinesInit
    decide

end New

end Class

end Jaci
