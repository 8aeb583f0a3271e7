import Jaci.Dense.Table

/-!
# Dense maps and sets

`DenseHashMap2` and `DenseHashSet2` are dense tables of pairs and of keys.  A program has any number
of them, and inserts, erases, copies, moves and swaps.  To each belongs a finite map from the classes
of equal keys, which is what it means.

* `Refines` : a table and its map;
* `access_spec`, `store_spec` : a key is looked up or put, and a value is stored for it;
* `denseHash2_refines` : after any sequence of operations every table answers as its map does.
-/

namespace Jaci

namespace Dense

open Classical in
/-- A value for a key in a finite map. -/
noncomputable def put {Q V : Type} (m : Q → Option V) (q : Q) (v : Option V) : Q → Option V :=
  Function.update m q v

section

variable {Q V : Type} {m : Q → Option V} {q q' : Q} {v : Option V}

@[simp] theorem put_self : put m q v q = v := by simp [put]

theorem put_of_ne (h : q' ≠ q) : put m q v q' = m q' := by simp [put, h]

end

def Hashing.setoid {K : Type} (H : Hashing K) : Setoid K := ⟨fun a b => H.eq a b, H.equivalence⟩

/-- The classes of equal keys. -/
abbrev Hashing.Class {K : Type} (H : Hashing K) : Type := Quotient H.setoid

def Hashing.cls {K : Type} (H : Hashing K) (key : K) : H.Class := Quotient.mk H.setoid key

variable {K V Item : Type} {H : Hashing K} {I : ItemInterface K V Item}

theorem Hashing.cls_eq {a b : K} : H.cls a = H.cls b ↔ H.eq a b := Quotient.eq (r := H.setoid)

/-! ### Operations -/

namespace DenseHashTable2

section

variable (H I)

/-- `rehash_if_full` and `insert_unsafe`, with the bucket of the item. -/
def access (t : DenseHashTable2 Item) (key : K) : Option (DenseHashTable2 Item × ℕ) :=
  (t.rehashIfFull H I key).bind fun t => t.insertUnsafe H I key

/-- A value is stored in an item. -/
def store (t : DenseHashTable2 Item) (bucket : ℕ) (v : V) : Option (DenseHashTable2 Item) :=
  (t.data bucket).map fun item =>
    { t with data := Function.update t.data bucket (some (I.setValue item v)) }

def valueAt (t : DenseHashTable2 Item) (bucket : ℕ) : Option V := (t.data bucket).map I.value

/-- An item is put, and its value is stored if it is new. -/
def accessFresh (t : DenseHashTable2 Item) (key : K) (v : V) :
    Option (DenseHashTable2 Item × ℕ × Bool) :=
  (t.rehashIfFull H I key).bind fun t =>
    let before := t.size
    (t.insertUnsafe H I key).bind fun (t, slot) =>
      let fresh := decide (before < t.size)
      if fresh then (t.store I slot v).map fun t => (t, slot, fresh) else some (t, slot, fresh)

end

end DenseHashTable2

def itemInterfaceMap2 (K V : Type) [Inhabited V] : ItemInterface K V (K × V) where
  getKey item := item.1
  setKey key := (key, default)
  value item := item.2
  setValue item v := (item.1, v)
  getKey_setKey _ := rfl
  getKey_setValue _ _ := rfl
  value_setValue _ _ := rfl

def itemInterfaceSet2 (K : Type) : ItemInterface K Unit K where
  getKey item := item
  setKey key := key
  value _ := ()
  setValue item _ := item
  getKey_setKey _ := rfl
  getKey_setValue _ _ := rfl
  value_setValue _ _ := rfl

abbrev DenseHashMap2 (K V : Type) := DenseHashTable2 (K × V)

abbrev DenseHashSet2 (K : Type) := DenseHashTable2 K

namespace DenseHashMap2

variable (H) [Inhabited V]

/-- `operator[]`, with the bucket of the value. -/
def index (t : DenseHashMap2 K V) (key : K) : Option (DenseHashMap2 K V × ℕ) :=
  t.access H (itemInterfaceMap2 K V) key

def find (t : DenseHashMap2 K V) (key : K) : Option (Option V) :=
  (DenseHashTable2.find H (itemInterfaceMap2 K V) t key).map fun item => item.map (·.2)

def contains (t : DenseHashMap2 K V) (key : K) : Option Bool :=
  (DenseHashTable2.find H (itemInterfaceMap2 K V) t key).map (·.isSome)

def erase (t : DenseHashMap2 K V) (key : K) : Option (DenseHashMap2 K V) :=
  DenseHashTable2.erase H (itemInterfaceMap2 K V) t key

/-- `try_insert`, with the bucket of the value. -/
def tryInsert (t : DenseHashMap2 K V) (key : K) (value : V) :
    Option (DenseHashMap2 K V × ℕ × Bool) := t.accessFresh H (itemInterfaceMap2 K V) key value

end DenseHashMap2

namespace DenseHashSet2

variable (H)

/-- `insert`, with the bucket of the key. -/
def insert (t : DenseHashSet2 K) (key : K) : Option (DenseHashSet2 K × ℕ) :=
  t.access H (itemInterfaceSet2 K) key

def tryInsert (t : DenseHashSet2 K) (key : K) : Option (DenseHashSet2 K × Bool) :=
  let oldSize := t.size
  (insert H t key).map fun (t, _) => (t, t.size != oldSize)

def contains (t : DenseHashSet2 K) (key : K) : Option Bool :=
  (DenseHashTable2.find H (itemInterfaceSet2 K) t key).map (·.isSome)

def erase (t : DenseHashSet2 K) (key : K) : Option (DenseHashSet2 K) :=
  DenseHashTable2.erase H (itemInterfaceSet2 K) t key

end DenseHashSet2

/-! ### A table and its map -/

/-- The table has the item. -/
def Holds (t : DenseHashTable2 Item) (x : Item) : Prop := ∃ b, t.slot b = some x

/-- The table has an item for each key of the map, with its value. -/
structure Refines (H : Hashing K) (I : ItemInterface K V Item) (t : DenseHashTable2 Item)
    (m : H.Class → Option V) : Prop where
  inv : t.Inv H I
  content : ∀ q v, m q = some v ↔ ∃ x, Holds t x ∧ H.cls (I.getKey x) = q ∧ I.value x = v

section

variable {t t' : DenseHashTable2 Item} {m : H.Class → Option V} {key : K} {x y : Item} {b : ℕ}

theorem full_of_holds (h : t.Inv H I) (hx : Holds t x) : t.Full H I := by
  obtain ⟨b, hb⟩ := hx
  refine h.resolve_left fun h1 => ?_
  rw [DenseHashTable2.slot, h1.2.2 b, if_neg (by simp)] at hb
  cases hb

theorem eq_of_holds (h : t.Inv H I) (hx : Holds t x) (hy : Holds t y)
    (heq : H.eq (I.getKey x) (I.getKey y)) : x = y := by
  have hfull := full_of_holds h hx
  obtain ⟨a, ha⟩ := hx
  obtain ⟨b, hb⟩ := hy
  have hab := hfull.unique a b x y ha hb heq
  rw [hab, hb] at ha
  exact (Option.some.inj ha).symm

theorem Refines.some_of_holds (h : Refines H I t m) (hx : Holds t x)
    (hkey : H.eq (I.getKey x) key) : m (H.cls key) = some (I.value x) :=
  (h.content _ _).2 ⟨x, hx, Hashing.cls_eq.2 hkey, rfl⟩

theorem Refines.none_of_absent (h : Refines H I t m)
    (hx : ∀ x, Holds t x → H.eq (I.getKey x) key = false) : m (H.cls key) = none := by
  cases hm : m (H.cls key) with
  | none => rfl
  | some v =>
    obtain ⟨x, hx', hcls, -⟩ := (h.content _ _).1 hm
    have := hx x hx'
    rw [Hashing.cls_eq.1 hcls] at this
    cases this

theorem Refines.empty : Refines H I {} fun _ => none := by
  refine ⟨.inl ⟨rfl, rfl, fun b => BitSet.contains_default⟩, fun q v => iff_of_false (by simp) ?_⟩
  rintro ⟨x, ⟨b, hb⟩, -⟩
  rw [DenseHashTable2.slot] at hb
  simp at hb

theorem Refines.none (h : t.Inv H I) (hnone : ∀ b, t.slot b = Option.none) :
    Refines H I t fun _ => Option.none := by
  refine ⟨h, fun q v => iff_of_false (by simp) ?_⟩
  rintro ⟨x, ⟨b, hb⟩, -⟩
  rw [hnone] at hb
  cases hb

theorem Refines.ofBuckets (k : Option ℕ) :
    Refines H I (DenseHashTable2.ofBuckets (k.elim 0 (2 ^ ·))) fun _ => Option.none := by
  cases k with
  | none => exact .empty
  | some k =>
    have h := DenseHashTable2.full_ofBuckets (H := H) (I := I) k
    exact .none (.inr h) (h.not_slot (DenseHashTable2.count_ofBuckets _))

/-- Tables with the same items have the same map. -/
theorem Refines.congr (h : Refines H I t m) (hinv : t'.Inv H I)
    (hitems : ∀ x, Holds t' x ↔ Holds t x) : Refines H I t' m :=
  ⟨hinv, fun q v => by simp only [h.content, hitems]⟩

theorem Refines.copy (h : Refines H I t m) : Refines H I t.copy m := by
  obtain ⟨hinv, hslot⟩ := DenseHashTable2.copy_spec h.inv
  exact h.congr hinv fun x => by rw [Holds, Holds, hslot]

/-- An item takes the place of those with its key. -/
theorem Refines.put (h : Refines H I t m) (hinv : t'.Inv H I) (hy : Holds t' y)
    (hkey : H.eq (I.getKey y) key)
    (hitems : ∀ x, H.eq (I.getKey x) key = false → (Holds t' x ↔ Holds t x)) :
    Refines H I t' (put m (H.cls key) (some (I.value y))) := by
  refine ⟨hinv, fun q v => ?_⟩
  by_cases hq : q = H.cls key
  · subst hq
    rw [put_self, Option.some.injEq]
    constructor
    · rintro rfl
      exact ⟨y, hy, Hashing.cls_eq.2 hkey, rfl⟩
    · rintro ⟨x, hx, hcls, rfl⟩
      rw [eq_of_holds hinv hy hx (H.equivalence.trans hkey
        (H.equivalence.symm (Hashing.cls_eq.1 hcls)))]
  · rw [put_of_ne hq, h.content]
    refine exists_congr fun x => ?_
    constructor <;>
    · rintro ⟨hx, rfl, hv⟩
      have hne : H.eq (I.getKey x) key = false := by
        cases heq : H.eq (I.getKey x) key with
        | false => rfl
        | true => exact absurd (Hashing.cls_eq.2 heq) hq
      first
      | exact ⟨(hitems x hne).2 hx, rfl, hv⟩
      | exact ⟨(hitems x hne).1 hx, rfl, hv⟩

/-- The key is looked up, or put with the default value. -/
theorem access_spec (h : Refines H I t m) (key : K) :
    ∃ t₁ t' b x, t.rehashIfFull H I key = some t₁ ∧ t₁.insertUnsafe H I key = some (t', b) ∧
      t₁.count = t.count ∧ t'.Full H I ∧ t'.slot b = some x ∧ H.eq (I.getKey x) key ∧
      Refines H I t' (put m (H.cls key) (some (I.value x))) ∧
      I.value x = (m (H.cls key)).getD (I.value (I.setKey key)) ∧
      t'.count = if (m (H.cls key)).isSome then t.count else t.count + 1 := by
  obtain ⟨t₁, hrehash, hfull₁, hcount, hroom, hitems⟩ := DenseHashTable2.rehashIfFull_spec h.inv key
  have h₁ : Refines H I t₁ m := h.congr (.inr hfull₁) hitems
  obtain ⟨t', b, x, hins, hfull', hslot, hkey, hcases⟩ :=
    DenseHashTable2.insertUnsafe_spec hfull₁ key hroom
  refine ⟨t₁, t', b, x, hrehash, hins, hcount, hfull', hslot, hkey, ?_⟩
  rcases hcases with rfl | ⟨rfl, hfree, hcount', hslot', habsent⟩
  · have hm := h₁.some_of_holds ⟨b, hslot⟩ hkey
    refine ⟨h₁.put (.inr hfull') ⟨b, hslot⟩ hkey fun y _ => .rfl, ?_, ?_⟩
    · rw [hm, Option.getD_some]
    · rw [hm, Option.isSome_some, if_pos rfl, hcount]
  · have hm := h₁.none_of_absent fun y ⟨c, hc⟩ => habsent c y hc
    refine ⟨h₁.put (.inr hfull') ⟨b, hslot⟩ hkey fun y hy => ?_, ?_, ?_⟩
    · rw [Holds, Holds, hslot']
      constructor
      · rintro ⟨c, hc⟩
        by_cases hcb : c = b
        · rw [hcb, Function.update_self] at hc
          rw [← Option.some.inj hc, hkey] at hy
          cases hy
        · rw [Function.update_of_ne hcb] at hc
          exact ⟨c, hc⟩
      · rintro ⟨c, hc⟩
        refine ⟨c, ?_⟩
        rwa [Function.update_of_ne]
        rintro rfl
        rw [hfree] at hc
        cases hc
    · rw [hm, Option.getD_none]
    · rw [hm, hcount', hcount]
      simp

/-- A value is stored. -/
theorem store_spec (h : Refines H I t m) (hx : t.slot b = some x) (v : V) :
    ∃ t', t.store I b v = some t' ∧ t'.slot b = some (I.setValue x v) ∧
      Refines H I t' (put m (H.cls (I.getKey x)) (some v)) := by
  have hfull := full_of_holds h.inv ⟨b, hx⟩
  have hc : t.usedTable.contains b := by
    rw [DenseHashTable2.slot] at hx
    split_ifs at hx with hc
    exact hc
  have hdata : t.data b = some x := by
    rw [DenseHashTable2.slot, if_pos hc] at hx
    exact hx
  have hslot : DenseHashTable2.slot { t with
      data := Function.update t.data b (some (I.setValue x v)) } =
      Function.update t.slot b (some (I.setValue x v)) := by
    funext c
    rw [DenseHashTable2.slot]
    by_cases hcb : c = b
    · subst hcb
      simp [hc]
    · simp [hcb, DenseHashTable2.slot]
  have hhome : ∀ k, DenseHashTable2.doHash H { t with
      data := Function.update t.data b (some (I.setValue x v)) } k = t.doHash H k := fun k =>
    DenseHashTable2.doHash_eq rfl
  -- Every item has an item with its key in the same bucket.
  have hold : ∀ c y, Function.update t.slot b (some (I.setValue x v)) c = some y →
      ∃ y', t.slot c = some y' ∧ I.getKey y' = I.getKey y := by
    intro c y hy
    by_cases hcb : c = b
    · subst hcb
      rw [Function.update_self] at hy
      exact ⟨x, hx, by rw [← Option.some.inj hy, I.getKey_setValue]⟩
    · rw [Function.update_of_ne hcb] at hy
      exact ⟨y, hy, rfl⟩
  have hsome : ∀ c, (Function.update t.slot b (some (I.setValue x v)) c).isSome =
      (t.slot c).isSome := by
    intro c
    by_cases hcb : c = b
    · subst hcb
      rw [Function.update_self, hx]
      rfl
    · rw [Function.update_of_ne hcb]
  have hfull' : DenseHashTable2.Full H I { t with
      data := Function.update t.data b (some (I.setValue x v)) } := by
    refine ⟨⟨hfull.layout.pow, hfull.layout.covers, hfull.layout.inside, fun c hc' hne => ?_⟩,
      ⟨fun y => ?_, ?_⟩, ?_, ?_, hfull.load⟩
    · by_cases hcb : c = b
      · simp [hcb]
      · simpa [hcb] using hfull.layout.live c hc' hne
    · simp only [hhome]
      exact hfull.probing.home_lt y
    · simp only [hslot, hhome]
      intro c hc' y hy d hd hlt
      obtain ⟨y', hy', hkey⟩ := hold c y hy
      rw [hsome]
      rw [← hkey] at hlt
      exact hfull.probing.reach c hc' y' hy' d hd hlt
    · rw [hslot]
      intro c d y z hy hz heq
      obtain ⟨y', hy', hky⟩ := hold c y hy
      obtain ⟨z', hz', hkz⟩ := hold d z hz
      exact hfull.unique c d y' z' hy' hz' (by rwa [hky, hkz])
    · rw [hslot]
      simp only [DenseHashTable2.used, hsome]
      exact hfull.count
  have hslotb : DenseHashTable2.slot { t with
      data := Function.update t.data b (some (I.setValue x v)) } b = some (I.setValue x v) := by
    rw [hslot, Function.update_self]
  refine ⟨_, by rw [DenseHashTable2.store, hdata, Option.map_some], hslotb, ?_⟩
  have hkey : H.eq (I.getKey (I.setValue x v)) (I.getKey x) = true := by
    rw [I.getKey_setValue]
    exact H.equivalence.refl _
  have hput := h.put (.inr hfull') ⟨b, hslotb⟩ hkey fun y hy => ?_
  · rwa [I.value_setValue] at hput
  · rw [Holds, Holds, hslot]
    refine exists_congr fun c => ?_
    by_cases hcb : c = b
    · subst hcb
      rw [Function.update_self, hx, Option.some.injEq, Option.some.injEq]
      have hrefl := H.equivalence.refl (I.getKey x)
      refine iff_of_false ?_ ?_ <;> rintro rfl
      · rw [I.getKey_setValue, hrefl] at hy
        cases hy
      · rw [hrefl] at hy
        cases hy
    · rw [Function.update_of_ne hcb]

theorem erase_refines (h : Refines H I t m) (key : K) : ∃ t', t.erase H I key = some t' ∧
    Refines H I t' (put m (H.cls key) Option.none) := by
  obtain ⟨t', ht', hinv, hitems⟩ := DenseHashTable2.erase_spec h.inv key
  refine ⟨t', ht', hinv, fun q v => ?_⟩
  by_cases hq : q = H.cls key
  · subst hq
    rw [put_self]
    refine iff_of_false (by simp) ?_
    rintro ⟨x, hx, hcls, -⟩
    have := ((hitems x).1 hx).2
    rw [Hashing.cls_eq.1 hcls] at this
    cases this
  · rw [put_of_ne hq, h.content]
    refine exists_congr fun x => and_congr_left fun hx => ?_
    have hne : H.eq (I.getKey x) key = false := by
      cases heq : H.eq (I.getKey x) key with
      | false => rfl
      | true => exact absurd ((Hashing.cls_eq.2 heq).symm.trans hx.1).symm hq
    exact ⟨fun h => (hitems x).2 ⟨h, hne⟩, fun h => ((hitems x).1 h).1⟩

/-! ### Answers -/

/-- The table answers as the map does. -/
structure Answers (H : Hashing K) (I : ItemInterface K V Item) (t : DenseHashTable2 Item)
    (m : H.Class → Option V) : Prop where
  /-- `find` ends, with the value. -/
  find : ∀ key, (t.find H I key).map (fun item => item.map I.value) = some (m (H.cls key))
  /-- `contains` ends, and says whether there is a value. -/
  contains : ∀ key, (t.find H I key).map (·.isSome) = some (m (H.cls key)).isSome
  /-- `size` is the number of keys. -/
  size : {q | m q ≠ Option.none}.Finite ∧ t.size = {q | m q ≠ Option.none}.ncard
  /-- A loop over the table goes through each key once, with its value. -/
  iterate : ∃ l, t.iterate = some l ∧ (l.map fun x => H.cls (I.getKey x)).Nodup ∧
    ∀ q v, m q = some v ↔ ∃ x ∈ l, H.cls (I.getKey x) = q ∧ I.value x = v
  /-- Every probe ends, and finds a key that is there from its home bucket. -/
  probe : t.capacity ≠ 0 → ∀ key, ∃ r, t.getBucket H I key = some r ∧
    r.found = (m (H.cls key)).isSome

theorem slot_of_find (h : t.Inv H I) (key : K) : ∃ item, t.find H I key = some item ∧
    (∀ x, item = some x → Holds t x ∧ H.eq (I.getKey x) key) ∧
    (item = Option.none → ∀ x, Holds t x → H.eq (I.getKey x) key = false) := by
  obtain ⟨item, hfind, hsome, hnone⟩ := DenseHashTable2.find_spec h key
  refine ⟨item, hfind, fun x hx => ?_, fun hi x ⟨b, hb⟩ => hnone hi b x hb⟩
  obtain ⟨b, hb, heq⟩ := hsome x hx
  exact ⟨⟨b, hb⟩, heq⟩

theorem nodup_filterMap (h : t.Inv H I) (l : List ℕ) (hl : l.Nodup) :
    ((l.filterMap t.slot).map fun x => H.cls (I.getKey x)).Nodup := by
  induction l with
  | nil => exact List.nodup_nil
  | cons a l ih =>
    obtain ⟨hal, hl⟩ := List.nodup_cons.1 hl
    cases ha : t.slot a with
    | none => rw [List.filterMap_cons_none ha]; exact ih hl
    | some x =>
      rw [List.filterMap_cons_some ha, List.map_cons, List.nodup_cons]
      refine ⟨fun hm => ?_, ih hl⟩
      obtain ⟨y, hy, hcls⟩ := List.mem_map.1 hm
      obtain ⟨b, hb, hby⟩ := List.mem_filterMap.1 hy
      have hfull := full_of_holds h ⟨a, ha⟩
      exact hal (hfull.unique b a y x hby ha (Hashing.cls_eq.1 hcls) ▸ hb)

theorem mem_iterate (h : t.Inv H I) (x : Item) :
    x ∈ (List.range t.capacity).filterMap t.slot ↔ Holds t x := by
  rw [List.mem_filterMap]
  refine ⟨fun ⟨b, _, hb⟩ => ⟨b, hb⟩, fun hx => ?_⟩
  have hfull := full_of_holds h hx
  obtain ⟨b, hb⟩ := hx
  exact ⟨b, List.mem_range.2 (DenseHashTable2.slot_lt hfull.layout hb), hb⟩

theorem length_iterate (h : t.Inv H I) :
    ((List.range t.capacity).filterMap t.slot).length = t.count := by
  rcases h with ⟨hcap, hcount, -⟩ | h
  · rw [hcap, hcount]
    rfl
  · rw [h.count, List.length_filterMap_eq_countP, DenseHashTable2.used, Finset.card_def,
      Finset.filter_val, Finset.range_val, Multiset.range, Multiset.filter_coe, Multiset.coe_card,
      List.countP_eq_length_filter]
    congr 1
    exact List.filter_congr fun b _ => by simp

/-- **A table answers as its map does.** -/
theorem Refines.answers (h : Refines H I t m) : Answers H I t m := by
  have hfind : ∀ key, ∃ item, t.find H I key = some item ∧ item.map I.value = m (H.cls key) := by
    intro key
    obtain ⟨item, hfind, hsome, hnone⟩ := slot_of_find h.inv key
    refine ⟨item, hfind, ?_⟩
    cases item with
    | none => rw [h.none_of_absent (hnone rfl), Option.map_none]
    | some x =>
      obtain ⟨hx, hkey⟩ := hsome x rfl
      rw [h.some_of_holds hx hkey, Option.map_some]
  have hnodup := nodup_filterMap h.inv (List.range t.capacity) List.nodup_range
  have hcontent : ∀ q v, m q = some v ↔ ∃ x ∈ (List.range t.capacity).filterMap t.slot,
      H.cls (I.getKey x) = q ∧ I.value x = v := fun q v => by
    rw [h.content]
    simp only [mem_iterate h.inv]
  -- The keys of the map are those of the items.
  have hkeys : {q | m q ≠ Option.none} =
      {q | q ∈ ((List.range t.capacity).filterMap t.slot).map fun x => H.cls (I.getKey x)} := by
    ext q
    rw [Set.mem_ofPred_eq, Set.mem_ofPred_eq, Option.ne_none_iff_exists', List.mem_map]
    constructor
    · rintro ⟨v, hv⟩
      obtain ⟨x, hx, hq, -⟩ := (hcontent q v).1 hv
      exact ⟨x, hx, hq⟩
    · rintro ⟨x, hx, hq⟩
      exact ⟨I.value x, (hcontent q _).2 ⟨x, hx, hq, rfl⟩⟩
  refine ⟨fun key => ?_, fun key => ?_, ?_, ⟨_, DenseHashTable2.iterate_spec h.inv, hnodup,
    hcontent⟩, fun hcap key => ?_⟩
  · obtain ⟨item, hf, hm⟩ := hfind key
    rw [hf, Option.map_some, hm]
  · obtain ⟨item, hf, hm⟩ := hfind key
    rw [hf, Option.map_some, ← hm, Option.isSome_map]
  · classical
    rw [hkeys]
    refine ⟨List.finite_toSet _, ?_⟩
    rw [← List.coe_toFinset, Set.ncard_coe_finset, List.toFinset_card_of_nodup hnodup,
      List.length_map, length_iterate h.inv]
    rfl
  · have hfull : t.Full H I := h.inv.resolve_left fun h1 => hcap h1.1
    obtain ⟨r, hr, hl⟩ := DenseHashTable2.getBucket_spec hfull key
    refine ⟨r, hr, ?_⟩
    cases hf : r.found with
    | false =>
      rw [h.none_of_absent fun x ⟨b, hb⟩ => hl.absent hf b x hb]
      rfl
    | true =>
      obtain ⟨x, hx, heq⟩ := hl.found hf
      rw [h.some_of_holds ⟨_, hx⟩ heq]
      rfl

end

/-! ### Programs -/

/-- The tables of a program. -/
abbrev Tables (Item : Type) := ℕ → DenseHashTable2 Item

/-- The copy assignment of table `j` to table `i`. -/
def copyAssign (w : Tables Item) (i j : ℕ) : Tables Item :=
  if i = j then w else Function.update w i (w j).copy

/-- The move assignment of table `j` to table `i`. -/
def moveAssign (w : Tables Item) (i j : ℕ) : Tables Item :=
  if i = j then w else Function.update (Function.update w i (w j)) j .movedFrom

/-- The exchange of two tables through a third one, by moves. -/
def swap (w : Tables Item) (i j : ℕ) : Tables Item :=
  let tmp := w i
  let w := Function.update w i .movedFrom
  let w := moveAssign w i j
  Function.update w j tmp

/-- What an operation gives back. -/
inductive Answer (V : Type) where
  | done
  | value (v : V)
  | inserted (v : V) (fresh : Bool)

/-- An operation on maps. -/
inductive MapOp (K V : Type) where
  /-- A map without buckets, or with `2 ^ k` of them. -/
  | construct (i : ℕ) (k : Option ℕ)
  /-- `m[key]`. -/
  | index (i : ℕ) (key : K)
  /-- `m[key] = v`. -/
  | assign (i : ℕ) (key : K) (v : V)
  | tryInsert (i : ℕ) (key : K) (v : V)
  | erase (i : ℕ) (key : K)
  | clear (i : ℕ) (thresholdToDestroy : ℕ)
  | copy (i j : ℕ)
  | move (i j : ℕ)
  | swap (i j : ℕ)

/-- An operation on sets. -/
inductive SetOp (K : Type) where
  /-- A set without buckets, or with `2 ^ k` of them. -/
  | construct (i : ℕ) (k : Option ℕ)
  | insert (i : ℕ) (key : K)
  | tryInsert (i : ℕ) (key : K)
  | erase (i : ℕ) (key : K)
  | clear (i : ℕ)
  | copy (i j : ℕ)
  | move (i j : ℕ)
  | swap (i j : ℕ)

/-- The operation as one on maps to the type with one value. -/
def SetOp.toMapOp {K : Type} : SetOp K → MapOp K Unit
  | construct i k => .construct i k
  | insert i key => .index i key
  | tryInsert i key => .tryInsert i key ()
  | erase i key => .erase i key
  | clear i => .clear i 32
  | copy i j => .copy i j
  | move i j => .move i j
  | swap i j => .swap i j

section

variable (H)

def MapOp.step [Inhabited V] (w : Tables (K × V)) :
    MapOp K V → Option (Tables (K × V) × Answer V)
  | construct i k => some (Function.update w i (.ofBuckets (k.elim 0 (2 ^ ·))), .done)
  | index i key => (DenseHashMap2.index H (w i) key).bind fun (t, slot) =>
    (t.valueAt (itemInterfaceMap2 K V) slot).map fun v => (Function.update w i t, .value v)
  | assign i key v => (DenseHashMap2.index H (w i) key).bind fun (t, slot) =>
    (t.store (itemInterfaceMap2 K V) slot v).map fun t => (Function.update w i t, .value v)
  | tryInsert i key v => (DenseHashMap2.tryInsert H (w i) key v).bind fun (t, slot, fresh) =>
    (t.valueAt (itemInterfaceMap2 K V) slot).map fun v =>
      (Function.update w i t, .inserted v fresh)
  | erase i key => (DenseHashMap2.erase H (w i) key).map fun t => (Function.update w i t, .done)
  | clear i threshold => some (Function.update w i ((w i).clear threshold), .done)
  | copy i j => some (copyAssign w i j, .done)
  | move i j => some (moveAssign w i j, .done)
  | swap i j => some (Dense.swap w i j, .done)

def SetOp.step (w : Tables K) : SetOp K → Option (Tables K × Answer Unit)
  | construct i k => some (Function.update w i (.ofBuckets (k.elim 0 (2 ^ ·))), .done)
  | insert i key => (DenseHashSet2.insert H (w i) key).map fun (t, _) =>
    (Function.update w i t, .value ())
  | tryInsert i key => (DenseHashSet2.tryInsert H (w i) key).map fun (t, fresh) =>
    (Function.update w i t, .inserted () fresh)
  | erase i key => (DenseHashSet2.erase H (w i) key).map fun t => (Function.update w i t, .done)
  | clear i => some (Function.update w i ((w i).clear 32), .done)
  | copy i j => some (copyAssign w i j, .done)
  | move i j => some (moveAssign w i j, .done)
  | swap i j => some (Dense.swap w i j, .done)

/-- What an operation does to the finite maps. -/
noncomputable def MapOp.abstract [Inhabited V] (M : ℕ → H.Class → Option V) :
    MapOp K V → (ℕ → H.Class → Option V) × Answer V
  | construct i _ => (Function.update M i fun _ => none, .done)
  | index i key =>
    let v := (M i (H.cls key)).getD default
    (Function.update M i (put (M i) (H.cls key) (some v)), .value v)
  | assign i key v => (Function.update M i (put (M i) (H.cls key) (some v)), .value v)
  | tryInsert i key v =>
    match M i (H.cls key) with
    | some v => (M, .inserted v false)
    | none => (Function.update M i (put (M i) (H.cls key) (some v)), .inserted v true)
  | erase i key => (Function.update M i (put (M i) (H.cls key) none), .done)
  | clear i _ => (Function.update M i fun _ => none, .done)
  | copy i j => (Function.update M i (M j), .done)
  | move i j =>
    (if i = j then M else Function.update (Function.update M i (M j)) j fun _ => none, .done)
  | swap i j => (Function.update (Function.update M i (M j)) j (M i), .done)

end

/-- A sequence of operations, with their answers. -/
def runOps {W A O : Type} (step : W → O → Option (W × A)) : List O → W → Option (W × List A)
  | [], w => some (w, [])
  | op :: ops, w => (step w op).bind fun (w, a) =>
    (runOps step ops w).map fun (w, answers) => (w, a :: answers)

/-- A sequence of operations on the finite maps, with their answers. -/
noncomputable def abstractOps (H : Hashing K) [Inhabited V] :
    List (MapOp K V) → (ℕ → H.Class → Option V) → (ℕ → H.Class → Option V) × List (Answer V)
  | [], M => (M, [])
  | op :: ops, M =>
    let (M, a) := op.abstract H M
    let (M, answers) := abstractOps H ops M
    (M, a :: answers)

/-- Every table has its map. -/
def AllRefine (H : Hashing K) (I : ItemInterface K V Item) (w : Tables Item)
    (M : ℕ → H.Class → Option V) : Prop := ∀ i, Refines H I (w i) (M i)

section

variable {w : Tables Item} {M : ℕ → H.Class → Option V} {i j : ℕ} {t : DenseHashTable2 Item}
  {m : H.Class → Option V} {key : K}

theorem AllRefine.update (h : AllRefine H I w M) (ht : Refines H I t m) (i : ℕ) :
    AllRefine H I (Function.update w i t) (Function.update M i m) := by
  intro j
  by_cases hji : j = i
  · subst hji
    rwa [Function.update_self, Function.update_self]
  · rw [Function.update_of_ne hji, Function.update_of_ne hji]
    exact h j

theorem AllRefine.construct (h : AllRefine H I w M) (i : ℕ) (k : Option ℕ) :
    AllRefine H I (Function.update w i (.ofBuckets (k.elim 0 (2 ^ ·))))
      (Function.update M i fun _ => none) := h.update (.ofBuckets k) i

theorem AllRefine.clear (h : AllRefine H I w M) (i n : ℕ) :
    AllRefine H I (Function.update w i ((w i).clear n)) (Function.update M i fun _ => none) := by
  obtain ⟨hinv, hnone⟩ := DenseHashTable2.clear_spec (h i).inv n
  exact h.update (.none hinv hnone) i

theorem AllRefine.copyAssign (h : AllRefine H I w M) (i j : ℕ) :
    AllRefine H I (copyAssign w i j) (Function.update M i (M j)) := by
  rw [Dense.copyAssign]
  split_ifs with hij
  · rw [← hij, Function.update_eq_self]
    exact h
  · exact h.update (h j).copy i

theorem AllRefine.moveAssign (h : AllRefine H I w M) (i j : ℕ) :
    AllRefine H I (moveAssign w i j)
      (if i = j then M else Function.update (Function.update M i (M j)) j fun _ => none) := by
  rw [Dense.moveAssign]
  split_ifs with hij
  · exact h
  · exact (h.update (h j) i).update .empty j

theorem AllRefine.swap (h : AllRefine H I w M) (i j : ℕ) :
    AllRefine H I (swap w i j) (Function.update (Function.update M i (M j)) j (M i)) := by
  rw [Dense.swap, Dense.moveAssign]
  split_ifs with hij
  · subst hij
    simp only [Function.update_idem, Function.update_eq_self]
    exact h
  · rw [Function.update_of_ne (Ne.symm hij)]
    simp only [Function.update_idem]
    exact (h.update (h j) i).update (h i) j

theorem AllRefine.erase (h : AllRefine H I w M) (i : ℕ) (key : K) :
    ∃ t', (w i).erase H I key = some t' ∧ AllRefine H I (Function.update w i t')
      (Function.update M i (put (M i) (H.cls key) none)) := by
  obtain ⟨t', ht', href⟩ := erase_refines (h i) key
  exact ⟨t', ht', h.update href i⟩

theorem put_eq_self {v : V} (h : m (H.cls key) = some v) : put m (H.cls key) (some v) = m := by
  funext q
  by_cases hq : q = H.cls key
  · rw [hq, put_self, h]
  · rw [put_of_ne hq]

theorem put_put {v v' : Option V} : put (put m (H.cls key) v) (H.cls key) v' =
    put m (H.cls key) v' := by
  funext q
  by_cases hq : q = H.cls key
  · rw [hq, put_self, put_self]
  · rw [put_of_ne hq, put_of_ne hq, put_of_ne hq]

/-- `operator[]` and `insert`. -/
theorem AllRefine.access (h : AllRefine H I w M) (i : ℕ) (key : K) :
    ∃ t' b, (w i).access H I key = some (t', b) ∧
      t'.valueAt I b = some ((M i (H.cls key)).getD (I.value (I.setKey key))) ∧
      AllRefine H I (Function.update w i t') (Function.update M i
        (put (M i) (H.cls key) (some ((M i (H.cls key)).getD (I.value (I.setKey key)))))) := by
  obtain ⟨t₁, t', b, x, hrehash, hins, -, -, hslot, -, href, hvalue, -⟩ := access_spec (h i) key
  have hdata : t'.data b = some x := by
    rw [DenseHashTable2.slot] at hslot
    split_ifs at hslot
    exact hslot
  refine ⟨t', b, by rw [DenseHashTable2.access, hrehash, Option.bind_some, hins], ?_, ?_⟩
  · rw [DenseHashTable2.valueAt, hdata, Option.map_some, hvalue]
  · rw [← hvalue]
    exact h.update href i

/-- `operator[]`, and a value is stored. -/
theorem AllRefine.assign (h : AllRefine H I w M) (i : ℕ) (key : K) (v : V) :
    ∃ t₁ b t', (w i).access H I key = some (t₁, b) ∧ t₁.store I b v = some t' ∧
      AllRefine H I (Function.update w i t')
        (Function.update M i (put (M i) (H.cls key) (some v))) := by
  obtain ⟨t₀, t₁, b, x, hrehash, hins, -, -, hslot, hkey, href, -, -⟩ := access_spec (h i) key
  obtain ⟨t', hstore, -, href'⟩ := store_spec href hslot v
  refine ⟨t₁, b, t', by rw [DenseHashTable2.access, hrehash, Option.bind_some, hins], hstore, ?_⟩
  rw [Hashing.cls_eq.2 hkey, put_put] at href'
  exact h.update href' i

/-- `try_insert`. -/
theorem AllRefine.accessFresh (h : AllRefine H I w M) (i : ℕ) (key : K) (v : V) :
    ∃ t' b, (w i).accessFresh H I key v = some (t', b, (M i (H.cls key)).isNone) ∧
      t'.valueAt I b = some ((M i (H.cls key)).getD v) ∧
      AllRefine H I (Function.update w i t') (Function.update M i
        (put (M i) (H.cls key) (some ((M i (H.cls key)).getD v)))) := by
  obtain ⟨t₀, t₁, b, x, hrehash, hins, hcount, -, hslot, hkey, href, hvalue, hcount'⟩ :=
    access_spec (h i) key
  have hdata : ∀ {t : DenseHashTable2 Item} {x}, t.slot b = some x → t.data b = some x := by
    intro t x hx
    rw [DenseHashTable2.slot] at hx
    split_ifs at hx
    exact hx
  rw [DenseHashTable2.accessFresh, hrehash, Option.bind_some]
  simp only [hins, Option.bind_some, DenseHashTable2.size, hcount, hcount']
  cases hm : M i (H.cls key) with
  | some v' =>
    rw [hm, Option.getD_some] at hvalue
    refine ⟨t₁, b, by simp, ?_, ?_⟩
    · rw [DenseHashTable2.valueAt, hdata hslot, Option.map_some, hvalue, Option.getD_some]
    · rw [Option.getD_some, ← hvalue]
      exact h.update href i
  | none =>
    obtain ⟨t', hstore, hslot', href'⟩ := store_spec href hslot v
    rw [Hashing.cls_eq.2 hkey, put_put] at href'
    refine ⟨t', b, by simp [hstore], ?_, ?_⟩
    · rw [DenseHashTable2.valueAt, hdata hslot', Option.map_some, I.value_setValue,
        Option.getD_none]
    · exact h.update href' i

end

/-! ### Runs -/

section

variable {i : ℕ}

/-- An operation on maps does what it does to the finite maps. -/
theorem MapOp.step_refines [Inhabited V] {w : Tables (K × V)} {M : ℕ → H.Class → Option V}
    (h : AllRefine H (itemInterfaceMap2 K V) w M) (op : MapOp K V) :
    ∃ w', op.step H w = some (w', (op.abstract H M).2) ∧
      AllRefine H (itemInterfaceMap2 K V) w' (op.abstract H M).1 := by
  cases op with
  | construct i k => exact ⟨_, rfl, h.construct i k⟩
  | index i key =>
    obtain ⟨t', b, haccess, hvalue, href⟩ := h.access i key
    refine ⟨_, ?_, href⟩
    rw [MapOp.step, DenseHashMap2.index, haccess, Option.bind_some]
    dsimp only
    rw [hvalue, Option.map_some]
    rfl
  | assign i key v =>
    obtain ⟨t₁, b, t', haccess, hstore, href⟩ := h.assign i key v
    refine ⟨_, ?_, href⟩
    rw [MapOp.step, DenseHashMap2.index, haccess, Option.bind_some]
    dsimp only
    rw [hstore, Option.map_some]
    rfl
  | tryInsert i key v =>
    obtain ⟨t', b, haccess, hvalue, href⟩ := h.accessFresh i key v
    refine ⟨Function.update w i t', ?_, ?_⟩
    · rw [MapOp.step, DenseHashMap2.tryInsert, haccess, Option.bind_some]
      dsimp only
      rw [hvalue, Option.map_some, MapOp.abstract]
      cases M i (H.cls key) <;> rfl
    · rw [MapOp.abstract]
      cases hm : M i (H.cls key) with
      | some v' =>
        -- A key that is there keeps its value, and the finite maps stay as they are.
        rwa [hm, Option.getD_some, put_eq_self hm, Function.update_eq_self] at href
      | none => rwa [hm, Option.getD_none] at href
  | erase i key =>
    obtain ⟨t', herase, href⟩ := h.erase i key
    refine ⟨_, ?_, href⟩
    rw [MapOp.step, DenseHashMap2.erase, herase, Option.map_some]
    rfl
  | clear i n => exact ⟨_, rfl, h.clear i n⟩
  | copy i j => exact ⟨_, rfl, h.copyAssign i j⟩
  | move i j => exact ⟨_, rfl, h.moveAssign i j⟩
  | swap i j => exact ⟨_, rfl, h.swap i j⟩

/-- A set takes a key, and says whether its size has changed. -/
theorem AllRefine.tryInsert {w : Tables K} {M : ℕ → H.Class → Option Unit}
    (h : AllRefine H (itemInterfaceSet2 K) w M) (i : ℕ) (key : K) :
    ∃ t', DenseHashSet2.tryInsert H (w i) key = some (t', (M i (H.cls key)).isNone) ∧
      AllRefine H (itemInterfaceSet2 K) (Function.update w i t')
        (Function.update M i (put (M i) (H.cls key) (some ()))) := by
  obtain ⟨t₁, t', b, x, hrehash, hins, -, -, -, -, href, -, hcount⟩ := access_spec (h i) key
  refine ⟨t', ?_, h.update href i⟩
  rw [DenseHashSet2.tryInsert, DenseHashSet2.insert, DenseHashTable2.access, hrehash,
    Option.bind_some, hins, Option.map_some]
  dsimp only
  rw [DenseHashTable2.size, DenseHashTable2.size, hcount]
  cases M i (H.cls key) <;> simp

/-- An operation on sets does what it does to the finite maps. -/
theorem SetOp.step_refines {w : Tables K} {M : ℕ → H.Class → Option Unit}
    (h : AllRefine H (itemInterfaceSet2 K) w M) (op : SetOp K) :
    ∃ w', op.step H w = some (w', (op.toMapOp.abstract H M).2) ∧
      AllRefine H (itemInterfaceSet2 K) w' (op.toMapOp.abstract H M).1 := by
  cases op with
  | construct i k => exact ⟨_, rfl, h.construct i k⟩
  | insert i key =>
    obtain ⟨t', b, haccess, -, href⟩ := h.access i key
    refine ⟨_, ?_, href⟩
    rw [SetOp.step, DenseHashSet2.insert, haccess, Option.map_some]
    rfl
  | tryInsert i key =>
    obtain ⟨t', hinsert, href⟩ := h.tryInsert i key
    refine ⟨Function.update w i t', ?_, ?_⟩
    · rw [SetOp.step, hinsert, Option.map_some, SetOp.toMapOp, MapOp.abstract]
      cases M i (H.cls key) <;> rfl
    · rw [SetOp.toMapOp, MapOp.abstract]
      cases hm : M i (H.cls key) with
      | some v => rwa [put_eq_self hm, Function.update_eq_self] at href
      | none => exact href
  | erase i key =>
    obtain ⟨t', herase, href⟩ := h.erase i key
    refine ⟨_, ?_, href⟩
    rw [SetOp.step, DenseHashSet2.erase, herase, Option.map_some]
    rfl
  | clear i => exact ⟨_, rfl, h.clear i 32⟩
  | copy i j => exact ⟨_, rfl, h.copyAssign i j⟩
  | move i j => exact ⟨_, rfl, h.moveAssign i j⟩
  | swap i j => exact ⟨_, rfl, h.swap i j⟩

end

/-- Operations each of which does what it does to the finite maps, one after the other. -/
theorem runOps_refines {O : Type} [Inhabited V]
    {step : Tables Item → O → Option (Tables Item × Answer V)} {toMapOp : O → MapOp K V}
    (hstep : ∀ w M op, AllRefine H I w M → ∃ w', step w op =
      some (w', ((toMapOp op).abstract H M).2) ∧ AllRefine H I w' ((toMapOp op).abstract H M).1)
    (ops : List O) {w : Tables Item} {M : ℕ → H.Class → Option V} (h : AllRefine H I w M) :
    ∃ w', runOps step ops w = some (w', (abstractOps H (ops.map toMapOp) M).2) ∧
      AllRefine H I w' (abstractOps H (ops.map toMapOp) M).1 := by
  induction ops generalizing w M with
  | nil => exact ⟨w, rfl, h⟩
  | cons op ops ih =>
    obtain ⟨w₁, hop, h₁⟩ := hstep w M op h
    obtain ⟨w', hops, h'⟩ := ih h₁
    refine ⟨w', ?_, h'⟩
    rw [runOps, hop, Option.bind_some]
    dsimp only
    rw [hops, Option.map_some]
    rfl

/-- **Dense maps and sets refine finite maps.**  For every equality and every hash that is the same
for equal keys, a sequence of operations on any number of empty maps, or of empty sets, ends, each
operation gives back what it does on the finite maps, and then every table answers as its map. -/
theorem denseHash2_refines (H : Hashing K) [Inhabited V] :
    (∀ ops : List (MapOp K V), ∃ w, runOps (MapOp.step H) ops (fun _ => {}) =
        some (w, (abstractOps H ops fun _ _ => none).2) ∧
      ∀ i, Answers H (itemInterfaceMap2 K V) (w i) ((abstractOps H ops fun _ _ => none).1 i)) ∧
    (∀ ops : List (SetOp K), ∃ w, runOps (SetOp.step H) ops (fun _ => {}) =
        some (w, (abstractOps H (ops.map SetOp.toMapOp) fun _ _ => none).2) ∧
      ∀ i, Answers H (itemInterfaceSet2 K) (w i)
        ((abstractOps H (ops.map SetOp.toMapOp) fun _ _ => none).1 i)) := by
  constructor
  · intro ops
    obtain ⟨w, hrun, h⟩ := runOps_refines (fun _ _ op h => MapOp.step_refines h op) ops
      (I := itemInterfaceMap2 K V) (H := H) (fun _ => .empty)
    rw [List.map_id'] at hrun h
    exact ⟨w, hrun, fun i => (h i).answers⟩
  · intro ops
    obtain ⟨w, hrun, h⟩ := runOps_refines (fun _ _ op h => SetOp.step_refines h op) ops
      (I := itemInterfaceSet2 K) (H := H) (fun _ => .empty)
    exact ⟨w, hrun, fun i => (h i).answers⟩

end Dense

end Jaci
