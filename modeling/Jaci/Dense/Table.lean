import Jaci.Dense.BitSet
import Jaci.Lib.Probing
import Mathlib.Data.Set.Card

/-!
# Dense tables

`DenseHashTable2`, for any type of keys with an equality and a hash that is the same for equal keys.
Items are pairs or keys, and pointers into the table are buckets.  Memory that was not initialised,
or whose item was moved away, has no item; a function that reads there has no result, and neither has
one whose loop does not end within as many rounds as there are buckets.

* `Inv` : the invariant;
* `getBucket_spec`, `insertUnsafe_spec`, `erase_spec`, `grow_spec` : what the operations do.
-/

namespace Jaci

namespace Dense

open Probing

variable {K V Item : Type}

/-- `Eq` and `Hash`. -/
structure Hashing (K : Type) where
  eq : K → K → Bool
  hasher : K → BitVec 64
  equivalence : Equivalence fun a b => eq a b = true
  consistent : ∀ a b, eq a b → hasher a = hasher b

/-- `ItemInterface`, with the value of an item. -/
structure ItemInterface (K V Item : Type) where
  getKey : Item → K
  /-- `setKey`, in memory without an item. -/
  setKey : K → Item
  value : Item → V
  setValue : Item → V → Item
  getKey_setKey : ∀ k, getKey (setKey k) = k
  getKey_setValue : ∀ x v, getKey (setValue x v) = getKey x
  value_setValue : ∀ x v, value (setValue x v) = v

structure DenseHashTable2 (Item : Type) where
  data : ℕ → Option Item := fun _ => none
  usedTable : BitSet := {}
  capacity : ℕ := 0
  count : ℕ := 0
  /-- `64 - log2(capacity)`. -/
  hashShift : ℕ := 64

structure BucketResult where
  bucket : ℕ
  found : Bool

namespace DenseHashTable2

/-- The constructor of `DenseHashTable2`. -/
def ofBuckets (buckets : ℕ) : DenseHashTable2 Item :=
  if buckets = 0 then {}
  else
    { usedTable := BitSet.ofCapacity buckets
      capacity := buckets
      hashShift := 64 - BitSet.countTrailingZeroes (BitVec.ofNat 64 buckets) }

def copy (other : DenseHashTable2 Item) : DenseHashTable2 Item :=
  let new : DenseHashTable2 Item := { count := other.count, hashShift := other.hashShift }
  if other.capacity = 0 then new
  else
    let new := { new with usedTable := BitSet.ofCapacity other.capacity }
    let new := other.usedTable.buckets.foldl (fun new bucket =>
      { new with
        data := Function.update new.data bucket (other.data bucket)
        usedTable := new.usedTable.set bucket true }) new
    { new with capacity := other.capacity }

/-- What a table is after its contents were moved to another one. -/
def movedFrom : DenseHashTable2 Item := {}

def destroy (t : DenseHashTable2 Item) : DenseHashTable2 Item :=
  { t with data := fun _ => none, usedTable := {}, capacity := 0, hashShift := 64 }

def clear (t : DenseHashTable2 Item) (thresholdToDestroy : ℕ) : DenseHashTable2 Item :=
  if t.count = 0 then t
  else
    let t := if thresholdToDestroy < t.capacity then t.destroy
      else { t with data := fun _ => none, usedTable := t.usedTable.clear }
    { t with count := 0 }

def size (t : DenseHashTable2 Item) : ℕ := t.count

/-- `(a - b) & hashmod`.  The difference wraps around at a multiple of the capacity. -/
def maskedSub (t : DenseHashTable2 Item) (a b : ℕ) : ℕ :=
  (a + t.capacity - b) &&& (t.capacity - 1)

/-- The loop of `begin`. -/
def skipUnused (t : DenseHashTable2 Item) : ℕ → ℕ → ℕ
  | 0, index => index
  | fuel + 1, index =>
    if index < t.capacity ∧ !t.usedTable.contains index then t.skipUnused fuel (index + 1) else index

/-- A loop over the table from `index` on: until `end`, the item and `operator++`. -/
def iterateFrom (t : DenseHashTable2 Item) : ℕ → ℕ → Option (List Item)
  | 0, _ => none
  | fuel + 1, index =>
    if index = t.capacity then some []
    else (t.data index).bind fun item =>
      (t.iterateFrom fuel (t.skipUnused t.capacity (index + 1))).map (item :: ·)

def iterate (t : DenseHashTable2 Item) : Option (List Item) :=
  t.iterateFrom (t.capacity + 1) (t.skipUnused t.capacity 0)

section

variable (H : Hashing K) (I : ItemInterface K V Item)

def doHash (t : DenseHashTable2 Item) (key : K) : ℕ :=
  ((H.hasher key * 11400714819323198485) >>> t.hashShift).toNat

/-- The loop of `getBucket`. -/
def probe (t : DenseHashTable2 Item) (key : K) : ℕ → ℕ → Option BucketResult
  | 0, _ => none
  | fuel + 1, bucket =>
    if !t.usedTable.contains bucket then some ⟨bucket, false⟩
    else (t.data bucket).bind fun item =>
      if H.eq (I.getKey item) key then some ⟨bucket, true⟩
      else t.probe key fuel ((bucket + 1) &&& (t.capacity - 1))

def getBucket (t : DenseHashTable2 Item) (key : K) : Option BucketResult :=
  t.probe H I key t.capacity (t.doHash H key)

/-- `find`; the item, if there is one. -/
def find (t : DenseHashTable2 Item) (key : K) : Option (Option Item) :=
  if t.count = 0 then some none
  else (t.getBucket H I key).map fun r => if r.found then t.data r.bucket else none

/-- `insert_unsafe`, with the bucket of the item. -/
def insertUnsafe (t : DenseHashTable2 Item) (key : K) : Option (DenseHashTable2 Item × ℕ) :=
  (t.getBucket H I key).map fun r =>
    if r.found then (t, r.bucket)
    else
      ({ t with
          usedTable := t.usedTable.set r.bucket true
          data := Function.update t.data r.bucket (some (I.setKey key))
          count := t.count + 1 }, r.bucket)

/-- A round of the loop of `grow`. -/
def growStep (t newtable : DenseHashTable2 Item) (bucket : ℕ) : Option (DenseHashTable2 Item) :=
  (t.data bucket).bind fun item =>
    (newtable.getBucket H I (I.getKey item)).map fun r =>
      { newtable with
        usedTable := newtable.usedTable.set r.bucket true
        count := newtable.count + 1
        data := Function.update newtable.data r.bucket (some item) }

def grow (t : DenseHashTable2 Item) : Option (DenseHashTable2 Item) :=
  let newsize := if t.capacity = 0 then 16 else t.capacity * 2
  (t.usedTable.buckets.foldlM (t.growStep H I) (ofBuckets newsize)).map fun newtable =>
    { t with
      data := newtable.data
      usedTable := newtable.usedTable
      capacity := newtable.capacity
      hashShift := newtable.hashShift }

def rehashIfFull (t : DenseHashTable2 Item) (key : K) : Option (DenseHashTable2 Item) :=
  if t.capacity * 3 / 4 ≤ t.count then
    (t.find H I key).bind fun item => if item.isSome then some t else t.grow H I
  else some t

/-- The item of bucket `j` is moved to bucket `i`. -/
def shiftItem (t : DenseHashTable2 Item) (curr : Item) (i j : ℕ) : DenseHashTable2 Item :=
  { t with
    usedTable := (t.usedTable.set i true).set j false
    data := Function.update (Function.update t.data i (some curr)) j none }

/-- The loop of `doErase`. -/
def eraseLoop : ℕ → DenseHashTable2 Item → ℕ → ℕ → Option (DenseHashTable2 Item)
  | 0, _, _, _ => none
  | fuel + 1, t, i, j =>
    let j := (j + 1) &&& (t.capacity - 1)
    if !t.usedTable.contains j then
      some
        { t with
          usedTable := t.usedTable.set i false
          data := Function.update t.data i none
          count := t.count - 1 }
    else (t.data j).bind fun curr =>
      let r := t.doHash H (I.getKey curr)
      if t.maskedSub i r < t.maskedSub j r then
        eraseLoop fuel (t.shiftItem curr i j) j j
      else eraseLoop fuel t i j

def doErase (t : DenseHashTable2 Item) (bucket : ℕ) : Option (DenseHashTable2 Item) :=
  eraseLoop H I t.capacity t bucket bucket

def erase (t : DenseHashTable2 Item) (key : K) : Option (DenseHashTable2 Item) :=
  if t.count = 0 then some t
  else (t.getBucket H I key).bind fun r => if r.found then t.doErase H I r.bucket else some t

end

/-! ### The invariant -/

def slot (t : DenseHashTable2 Item) (b : ℕ) : Option Item :=
  if t.usedTable.contains b then t.data b else none

/-- The buckets with an item. -/
def used (n : ℕ) (slots : ℕ → Option Item) : Finset ℕ := {b ∈ Finset.range n | (slots b).isSome}

variable (H : Hashing K) (I : ItemInterface K V Item)

/-- No two items have the same key. -/
def Unique (slots : ℕ → Option Item) : Prop :=
  ∀ a b x y, slots a = some x → slots b = some y → H.eq (I.getKey x) (I.getKey y) → a = b

/-- The memory of a table with `2 ^ k` buckets; the bit of `hole` says nothing. -/
structure Layout (t : DenseHashTable2 Item) (hole : Option ℕ) : Prop where
  pow : ∃ k, t.capacity = 2 ^ k ∧ t.hashShift = 64 - k
  covers : t.usedTable.Covers t.capacity
  inside : ∀ b, t.usedTable.contains b → b < t.capacity
  live : ∀ b, t.usedTable.contains b → hole ≠ some b → (t.data b).isSome

/-- The invariant of a table that has buckets. -/
structure Full (t : DenseHashTable2 Item) : Prop where
  layout : Layout t none
  probing : Probing t.capacity (fun x => t.doHash H (I.getKey x)) t.slot
  unique : Unique H I t.slot
  count : t.count = (used t.capacity t.slot).card
  load : t.count ≤ t.capacity * 3 / 4

def Inv (t : DenseHashTable2 Item) : Prop :=
  t.capacity = 0 ∧ t.count = 0 ∧ (∀ b, t.usedTable.contains b = false) ∨ Full H I t

variable {H I} {t t' : DenseHashTable2 Item} {key : K} {b i j : ℕ} {x : Item}

theorem Layout.pos {hole : Option ℕ} (h : Layout t hole) : 0 < t.capacity := by
  obtain ⟨k, hk, -⟩ := h.pow
  rw [hk]
  exact Nat.two_pow_pos k

theorem Layout.mask {hole : Option ℕ} (h : Layout t hole) (n : ℕ) :
    n &&& (t.capacity - 1) = n % t.capacity := by
  obtain ⟨k, hk, -⟩ := h.pow
  rw [hk]
  exact Nat.and_two_pow_sub_one_eq_mod n k

theorem Layout.doHash_lt {hole : Option ℕ} (h : Layout t hole) (key : K) :
    t.doHash H key < t.capacity := by
  obtain ⟨k, hk, hshift⟩ := h.pow
  rw [doHash, BitVec.toNat_ushiftRight, Nat.shiftRight_eq_div_pow, hk, hshift]
  refine Nat.div_lt_of_lt_mul ((BitVec.isLt _).trans_le ?_)
  rw [← Nat.pow_add]
  exact Nat.pow_le_pow_right (by omega) (by omega)

theorem doHash_congr {a b : K} (h : H.eq a b) : t.doHash H a = t.doHash H b := by
  rw [doHash, doHash, H.consistent a b h]

/-- The home of a key depends on the shift only. -/
theorem doHash_eq (h : t'.hashShift = t.hashShift) : t'.doHash H key = t.doHash H key := by
  rw [doHash, doHash, h]

theorem slot_isSome {hole : Option ℕ} (h : Layout t hole) (hb : hole ≠ some b) :
    (t.slot b).isSome ↔ t.usedTable.contains b := by
  rw [slot]
  split_ifs with hc
  · exact iff_of_true (h.live b hc hb) hc
  · simp [hc]

theorem slot_lt (h : Layout t none) (hb : t.slot b = some x) : b < t.capacity :=
  h.inside b ((slot_isSome h (by simp)).1 (by rw [hb]; rfl))

/-- A table that is not full has a free bucket. -/
theorem exists_free {n : ℕ} {slots : ℕ → Option Item} (h : (used n slots).card < n) :
    ∃ e < n, slots e = none := by
  by_contra hall
  have hall : ∀ e < n, (slots e).isSome := fun e he =>
    Option.isSome_iff_ne_none.2 fun hn => hall ⟨e, he, hn⟩
  have heq : used n slots = Finset.range n :=
    Finset.filter_true_of_mem fun e he => hall e (Finset.mem_range.1 he)
  rw [heq, Finset.card_range] at h
  exact lt_irrefl _ h

theorem Full.free (h : Full H I t) : ∃ e < t.capacity, t.slot e = none := by
  have hpos := h.layout.pos
  refine exists_free ?_
  rw [← h.count]
  have := h.load
  omega

/-! ### Lookups -/

/-- What `getBucket` finds. -/
structure Looked (H : Hashing K) (I : ItemInterface K V Item) (t : DenseHashTable2 Item) (key : K)
    (r : BucketResult) : Prop where
  lt : r.bucket < t.capacity
  found : r.found → ∃ x, t.slot r.bucket = some x ∧ H.eq (I.getKey x) key
  free : r.found = false → t.slot r.bucket = none ∧ ∀ c < t.capacity,
    dist t.capacity (t.doHash H key) c < dist t.capacity (t.doHash H key) r.bucket →
      (t.slot c).isSome
  absent : r.found = false → ∀ c x, t.slot c = some x → H.eq (I.getKey x) key = false

/-- The loop, when the free bucket `e` is in front of it. -/
theorem probe_spec (h : Full H I t) {e : ℕ} (he : e < t.capacity) (hnone : t.slot e = none)
    (fuel : ℕ) (hb : b < t.capacity)
    (hle : dist t.capacity (t.doHash H key) b ≤ dist t.capacity (t.doHash H key) e)
    (hfuel : dist t.capacity (t.doHash H key) e < dist t.capacity (t.doHash H key) b + fuel)
    (hway : ∀ c < t.capacity,
      dist t.capacity (t.doHash H key) c < dist t.capacity (t.doHash H key) b →
      ∃ y, t.slot c = some y ∧ H.eq (I.getKey y) key = false) :
    ∃ r, t.probe H I key fuel b = some r ∧ Looked H I t key r := by
  induction fuel generalizing b with
  | zero => omega
  | succ fuel ih =>
    have hr := h.layout.doHash_lt (H := H) key
    rw [probe]
    cases hc : t.usedTable.contains b with
    | false =>
      have hfree : t.slot b = none := by rw [slot, hc, if_neg (by simp)]
      refine ⟨_, rfl, hb, by simp, fun _ => ⟨hfree, fun c hc' hlt => ?_⟩, fun _ c x hx => ?_⟩
      · obtain ⟨y, hy, -⟩ := hway c hc' hlt
        rw [hy]
        rfl
      · -- An item with the key is in front of the free bucket, where there is none.
        cases heq : H.eq (I.getKey x) key with
        | false => rfl
        | true =>
          have hcl := slot_lt h.layout hx
          have hlt := h.probing.before_free hb hfree hcl hx
          simp only [doHash_congr heq] at hlt
          obtain ⟨y, hy, hne⟩ := hway c hcl hlt
          obtain rfl := Option.some.inj (hx.symm.trans hy)
          rw [heq] at hne
          cases hne
    | true =>
      obtain ⟨y, hy⟩ := Option.isSome_iff_exists.1 (h.layout.live b hc (by simp))
      have hslot : t.slot b = some y := by rw [slot, hc, if_pos rfl, hy]
      simp only [Bool.not_true, Bool.false_eq_true, if_false, hy, Option.bind_some]
      split_ifs with heq
      · exact ⟨_, rfl, hb, fun _ => ⟨y, hslot, heq⟩, by simp, by simp⟩
      · rw [h.layout.mask]
        have hbe : b ≠ e := by
          rintro rfl
          rw [hslot] at hnone
          cases hnone
        have hlt : dist t.capacity (t.doHash H key) b < dist t.capacity (t.doHash H key) e :=
          lt_of_le_of_ne hle fun h1 => hbe (eq_of_dist hr hb he h1)
        have hnext := dist_next hr hb (next_ne_of_lt hr hb he hlt)
        refine ih (next_lt (by omega)) (by rw [← next, hnext]; exact hlt)
          (by rw [← next, hnext]; omega) fun c hc' hlt' => ?_
        rw [← next, hnext, Nat.lt_succ_iff] at hlt'
        rcases lt_or_eq_of_le hlt' with hlt' | heq'
        · exact hway c hc' hlt'
        · rw [eq_of_dist hr hc' hb heq']
          exact ⟨y, hslot, by simpa using heq⟩

/-- **Every probe ends**, at the item with the key or at the first free bucket. -/
theorem getBucket_spec (h : Full H I t) (key : K) :
    ∃ r, t.getBucket H I key = some r ∧ Looked H I t key r := by
  obtain ⟨e, he, hnone⟩ := h.free
  have hr := h.layout.doHash_lt (H := H) key
  have hpos := h.layout.pos
  refine probe_spec h he hnone t.capacity hr (by rw [dist_self hr]; omega) ?_ fun c hc hlt => ?_
  · rw [dist_self hr, Nat.zero_add]
    exact dist_lt hpos
  · rw [dist_self hr] at hlt
    omega

theorem Full.not_slot (h : Full H I t) (h0 : t.count = 0) (b : ℕ) : t.slot b = none := by
  cases hb : t.slot b with
  | none => rfl
  | some x =>
    have hmem : b ∈ used t.capacity t.slot := by
      rw [used, Finset.mem_filter, Finset.mem_range, hb]
      exact ⟨slot_lt h.layout hb, rfl⟩
    rw [h.count] at h0
    rw [Finset.card_eq_zero.1 h0] at hmem
    cases hmem

theorem Inv.not_slot (h : Inv H I t) (h0 : t.count = 0) (b : ℕ) : t.slot b = none := by
  rcases h with ⟨-, -, hb⟩ | h
  · rw [slot, hb, if_neg (by simp)]
  · exact h.not_slot h0 b

/-- `find` ends, with the item that has the key. -/
theorem find_spec (h : Inv H I t) (key : K) : ∃ item, t.find H I key = some item ∧
    (∀ x, item = some x → ∃ b, t.slot b = some x ∧ H.eq (I.getKey x) key) ∧
    (item = none → ∀ b x, t.slot b = some x → H.eq (I.getKey x) key = false) := by
  rw [find]
  split_ifs with h0
  · exact ⟨none, rfl, by simp, fun _ b x hx => by rw [h.not_slot h0] at hx; cases hx⟩
  · have hfull : Full H I t := h.resolve_left fun h1 => h0 h1.2.1
    obtain ⟨r, hr, hl⟩ := getBucket_spec hfull key
    rw [hr, Option.map_some]
    cases hf : r.found with
    | false => exact ⟨none, by simp, by simp, fun _ => hl.absent hf⟩
    | true =>
      obtain ⟨x, hx, heq⟩ := hl.found hf
      have hdata : t.data r.bucket = some x := by
        rw [slot] at hx
        split_ifs at hx
        exact hx
      refine ⟨some x, by simp [hdata], fun y hy => ?_, by simp⟩
      obtain rfl := Option.some.inj hy
      exact ⟨r.bucket, hx, heq⟩

/-! ### New items -/

theorem slot_put (hc : t.usedTable.Covers t.capacity) (hb : b < t.capacity) {n : ℕ} :
    slot { t with usedTable := t.usedTable.set b true
                  data := Function.update t.data b (some x)
                  count := n } = Function.update t.slot b (some x) := by
  funext c
  rw [slot]
  simp only [BitSet.contains_set hc hb]
  by_cases hcb : c = b
  · subst hcb
    simp
  · simp [hcb, slot]

theorem used_update {n : ℕ} {slots : ℕ → Option Item} (hb : b < n) (hfree : slots b = none) :
    (used n (Function.update slots b (some x))).card = (used n slots).card + 1 := by
  have heq : used n (Function.update slots b (some x)) = insert b (used n slots) := by
    ext c
    by_cases hcb : c = b
    · subst hcb
      simp [used, hb]
    · simp [used, hcb]
  rw [heq, Finset.card_insert_of_notMem]
  simp [used, hfree]

/-- An item is put into the first free bucket. -/
theorem Full.put {r : BucketResult} (h : Full H I t) (hr : Looked H I t key r)
    (hf : r.found = false) (hx : H.eq (I.getKey x) key)
    (hroom : t.count + 1 ≤ t.capacity * 3 / 4) :
    Full H I { t with usedTable := t.usedTable.set r.bucket true
                      data := Function.update t.data r.bucket (some x)
                      count := t.count + 1 } := by
  obtain ⟨hfree, hway⟩ := hr.free hf
  have hslot := slot_put (t := t) (x := x) h.layout.covers hr.lt (n := t.count + 1)
  have habsent := hr.absent hf
  refine ⟨⟨h.layout.pow, h.layout.covers.set, fun b hb => ?_, fun b hb hne => ?_⟩, ?_, ?_, ?_, hroom⟩
  · simp only [BitSet.contains_set h.layout.covers hr.lt] at hb
    split_ifs at hb with hbr
    · rw [hbr]
      exact hr.lt
    · exact h.layout.inside b hb
  · simp only [BitSet.contains_set h.layout.covers hr.lt] at hb
    by_cases hbr : b = r.bucket
    · simp [hbr]
    · rw [if_neg hbr] at hb
      simpa [hbr] using h.layout.live b hb (by simp)
  · rw [hslot]
    refine h.probing.put hr.lt fun c hc hlt => ?_
    simp only [doHash_congr hx] at hlt
    exact hway c hc hlt
  · rw [hslot]
    intro a b y z hy hz heq
    by_cases har : a = r.bucket
    · by_cases hbr : b = r.bucket
      · rw [har, hbr]
      · rw [har, Function.update_self] at hy
        rw [Function.update_of_ne hbr] at hz
        obtain rfl := Option.some.inj hy
        have := habsent b z hz
        rw [H.equivalence.trans (H.equivalence.symm heq) hx] at this
        cases this
    · rw [Function.update_of_ne har] at hy
      by_cases hbr : b = r.bucket
      · rw [hbr, Function.update_self] at hz
        obtain rfl := Option.some.inj hz
        have := habsent a y hy
        rw [H.equivalence.trans heq hx] at this
        cases this
      · rw [Function.update_of_ne hbr] at hz
        exact h.unique a b y z hy hz heq
  · rw [hslot]
    show t.count + 1 = (used t.capacity _).card
    rw [used_update hr.lt hfree, ← h.count]

/-- `insert_unsafe` ends, with the bucket that has the key: the one of an old item, or the one of a
new item. -/
theorem insertUnsafe_spec (h : Full H I t) (key : K)
    (hroom : t.count + 1 ≤ t.capacity * 3 / 4 ∨
      ∃ b x, t.slot b = some x ∧ H.eq (I.getKey x) key) :
    ∃ t' b x, t.insertUnsafe H I key = some (t', b) ∧ Full H I t' ∧ t'.slot b = some x ∧
      H.eq (I.getKey x) key ∧ (t' = t ∨ x = I.setKey key ∧ t.slot b = none ∧
        t'.count = t.count + 1 ∧ t'.slot = Function.update t.slot b (some x) ∧
        ∀ c y, t.slot c = some y → H.eq (I.getKey y) key = false) := by
  obtain ⟨r, hr, hl⟩ := getBucket_spec h key
  rw [insertUnsafe, hr, Option.map_some]
  cases hf : r.found with
  | true =>
    obtain ⟨x, hx, heq⟩ := hl.found hf
    exact ⟨t, r.bucket, x, by simp, h, hx, heq, .inl rfl⟩
  | false =>
    have hkey : H.eq (I.getKey (I.setKey key)) key := by
      rw [I.getKey_setKey]
      exact H.equivalence.refl key
    have hroom : t.count + 1 ≤ t.capacity * 3 / 4 := hroom.resolve_right fun ⟨b, x, hx, heq⟩ => by
      rw [hl.absent hf b x hx] at heq
      cases heq
    have hslot := slot_put (t := t) (x := I.setKey key) h.layout.covers hl.lt (n := t.count + 1)
    refine ⟨_, r.bucket, I.setKey key, rfl, h.put hl hf hkey hroom, ?_, hkey,
      .inr ⟨rfl, (hl.free hf).1, rfl, hslot, hl.absent hf⟩⟩
    rw [hslot, Function.update_self]

/-! ### Growth -/

theorem full_ofBuckets (k : ℕ) : Full H I (ofBuckets (2 ^ k)) := by
  have hpos := Nat.two_pow_pos k
  have hne : 2 ^ k ≠ 0 := hpos.ne'
  have hslot : ∀ b, slot (ofBuckets (2 ^ k) : DenseHashTable2 Item) b = none := fun b => by
    rw [slot, ofBuckets, if_neg hne]
    simp
  have hlayout : Layout (ofBuckets (2 ^ k) : DenseHashTable2 Item) none := by
    rw [ofBuckets, if_neg hne]
    refine ⟨⟨k, rfl, ?_⟩, ?_, fun b hb => by simp at hb, fun b hb => by simp at hb⟩
    · show 64 - _ = 64 - k
      by_cases hk : k < 64
      · rw [BitSet.countTrailingZeroes_two_pow hk]
      · have h0 : BitVec.ofNat 64 (2 ^ k) = 0 := by
          apply BitVec.eq_of_toNat_eq
          rw [BitVec.toNat_ofNat]
          exact Nat.mod_eq_zero_of_dvd (Nat.pow_dvd_pow 2 (not_lt.1 hk))
        have h1 : BitSet.countTrailingZeroes 0 = 64 := by decide
        rw [h0, h1]
        omega
    · show 2 ^ k ≤ _
      rw [BitSet.ofCapacity, List.length_replicate, if_neg hne]
      split_ifs with hlt
      · omega
      · rw [Nat.shiftRight_eq_div_pow]
        have hdvd : 2 ^ 6 ∣ 2 ^ k := by
          refine Nat.pow_dvd_pow 2 ?_
          by_contra hk
          have hlt' : 2 ^ k < 2 ^ 6 := Nat.pow_lt_pow_right (by omega) (not_le.1 hk)
          exact hlt hlt'
        omega
  refine ⟨hlayout, ⟨fun x => hlayout.doHash_lt _, fun b _ x hx => ?_⟩, fun a b x y hx => ?_, ?_, ?_⟩
  · rw [hslot] at hx
    cases hx
  · rw [hslot] at hx
    cases hx
  · have hempty : used (2 ^ k) (slot (ofBuckets (2 ^ k) : DenseHashTable2 Item)) = ∅ := by
      refine Finset.filter_eq_empty_iff.2 fun b _ => ?_
      rw [hslot]
      simp
    rw [ofBuckets, if_neg hne] at hempty ⊢
    exact (Finset.card_eq_zero.2 hempty).symm
  · rw [ofBuckets, if_neg hne]
    exact Nat.zero_le _

theorem capacity_ofBuckets (n : ℕ) : (ofBuckets n : DenseHashTable2 Item).capacity = n := by
  rw [ofBuckets]
  split_ifs with h
  · exact h.symm
  · rfl

theorem count_ofBuckets (n : ℕ) : (ofBuckets n : DenseHashTable2 Item).count = 0 := by
  rw [ofBuckets]
  split_ifs <;> rfl

theorem mem_buckets_iff (h : Layout t none) : b ∈ t.usedTable.buckets ↔ (t.slot b).isSome := by
  rw [BitSet.mem_buckets, slot_isSome h (by simp)]

/-- The loop of `grow`, when the items of some buckets were moved. -/
theorem growLoop_spec (h : Full H I t) (bs moved : List ℕ) {new : DenseHashTable2 Item}
    (hbs : ∀ b ∈ bs, (t.slot b).isSome) (hnodup : (moved ++ bs).Nodup) (hnew : Full H I new)
    (hcount : new.count = moved.length)
    (hroom : moved.length + bs.length ≤ new.capacity * 3 / 4)
    (hitems : ∀ x, (∃ c, new.slot c = some x) ↔ ∃ b ∈ moved, t.slot b = some x) :
    ∃ new', bs.foldlM (t.growStep H I) new = some new' ∧ Full H I new' ∧
      new'.capacity = new.capacity ∧ new'.count = (moved ++ bs).length ∧
      ∀ x, (∃ c, new'.slot c = some x) ↔ ∃ b ∈ moved ++ bs, t.slot b = some x := by
  induction bs generalizing moved new with
  | nil => exact ⟨new, rfl, hnew, rfl, by simpa using hcount, by simpa using hitems⟩
  | cons b bs ih =>
    obtain ⟨x, hx⟩ := Option.isSome_iff_exists.1 (hbs b List.mem_cons_self)
    have hdata : t.data b = some x := by
      rw [slot] at hx
      split_ifs at hx
      exact hx
    have hbm : b ∉ moved := fun hm =>
      (List.nodup_append.1 hnodup).2.2 b hm b List.mem_cons_self rfl
    -- No other item has the key.
    have habsent : ∀ c y, new.slot c = some y → H.eq (I.getKey y) (I.getKey x) = false := by
      intro c y hy
      obtain ⟨b', hb', hy'⟩ := (hitems y).1 ⟨c, hy⟩
      cases heq : H.eq (I.getKey y) (I.getKey x) with
      | false => rfl
      | true => exact absurd (h.unique b' b y x hy' hx heq ▸ hb') hbm
    obtain ⟨r, hr, hl⟩ := getBucket_spec hnew (I.getKey x)
    have hf : r.found = false := by
      cases hf : r.found with
      | false => rfl
      | true =>
        obtain ⟨y, hy, heq⟩ := hl.found hf
        rw [habsent _ y hy] at heq
        cases heq
    have hroom' : new.count + 1 ≤ new.capacity * 3 / 4 := by
      rw [List.length_cons] at hroom
      omega
    have hput := hnew.put hl hf (H.equivalence.refl (I.getKey x)) hroom'
    have hslot := slot_put (x := x) hnew.layout.covers hl.lt (n := new.count + 1)
    have hstep : t.growStep H I new b = some
        { new with usedTable := new.usedTable.set r.bucket true
                   data := Function.update new.data r.bucket (some x)
                   count := new.count + 1 } := by
      rw [growStep, hdata, Option.bind_some, hr, Option.map_some]
    rw [List.append_cons] at hnodup
    obtain ⟨new', hfold, hfull, hcap, hcount', hitems'⟩ := ih (moved ++ [b])
      (fun c hc => hbs c (List.mem_cons_of_mem _ hc)) hnodup hput (by simp [hcount])
      (by simp at hroom ⊢; omega) fun y => by
        rw [hslot]
        constructor
        · rintro ⟨c, hc⟩
          by_cases hcr : c = r.bucket
          · rw [hcr, Function.update_self] at hc
            obtain rfl := Option.some.inj hc
            exact ⟨b, by simp, hx⟩
          · rw [Function.update_of_ne hcr] at hc
            obtain ⟨b', hb', hy⟩ := (hitems y).1 ⟨c, hc⟩
            exact ⟨b', by simp [hb'], hy⟩
        · rintro ⟨b', hb', hy⟩
          rcases List.mem_append.1 hb' with hb' | hb'
          · obtain ⟨c, hc⟩ := (hitems y).2 ⟨b', hb', hy⟩
            refine ⟨c, ?_⟩
            rwa [Function.update_of_ne]
            rintro rfl
            rw [(hl.free hf).1] at hc
            cases hc
          · obtain rfl := List.mem_singleton.1 hb'
            refine ⟨r.bucket, ?_⟩
            rw [Function.update_self, ← hx, hy]
    refine ⟨new', ?_, hfull, hcap, by rw [hcount', List.append_cons moved b bs],
      fun y => by rw [hitems', List.append_cons moved b bs]⟩
    rw [List.foldlM_cons, hstep]
    exact hfold

theorem length_buckets (h : Layout t none) :
    t.usedTable.buckets.length = (used t.capacity t.slot).card := by
  rw [← List.toFinset_card_of_nodup BitSet.nodup_buckets]
  congr 1
  ext b
  rw [List.mem_toFinset, mem_buckets_iff h, used, Finset.mem_filter, Finset.mem_range]
  refine ⟨fun hb => ⟨?_, hb⟩, fun hb => hb.2⟩
  obtain ⟨x, hx⟩ := Option.isSome_iff_exists.1 hb
  exact slot_lt h hx

/-- `grow` keeps the items and makes room. -/
theorem grow_spec (h : Inv H I t) : ∃ t', t.grow H I = some t' ∧ Full H I t' ∧
    t'.count = t.count ∧ t'.count + 1 ≤ t'.capacity * 3 / 4 ∧
    ∀ x, (∃ b, t'.slot b = some x) ↔ ∃ b, t.slot b = some x := by
  rw [grow]
  rcases h with ⟨hcap, hcount, hb⟩ | h
  · have hnil : t.usedTable.buckets = [] := List.eq_nil_iff_forall_not_mem.2 fun b hm => by
      rw [BitSet.mem_buckets, hb] at hm
      cases hm
    have hnew := full_ofBuckets (H := H) (I := I) 4
    have hcap' : (ofBuckets (2 ^ 4) : DenseHashTable2 Item).capacity = 16 := capacity_ofBuckets _
    have hnone : ∀ b, t.slot b = none := fun b => by rw [slot, hb, if_neg (by simp)]
    rw [hnil, if_pos hcap]
    refine ⟨_, rfl, ⟨⟨hnew.layout.pow, hnew.layout.covers, hnew.layout.inside, hnew.layout.live⟩,
      hnew.probing, hnew.unique, ?_, ?_⟩, rfl, ?_, fun x => ?_⟩
    · show t.count = _
      rw [hcount]
      exact (count_ofBuckets (2 ^ 4)).symm.trans hnew.count
    · show t.count ≤ _
      rw [hcount]
      exact Nat.zero_le _
    · show t.count + 1 ≤ (ofBuckets (2 ^ 4) : DenseHashTable2 Item).capacity * 3 / 4
      rw [hcount, hcap']
      omega
    · refine iff_of_false ?_ (by simp [hnone])
      rintro ⟨b, hb⟩
      have := hnew.not_slot (count_ofBuckets _) b
      rw [slot] at hb this
      rw [show (ofBuckets (2 ^ 4) : DenseHashTable2 Item) = ofBuckets 16 from rfl] at this
      rw [this] at hb
      cases hb
  · obtain ⟨k, hk, -⟩ := h.layout.pow
    have hpos := h.layout.pos
    have hsize : t.capacity * 2 = 2 ^ (k + 1) := by rw [hk, Nat.pow_succ]
    have hnew := full_ofBuckets (H := H) (I := I) (k + 1)
    have hload := h.load
    have hlen := (length_buckets h.layout).trans h.count.symm
    have hcap : (ofBuckets (2 ^ (k + 1)) : DenseHashTable2 Item).capacity = t.capacity * 2 := by
      rw [capacity_ofBuckets, hsize]
    obtain ⟨new, hfold, hfull, hcap', hcount, hitems⟩ := growLoop_spec h t.usedTable.buckets
      [] (fun b hb => (mem_buckets_iff h.layout).1 hb) BitSet.nodup_buckets hnew
      (count_ofBuckets _) (by rw [hlen, hcap]; simp; omega) fun x => by
        simp [hnew.not_slot (count_ofBuckets _)]
    rw [if_neg hpos.ne', hsize, hfold, Option.map_some]
    have hcount' : new.count = t.count := by rw [hcount, List.nil_append, hlen]
    refine ⟨_, rfl, ⟨⟨hfull.layout.pow, hfull.layout.covers, hfull.layout.inside,
      hfull.layout.live⟩, hfull.probing, hfull.unique, ?_, ?_⟩, rfl, ?_, fun x => ?_⟩
    · show t.count = _
      rw [← hcount']
      exact hfull.count
    · show t.count ≤ _
      rw [← hcount']
      exact hfull.load
    · show t.count + 1 ≤ new.capacity * 3 / 4
      rw [hcap', hcap]
      omega
    · refine (hitems x).trans ⟨fun ⟨b, _, hb⟩ => ⟨b, hb⟩, fun ⟨b, hb⟩ => ⟨b, ?_, hb⟩⟩
      rw [List.nil_append, mem_buckets_iff h.layout, hb]
      rfl

/-- `rehash_if_full` keeps the items, and makes room for a new one. -/
theorem rehashIfFull_spec (h : Inv H I t) (key : K) : ∃ t', t.rehashIfFull H I key = some t' ∧
    Full H I t' ∧ t'.count = t.count ∧ (t'.count + 1 ≤ t'.capacity * 3 / 4 ∨
      ∃ b x, t'.slot b = some x ∧ H.eq (I.getKey x) key) ∧
    ∀ x, (∃ b, t'.slot b = some x) ↔ ∃ b, t.slot b = some x := by
  rw [rehashIfFull]
  split_ifs with hfull
  · obtain ⟨item, hfind, hsome, -⟩ := find_spec h key
    rw [hfind, Option.bind_some]
    cases item with
    | none =>
      obtain ⟨t', hgrow, ht', hcount, hroom, hitems⟩ := grow_spec h
      exact ⟨t', hgrow, ht', hcount, .inl hroom, hitems⟩
    | some x =>
      obtain ⟨b, hb, heq⟩ := hsome x rfl
      have ht : Full H I t := h.resolve_left fun h1 => by
        rw [slot, h1.2.2 b, if_neg (by simp)] at hb
        cases hb
      exact ⟨t, rfl, ht, rfl, .inr ⟨b, x, hb, heq⟩, fun y => .rfl⟩
  · have ht : Full H I t := h.resolve_left fun h1 => by
      rw [h1.1] at hfull
      omega
    exact ⟨t, rfl, ht, rfl, .inl (by omega), fun y => .rfl⟩

/-! ### Removal -/

section

variable {slots : ℕ → Option Item}

/-- An item goes to a free bucket. -/
def shifted (slots : ℕ → Option Item) (x : Item) (i j : ℕ) : ℕ → Option Item :=
  Function.update (Function.update slots i (some x)) j none

theorem shifted_eq_some (hfree : slots i = none) (hx : slots j = some x) {y : Item} {a : ℕ} :
    shifted slots x i j a = some y ↔ a = i ∧ y = x ∨ a ≠ j ∧ slots a = some y := by
  have hij : i ≠ j := by
    rintro rfl
    rw [hx] at hfree
    cases hfree
  rw [shifted]
  by_cases haj : a = j
  · subst haj
    simp [Ne.symm hij]
  · by_cases hai : a = i
    · subst hai
      simp [haj, hfree, eq_comm]
    · simp [haj, hai]

theorem Unique.shifted (hu : Unique H I slots) (hfree : slots i = none) (hx : slots j = some x) :
    Unique H I (shifted slots x i j) := by
  intro a b y z hy hz heq
  rcases (shifted_eq_some hfree hx).1 hy with ⟨rfl, rfl⟩ | ⟨haj, hy'⟩ <;>
    rcases (shifted_eq_some hfree hx).1 hz with ⟨rfl, rfl⟩ | ⟨hbj, hz'⟩
  · rfl
  · exact absurd (hu j b y z hx hz' heq).symm hbj
  · exact absurd (hu a j y z hy' hx heq) haj
  · exact hu a b y z hy' hz' heq

theorem items_shifted (hfree : slots i = none) (hx : slots j = some x) (y : Item) :
    (∃ a, shifted slots x i j a = some y) ↔ ∃ a, slots a = some y := by
  simp only [shifted_eq_some hfree hx]
  constructor
  · rintro ⟨a, ⟨rfl, rfl⟩ | ⟨-, ha⟩⟩
    · exact ⟨j, hx⟩
    · exact ⟨a, ha⟩
  · rintro ⟨a, ha⟩
    by_cases haj : a = j
    · rw [haj, hx] at ha
      exact ⟨i, .inl ⟨rfl, (Option.some.inj ha).symm⟩⟩
    · exact ⟨a, .inr ⟨haj, ha⟩⟩

theorem used_shifted {n : ℕ} (hi : i < n) (hj : j < n) (hfree : slots i = none)
    (hx : slots j = some x) : (used n (shifted slots x i j)).card = (used n slots).card := by
  have heq : used n (shifted slots x i j) = insert i ((used n slots).erase j) := by
    ext a
    simp only [used, Finset.mem_filter, Finset.mem_range, Option.isSome_iff_exists,
      shifted_eq_some hfree hx, Finset.mem_insert, Finset.mem_erase]
    constructor
    · rintro ⟨ha, y, ⟨rfl, -⟩ | ⟨haj, hy⟩⟩
      · exact .inl rfl
      · exact .inr ⟨haj, ha, y, hy⟩
    · rintro (rfl | ⟨haj, ha, y, hy⟩)
      · exact ⟨hi, x, .inl ⟨rfl, rfl⟩⟩
      · exact ⟨ha, y, .inr ⟨haj, hy⟩⟩
  have hmem : j ∈ used n slots := by simp [used, hj, hx]
  rw [heq, Finset.card_insert_of_notMem (by simp [used, hfree]), Finset.card_erase_of_mem hmem]
  have := Finset.card_pos.2 ⟨j, hmem⟩
  omega

theorem maskedSub_eq {hole : Option ℕ} (h : Layout t hole) (a b : ℕ) :
    t.maskedSub a b = dist t.capacity b a := h.mask _

theorem slot_shiftItem (h : Layout t (some i)) (hi : i < t.capacity) (hj : j < t.capacity) :
    Function.update (t.shiftItem x i j).slot j none =
      shifted (Function.update t.slot i none) x i j := by
  funext c
  rw [shifted]
  by_cases hcj : c = j
  · rw [hcj, Function.update_self, Function.update_self]
  · rw [Function.update_of_ne hcj, Function.update_of_ne hcj, slot, shiftItem]
    simp only [BitSet.contains_set h.covers.set hj, BitSet.contains_set h.covers hi, if_neg hcj,
      Function.update_of_ne hcj]
    by_cases hci : c = i
    · subst hci
      simp
    · simp [hci, slot]

theorem Layout.shiftItem (h : Layout t (some i)) (hi : i < t.capacity) (hj : j < t.capacity)
    (hij : i ≠ j) : Layout (t.shiftItem x i j) (some j) := by
  refine ⟨h.pow, h.covers.set.set, fun b hb => ?_, fun b hb hbj => ?_⟩
  · simp only [DenseHashTable2.shiftItem, BitSet.contains_set h.covers.set hj,
      BitSet.contains_set h.covers hi] at hb
    split_ifs at hb with h1 h2
    · exact h2 ▸ hi
    · exact h.inside b hb
  · have hbj : b ≠ j := fun h => hbj (by rw [h])
    simp only [DenseHashTable2.shiftItem, BitSet.contains_set h.covers.set hj,
      BitSet.contains_set h.covers hi, if_neg hbj] at hb
    rw [DenseHashTable2.shiftItem]
    by_cases hbi : b = i
    · simp [hbi, hij]
    · rw [if_neg hbi] at hb
      simpa [hbj, hbi] using h.live b hb fun h => hbi (Option.some.inj h).symm

/-- The loop of `doErase`, when the free bucket `e` is in front of it. -/
theorem eraseLoop_spec {e : ℕ} (fuel : ℕ) (hl : Layout t (some i))
    (hhole : Hole t.capacity (fun x => t.doHash H (I.getKey x)) (Function.update t.slot i none) i j)
    (hu : Unique H I (Function.update t.slot i none)) (he : e < t.capacity) (hei : e ≠ i)
    (hnone : t.slot e = none) (hej : 0 < dist t.capacity j e)
    (hfuel : dist t.capacity j e ≤ fuel) :
    ∃ t', eraseLoop H I fuel t i j = some t' ∧ Layout t' none ∧ t'.capacity = t.capacity ∧
      t'.count = t.count - 1 ∧ Probing t'.capacity (fun x => t'.doHash H (I.getKey x)) t'.slot ∧
      Unique H I t'.slot ∧
      (∀ x, (∃ b, t'.slot b = some x) ↔ ∃ b, Function.update t.slot i none b = some x) ∧
      (used t'.capacity t'.slot).card = (used t.capacity (Function.update t.slot i none)).card := by
  induction fuel generalizing t i j with
  | zero => omega
  | succ fuel ih =>
    have hi := hhole.hole_lt
    have hj := hhole.last_lt
    have hnone' : Function.update t.slot i none e = none := by rwa [Function.update_of_ne hei]
    have hji := hhole.next_ne he hei hnone'
    have hj' : next t.capacity j < t.capacity := next_lt (by omega)
    have hmask : (j + 1) &&& (t.capacity - 1) = next t.capacity j := hl.mask (j + 1)
    rw [eraseLoop]
    dsimp only
    rw [hmask]
    cases hc : t.usedTable.contains (next t.capacity j) with
    | false =>
      have hslot : slot { t with usedTable := t.usedTable.set i false
                                 data := Function.update t.data i none
                                 count := t.count - 1 } = Function.update t.slot i none := by
        funext c
        rw [slot]
        simp only [BitSet.contains_set hl.covers hi]
        by_cases hci : c = i
        · subst hci
          simp
        · simp [hci, slot]
      have hfree : Function.update t.slot i none (next t.capacity j) = none := by
        rw [Function.update_of_ne hji, slot, hc, if_neg (by simp)]
      refine ⟨_, rfl, ⟨hl.pow, hl.covers.set, fun b hb => ?_, fun b hb hne => ?_⟩, rfl, rfl, ?_, ?_,
        fun x => ?_, ?_⟩
      · simp only [BitSet.contains_set hl.covers hi] at hb
        split_ifs at hb
        exact hl.inside b hb
      · simp only [BitSet.contains_set hl.covers hi] at hb
        split_ifs at hb with hbi
        simpa [hbi] using hl.live b hb fun h => hbi (Option.some.inj h).symm
      · rw [hslot]
        have hhome : ∀ k, doHash H { t with usedTable := t.usedTable.set i false
                                            data := Function.update t.data i none
                                            count := t.count - 1 } k = t.doHash H k :=
          fun k => doHash_eq rfl
        simp only [hhome]
        exact hhole.close hji hfree
      · rwa [hslot]
      · rw [hslot]
      · rw [hslot]
    | true =>
      have hlive := hl.live _ hc fun h => hji (Option.some.inj h).symm
      obtain ⟨x, hx⟩ := Option.isSome_iff_exists.1 hlive
      have hxs : Function.update t.slot i none (next t.capacity j) = some x := by
        rw [Function.update_of_ne hji, slot, hc, if_pos rfl, hx]
      have hne : next t.capacity j ≠ e := by
        intro heq
        rw [heq, hnone'] at hxs
        cases hxs
      have hdist := dist_next_left hj he hej
      have hej' : 0 < dist t.capacity (next t.capacity j) e := Nat.pos_of_ne_zero fun h0 =>
        hne (eq_of_dist hj' hj' he ((dist_self hj').trans h0.symm))
      rw [if_neg (by simp), hx, Option.bind_some]
      split_ifs with hmove <;> rw [maskedSub_eq hl, maskedSub_eq hl] at hmove
      · -- The item goes into the hole, and its bucket is the hole.
        have hfree : Function.update t.slot i none i = none := Function.update_self ..
        have hslot := slot_shiftItem (x := x) hl hi hj'
        have hnone1 : (t.shiftItem x i (next t.capacity j)).slot e = none := by
          have := congrFun hslot e
          rw [Function.update_of_ne hne.symm] at this
          rw [this, shifted, Function.update_of_ne hne.symm, Function.update_of_ne hei, hnone']
        have hle : dist t.capacity (next t.capacity j) e ≤ fuel := by omega
        have hhome : ∀ k, (t.shiftItem x i (next t.capacity j)).doHash H k = t.doHash H k :=
          fun k => doHash_eq rfl
        obtain ⟨t', h1, h2, h3, h4, h5, h6, h7, h8⟩ := ih (hl.shiftItem hi hj' hji.symm)
          (by simp only [hslot, hhome]; exact hhole.shift hji hxs hmove)
          (by rw [hslot]; exact hu.shifted hfree hxs) he hne.symm hnone1 hej' hle
        refine ⟨t', h1, h2, h3, h4, h5, h6, fun y => ?_, ?_⟩
        · rw [h7, hslot, items_shifted hfree hxs]
        · rw [h8, hslot]
          exact used_shifted hi hj' hfree hxs
      · exact ih hl (hhole.skip hji hxs hmove) hu he hei hnone hej' (by omega)

end

/-- **An item is removed**, and all others stay. -/
theorem doErase_spec (h : Full H I t) (hx : t.slot b = some x) :
    ∃ t', t.doErase H I b = some t' ∧ Full H I t' ∧ t'.count = t.count - 1 ∧
      ∀ y, (∃ c, t'.slot c = some y) ↔ ∃ c ≠ b, t.slot c = some y := by
  have hb := slot_lt h.layout hx
  have hpos := h.layout.pos
  obtain ⟨e, he, hnone⟩ := h.free
  have heb : e ≠ b := by
    rintro rfl
    rw [hx] at hnone
    cases hnone
  have hl : Layout t (some b) :=
    ⟨h.layout.pow, h.layout.covers, h.layout.inside, fun c hc _ => h.layout.live c hc (by simp)⟩
  have hu : Unique H I (Function.update t.slot b none) := by
    intro a c y z hy hz heq
    by_cases hab : a = b
    · rw [hab, Function.update_self] at hy
      cases hy
    · by_cases hcb : c = b
      · rw [hcb, Function.update_self] at hz
        cases hz
      · rw [Function.update_of_ne hab] at hy
        rw [Function.update_of_ne hcb] at hz
        exact h.unique a c y z hy hz heq
  have hej : 0 < dist t.capacity b e := Nat.pos_of_ne_zero fun h0 =>
    heb (eq_of_dist hb he hb (h0.trans (dist_self hb).symm))
  obtain ⟨t', h1, h2, h3, h4, h5, h6, h7, h8⟩ := eraseLoop_spec t.capacity hl
    (h.probing.hole hb) hu he heb hnone hej (dist_lt hpos).le
  -- One bucket less is used.
  have hcard : (used t.capacity (Function.update t.slot b none)).card = t.count - 1 := by
    have heq : used t.capacity (Function.update t.slot b none) = (used t.capacity t.slot).erase b := by
      ext c
      by_cases hcb : c = b
      · subst hcb
        simp [used]
      · simp [used, hcb]
    rw [heq, Finset.card_erase_of_mem (by simp [used, hb, hx]), h.count]
  have hload := h.load
  refine ⟨t', h1, ⟨h2, h5, h6, by rw [h4, h8, hcard], by rw [h4, h3]; omega⟩, h4, fun y => ?_⟩
  rw [h7]
  constructor
  · rintro ⟨c, hc⟩
    by_cases hcb : c = b
    · rw [hcb, Function.update_self] at hc
      cases hc
    · rw [Function.update_of_ne hcb] at hc
      exact ⟨c, hcb, hc⟩
  · rintro ⟨c, hcb, hc⟩
    exact ⟨c, by rwa [Function.update_of_ne hcb]⟩

/-- `erase` ends, and removes the item with the key only. -/
theorem erase_spec (h : Inv H I t) (key : K) : ∃ t', t.erase H I key = some t' ∧ Inv H I t' ∧
    ∀ x, (∃ b, t'.slot b = some x) ↔
      (∃ b, t.slot b = some x) ∧ H.eq (I.getKey x) key = false := by
  rw [erase]
  split_ifs with h0
  · refine ⟨t, rfl, h, fun x => iff_of_false ?_ ?_⟩ <;> simp [h.not_slot h0]
  · have hfull : Full H I t := h.resolve_left fun h1 => h0 h1.2.1
    obtain ⟨r, hr, hlook⟩ := getBucket_spec hfull key
    rw [hr, Option.bind_some]
    cases hf : r.found with
    | false =>
      exact ⟨t, by simp, h, fun x => ⟨fun ⟨b, hb⟩ => ⟨⟨b, hb⟩, hlook.absent hf b x hb⟩, And.left⟩⟩
    | true =>
      obtain ⟨x, hx, heq⟩ := hlook.found hf
      obtain ⟨t', ht', hfull', -, hitems⟩ := doErase_spec hfull hx
      refine ⟨t', by simpa using ht', .inr hfull', fun y => (hitems y).trans ?_⟩
      constructor
      · rintro ⟨c, hc, hy⟩
        refine ⟨⟨c, hy⟩, ?_⟩
        cases hyk : H.eq (I.getKey y) key with
        | false => rfl
        | true => exact absurd (hfull.unique c r.bucket y x hy hx
            (H.equivalence.trans hyk (H.equivalence.symm heq))) hc
      · rintro ⟨⟨c, hy⟩, hyk⟩
        refine ⟨c, fun hc => ?_, hy⟩
        rw [hc, hx] at hy
        rw [← Option.some.inj hy, heq] at hyk
        cases hyk

/-! ### Copies and empty tables -/

theorem clear_spec (h : Inv H I t) (n : ℕ) :
    Inv H I (t.clear n) ∧ ∀ b, (t.clear n).slot b = none := by
  rw [clear]
  split_ifs with h0 hn
  · exact ⟨h, h.not_slot h0⟩
  · refine ⟨.inl ⟨rfl, rfl, fun b => BitSet.contains_default⟩, fun b => ?_⟩
    rw [slot]
    simp [destroy]
  · have hfull : Full H I t := h.resolve_left fun h1 => h0 h1.2.1
    have hslot : ∀ b, slot ({ t with data := fun _ => none
                                     usedTable := t.usedTable.clear
                                     count := 0 } : DenseHashTable2 Item) b = none := fun b => by
      rw [slot]
      simp
    refine ⟨.inr ⟨⟨hfull.layout.pow, hfull.layout.covers.clear, by simp, by simp⟩,
      ⟨hfull.probing.home_lt, fun b _ x hx => ?_⟩, fun a b x y hx => ?_, ?_, Nat.zero_le _⟩, hslot⟩
    · rw [hslot] at hx
      cases hx
    · rw [hslot] at hx
      cases hx
    · refine (Finset.card_eq_zero.2 (Finset.filter_eq_empty_iff.2 fun b _ => ?_)).symm
      rw [hslot]
      simp

/-- The loop of the copy constructor. -/
theorem copyLoop_spec (other : DenseHashTable2 Item) {n : ℕ} (bs : List ℕ) (hbs : ∀ b ∈ bs, b < n)
    (new : DenseHashTable2 Item) (hnew : new.usedTable.Covers n) :
    ∃ used data, bs.foldl (fun new bucket =>
      { new with
        data := Function.update new.data bucket (other.data bucket)
        usedTable := new.usedTable.set bucket true }) new =
          { new with usedTable := used, data := data } ∧ used.Covers n ∧
      (∀ c, used.contains c ↔ new.usedTable.contains c ∨ c ∈ bs) ∧
      ∀ c, data c = if c ∈ bs then other.data c else new.data c := by
  induction bs generalizing new with
  | nil => exact ⟨new.usedTable, new.data, rfl, hnew, by simp, by simp⟩
  | cons b bs ih =>
    have hb := hbs b List.mem_cons_self
    obtain ⟨used, data, hfold, hcov, hused, hdata⟩ := ih
      (fun c hc => hbs c (List.mem_cons_of_mem _ hc))
      { new with data := Function.update new.data b (other.data b)
                 usedTable := new.usedTable.set b true } hnew.set
    refine ⟨used, data, hfold, hcov, fun c => ?_, fun c => ?_⟩
    · rw [hused]
      simp only [BitSet.contains_set hnew hb, List.mem_cons]
      by_cases hcb : c = b <;> simp [hcb]
    · rw [hdata]
      by_cases hcb : c = b
      · subst hcb
        simp
      · simp [hcb]

/-- A copy has the same buckets. -/
theorem copy_spec (h : Inv H I t) : Inv H I t.copy ∧ t.copy.slot = t.slot := by
  rw [copy]
  rcases h with ⟨hcap, hcount, hb⟩ | h
  · dsimp only
    rw [if_pos hcap]
    refine ⟨.inl ⟨rfl, hcount, fun b => BitSet.contains_default⟩, funext fun b => ?_⟩
    rw [slot, slot, hb b]
    simp
  · have hpos := h.layout.pos
    have hcov : (BitSet.ofCapacity t.capacity).Covers t.capacity := by
      obtain ⟨k, hk, -⟩ := h.layout.pow
      have := (full_ofBuckets (H := H) (I := I) k).layout.covers
      rw [capacity_ofBuckets, ← hk, ofBuckets, if_neg hpos.ne'] at this
      exact this
    have hbs : ∀ b ∈ t.usedTable.buckets, b < t.capacity := fun b hb =>
      h.layout.inside b (BitSet.mem_buckets.1 hb)
    dsimp only
    rw [if_neg hpos.ne']
    obtain ⟨used', data, hfold, hcov', hused, hdata⟩ := copyLoop_spec t t.usedTable.buckets hbs
      { count := t.count, hashShift := t.hashShift, usedTable := BitSet.ofCapacity t.capacity } hcov
    rw [hfold]
    have hcontains : ∀ c, used'.contains c = t.usedTable.contains c := fun c => by
      rw [Bool.eq_iff_iff, hused, BitSet.mem_buckets]
      simp
    have hdata' : ∀ c, t.usedTable.contains c → data c = t.data c := fun c hc => by
      rw [hdata, if_pos (BitSet.mem_buckets.2 hc)]
    have hslot : slot ⟨data, used', t.capacity, t.count, t.hashShift⟩ = t.slot := by
      funext c
      rw [slot, slot, hcontains]
      by_cases hc : t.usedTable.contains c
      · simp only [hc, if_true, hdata' c hc]
      · simp [hc]
    have hhome : ∀ k, doHash H (⟨data, used', t.capacity, t.count, t.hashShift⟩ :
        DenseHashTable2 Item) k = t.doHash H k := fun k => doHash_eq rfl
    refine ⟨.inr ⟨⟨h.layout.pow, hcov', fun b hb => ?_, fun b hb hne => ?_⟩, ?_, ?_, ?_, h.load⟩,
      hslot⟩
    · rw [hcontains] at hb
      exact h.layout.inside b hb
    · rw [hcontains] at hb
      show (data b).isSome
      rw [hdata' b hb]
      exact h.layout.live b hb hne
    · simp only [hslot, hhome]
      exact h.probing
    · rw [hslot]
      exact h.unique
    · rw [hslot]
      exact h.count

/-! ### Loops over the table -/

theorem skipUnused_spec (fuel index : ℕ) (hi : index ≤ t.capacity)
    (hfuel : t.capacity ≤ index + fuel) :
    index ≤ t.skipUnused fuel index ∧ t.skipUnused fuel index ≤ t.capacity ∧
      (∀ c, index ≤ c → c < t.skipUnused fuel index → t.usedTable.contains c = false) ∧
      (t.skipUnused fuel index < t.capacity → t.usedTable.contains (t.skipUnused fuel index)) := by
  induction fuel generalizing index with
  | zero =>
    rw [skipUnused]
    exact ⟨le_rfl, hi, by omega, by omega⟩
  | succ fuel ih =>
    rw [skipUnused]
    split_ifs with h
    · obtain ⟨h1, h2, h3, h4⟩ := ih (index + 1) h.1 (by omega)
      refine ⟨by omega, h2, fun c hc hlt => ?_, h4⟩
      rcases Nat.eq_or_lt_of_le hc with rfl | hc
      · simpa using h.2
      · exact h3 c hc hlt
    · exact ⟨le_rfl, hi, by omega, fun hlt => by simpa [hlt] using h⟩

theorem filterMap_unused {a n : ℕ} (h : ∀ c, a ≤ c → c < a + n → t.usedTable.contains c = false) :
    (List.range' a n).filterMap t.slot = [] := by
  refine List.filterMap_eq_nil_iff.2 fun c hc => ?_
  obtain ⟨h1, h2⟩ := List.mem_range'_1.1 hc
  rw [slot, h c h1 h2, if_neg (by simp)]

theorem iterateFrom_spec (h : Layout t none) (fuel : ℕ) {index : ℕ} (hi : index ≤ t.capacity)
    (hused : index < t.capacity → t.usedTable.contains index)
    (hfuel : t.capacity < index + fuel) : t.iterateFrom fuel index =
      some ((List.range' index (t.capacity - index)).filterMap t.slot) := by
  induction fuel generalizing index with
  | zero => omega
  | succ fuel ih =>
    rw [iterateFrom]
    split_ifs with heq
    · rw [heq, Nat.sub_self]
      rfl
    · have hlt : index < t.capacity := by omega
      obtain ⟨x, hx⟩ := Option.isSome_iff_exists.1 (h.live index (hused hlt) (by simp))
      have hslot : t.slot index = some x := by rw [slot, hused hlt, if_pos rfl, hx]
      obtain ⟨h1, h2, h3, h4⟩ := skipUnused_spec (t := t) t.capacity (index + 1) hlt (by omega)
      rw [hx, Option.bind_some, ih h2 h4 (by omega), Option.map_some]
      generalize t.skipUnused t.capacity (index + 1) = j at h1 h2 h3
      rw [show t.capacity - index = (j - (index + 1) + (t.capacity - j)) + 1 by omega,
        List.range'_succ, List.filterMap_cons_some hslot, ← List.range'_append_1,
        List.filterMap_append, filterMap_unused fun c hc hlt => h3 c hc (by omega)]
      rw [List.nil_append, show index + 1 + (j - (index + 1)) = j by omega]

/-- **A loop over a table goes through its buckets.** -/
theorem iterate_spec (h : Inv H I t) :
    t.iterate = some ((List.range t.capacity).filterMap t.slot) := by
  rcases h with ⟨hcap, -, -⟩ | h
  · rw [iterate, hcap, skipUnused, iterateFrom, if_pos hcap.symm]
    rfl
  · obtain ⟨-, h2, h3, h4⟩ := skipUnused_spec (t := t) t.capacity 0 (Nat.zero_le _) (by omega)
    rw [iterate, iterateFrom_spec h.layout _ h2 h4 (by omega)]
    generalize t.skipUnused t.capacity 0 = j at h2 h3
    rw [List.range_eq_range', show t.capacity = j + (t.capacity - j) by omega,
      ← List.range'_append_1, List.filterMap_append, filterMap_unused fun c hc hlt =>
        h3 c hc (by omega)]
    simp

end DenseHashTable2

end Dense

end Jaci
