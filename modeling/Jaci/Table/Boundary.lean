import Jaci.Table.Resize

/-!
# Boundaries

`luaH_getn` finds an index whose value is not nil while the next one is, by a cached boundary, a
step up or down from it, or a binary search.  The field `lastfree` holds the cache when it is not
positive.  A read outside of the block of the array part has no result (`none`).

* `updateaboundary`, `luaH_getn` : the source;
* `searchLoop_spec` : the binary search;
* `luaH_getn_spec` : the result is a boundary, and the cache stays inside the array part.
-/

namespace Jaci

namespace Table

variable {σ π ω V : Type}

/-! ### The search for a boundary -/

/-- Is a slot of the block nil? -/
def isNilAt (t : LuaTable (Key σ π ω) V) (i : ℕ) : Option Bool := t.array[i]?.map Option.isNone

/-- The condition `c && x`, where `x` is not read if `c` is false. -/
def andAlso (c : Bool) (x : Option Bool) : Option Bool := if c then x else some false

/-- `updateaboundary`: the new boundary, or 0. -/
def updateaboundary (t : LuaTable (Key σ π ω) V) (boundary : ℕ) :
    Option (ℕ × LuaTable (Key σ π ω) V) := do
  let down ← andAlso (boundary < t.sizearray) (isNilAt t (boundary - 1))
  if down then
    let found ← andAlso (boundary ≥ 2) ((isNilAt t (boundary - 2)).map not)
    if found then some (boundary - 1, maybesetaboundary t (boundary - 1)) else some (0, t)
  else
    let up ← andAlso (boundary + 1 < t.sizearray) ((isNilAt t boundary).map not)
    let up ← andAlso up (isNilAt t (boundary + 1))
    if up then some (boundary + 1, maybesetaboundary t (boundary + 1)) else some (0, t)

/-- The loop of the binary search. -/
def searchLoop (t : LuaTable (Key σ π ω) V) : ℕ → ℕ → ℕ → Option ℕ
  | 0, base, _ => some base
  | turns + 1, base, rest =>
    let half := rest >>> 1
    if half = 0 then some base
    else do
      let nil ← isNilAt t (base + half)
      searchLoop t turns (if nil then base else base + half) (rest - half)

/-- The end of `luaH_getn`: the size of the array part, or a binary search. -/
def searchBoundary (t : LuaTable (Key σ π ω) V) : Option (ℕ × LuaTable (Key σ π ω) V) := do
  let j := t.sizearray
  let inside ← andAlso (j > 0) (isNilAt t (j - 1))
  if inside then
    let base ← searchLoop t j 0 j
    let nil ← isNilAt t base
    let boundary := (!nil).toNat + base
    some (boundary, maybesetaboundary t boundary)
  else some (j, t)

def luaH_getn (t : LuaTable (Key σ π ω) V) : Option (ℕ × LuaTable (Key σ π ω) V) := do
  let boundary := getaboundary t
  if boundary > 0 then
    let full ← (isNilAt t (t.sizearray - 1)).map not
    if full && t.sizenode = 0 then some (t.sizearray, t)
    else
      let cached ← andAlso (boundary < t.sizearray) ((isNilAt t (boundary - 1)).map not)
      let cached ← andAlso cached (isNilAt t boundary)
      if cached then some (boundary, t)
      else
        let (found, t) ← updateaboundary t boundary
        if found > 0 then some (found, t) else searchBoundary t
  else searchBoundary t

/-! ### The result is a boundary -/

variable {hash : Key σ π ω → ℕ} {t : LuaTable (Key σ π ω) V}

theorem isNilAt_eq (h : t.array.length = t.sizearray) {i : ℕ} (hi : i < t.sizearray) :
    isNilAt t i = some (t.arrayAt i).isNone := by
  have hlt : i < t.array.length := by omega
  simp [isNilAt, LuaTable.arrayAt, hlt]

/-- An index of the array part with a value, or 0, before an index without. -/
structure IsBoundary (t : LuaTable (Key σ π ω) V) (n : ℕ) : Prop where
  le : n ≤ t.sizearray
  value : n = 0 ∨ t.arrayAt (n - 1) ≠ none
  next : n < t.sizearray → t.arrayAt n = none

/-- The binary search ends at a boundary: there is a nil at the end of the range, and the start has
a value unless the range starts at 0. -/
theorem searchLoop_spec (h : t.array.length = t.sizearray) (turns base rest : ℕ)
    (hturns : rest ≤ turns) (hrest : 0 < rest) (hle : base + rest ≤ t.sizearray)
    (hbase : base = 0 ∨ t.arrayAt base ≠ none)
    (hend : ∃ e, rest - 1 ≤ e ∧ e ≤ rest ∧ base + e < t.sizearray ∧ t.arrayAt (base + e) = none) :
    ∃ b, searchLoop t turns base rest = some b ∧ b < t.sizearray ∧
      (b = 0 ∨ t.arrayAt b ≠ none) ∧
      ∃ e ≤ 1, b + e < t.sizearray ∧ t.arrayAt (b + e) = none := by
  induction turns generalizing base rest with
  | zero => omega
  | succ turns ih =>
    obtain ⟨e, he1, he2, he3, he4⟩ := hend
    have hhalf : rest >>> 1 = rest / 2 := Nat.shiftRight_one rest
    rw [searchLoop, hhalf]
    by_cases h0 : rest / 2 = 0
    · rw [if_pos h0]
      exact ⟨base, rfl, by omega, hbase, e, by omega, he3, he4⟩
    · simp only [if_neg h0, isNilAt_eq h (show base + rest / 2 < t.sizearray by omega),
        Option.bind_eq_bind, Option.bind_some]
      cases hv : t.arrayAt (base + rest / 2) with
      | none =>
        exact ih base (rest - rest / 2) (by omega) (by omega) (by omega) hbase
          ⟨rest / 2, by omega, by omega, by omega, hv⟩
      | some v =>
        refine ih (base + rest / 2) (rest - rest / 2) (by omega) (by omega) (by omega)
          (.inr (by simp [hv])) ⟨e - rest / 2, by omega, by omega, by omega, ?_⟩
        rw [← he4]
        congr 1
        omega

/-- The result of a search: a boundary, which may be cached. -/
def Finds (t : LuaTable (Key σ π ω) V) (r : Option (ℕ × LuaTable (Key σ π ω) V)) : Prop :=
  ∃ n, IsBoundary t n ∧ (r = some (n, t) ∨ r = some (n, maybesetaboundary t n))

theorem searchBoundary_spec (h : t.array.length = t.sizearray) : Finds t (searchBoundary t) := by
  rw [searchBoundary]
  by_cases h0 : t.sizearray > 0
  · cases hv : t.arrayAt (t.sizearray - 1) with
    | some v =>
      refine ⟨t.sizearray, ⟨le_rfl, .inr (by simp [hv]), fun h => absurd h (lt_irrefl _)⟩, .inl ?_⟩
      simp [andAlso, h0, isNilAt_eq h (show t.sizearray - 1 < t.sizearray by omega), hv]
    | none =>
      obtain ⟨b, hb, hlt, hb1, e, he1, he2, he3⟩ := searchLoop_spec h t.sizearray 0 t.sizearray
        le_rfl h0 (by omega) (.inl rfl)
        ⟨t.sizearray - 1, by omega, by omega, by omega, by rw [Nat.zero_add, hv]⟩
      refine ⟨(!(t.arrayAt b).isNone).toNat + b, ?_, .inr ?_⟩
      · cases hbv : t.arrayAt b with
        | none =>
          obtain rfl : b = 0 := hb1.resolve_right fun h => h hbv
          exact ⟨Nat.zero_le _, .inl rfl, fun _ => hbv⟩
        | some v =>
          have he : e = 1 := by
            rcases Nat.eq_zero_or_pos e with rfl | hpos
            · rw [Nat.add_zero, hbv] at he3
              exact absurd he3 (by simp)
            · omega
          subst he
          have h1 : (!(some v).isNone).toNat + b = b + 1 := Nat.add_comm 1 b
          rw [h1]
          exact ⟨he2.le, .inr (by simp [hbv]), fun _ => he3⟩
      · simp [andAlso, h0, isNilAt_eq h (show t.sizearray - 1 < t.sizearray by omega), hv, hb,
          isNilAt_eq h hlt]
  · refine ⟨t.sizearray, ⟨le_rfl, .inl (by omega), fun h => absurd h (lt_irrefl _)⟩, .inl ?_⟩
    simp [andAlso, h0]

/-- A step up or down from the cached boundary, if it leads to a boundary. -/
theorem updateaboundary_spec (h : t.array.length = t.sizearray) {boundary : ℕ}
    (hpos : 0 < boundary) (hle : boundary ≤ t.sizearray) :
    updateaboundary t boundary = some (0, t) ∨
      ∃ n, 0 < n ∧ IsBoundary t n ∧
        updateaboundary t boundary = some (n, maybesetaboundary t n) := by
  have hread : ∀ i, i < t.sizearray → isNilAt t i = some (t.arrayAt i).isNone := fun i hi =>
    isNilAt_eq h hi
  rw [updateaboundary]
  by_cases h1 : boundary < t.sizearray
  · cases hdown : t.arrayAt (boundary - 1) with
    | none =>
      by_cases h2 : 2 ≤ boundary
      · cases hbelow : t.arrayAt (boundary - 2) with
        | none =>
          left
          simp [andAlso, h1, h2, hread (boundary - 1) (by omega), hread (boundary - 2) (by omega),
            hdown, hbelow]
        | some v =>
          refine .inr ⟨boundary - 1, by omega, ⟨by omega, .inr ?_, fun _ => hdown⟩, ?_⟩
          · rw [show boundary - 1 - 1 = boundary - 2 by omega, hbelow]
            simp
          · simp [andAlso, h1, h2, hread (boundary - 1) (by omega),
              hread (boundary - 2) (by omega), hdown, hbelow]
      · left
        simp [andAlso, h1, h2, hread (boundary - 1) (by omega), hdown]
    | some v =>
      by_cases h2 : boundary + 1 < t.sizearray
      · cases hat : t.arrayAt boundary with
        | none =>
          left
          simp [andAlso, h1, h2, hread (boundary - 1) (by omega), hread boundary h1, hdown, hat]
        | some w =>
          cases habove : t.arrayAt (boundary + 1) with
          | none =>
            refine .inr ⟨boundary + 1, by omega, ⟨by omega, .inr ?_, fun _ => habove⟩, ?_⟩
            · simp [hat]
            · simp [andAlso, h1, h2, hread (boundary - 1) (by omega), hread boundary h1,
                hread (boundary + 1) h2, hdown, hat, habove]
          | some x =>
            left
            simp [andAlso, h1, h2, hread (boundary - 1) (by omega), hread boundary h1,
              hread (boundary + 1) h2, hdown, hat, habove]
      · left
        simp [andAlso, h1, h2, hread (boundary - 1) (by omega), hdown]
  · left
    simp [andAlso, h1, show ¬boundary + 1 < t.sizearray by omega]

/-- `luaH_getn` finds a boundary, within the block of the array part. -/
theorem luaH_getn_spec (h : t.array.length = t.sizearray) (hcache : -t.lastfree ≤ t.sizearray) :
    Finds t (luaH_getn t) := by
  have hread : ∀ i, i < t.sizearray → isNilAt t i = some (t.arrayAt i).isNone := fun i hi =>
    isNilAt_eq h hi
  have hle : getaboundary t ≤ t.sizearray := by
    rw [getaboundary]
    split_ifs <;> omega
  rw [luaH_getn]
  by_cases hpos : getaboundary t > 0
  · simp only [if_pos hpos, hread (t.sizearray - 1) (by omega), Option.map_some,
      Option.bind_eq_bind, Option.bind_some]
    by_cases hfull : (!(t.arrayAt (t.sizearray - 1)).isNone && decide (t.sizenode = 0)) = true
    · rw [if_pos hfull]
      refine ⟨t.sizearray, ⟨le_rfl, .inr ?_, fun h => absurd h (lt_irrefl _)⟩, .inl rfl⟩
      intro e
      simp [e] at hfull
    · rw [if_neg hfull]
      by_cases hcached : getaboundary t < t.sizearray ∧ t.arrayAt (getaboundary t - 1) ≠ none ∧
          t.arrayAt (getaboundary t) = none
      · obtain ⟨h1, h2, h3⟩ := hcached
        refine ⟨getaboundary t, ⟨hle, .inr h2, fun _ => h3⟩, .inl ?_⟩
        obtain ⟨v, hv⟩ := Option.ne_none_iff_exists'.mp h2
        simp [andAlso, h1, hread (getaboundary t - 1) (by omega), hread _ h1, hv, h3]
      · -- neither fast path applies
        have hskip : (andAlso (getaboundary t < t.sizearray)
            ((isNilAt t (getaboundary t - 1)).map not)).bind
              (fun cached => andAlso cached (isNilAt t (getaboundary t))) = some false := by
          by_cases h1 : getaboundary t < t.sizearray
          · cases h2 : t.arrayAt (getaboundary t - 1) with
            | none => simp [andAlso, h1, hread (getaboundary t - 1) (by omega), h2]
            | some v =>
              have h3 : t.arrayAt (getaboundary t) ≠ none := fun e =>
                hcached ⟨h1, by simp [h2], e⟩
              obtain ⟨w, hw⟩ := Option.ne_none_iff_exists'.mp h3
              simp [andAlso, h1, hread (getaboundary t - 1) (by omega), hread _ h1, h2, hw]
          · simp [andAlso, h1]
        rw [← Option.bind_assoc, hskip, Option.bind_some, if_neg (by simp)]
        rcases updateaboundary_spec h hpos hle with hu | ⟨n, hn, hb, hu⟩
        · rw [hu, Option.bind_some]
          exact searchBoundary_spec h
        · rw [hu, Option.bind_some]
          exact ⟨n, hb, .inr (if_pos hn)⟩
  · simp only [if_neg hpos]
    exact searchBoundary_spec h

/-- A boundary is cached only if no node is free. -/
theorem Good.maybesetaboundary (h : Good hash t) {n : ℕ} (hn : n ≤ t.sizearray) :
    Good hash (maybesetaboundary t n) := by
  rw [Table.maybesetaboundary]
  split_ifs with hx
  · have hfull : ∀ i < t.sizenode, (t.node i).key ≠ none := fun i hi =>
      h.nodes.taken i hi (by omega)
    exact ⟨h.toWf.with_lastfree hfull (by omega) (by omega), h.length⟩
  · exact h

variable [DecidableEq σ] [DecidableEq π] [DecidableEq ω]

/-- A boundary of the array part is one of the table. -/
theorem IsBoundary.luaH_getnum (h : Good hash t) {n : ℕ} (hb : IsBoundary t n) :
    (n = 0 ∨ t.value (luaH_getnum hash t n) ≠ none) ∧
      t.value (luaH_getnum hash t (n + 1)) = none := by
  refine ⟨?_, ?_⟩
  · rcases Nat.eq_zero_or_pos n with h0 | hpos
    · exact .inl h0
    · have hle := hb.le
      have := hb.value.resolve_left (by omega)
      rw [Table.luaH_getnum, if_pos (by omega), show ((n : ℤ) - 1).toNat = n - 1 by omega]
      exact .inr this
  · rcases Nat.lt_or_eq_of_le hb.le with hlt | rfl
    · rw [Table.luaH_getnum, if_pos (by omega), show ((n : ℤ) + 1 - 1).toNat = n by omega]
      exact hb.next hlt
    · rw [← luaH_get_number hash h.size]
      exact h.toWf.content_boundary

/-- The length of a sequence is the number of its elements. -/
theorem IsBoundary.eq_of_sequence (h : Good hash t) {n : ℕ} (hb : IsBoundary t n) {len : ℕ}
    (hseq : ∀ i : ℕ, 1 ≤ i → (t.value (Table.luaH_getnum hash t i) ≠ none ↔ i ≤ len)) : n = len := by
  obtain ⟨hlast, hnext⟩ := hb.luaH_getnum h
  have hle : n ≤ len := by
    rcases hlast with rfl | hlast
    · exact Nat.zero_le _
    · rcases Nat.eq_zero_or_pos n with rfl | hpos
      · exact Nat.zero_le _
      · exact (hseq n hpos).1 hlast
  have hge : ¬ n + 1 ≤ len := by
    intro hlt
    refine (hseq (n + 1) (by omega)).2 hlt ?_
    push_cast
    exact hnext
  omega

end Table

end Jaci
