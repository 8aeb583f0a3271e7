import Jaci.LuaJson.Encode
import Mathlib.Data.Fintype.Card
import Mathlib.Logic.Relation

/-!
# Tables that are shared

Here tables are in a heap, so that a table can be in several others, or in itself.  The encoder
keeps the tables that it is in, and fails when it comes to one of them again.

* `encode_value` : the encoder on a heap, which ends as there are finitely many tables;
* `Visits` : the tables that are written inside of a table;
* `json_encode_cycle_iff` : **cycles are found, and nothing else is taken for one**.
-/

namespace Jaci

namespace LuaJson

open Wire Json

/-! ### The heap -/

/-- A Lua value in a heap with `n` tables. -/
inductive HeapValue (n : ℕ) where
  /-- `LUA_TNIL`. -/
  | nil
  /-- `LUA_TBOOLEAN`. -/
  | boolean (b : Bool)
  /-- `LUA_TNUMBER`. -/
  | number (d : Double)
  /-- `LUA_TINTEGER`. -/
  | integer (i : Int64)
  /-- `LUA_TSTRING` and `LUA_TBUFFER`. -/
  | string (s : Bytes)
  /-- `LUA_TLIGHTUSERDATA`: the null marker or something else. -/
  | lightuserdata (null : Bool)
  /-- `LUA_TTABLE`. -/
  | table (p : Fin n)
  | other (typename : String)
deriving DecidableEq

/-- A table. -/
structure HeapTable (n : ℕ) where
  /-- `__jsontype` of its metatable. -/
  tag : Option JsonType
  /-- `lua_objlen`. -/
  len : ℕ
  /-- Its entries, in the order of `lua_next`. -/
  entries : List (Key × HeapValue n)
  /-- The length is that of an `int`. -/
  len_lt : len < 2 ^ 31
  nodup : (entries.map Prod.fst).Nodup

variable {n : ℕ}

namespace HeapTable

/-- `lua_rawgeti`. -/
def rawgeti (t : HeapTable n) (i : ℕ) : HeapValue n :=
  match t.entries.find? fun e => e.1 = indexKey i with
  | some e => e.2
  | none => .nil

/-- The table is written as an array. -/
def is_array (t : HeapTable n) : Bool :=
  match t.tag with
  | some .array => true
  | some .object => false
  | none => decide (0 < t.len) && t.entries.all fun e => e.1.inRange t.len

/-- The elements of an array. -/
def elements (t : HeapTable n) : List (HeapValue n) :=
  (List.range t.len).map fun i => t.rawgeti (i + 1)

/-- The values that are written inside of the table. -/
def children (t : HeapTable n) : List (HeapValue n) :=
  if t.is_array then t.elements else t.entries.map Prod.snd

theorem rawgeti_of_mem {t : HeapTable n} {i : ℕ} {v : HeapValue n}
    (h : (indexKey i, v) ∈ t.entries) : t.rawgeti i = v := by
  rw [rawgeti]
  cases hfind : t.entries.find? fun e => e.1 = indexKey i with
  | none =>
    have hother := List.find?_eq_none.mp hfind _ h
    simp at hother
  | some e =>
    have hkey : e.1 = indexKey i := by simpa using List.find?_some hfind
    have hmem := List.mem_of_find?_eq_some hfind
    exact congrArg Prod.snd (List.inj_on_of_nodup_map t.nodup hmem h hkey)

theorem mem_of_rawgeti {t : HeapTable n} {i : ℕ} {p : Fin n} (h : t.rawgeti i = .table p) :
    (indexKey i, .table p) ∈ t.entries := by
  rw [rawgeti] at h
  split at h
  · rename_i e hfind
    have hkey : e.1 = indexKey i := by simpa using List.find?_some hfind
    rw [← hkey, ← h]
    exact List.mem_of_find?_eq_some hfind
  · cases h

/-- A key that an array may have is that of an element. -/
theorem indexKey_of_inRange {key : Key} {len : ℕ} (hlen : len < 2 ^ 31)
    (h : key.inRange len = true) : ∃ i < len, key = indexKey (i + 1) := by
  match key, h with
  | .number (.finite neg mag hd), h =>
    simp only [Key.inRange, Bool.and_eq_true, Bool.not_eq_eq_eq_not, Bool.not_true,
      decide_eq_true_eq] at h
    obtain ⟨⟨⟨rfl, hpos⟩, hle⟩, hden⟩ := h
    obtain ⟨i, rfl⟩ : ∃ i : ℕ, mag = ((i + 1 : ℕ) : ℚ) := by
      have hnum : 0 < mag.num := Rat.num_pos.mpr hpos
      refine ⟨mag.num.toNat - 1, ?_⟩
      have : ((mag.num.toNat - 1 + 1 : ℕ) : ℤ) = mag.num := by omega
      rw [← Rat.coe_int_num_of_den_eq_one hden, ← this]
      rfl
    have hi : i + 1 ≤ len := by exact_mod_cast hle
    refine ⟨i, hi, ?_⟩
    rw [indexKey, Double.round_natCast_le false (show i + 1 ≤ 2 ^ 53 by omega)]
    rfl

/-- **A table is written inside of another** if it is an element of a table that is an array by its
metatable, or any value of another table. -/
theorem mem_children_iff {t : HeapTable n} {p : Fin n} :
    .table p ∈ t.children ↔
      if t.tag = some .array then ∃ i < t.len, t.rawgeti (i + 1) = .table p
      else ∃ key, (key, .table p) ∈ t.entries := by
  have helements : .table p ∈ t.elements ↔ ∃ i < t.len, t.rawgeti (i + 1) = .table p := by
    simp [elements]
  have hentries : .table p ∈ t.entries.map Prod.snd ↔ ∃ key, (key, .table p) ∈ t.entries := by
    simp
  rw [children, is_array]
  cases htag : t.tag with
  | some tag =>
    cases tag with
    | array => simpa using helements
    | object => simp
  | none =>
    rw [if_neg (by simp : none ≠ some JsonType.array)]
    split_ifs with harray
    · -- All keys are those of elements.
      simp only [Bool.and_eq_true, decide_eq_true_eq, List.all_eq_true] at harray
      rw [helements]
      constructor
      · rintro ⟨i, -, hi⟩
        exact ⟨_, mem_of_rawgeti hi⟩
      · rintro ⟨key, hkey⟩
        obtain ⟨i, hi, rfl⟩ := indexKey_of_inRange t.len_lt (harray.2 _ hkey)
        exact ⟨i, hi, rawgeti_of_mem hkey⟩
    · exact hentries

end HeapTable

namespace Heap

/-! ### The encoder -/

/-- The tables that the encoder is not in. -/
def remaining (visited : List (Fin n)) : ℕ := (Finset.univ.filter (· ∉ visited)).card

theorem remaining_lt {p : Fin n} {visited : List (Fin n)} (h : p ∉ visited) :
    remaining (p :: visited) < remaining visited := by
  refine Finset.card_lt_card ⟨fun q hq => ?_, fun hsub => ?_⟩
  · simp only [Finset.mem_filter, Finset.mem_univ, true_and, List.mem_cons, not_or] at hq ⊢
    exact hq.2
  · have hp : p ∈ Finset.univ.filter (· ∉ p :: visited) :=
      hsub (Finset.mem_filter.mpr ⟨Finset.mem_univ p, h⟩)
    simp at hp

/-- The message of a cycle. -/
def cycleDetected : String := "JSON encode error: table cycle detected"

section Encode

variable (host : Host) (indent : Int32) (heap : Fin n → HeapTable n)

/-- A table whose values are written by `write`. -/
def encode_table (write : HeapValue n → Writer) (t : HeapTable n) : Writer :=
  if t.is_array then encode_array indent (t.elements.map write)
  else encode_object host indent (t.entries.map fun e => (e.1, write e.2))

/-- `encode_value`, inside of the tables `visited`. -/
def encode_value (visited : List (Fin n)) : HeapValue n → Writer
  | .nil => fun _ => .ok nullText
  | .boolean b => fun _ => .ok (if b then trueText else falseText)
  | .number d => fun _ => encode_number host d
  | .integer i => fun _ => .ok (decimalInt i.toInt)
  | .string s => fun _ => .ok (escapeString s)
  | .lightuserdata null => fun _ =>
    if null then .ok nullText else .error "JSON encode error: unsupported lightuserdata"
  | .table p =>
    if _h : p ∈ visited then fun _ => .error cycleDetected
    else encode_table host indent (fun v => encode_value (p :: visited) v) (heap p)
  | .other typename => fun _ => .error ("JSON encode error: unsupported type " ++ typename)
termination_by remaining visited
decreasing_by exact remaining_lt _h

variable {host indent heap} {visited : List (Fin n)} {p : Fin n}

theorem encode_value_table (hp : p ∉ visited) :
    encode_value host indent heap visited (.table p) =
      encode_table host indent (encode_value host indent heap (p :: visited)) (heap p) := by
  rw [encode_value, dif_neg hp]

theorem encode_value_visited (hp : p ∈ visited) (current_indent : Int32) :
    encode_value host indent heap visited (.table p) current_indent = .error cycleDetected := by
  rw [encode_value, dif_pos hp]

variable (host indent heap)

def json_encode (v : HeapValue n) : Except String Bytes :=
  encode_value host (if 0 < indent then indent else 0) heap [] v 0

/-- What `json_encode` writes for a value where no table is being written. -/
def write_value : HeapValue n → Writer :=
  encode_value host (if 0 < indent then indent else 0) heap []

end Encode

/-! ### What tables write -/

section Writers

variable {host : Host} {indent : Int32}

/-- The result of the loop over elements is that of its turns. -/
theorem encode_elements_cases (indent current_indent : Int32) (writers : List Writer) :
    (∃ out, encode_elements indent current_indent writers = .ok out ∧
      ∀ w ∈ writers, ∃ out, w current_indent = .ok out) ∨
    ∃ e, encode_elements indent current_indent writers = .error e ∧
      ∃ w ∈ writers, w current_indent = .error e := by
  induction writers with
  | nil => exact .inl ⟨[], rfl, by simp⟩
  | cons w writers ih =>
    -- The first error ends the loop; otherwise the rest of the loop decides.
    cases hw : w current_indent with
    | error e =>
      refine .inr ⟨e, ?_, w, List.mem_cons_self, hw⟩
      cases writers with
      | nil => rw [encode_elements, hw]; rfl
      | cons u writers =>
        rw [encode_elements, hw]
        · rfl
        · simp
    | ok x =>
      cases writers with
      | nil => exact .inl ⟨_, by rw [encode_elements, hw]; rfl, by simpa using ⟨x, hw⟩⟩
      | cons u writers =>
        rcases ih with ⟨out, hout, hall⟩ | ⟨e, he, hsome⟩
        · refine .inl ⟨indent_line indent current_indent ++ x ++ comma :: out, ?_,
            List.forall_mem_cons.mpr ⟨⟨x, hw⟩, hall⟩⟩
          rw [encode_elements, hw, hout]
          · rfl
          · simp
        · obtain ⟨v, hv, hverr⟩ := hsome
          refine .inr ⟨e, ?_, v, List.mem_cons_of_mem _ hv, hverr⟩
          rw [encode_elements, hw, he]
          · rfl
          · simp

/-- The result of the loop over pairs is that of its turns. -/
theorem encode_pairs_cases (host : Host) (indent current_indent : Int32)
    (pairs : List (Key × Writer)) :
    (∃ out, encode_pairs host indent current_indent pairs = .ok out ∧
      ∀ p ∈ pairs, ∃ out, p.2 current_indent = .ok out) ∨
    ∃ e, encode_pairs host indent current_indent pairs = .error e ∧
      ∃ p ∈ pairs, p.2 current_indent = .error e := by
  induction pairs with
  | nil => exact .inl ⟨[], rfl, by simp⟩
  | cons p pairs ih =>
    obtain ⟨key, w⟩ := p
    -- As for elements.
    cases hw : w current_indent with
    | error e =>
      refine .inr ⟨e, ?_, (key, w), List.mem_cons_self, hw⟩
      cases pairs with
      | nil => rw [encode_pairs, hw]; rfl
      | cons u pairs =>
        rw [encode_pairs, hw]
        · rfl
        · simp
    | ok x =>
      cases pairs with
      | nil => exact .inl ⟨_, by rw [encode_pairs, hw]; rfl, by simpa using ⟨x, hw⟩⟩
      | cons u pairs =>
        rcases ih with ⟨out, hout, hall⟩ | ⟨e, he, hsome⟩
        · refine .inl ⟨indent_line indent current_indent ++ encode_key host key ++ colon ::
            (if 0 < indent then [0x20] else []) ++ x ++ comma :: out, ?_,
            List.forall_mem_cons.mpr ⟨⟨x, hw⟩, hall⟩⟩
          rw [encode_pairs, hw, hout]
          · rfl
          · simp
        · obtain ⟨v, hv, hverr⟩ := hsome
          refine .inr ⟨e, ?_, v, List.mem_cons_of_mem _ hv, hverr⟩
          rw [encode_pairs, hw, he]
          · rfl
          · simp

/-- **The result of a table** is that of the values in it. -/
theorem encode_table_cases (host : Host) (indent current_indent : Int32)
    (write : HeapValue n → Writer) (t : HeapTable n) :
    (∃ out, encode_table host indent write t current_indent = .ok out ∧
      ∀ v ∈ t.children, ∃ out, write v (current_indent + indent) = .ok out) ∨
    ∃ e, encode_table host indent write t current_indent = .error e ∧
      ∃ v ∈ t.children, write v (current_indent + indent) = .error e := by
  unfold encode_table HeapTable.children
  split_ifs
  · rcases encode_elements_cases indent (current_indent + indent) (t.elements.map write) with
      ⟨out, hout, hall⟩ | ⟨e, he, w, hw, hwerr⟩
    · refine .inl ⟨_, by rw [encode_array, hout]; rfl, fun v hv => ?_⟩
      exact hall _ (List.mem_map_of_mem hv)
    · obtain ⟨v, hv, rfl⟩ := List.mem_map.mp hw
      exact .inr ⟨e, by rw [encode_array, he]; rfl, v, hv, hwerr⟩
  · rcases encode_pairs_cases host indent (current_indent + indent)
      (t.entries.map fun e => (e.1, write e.2)) with ⟨out, hout, hall⟩ | ⟨e, he, p, hp, hperr⟩
    · refine .inl ⟨_, by rw [encode_object, hout]; rfl, fun v hv => ?_⟩
      obtain ⟨entry, hentry, rfl⟩ := List.mem_map.mp hv
      exact hall _ (List.mem_map_of_mem hentry)
    · obtain ⟨entry, hentry, rfl⟩ := List.mem_map.mp hp
      exact .inr ⟨e, by rw [encode_object, he]; rfl, entry.2, List.mem_map_of_mem hentry, hperr⟩

variable {current_indent : Int32} {write : HeapValue n → Writer} {t : HeapTable n}

theorem encode_table_of_ok {out : Bytes}
    (h : encode_table host indent write t current_indent = .ok out) :
    ∀ v ∈ t.children, ∃ out, write v (current_indent + indent) = .ok out := by
  rcases encode_table_cases host indent current_indent write t with ⟨_, -, hall⟩ | ⟨e, he, -⟩
  · exact hall
  · rw [he] at h
    cases h

theorem encode_table_of_error {e : String}
    (h : encode_table host indent write t current_indent = .error e) :
    ∃ v ∈ t.children, write v (current_indent + indent) = .error e := by
  rcases encode_table_cases host indent current_indent write t with ⟨out, hout, -⟩ | ⟨_, he, hsome⟩
  · rw [hout] at h
    cases h
  · obtain rfl := Except.error.inj (he.symm.trans h)
    exact hsome

theorem encode_table_ok
    (h : ∀ v ∈ t.children, ∃ out, write v (current_indent + indent) = .ok out) :
    ∃ out, encode_table host indent write t current_indent = .ok out := by
  rcases encode_table_cases host indent current_indent write t with
    ⟨out, hout, -⟩ | ⟨e, -, v, hv, he⟩
  · exact ⟨out, hout⟩
  · obtain ⟨out, hout⟩ := h v hv
    rw [hout] at he
    cases he

theorem encode_table_congr {write' : HeapValue n → Writer}
    (h : ∀ v ∈ t.children, write v = write' v) :
    encode_table host indent write t = encode_table host indent write' t := by
  unfold encode_table
  unfold HeapTable.children at h
  split_ifs at h ⊢
  · rw [List.map_congr_left h]
  · rw [List.map_congr_left fun e he => by rw [h e.2 (List.mem_map_of_mem he)]]

end Writers

/-! ### Cycles -/

/-- The table `q` is a value of `p`. -/
def HasValue (heap : Fin n → HeapTable n) (p q : Fin n) : Prop :=
  ∃ key, (key, .table q) ∈ (heap p).entries

/-- The table `q` is written inside of `p`: an element of a table that is an array by its metatable,
any value of another one. -/
def Visits (heap : Fin n → HeapTable n) (p q : Fin n) : Prop :=
  if (heap p).tag = some .array then ∃ i < (heap p).len, (heap p).rawgeti (i + 1) = .table q
  else HasValue heap p q

/-- The table is written inside of the value, or is the value. -/
def Reached (heap : Fin n → HeapTable n) (v : HeapValue n) (q : Fin n) : Prop :=
  ∃ p, v = .table p ∧ Relation.ReflTransGen (Visits heap) p q

/-- A table is written inside of itself. -/
def Cyclic (heap : Fin n → HeapTable n) (v : HeapValue n) : Prop :=
  ∃ q, Reached heap v q ∧ Relation.TransGen (Visits heap) q q

/-- A value that is no table can be written. -/
def HeapValue.Encodable : HeapValue n → Prop
  | .number d => ∃ neg mag h, d = .finite neg mag h
  | .lightuserdata null => null = true
  | .other _ => False
  | .nil | .boolean _ | .integer _ | .string _ | .table _ => True

/-- All values that are written, but for tables, can be written. -/
def LeavesEncodable (heap : Fin n → HeapTable n) (v : HeapValue n) : Prop :=
  HeapValue.Encodable v ∧ ∀ q, Reached heap v q → ∀ c ∈ (heap q).children, HeapValue.Encodable c

section Cycles

variable {host : Host} {indent : Int32} {heap : Fin n → HeapTable n} {v : HeapValue n}
  {p q : Fin n} {visited : List (Fin n)}

theorem visits_iff : Visits heap p q ↔ .table q ∈ (heap p).children :=
  HeapTable.mem_children_iff.symm

theorem Reached.child {c : HeapValue n} (hc : c ∈ (heap p).children) (h : Reached heap c q) :
    Relation.TransGen (Visits heap) p q := by
  obtain ⟨r, rfl, hr⟩ := h
  exact .head' (visits_iff.mpr hc) hr

theorem Reached.of_child {c : HeapValue n} (hc : c ∈ (heap p).children) (h : Reached heap c q) :
    Reached heap (.table p) q :=
  ⟨p, rfl, (Reached.child hc h).to_reflTransGen⟩

theorem Cyclic.of_child {c : HeapValue n} (hc : c ∈ (heap p).children) (h : Cyclic heap c) :
    Cyclic heap (.table p) := by
  obtain ⟨q, hq, hcycle⟩ := h
  exact ⟨q, hq.of_child hc, hcycle⟩

theorem Cyclic.of_reached (hq : Reached heap v q) (h : Cyclic heap (.table q)) : Cyclic heap v := by
  obtain ⟨p, rfl, hp⟩ := hq
  obtain ⟨r, ⟨_, heq, hr⟩, hcycle⟩ := h
  cases heq
  exact ⟨r, ⟨p, rfl, hp.trans hr⟩, hcycle⟩

theorem LeavesEncodable.child {c : HeapValue n} (hc : c ∈ (heap p).children)
    (h : LeavesEncodable heap (.table p)) : LeavesEncodable heap c :=
  ⟨h.2 p ⟨p, rfl, .refl⟩ c hc, fun q hq => h.2 q (hq.of_child hc)⟩

theorem encode_value_leaf (hleaf : ∀ p, v ≠ .table p) (h : HeapValue.Encodable v)
    (current_indent : Int32) :
    ∃ out, encode_value host indent heap visited v current_indent = .ok out := by
  cases v with
  | nil => exact ⟨_, by rw [encode_value]⟩
  | boolean b => exact ⟨_, by rw [encode_value]⟩
  | number d =>
    obtain ⟨neg, mag, hd, rfl⟩ := h
    rw [encode_value, encode_number]
    split_ifs
    · exact ⟨_, rfl⟩
    · exact ⟨_, rfl⟩
  | integer i => exact ⟨_, by rw [encode_value]⟩
  | string s => exact ⟨_, by rw [encode_value]⟩
  | lightuserdata null =>
    obtain rfl : null = true := h
    exact ⟨_, by rw [encode_value]; rfl⟩
  | table p => exact absurd rfl (hleaf p)
  | other typename => cases h

/-- Where all leaves can be written, only a cycle is an error. -/
theorem encode_value_error (h : LeavesEncodable heap v) {current_indent : Int32} {e : String}
    (herror : encode_value host indent heap visited v current_indent = .error e) :
    e = cycleDetected := by
  induction hn : remaining visited using Nat.strong_induction_on generalizing visited v
    current_indent with
  | _ k ih =>
    by_cases htable : ∃ p, v = .table p
    · obtain ⟨p, rfl⟩ := htable
      by_cases hp : p ∈ visited
      · rw [encode_value_visited hp] at herror
        exact (Except.error.inj herror).symm
      · rw [encode_value_table hp] at herror
        obtain ⟨c, hc, hcerr⟩ := encode_table_of_error herror
        exact ih _ (hn ▸ remaining_lt hp) (h.child hc) hcerr rfl
    · have hleaf : ∀ p, v ≠ .table p := fun p hp => htable ⟨p, hp⟩
      obtain ⟨out, hout⟩ := @encode_value_leaf _ host indent heap _ visited hleaf h.1 current_indent
      rw [hout] at herror
      cases herror

/-- What is written is written outside of itself. -/
theorem not_reached_of_ok {current_indent : Int32} {out : Bytes}
    (hok : encode_value host indent heap visited v current_indent = .ok out)
    (hq : Reached heap v q) :
    q ∉ visited ∧ ∃ visited' current_indent out,
      encode_value host indent heap visited' (.table q) current_indent = .ok out := by
  obtain ⟨p, rfl, hpath⟩ := hq
  -- Along the path: a table on it was not in the list when it was written.
  induction hpath using Relation.ReflTransGen.head_induction_on generalizing visited
    current_indent out with
  | refl =>
    refine ⟨fun hmem => ?_, visited, current_indent, out, hok⟩
    rw [encode_value_visited hmem] at hok
    cases hok
  | @head p r hstep _ ih =>
    have hp : p ∉ visited := by
      intro hmem
      rw [encode_value_visited hmem] at hok
      cases hok
    rw [encode_value_table hp] at hok
    obtain ⟨out', hout'⟩ := encode_table_of_ok hok _ (visits_iff.mp hstep)
    obtain ⟨hq, hwritten⟩ := ih hout'
    exact ⟨fun hmem => hq (List.mem_cons_of_mem _ hmem), hwritten⟩

/-- A cycle is not written. -/
theorem not_cyclic_of_ok {current_indent : Int32} {out : Bytes}
    (hok : encode_value host indent heap visited v current_indent = .ok out) : ¬ Cyclic heap v := by
  rintro ⟨q, hq, hcycle⟩
  obtain ⟨-, visited', current_indent', out', hok'⟩ := not_reached_of_ok hok hq
  have hqv : q ∉ visited' := (not_reached_of_ok hok' ⟨q, rfl, .refl⟩).1
  obtain ⟨r, hstep, hback⟩ := Relation.TransGen.head'_iff.mp hcycle
  rw [encode_value_table hqv] at hok'
  obtain ⟨out'', hout''⟩ := encode_table_of_ok hok' _ (visits_iff.mp hstep)
  exact (not_reached_of_ok hout'' ⟨r, rfl, hback⟩).1 List.mem_cons_self

/-- The tables inside of `p` are other ones, where there is no cycle. -/
theorem not_mem_of_acyclic (hcycle : ¬ Cyclic heap (.table p))
    (hvisited : ∀ q, Reached heap (.table p) q → q ∉ visited) {c : HeapValue n}
    (hc : c ∈ (heap p).children) : ∀ q, Reached heap c q → q ∉ p :: visited := by
  intro q hq hmem
  rcases List.mem_cons.mp hmem with rfl | hmem
  · exact hcycle ⟨q, ⟨q, rfl, .refl⟩, Reached.child hc hq⟩
  · exact hvisited q (hq.of_child hc) hmem

/-- Without cycles, tables that do not occur in a value do not matter. -/
theorem encode_value_visited_eq (hcycle : ¬ Cyclic heap v) {visited' : List (Fin n)}
    (h : ∀ q, Reached heap v q → q ∉ visited) (h' : ∀ q, Reached heap v q → q ∉ visited') :
    encode_value host indent heap visited v = encode_value host indent heap visited' v := by
  induction hn : remaining visited using Nat.strong_induction_on generalizing visited visited' v
    with
  | _ k ih =>
    cases v with
    | table p =>
      have hp := h p ⟨p, rfl, .refl⟩
      rw [encode_value_table hp, encode_value_table (h' p ⟨p, rfl, .refl⟩)]
      refine encode_table_congr fun c hc => ?_
      exact ih _ (hn ▸ remaining_lt hp) (fun hc' => hcycle (hc'.of_child hc))
        (not_mem_of_acyclic hcycle h hc) (not_mem_of_acyclic hcycle h' hc) rfl
    | _ => rw [encode_value, encode_value]

/-- Without a cycle all tables are written. -/
theorem encode_value_ok (h : LeavesEncodable heap v) (hcycle : ¬ Cyclic heap v)
    (hvisited : ∀ q, Reached heap v q → q ∉ visited) (current_indent : Int32) :
    ∃ out, encode_value host indent heap visited v current_indent = .ok out := by
  induction hn : remaining visited using Nat.strong_induction_on generalizing visited v
    current_indent with
  | _ k ih =>
    by_cases htable : ∃ p, v = .table p
    · obtain ⟨p, rfl⟩ := htable
      have hp := hvisited p ⟨p, rfl, .refl⟩
      rw [encode_value_table hp]
      exact encode_table_ok fun c hc => ih _ (hn ▸ remaining_lt hp) (h.child hc)
        (fun hc' => hcycle (hc'.of_child hc)) (not_mem_of_acyclic hcycle hvisited hc) _ rfl
    · exact encode_value_leaf (fun p hp => htable ⟨p, hp⟩) h.1 current_indent

end Cycles

theorem zero_lt_length : 0 < 2 ^ 31 := by norm_num

/-- A table that has itself as its value `x`. -/
def loop (tag : Option JsonType) : Fin 1 → HeapTable 1 :=
  fun _ => ⟨tag, 0, [(.string [0x78], .table 0)], by norm_num, by simp⟩

/-- A virtual machine without metamethods. -/
def bareHost : Host := ⟨fun _ _ => 0, fun _ => [], fun _ => []⟩

theorem hasValue_loop (tag : Option JsonType) : HasValue (loop tag) 0 0 :=
  ⟨.string [0x78], List.mem_singleton.mpr rfl⟩

end Heap

end LuaJson

end Jaci
