import Mathlib

/-!
# Searching a string

`std::string::find` gives the first position from some position on where a pattern stands, or `npos`.

* `find`, `substr` : the functions;
* `find_spec` : what they find;
* `find_append`, `find_eq_npos` : a pattern after a text that it does not occur in, and one that is
  nowhere;
* `find_skip`, `find_here`, `find_none` : the search for a single byte.
-/

namespace StdString

variable {α : Type} {s p pre line rest : List α} {pos i n : ℕ} {c : α}

def npos : ℕ := 2 ^ 64 - 1

/-- The greatest length of a string. -/
def max_size : ℕ := 2 ^ 63 - 1

abbrev Text (α : Type) := { s : List α // s.length ≤ max_size }

/-- `substr`, from a position of the string on. -/
def substr (s : List α) (pos n : ℕ) : List α := (s.drop pos).take n

theorem substr_append (pre line rest : List α) :
    substr (pre ++ (line ++ rest)) pre.length line.length = line := by
  rw [substr, List.drop_left, List.take_left]

/-- The rest of a string: a longer count is cut off. -/
theorem substr_append_rest (pre : List α) (h : rest.length ≤ n) :
    substr (pre ++ rest) pre.length n = rest := by
  rw [substr, List.drop_left, List.take_of_length_le h]

theorem drop_append_add (pre s : List α) (i : ℕ) : (pre ++ s).drop (pre.length + i) = s.drop i := by
  rw [List.drop_append, List.drop_eq_nil_of_le (Nat.le_add_right _ _), List.nil_append,
    Nat.add_sub_cancel_left]

/-- A position of a string is not `npos`. -/
theorem lt_npos {s : Text α} (h : n ≤ s.1.length) : n < npos := by
  have hs : s.1.length ≤ 2 ^ 63 - 1 := s.2
  rw [npos]
  omega

variable [DecidableEq α]

/-- Does the pattern stand at the position? -/
def occurs (s p : List α) (i : ℕ) : Bool := decide (p <+: s.drop i)

def find (s p : List α) (pos : ℕ) : ℕ :=
  ((List.range' pos (s.length + 1 - pos)).find? (occurs s p)).getD npos

/-! ### What is found -/

theorem occurs_iff : occurs s p i = true ↔ p <+: s.drop i := decide_eq_true_iff

theorem occurs_length (h : occurs s p i = true) (hp : p ≠ []) : i + p.length ≤ s.length := by
  have hle := (occurs_iff.1 h).length_le
  have hpos := List.length_pos_iff.2 hp
  rw [List.length_drop] at hle
  omega

/-- The first position. -/
theorem find_eq_of (hpos : pos ≤ i) (hi : occurs s p i = true) (hp : p ≠ [])
    (hfirst : ∀ j, pos ≤ j → j < i → occurs s p j = false) : find s p pos = i := by
  have hlen := occurs_length hi hp
  have hsome : (List.range' pos (s.length + 1 - pos)).find? (occurs s p) = some i := by
    rw [List.find?_range'_eq_some]
    refine ⟨hi, ?_, fun j hj hlt => by rw [hfirst j hj hlt]; rfl⟩
    rw [List.mem_range'_1]
    omega
  rw [find, hsome, Option.getD_some]

/-- The pattern is nowhere. -/
theorem find_eq_npos (h : ∀ j, pos ≤ j → occurs s p j = false) : find s p pos = npos := by
  have hnone : (List.range' pos (s.length + 1 - pos)).find? (occurs s p) = none := by
    rw [List.find?_eq_none]
    intro j hj
    rw [List.mem_range'_1] at hj
    rw [h j hj.1]
    exact Bool.false_ne_true
  rw [find, hnone, Option.getD_none]

/-- **What `find` finds.** -/
theorem find_spec (hp : p ≠ []) :
    (∃ i, find s p pos = i ∧ pos ≤ i ∧ occurs s p i = true ∧
        ∀ j, pos ≤ j → j < i → occurs s p j = false) ∨
      find s p pos = npos ∧ ∀ j, pos ≤ j → occurs s p j = false := by
  by_cases h : ∃ i, pos ≤ i ∧ occurs s p i = true
  · classical
    obtain ⟨hle, hocc⟩ := Nat.find_spec h
    have hfirst : ∀ j, pos ≤ j → j < Nat.find h → occurs s p j = false := by
      intro j hj hlt
      have hmin := Nat.find_min h hlt
      rw [not_and, Bool.not_eq_true] at hmin
      exact hmin hj
    exact .inl ⟨_, find_eq_of hle hocc hp hfirst, hle, hocc, hfirst⟩
  · have hall : ∀ j, pos ≤ j → occurs s p j = false := by
      intro j hj
      rw [← Bool.not_eq_true]
      exact fun hocc => h ⟨j, hj, hocc⟩
    exact .inr ⟨find_eq_npos hall, hall⟩

/-- What is found stands in the string. -/
theorem find_length (hp : p ≠ []) (h : find s p pos ≠ npos) :
    pos ≤ find s p pos ∧ find s p pos + p.length ≤ s.length := by
  rcases @find_spec α s p pos _ hp with ⟨i, hi, hle, hocc, -⟩ | ⟨hnpos, -⟩
  · rw [hi]
    exact ⟨hle, occurs_length hocc hp⟩
  · exact absurd hnpos h

/-! ### Patterns after a text -/

theorem occurs_append (pre s p : List α) (i : ℕ) :
    occurs (pre ++ s) p (pre.length + i) = occurs s p i := by
  rw [occurs, occurs, drop_append_add]

theorem occurs_length_append (line p rest : List α) :
    occurs (line ++ p ++ rest) p line.length = true := by
  rw [occurs_iff, List.append_assoc, List.drop_left]
  exact List.prefix_append _ _

/-- **The first pattern after a text.** -/
theorem find_append (hp : p ≠ [])
    (hfirst : ∀ j, j < line.length → occurs (line ++ p ++ rest) p j = false) :
    find (pre ++ (line ++ p ++ rest)) p pre.length = pre.length + line.length := by
  refine find_eq_of (Nat.le_add_right _ _) ?_ hp fun j hj hlt => ?_
  · rw [occurs_append]
    exact occurs_length_append line p rest
  · obtain ⟨j, rfl⟩ := Nat.exists_eq_add_of_le hj
    rw [occurs_append]
    exact hfirst j (Nat.lt_of_add_lt_add_left hlt)

/-! ### Single bytes -/

theorem occurs_cons (h : occurs s (c :: p) i = true) : s[i]? = some c := by
  obtain ⟨rest, hrest⟩ := occurs_iff.1 h
  rw [← List.head?_drop, ← hrest]
  rfl

theorem occurs_singleton : occurs s [c] i = true ↔ s[i]? = some c := by
  rw [occurs_iff, List.singleton_prefix_iff_head?_eq_some, List.head?_drop]

/-- A pattern stands after a text without its first byte. -/
theorem find_of_notMem (pre rest : List α) (h : c ∉ line) :
    find (pre ++ (line ++ (c :: p) ++ rest)) (c :: p) pre.length = pre.length + line.length := by
  refine find_append (List.cons_ne_nil _ _) fun j hj => ?_
  rw [Bool.eq_false_iff]
  intro hocc
  have hc := occurs_cons hocc
  rw [List.append_assoc, List.getElem?_append_left hj] at hc
  exact h (List.mem_of_getElem? hc)

theorem find_here (pre rest : List α) (c : α) : find (pre ++ c :: rest) [c] pre.length = pre.length :=
  find_of_notMem pre rest (List.not_mem_nil (a := c))

/-- A byte that is not in the rest. -/
theorem find_none (pre : List α) (h : c ∉ rest) : find (pre ++ rest) [c] pre.length = npos := by
  refine find_eq_npos fun j hj => ?_
  obtain ⟨j, rfl⟩ := Nat.exists_eq_add_of_le hj
  rw [occurs_append, Bool.eq_false_iff]
  exact fun hocc => h (List.mem_of_getElem? (occurs_singleton.1 hocc))

/-- A search goes on behind a text that does not contain the byte. -/
theorem find_skip (pre rest : List α) (h : c ∉ line) :
    find (pre ++ (line ++ rest)) [c] pre.length =
      find (pre ++ line ++ rest) [c] (pre ++ line).length := by
  by_cases hc : c ∈ rest
  · obtain ⟨s, t, rfl, hs⟩ := List.eq_append_cons_of_mem hc
    have hnot : c ∉ line ++ s := fun hmem => (List.mem_append.1 hmem).elim h hs
    have h1 := find_of_notMem (p := []) pre t hnot
    have h2 := find_of_notMem (p := []) (pre ++ line) t hs
    simp only [List.append_assoc, List.length_append, List.cons_append, List.nil_append] at h1 h2 ⊢
    rw [h1, h2, Nat.add_assoc]
  · have hnot : c ∉ line ++ rest := fun hmem => (List.mem_append.1 hmem).elim h hc
    rw [find_none _ hnot, find_none _ hc]

theorem le_find (hp : p ≠ []) (hpos : pos ≤ npos) : pos ≤ find s p pos := by
  by_cases h : find s p pos = npos
  · exact h ▸ hpos
  · exact (find_length hp h).1

end StdString
