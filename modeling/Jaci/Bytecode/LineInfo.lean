import Jaci.Lib.Wire
import Mathlib.Data.Nat.Log
import Mathlib.Tactic.Linarith

/-!
# Line information

The bytecode stores the line of every instruction as an 8-bit delta to the baseline of its span.
The span is a power of two; a single pass over the lines shrinks it whenever the lines of a window
lie too far apart, and goes on by the new span without a look at the windows before.

* `calcLinesSpan_aligned` : in the end the lines of every aligned window are close to each other;
* `lines_roundTrip` : the loader finds the line of every instruction again.
-/

namespace Jaci

namespace LineInfo

open Wire

/-! ### The span -/

/-- `log2` from `r` on. -/
def log2From (v r : ℕ) : ℕ := if 2 <<< r ≤ v then log2From v (r + 1) else r
termination_by v - r
decreasing_by
  have hlt : r < 2 ^ r := Nat.lt_two_pow_self
  have hle : 2 <<< r ≤ v := by assumption
  rw [Nat.shiftLeft_eq] at hle
  omega

def log2 (v : ℕ) : ℕ := log2From v 0

/-- A span: how many instructions share a baseline. -/
structure Span where
  size : ℕ
  pow : ∃ k, size = 2 ^ k

/-- `1 << k`. -/
def Span.ofLog (k : ℕ) : Span := ⟨1 <<< k, k, Nat.one_shiftLeft k⟩

theorem Span.pos (span : Span) : 0 < span.size := by
  obtain ⟨k, hk⟩ := span.pow
  rw [hk]
  exact Nat.two_pow_pos k

/-- The end of the loop over a window: the lines from `next` on are left, the smallest and the
greatest one so far are `min` and `max`. -/
def scan (stop : ℕ) : List ℤ → ℕ → ℤ → ℤ → ℕ
  | [], next, _, _ => next
  | line :: rest, next, min, max =>
    if next < stop then
      let min := Min.min min line
      let max := Max.max max line
      if max - min > 255 then next else scan stop rest (next + 1) min max
    else next

/-- The loop of `calcLinesSpan`. -/
def calcLinesSpanFrom (lines : List ℤ) (span : Span) (offset : ℕ) : Span :=
  if h : offset < lines.length then
    let next := scan (offset + span.size) (lines.drop offset) offset lines[offset] lines[offset]
    let span' := if next < lines.length ∧ next - offset < span.size then
      .ofLog (log2 (next - offset)) else span
    calcLinesSpanFrom lines span' (offset + span'.size)
  else span
termination_by lines.length - offset
decreasing_by exact Nat.sub_lt_sub_left h (Nat.lt_add_of_pos_right (Span.pos _))

def calcLinesSpan (lines : List ℤ) : Span := calcLinesSpanFrom lines (.ofLog 24) 0

/-! ### The writer -/

/-- The smallest line of the window at `offset`. -/
def windowMin (lines : List ℤ) (size offset : ℕ) (line : ℤ) : ℤ :=
  ((lines.drop offset).take size).foldl Min.min line

/-- The loop of `fillBaselineInfo`. -/
def fillBaselineFrom (lines : List ℤ) (span : Span) (offset : ℕ) (baseline : List ℤ) : List ℤ :=
  if h : offset < lines.length then
    fillBaselineFrom lines span (offset + span.size)
      (baseline.set (offset / span.size) (windowMin lines span.size offset lines[offset]))
  else baseline
termination_by lines.length - offset
decreasing_by
  have := span.pos
  omega

/-- `fillBaselineInfo`, on a vector of `baselineSize` zeros. -/
def fillBaselineInfo (lines : List ℤ) (span : Span) : List ℤ :=
  fillBaselineFrom lines span 0 (List.replicate ((lines.length - 1) / span.size + 1) 0)

/-- The 8-bit deltas of the lines from number `i` on, each written against the one before. -/
def writeDeltas (baseline : List ℤ) (logspan : ℕ) : List ℤ → ℕ → UInt8 → Bytes
  | [], _, _ => []
  | line :: rest, i, lastOffset =>
    let delta := UInt8.ofInt (line - baseline.getD (i >>> logspan) 0)
    (delta - lastOffset) :: writeDeltas baseline logspan rest (i + 1) delta

/-- The baselines, each written against the one before. -/
def writeBaseline : List ℤ → ℤ → Bytes
  | [], _ => []
  | line :: rest, lastLine => leBytes 4 (line - lastLine) ++ writeBaseline rest line

def writeLineInfo (lines : List ℤ) : Bytes :=
  let span := calcLinesSpan lines
  let baseline := fillBaselineInfo lines span
  let logspan := log2 span.size
  UInt8.ofNat logspan :: (writeDeltas baseline logspan lines 0 0 ++ writeBaseline baseline 0)

/-- The lines of a function, if it has lines. -/
def writeLines (lines : List ℤ) : Bytes :=
  if lines.all (· ≠ 0) then 1 :: writeLineInfo lines else [0]

/-! ### The loader -/

/-- The line information of a `Proto`. -/
structure Info where
  linegaplog2 : ℕ
  lineinfo : List UInt8
  abslineinfo : List ℤ

/-- The deltas of `n` instructions. -/
def readDeltas : ℕ → UInt8 → Bytes → Option (List UInt8 × Bytes)
  | 0, _, bs => some ([], bs)
  | _ + 1, _, [] => none
  | n + 1, lastoffset, b :: bs => do
    let lastoffset := lastoffset + b
    let (deltas, bs) ← readDeltas n lastoffset bs
    return (lastoffset :: deltas, bs)

/-- The baselines of `n` intervals. -/
def readBaseline : ℕ → ℤ → Bytes → Option (List ℤ × Bytes)
  | 0, _, bs => some ([], bs)
  | n + 1, lastline, bs => do
    let (word, bs) ← takeN 4 bs
    let lastline := lastline + (leNat word : ℤ).bmod (2 ^ 32)
    let (baselines, bs) ← readBaseline n lastline bs
    return (lastline :: baselines, bs)

/-- The line information in `loadsafe`. -/
def loadLines (sizecode : ℕ) : Bytes → Option (Option Info × Bytes)
  | [] => none
  | lineinfo :: bs =>
    if lineinfo ≠ 0 then
      match bs with
      | [] => none
      | gap :: bs => do
        let linegaplog2 := gap.toNat
        let intervals := (sizecode - 1) >>> linegaplog2 + 1
        let (deltas, bs) ← readDeltas sizecode 0 bs
        let (baselines, bs) ← readBaseline intervals 0 bs
        return (some ⟨linegaplog2, deltas, baselines⟩, bs)
    else some (none, bs)

/-- `luaG_getline`. -/
def Info.getline (p : Info) (pc : ℕ) : Option ℤ := do
  let base ← p.abslineinfo[pc >>> p.linegaplog2]?
  let delta ← p.lineinfo[pc]?
  return base + delta.toNat

/-! ### Logarithms -/

theorem log2From_spec {v r : ℕ} (h : 2 ^ r ≤ v) :
    2 ^ log2From v r ≤ v ∧ v < 2 ^ (log2From v r + 1) := by
  fun_induction log2From v r with
  | case1 r hle ih =>
    rw [Nat.shiftLeft_eq] at hle
    exact ih (by rw [pow_succ]; omega)
  | case2 r hlt =>
    rw [Nat.shiftLeft_eq] at hlt
    exact ⟨h, by rw [pow_succ]; omega⟩

theorem two_pow_log2_le {v : ℕ} (h : 0 < v) : 2 ^ log2 v ≤ v := 
  (log2From_spec (by rw [pow_zero]; exact h)).1

theorem log2_two_pow (k : ℕ) : log2 (2 ^ k) = k := by
  obtain ⟨hle, hlt⟩ := log2From_spec (v := 2 ^ k) (r := 0) (Nat.two_pow_pos k)
  have h1 := (Nat.pow_le_pow_iff_right (by norm_num)).1 hle
  have h2 := (Nat.pow_lt_pow_iff_right (by norm_num)).1 hlt
  show log2From (2 ^ k) 0 = k
  omega

theorem Span.size_eq (span : Span) : span.size = 2 ^ log2 span.size := by
  obtain ⟨k, hk⟩ := span.pow
  rw [hk, log2_two_pow]

/-- A smaller span divides a greater one. -/
theorem Span.dvd {a b : Span} (h : a.size ≤ b.size) : a.size ∣ b.size := by
  rw [a.size_eq, b.size_eq] at h ⊢
  exact pow_dvd_pow 2 ((Nat.pow_le_pow_iff_right (by norm_num)).1 h)

theorem Span.size_ofLog (k : ℕ) : (Span.ofLog k).size = 2 ^ k := Nat.one_shiftLeft k

/-! ### Windows -/

/-- The lines from number `start` up to `stop` are close to each other. -/
def Close (lines : List ℤ) (start stop : ℕ) : Prop :=
  ∀ i j a b, start ≤ i → i < stop → start ≤ j → j < stop → lines[i]? = some a →
    lines[j]? = some b → a - b ≤ 255

/-- The lines before `bound` in one aligned window are close to each other. -/
def Aligned (lines : List ℤ) (size bound : ℕ) : Prop :=
  ∀ i j a b, i < bound → j < bound → i / size = j / size → lines[i]? = some a →
    lines[j]? = some b → a - b ≤ 255

theorem Close.mono {lines : List ℤ} {start stop stop' : ℕ} (h : Close lines start stop)
    (hle : stop' ≤ stop) : Close lines start stop' :=
  fun i j a b hi hi' hj hj' => h i j a b hi (hi'.trans_le hle) hj (hj'.trans_le hle)

theorem Close.of_length_le {lines : List ℤ} {start stop stop' : ℕ} (h : Close lines start stop)
    (hle : lines.length ≤ stop) : Close lines start stop' := by
  intro i j a b hi _ hj _ ha hb
  have hil := (List.getElem?_eq_some_iff.1 ha).1
  have hjl := (List.getElem?_eq_some_iff.1 hb).1
  exact h i j a b hi (hil.trans_le hle) hj (hjl.trans_le hle) ha hb

/-- **One window.**  When the span shrinks and a window of the new span is close, the windows
before it stay close, since they are parts of the ones before. -/
theorem Aligned.step {lines : List ℤ} {size size' offset : ℕ} (h : Aligned lines size offset)
    (hpos : 0 < size') (hdvd : size' ∣ size) (hoff : size ∣ offset)
    (hclose : Close lines offset (offset + size')) : Aligned lines size' (offset + size') := by
  obtain ⟨m, rfl⟩ := hdvd.trans hoff
  obtain ⟨k, rfl⟩ := hdvd
  intro i j a b hi hj hij ha hb
  have hlo : ∀ n, n < size' * m ↔ n / size' < m := fun n => by
    rw [Nat.div_lt_iff_lt_mul hpos, Nat.mul_comm]
  by_cases hlt : i < size' * m
  · -- both lines are in a window that was processed with the greater span
    have hlt' : j < size' * m := by rwa [hlo, ← hij, ← hlo]
    exact h i j a b hlt hlt' (by rw [← Nat.div_div_eq_div_mul, hij, Nat.div_div_eq_div_mul]) ha hb
  · have hlt' : ¬ j < size' * m := by rwa [hlo, ← hij, ← hlo]
    exact hclose i j a b (not_lt.1 hlt) hi (not_lt.1 hlt') hj ha hb

/-! ### The pass over the lines -/

theorem le_scan {stop next : ℕ} {rest : List ℤ} {min max : ℤ} :
    next ≤ scan stop rest next min max := by
  fun_induction scan stop rest next min max <;> omega

/-- The lines that the loop has passed lie between two bounds that are close to each other. -/
theorem scan_close {stop next : ℕ} {rest : List ℤ} {min max : ℤ} (h : max - min ≤ 255) :
    ∃ lo hi, lo ≤ min ∧ max ≤ hi ∧ hi - lo ≤ 255 ∧
      ∀ i a, next + i < scan stop rest next min max → rest[i]? = some a → lo ≤ a ∧ a ≤ hi := by
  fun_induction scan stop rest next min max with
  | case1 next min max => exact ⟨min, max, le_rfl, le_rfl, h, fun i a _ ha => by simp at ha⟩
  | case2 line rest next min max hlt min' max' hbreak =>
    exact ⟨min, max, le_rfl, le_rfl, h, fun i a hi => absurd hi (by omega)⟩
  | case3 line rest next min max hlt min' max' hgo ih =>
    obtain ⟨lo, hi, hlo, hhi, hclose, hall⟩ := ih (not_lt.1 hgo)
    refine ⟨lo, hi, hlo.trans (min_le_left _ _), (le_max_left _ _).trans hhi, hclose, ?_⟩
    rintro (_ | i) a hi ha
    · cases ha
      exact ⟨hlo.trans (min_le_right _ _), (le_max_right _ _).trans hhi⟩
    · exact hall i a (by omega) ha
  | case4 line rest next min max hge =>
    exact ⟨min, max, le_rfl, le_rfl, h, fun i a hi => absurd hi (by omega)⟩

/-- The first line of a window is always passed. -/
theorem lt_scan {stop next : ℕ} {line : ℤ} {rest : List ℤ} (h : next < stop) :
    next < scan stop (line :: rest) next line line := by
  rw [scan, if_pos h]
  simp only [min_self, max_self, sub_self]
  rw [if_neg (by norm_num)]
  exact Nat.lt_of_succ_le le_scan

variable {lines : List ℤ}

/-- One round: the lines of the window up to the end of the loop are close to each other. -/
theorem scan_window {stop offset : ℕ} (h : offset < lines.length) (hstop : offset < stop) :
    offset < scan stop (lines.drop offset) offset lines[offset] lines[offset] ∧
      Close lines offset (scan stop (lines.drop offset) offset lines[offset] lines[offset]) := by
  constructor
  · rw [List.drop_eq_getElem_cons h]
    exact lt_scan hstop
  · obtain ⟨lo, hi, -, -, hclose, hall⟩ :=
      @scan_close stop offset (lines.drop offset) (lines[offset]) (lines[offset]) (by omega)
    intro i j a b hi hi' hj hj' ha hb
    have h1 := hall (i - offset) a (by omega) (by rwa [List.getElem?_drop, Nat.add_sub_cancel' hi])
    have h2 := hall (j - offset) b (by omega) (by rwa [List.getElem?_drop, Nat.add_sub_cancel' hj])
    omega

/-- Where the loop does not shrink the span, the whole window is close. -/
theorem scan_whole {size offset : ℕ} (h : offset < lines.length) (hsize : 0 < size)
    (hnext : ¬ (scan (offset + size) (lines.drop offset) offset lines[offset] lines[offset] <
        lines.length ∧
      scan (offset + size) (lines.drop offset) offset lines[offset] lines[offset] - offset < size)) :
    Close lines offset (offset + size) := by
  obtain ⟨hlt, hclose⟩ := scan_window h (Nat.lt_add_of_pos_right hsize (n := offset))
  by_cases hlen : lines.length ≤
      scan (offset + size) (lines.drop offset) offset lines[offset] lines[offset]
  · exact hclose.of_length_le hlen
  · exact hclose.mono (by omega)

/-- **The pass.**  Whatever the span shrinks to, all aligned windows are close in the end. -/
theorem calcLinesSpanFrom_aligned (span : Span) (offset : ℕ) (hoff : span.size ∣ offset)
    (h : Aligned lines span.size offset) :
    Aligned lines (calcLinesSpanFrom lines span offset).size lines.length ∧
      (calcLinesSpanFrom lines span offset).size ≤ span.size := by
  fun_induction calcLinesSpanFrom lines span offset with
  | case1 span offset hlt next span' ih =>
    have hstep : span'.size ≤ span.size ∧ Close lines offset (offset + span'.size) := by
      by_cases hnext : next < lines.length ∧ next - offset < span.size
      · have hspan' : span' = .ofLog (log2 (next - offset)) := if_pos hnext
        obtain ⟨hgt, hclose⟩ := scan_window hlt (Nat.lt_add_of_pos_right span.pos (n := offset))
        have hle : span'.size ≤ next - offset := by
          rw [hspan', Span.size_ofLog]
          exact two_pow_log2_le (Nat.sub_pos_of_lt hgt)
        exact ⟨by omega, hclose.mono (by omega)⟩
      · have hspan' : span' = span := if_neg hnext
        rw [hspan']
        exact ⟨le_rfl, scan_whole hlt span.pos hnext⟩
    have hdvd := Span.dvd hstep.1
    obtain ⟨hall, hle⟩ := ih (Dvd.dvd.add (hdvd.trans hoff) dvd_rfl)
      (h.step span'.pos hdvd hoff hstep.2)
    exact ⟨hall, hle.trans hstep.1⟩
  | case2 span offset hge =>
    exact ⟨fun i j a b hi hj => h i j a b (by omega) (by omega), le_rfl⟩

/-- **The span.**  The lines of an aligned window of the span are close to each other. -/
theorem calcLinesSpan_aligned (lines : List ℤ) :
    Aligned lines (calcLinesSpan lines).size lines.length ∧ (calcLinesSpan lines).size ≤ 2 ^ 24 :=
  calcLinesSpanFrom_aligned (.ofLog 24) 0 (dvd_zero _)
    fun _ _ _ _ hi => absurd hi (Nat.not_lt_zero _)

/-! ### The baselines -/

theorem foldl_min (xs : List ℤ) (x : ℤ) :
    xs.foldl Min.min x ∈ x :: xs ∧ ∀ y ∈ x :: xs, xs.foldl Min.min x ≤ y := by
  induction xs generalizing x with
  | nil => simp
  | cons z xs ih =>
    obtain ⟨hmem, hle⟩ := ih (Min.min x z)
    rw [List.foldl_cons]
    constructor
    · rcases List.mem_cons.1 hmem with heq | hin
      · rw [heq]
        rcases min_choice x z with hx | hz
        · rw [hx]; exact List.mem_cons_self
        · rw [hz]; exact List.mem_cons_of_mem _ List.mem_cons_self
      · exact List.mem_cons_of_mem _ (List.mem_cons_of_mem _ hin)
    · have hfst := hle _ List.mem_cons_self
      intro y hy
      rcases List.mem_cons.1 hy with rfl | hy
      · exact hfst.trans (min_le_left _ _)
      · rcases List.mem_cons.1 hy with rfl | hy
        · exact hfst.trans (min_le_right _ _)
        · exact hle y (List.mem_cons_of_mem _ hy)

/-- The baseline of a window is one of its lines. -/
theorem windowMin_spec {size offset : ℕ} (hsize : 0 < size) (h : offset < lines.length) :
    (∃ j, offset ≤ j ∧ j < offset + size ∧
      lines[j]? = some (windowMin lines size offset lines[offset])) ∧
    ∀ i a, offset ≤ i → i < offset + size → lines[i]? = some a →
      windowMin lines size offset lines[offset] ≤ a := by
  obtain ⟨hmem, hle⟩ := foldl_min ((lines.drop offset).take size) lines[offset]
  have hget : ∀ n, n < size → ((lines.drop offset).take size)[n]? = lines[offset + n]? :=
    fun n hn => by rw [List.getElem?_take_of_lt hn, List.getElem?_drop]
  constructor
  · rcases List.mem_cons.1 hmem with heq | hin
    · exact ⟨offset, le_rfl, by omega, by rw [windowMin, heq, List.getElem?_eq_getElem h]⟩
    · obtain ⟨n, hn⟩ := List.mem_iff_getElem?.1 hin
      have hlt : n < size := by
        have := (List.getElem?_eq_some_iff.1 hn).1
        rw [List.length_take] at this
        omega
      rw [hget n hlt] at hn
      exact ⟨offset + n, by omega, by omega, hn⟩
  · intro i a hi hi' ha
    refine hle a (List.mem_cons_of_mem _ (List.mem_iff_getElem?.2 ⟨i - offset, ?_⟩))
    rw [hget _ (by omega), Nat.add_sub_cancel' hi, ha]

theorem length_fillBaselineFrom (span : Span) (offset : ℕ) (baseline : List ℤ) :
    (fillBaselineFrom lines span offset baseline).length = baseline.length := by
  fun_induction fillBaselineFrom lines span offset baseline with
  | case1 offset baseline hlt ih => rw [ih, List.length_set]
  | case2 => rfl

/-- The loop fills the windows from `offset` on and leaves the ones before as they are. -/
theorem fillBaselineFrom_spec (span : Span) (m : ℕ) (baseline : List ℤ)
    (hlen : lines.length ≤ baseline.length * span.size) :
    ∀ k, (k < m → (fillBaselineFrom lines span (m * span.size) baseline)[k]? = baseline[k]?) ∧
      (m ≤ k → (h : k * span.size < lines.length) →
        (fillBaselineFrom lines span (m * span.size) baseline)[k]? =
          some (windowMin lines span.size (k * span.size) lines[k * span.size])) := by
  generalize hoff : m * span.size = offset
  fun_induction fillBaselineFrom lines span offset baseline generalizing m with
  | case1 offset baseline hlt ih =>
    subst hoff
    have hdiv : m * span.size / span.size = m := Nat.mul_div_cancel _ span.pos
    have hm : m < baseline.length := Nat.lt_of_mul_lt_mul_right (hlt.trans_le hlen)
    rw [hdiv] at ih ⊢
    intro k
    obtain ⟨hbefore, hafter⟩ := ih (m + 1) (by rwa [List.length_set]) (by ring) k
    refine ⟨fun hk => ?_, fun hk hlt' => ?_⟩
    · rw [hbefore (by omega), List.getElem?_set_ne (by omega)]
    · rcases Nat.eq_or_lt_of_le hk with rfl | hk
      · rw [hbefore (by omega), List.getElem?_set_self hm]
      · exact hafter hk hlt'
  | case2 offset baseline hge =>
    subst hoff
    refine fun k => ⟨fun _ => rfl, fun hk hlt => ?_⟩
    exact absurd (hlt.trans_le (not_lt.1 hge)) (not_lt.2 (Nat.mul_le_mul_right _ hk))

theorem length_fillBaselineInfo (span : Span) :
    (fillBaselineInfo lines span).length = (lines.length - 1) / span.size + 1 := by
  rw [fillBaselineInfo, length_fillBaselineFrom, List.length_replicate]

/-- Every baseline is the smallest line of its window. -/
theorem fillBaselineInfo_spec (span : Span) {k : ℕ} (h : k * span.size < lines.length) :
    (fillBaselineInfo lines span)[k]? =
      some (windowMin lines span.size (k * span.size) lines[k * span.size]) := by
  have hlen : lines.length ≤
      (List.replicate ((lines.length - 1) / span.size + 1) (0 : ℤ)).length * span.size := by
    rw [List.length_replicate, Nat.mul_comm]
    have := Nat.lt_mul_div_succ (lines.length - 1) span.pos
    omega
  have hspec := ((fillBaselineFrom_spec span 0 _ hlen) k).2 (Nat.zero_le k) h
  rwa [Nat.zero_mul] at hspec

/-- A baseline is a line. -/
theorem mem_of_mem_fillBaselineInfo (span : Span) (hne : lines ≠ []) {b : ℤ}
    (hb : b ∈ fillBaselineInfo lines span) : b ∈ lines := by
  obtain ⟨k, hk⟩ := List.mem_iff_getElem?.1 hb
  have hlt := (List.getElem?_eq_some_iff.1 hk).1
  rw [length_fillBaselineInfo, Nat.lt_succ_iff, Nat.le_div_iff_mul_le span.pos] at hlt
  have hpos := List.length_pos_iff.2 hne
  have hwin : k * span.size < lines.length := by omega
  rw [fillBaselineInfo_spec span hwin] at hk
  cases hk
  obtain ⟨⟨j, -, -, hj⟩, -⟩ := windowMin_spec span.pos hwin
  exact List.mem_of_getElem? hj

/-- **The deltas.**  A line is at most 255 above the baseline of its window. -/
theorem delta_bounds (lines : List ℤ) {i : ℕ} {line : ℤ} (h : lines[i]? = some line) :
    ∃ b, (fillBaselineInfo lines (calcLinesSpan lines))[i >>> log2 (calcLinesSpan lines).size]? =
      some b ∧ 0 ≤ line - b ∧ line - b ≤ 255 := by
  have hlt := (List.getElem?_eq_some_iff.1 h).1
  have haligned := (calcLinesSpan_aligned lines).1
  generalize calcLinesSpan lines = span at haligned ⊢
  have hmul := Nat.div_mul_le_self i span.size
  have hmod := Nat.lt_div_mul_add span.pos (a := i)
  obtain ⟨⟨j, hj, hj', hjb⟩, hmin⟩ :=
    @windowMin_spec lines _ _ span.pos (hmul.trans_lt hlt)
  rw [Nat.shiftRight_eq_div_pow, ← span.size_eq]
  refine ⟨_, fillBaselineInfo_spec span (hmul.trans_lt hlt), ?_, ?_⟩
  · have := hmin i line hmul hmod h
    omega
  · -- the baseline is a line of the same window
    have hij : i / span.size = j / span.size := by
      refine le_antisymm ((Nat.le_div_iff_mul_le span.pos).2 hj) ?_
      exact Nat.lt_succ_iff.1 ((Nat.div_lt_iff_lt_mul span.pos).2 (by rw [Nat.succ_mul]; exact hj'))
    exact haligned i j line _ hlt (List.getElem?_eq_some_iff.1 hjb).1 hij h hjb

/-! ### Reading back -/

/-- The loader finds the deltas again. -/
theorem readDeltas_writeDeltas (baseline : List ℤ) (logspan : ℕ) (xs : List ℤ) (i : ℕ)
    (last : UInt8) (rest : Bytes) :
    ∃ deltas, readDeltas xs.length last (writeDeltas baseline logspan xs i last ++ rest) =
      some (deltas, rest) ∧ ∀ k line, xs[k]? = some line →
        deltas[k]? = some (UInt8.ofInt (line - baseline.getD ((i + k) >>> logspan) 0)) := by
  induction xs generalizing i last with
  | nil => exact ⟨[], rfl, fun k line h => by simp at h⟩
  | cons x xs ih =>
    obtain ⟨deltas, hread, hall⟩ :=
      ih (i + 1) (UInt8.ofInt (x - baseline.getD (i >>> logspan) 0))
    refine ⟨UInt8.ofInt (x - baseline.getD (i >>> logspan) 0) :: deltas, ?_, ?_⟩
    · have hsum : ∀ d : UInt8, last + (d - last) = d := fun d => by
        rw [UInt8.add_comm, UInt8.sub_add_cancel]
      simp only [List.length_cons, writeDeltas, List.cons_append, readDeltas, hsum, hread]
      rfl
    · rintro (_ | k) line h
      · cases h
        rfl
      · rw [List.getElem?_cons_succ, hall k line h]
        congr 5
        omega

/-- The loader finds the baselines again. -/
theorem readBaseline_writeBaseline (xs : List ℤ) (last : ℤ) (rest : Bytes)
    (hlast : 0 ≤ last ∧ last < 2 ^ 31) (hxs : ∀ x ∈ xs, 0 < x ∧ x < 2 ^ 31) :
    readBaseline xs.length last (writeBaseline xs last ++ rest) = some (xs, rest) := by
  induction xs generalizing last with
  | nil => rfl
  | cons x xs ih =>
    have hx := hxs x List.mem_cons_self
    -- the difference of two lines is an `int`
    have hdiff : last + (leNat (leBytes 4 (x - last)) : ℤ).bmod (2 ^ 32) = x := by
      have hmod := Int.emod_bmod (x - last) (2 ^ 32)
      have hid : (x - last).bmod (2 ^ 32) = x - last :=
        Int.bmod_eq_of_le_mul_two (by norm_num; omega) (by norm_num; omega)
      rw [leNat_leBytes, show ((256 : ℤ) ^ 4) = ((2 ^ 32 : ℕ) : ℤ) by norm_num, hmod, hid]
      omega
    rw [writeBaseline, List.append_assoc, List.length_cons, readBaseline,
      takeN_append_of_length (length_leBytes 4 _)]
    simp only [Option.bind_eq_bind, Option.bind_some, hdiff]
    rw [ih x ⟨hx.1.le, hx.2⟩ fun y hy => hxs y (List.mem_cons_of_mem _ hy)]
    rfl

/-- The exponent of the span fits a byte. -/
theorem log2_span_lt (lines : List ℤ) : log2 (calcLinesSpan lines).size < 256 := by
  have h := (calcLinesSpan_aligned lines).2
  rw [(calcLinesSpan lines).size_eq] at h
  have := (Nat.pow_le_pow_iff_right (by norm_num)).1 h
  omega

/-- **Round trip.**  The loader computes as many intervals as there are baselines, every delta fits
a byte, and the line of every instruction is found again. -/
theorem lines_roundTrip (lines : List ℤ) (rest : Bytes) (hne : lines ≠ [])
    (hlines : ∀ line ∈ lines, 0 < line ∧ line < 2 ^ 31) :
    ∃ info, loadLines lines.length (writeLines lines ++ rest) = some (some info, rest) ∧
      (∀ pc (h : pc < lines.length), info.getline pc = some lines[pc]) ∧
      info.abslineinfo = fillBaselineInfo lines (calcLinesSpan lines) ∧
      (lines.length - 1) >>> info.linegaplog2 + 1 =
        (fillBaselineInfo lines (calcLinesSpan lines)).length ∧
      ∀ pc (h : pc < lines.length), ∃ b,
        info.abslineinfo[pc >>> info.linegaplog2]? = some b ∧
          0 ≤ lines[pc] - b ∧ lines[pc] - b ≤ 255 := by
  have hflag : writeLines lines = 1 :: writeLineInfo lines := by
    refine if_pos (List.all_eq_true.2 fun line hline => ?_)
    have := (hlines line hline).1
    exact decide_eq_true (by omega)
  have hgap : (UInt8.ofNat (log2 (calcLinesSpan lines).size)).toNat =
      log2 (calcLinesSpan lines).size := UInt8.toNat_ofNat_of_lt' (log2_span_lt lines)
  have hsize : (lines.length - 1) >>> log2 (calcLinesSpan lines).size + 1 =
      (fillBaselineInfo lines (calcLinesSpan lines)).length := by
    rw [length_fillBaselineInfo, Nat.shiftRight_eq_div_pow, ← Span.size_eq]
  obtain ⟨deltas, hdeltas, hall⟩ := readDeltas_writeDeltas
    (fillBaselineInfo lines (calcLinesSpan lines)) (log2 (calcLinesSpan lines).size) lines 0 0
    (writeBaseline (fillBaselineInfo lines (calcLinesSpan lines)) 0 ++ rest)
  have hbase := readBaseline_writeBaseline (fillBaselineInfo lines (calcLinesSpan lines)) 0 rest
    (by norm_num) fun b hb => hlines b (mem_of_mem_fillBaselineInfo _ hne hb)
  refine ⟨⟨log2 (calcLinesSpan lines).size, deltas,
    fillBaselineInfo lines (calcLinesSpan lines)⟩, ?_, fun pc h => ?_, rfl, hsize, fun pc h => ?_⟩
  · rw [hflag, writeLineInfo, List.cons_append, List.cons_append, List.append_assoc, loadLines,
      if_pos (by decide)]
    simp only [hgap, hdeltas, hsize, hbase, Option.bind_eq_bind, Option.bind_some]
    rfl
  · obtain ⟨b, hb, hlo, hhi⟩ := delta_bounds lines (List.getElem?_eq_getElem h)
    have hd := hall pc _ (List.getElem?_eq_getElem h)
    rw [Nat.zero_add, List.getD_eq_getElem?_getD, hb, Option.getD_some] at hd
    simp only [Info.getline, hb, hd, Option.bind_eq_bind, Option.bind_some, toNat_ofInt]
    exact congrArg some (by omega)
  · exact delta_bounds lines (List.getElem?_eq_getElem h)

theorem lines_roundTrip_three : ∃ info, loadLines 3 (writeLines [300, 10, 12]) = some (some info, []) ∧
    (∀ pc (h : pc < 3), info.getline pc = some [300, 10, 12][pc]) ∧
    info.abslineinfo = fillBaselineInfo [300, 10, 12] (calcLinesSpan [300, 10, 12]) ∧
    (3 - 1) >>> info.linegaplog2 + 1 =
      (fillBaselineInfo [300, 10, 12] (calcLinesSpan [300, 10, 12])).length ∧
    ∀ pc (h : pc < 3), ∃ b, info.abslineinfo[pc >>> info.linegaplog2]? = some b ∧
      0 ≤ [300, 10, 12][pc] - b ∧ [300, 10, 12][pc] - b ≤ 255 := by
  simpa using lines_roundTrip [300, 10, 12] [] (by decide) (by decide)

end LineInfo

end Jaci
