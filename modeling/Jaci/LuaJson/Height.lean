import Jaci.LuaJson.Nesting
import Jaci.LuaJson.Stack

/-!
# How high the stack of `json.decode` gets

The slots that the decoder takes are counted in the text: one for an open array, one for an open
object, and one for a key whose value is not complete.

* `Counts` : what a part of the decoder does on the stack;
* `array_counts`, `object_counts`, `reader_value_run` : arrays, objects and values;
* `heights_decode_iff` : the height of the stack is that of the text;
* `decode_stack` : **what is pushed has a slot, and how much that is**.
-/

namespace Jaci

namespace LuaJson

open Wire Json Json.Parser

/-! ### What a part does on the stack -/

/-- The calls of a part are those that its text asks for; a part that succeeds leaves `ends` values
on the stack. -/
structure Counts (place : Place) (ends : ℕ) (s : Bytes) (run : StackRun) : Prop where
  ok : run.rest ≠ none → ∀ top, final top run.ops = top + ends
  fails : run.rest = none → ∃ n, Stops place n s ∧ ∀ top, final top run.ops = top + n
  upper : ∀ top, ∀ k ∈ heights top run.ops,
    (∃ n, Opens place n s ∧ k ≤ top + n + 1) ∨ ∃ n, Stops place n s ∧ k ≤ top + n + 2
  /-- Every place of the text where a value is read is reached. -/
  lower : ∀ n, Opens place n s → ∀ top, (∃ k ∈ heights top run.ops, top + n + 1 ≤ k) ∨
    run.rest = none ∧ top + n + 1 ≤ final top run.ops + 2
  /-- Where the text stops being JSON, so does the part. -/
  stops : ∀ n, Stops place n s → run.rest = none ∧ ∀ top, final top run.ops = top + n

/-- The part reads the complete values, and its calls are those of the text. -/
structure Reader (fuel : ℕ) (value : Bytes → StackRun) : Prop where
  rest : ∀ s, s.length < fuel → ∀ t, (value s).rest = some t ↔ Complete s t
  counts : ∀ s, s.length < fuel → Counts .value 1 s (value s)

section Loops

variable {fuel : ℕ} {value : Bytes → StackRun} {s t r : Bytes}

theorem counts_nil : Counts .elements 0 [] ⟨[], none⟩ where
  ok h := absurd rfl h
  fails _ := ⟨0, .element (.token (by simp [skip_whitespace]) fun _ => not_complete_nil),
    fun _ => rfl⟩
  upper _ _ hk := by cases hk
  lower n hn top := by
    obtain rfl := opens_nil hn
    exact .inr ⟨rfl, by rw [final_nil]; omega⟩
  stops n hn := by
    obtain rfl := stops_nil hn
    exact ⟨rfl, fun _ => rfl⟩

/-- An element that is not complete. -/
theorem Counts.element_error {run : StackRun} (h : Counts .value 1 s run) (hrest : run.rest = none)
    (hcomplete : ∀ t, ¬ Complete s t) : Counts .elements 0 s ⟨run.ops, none⟩ where
  ok h := absurd rfl h
  fails _ := by
    obtain ⟨n, hn, hfinal⟩ := h.fails hrest
    exact ⟨n, .element hn, hfinal⟩
  upper top k hk := by
    rcases h.upper top k hk with ⟨n, hn, hle⟩ | ⟨n, hn, hle⟩
    · exact .inl ⟨n, .element hn, hle⟩
    · exact .inr ⟨n, .element hn, hle⟩
  lower n hn top := by
    cases hn with
    | element hn =>
      rcases h.lower n hn top with hk | ⟨-, hle⟩
      · exact .inl hk
      · exact .inr ⟨rfl, hle⟩
    | next_element hc => exact absurd hc (hcomplete _)
  stops n hn := by
    cases hn with
    | element hn => exact ⟨rfl, (h.stops n hn).2⟩
    | separator hc => exact absurd hc (hcomplete _)
    | next_element hc => exact absurd hc (hcomplete _)

/-- The calls of one turn of a loop, which leave nothing on the stack, and whose heights are those
of the text.  They reach the places of `reached`. -/
structure Turn (place : Place) (s : Bytes) (ops : List StackOp) (reached : ℕ → Prop) : Prop where
  final : ∀ top, final top ops = top
  upper : ∀ top, ∀ k ∈ heights top ops,
    (∃ n, Opens place n s ∧ k ≤ top + n + 1) ∨ ∃ n, Stops place n s ∧ k ≤ top + n + 2
  lower : ∀ n, reached n → ∀ top, ∃ k ∈ heights top ops, top + n + 1 ≤ k

section Turn

variable {place : Place} {ops : List StackOp} {reached : ℕ → Prop}

/-- The loop ends with the closing bracket. -/
theorem Turn.closes (h : Turn place s ops reached) (hopens : ∀ n, Opens place n s → reached n)
    (hstops : ∀ n, ¬ Stops place n s) (rest : Bytes) : Counts place 0 s ⟨ops, some rest⟩ where
  ok _ := h.final
  fails h := by cases h
  upper := h.upper
  lower n hn top := .inl (h.lower n (hopens n hn) top)
  stops n hn := absurd hn (hstops n)

/-- The loop ends with an error. -/
theorem Turn.errs (h : Turn place s ops reached) (hopens : ∀ n, Opens place n s → reached n)
    (hstop : Stops place 0 s) (hstops : ∀ n, Stops place n s → n = 0) :
    Counts place 0 s ⟨ops, none⟩ where
  ok h := absurd rfl h
  fails _ := ⟨0, hstop, h.final⟩
  upper := h.upper
  lower n hn top := .inl (h.lower n (hopens n hn) top)
  stops n hn := by
    obtain rfl := hstops n hn
    exact ⟨rfl, h.final⟩

/-- The loop goes on after a comma. -/
theorem Turn.goes_on {next : StackRun} (h : Turn place s ops reached)
    (hnext : Counts place 0 r next)
    (hopens : ∀ n, Opens place n s ↔ reached n ∨ Opens place n r)
    (hstops : ∀ n, Stops place n s ↔ Stops place n r) : Counts place 0 s (next.after ops) := by
  -- The calls of this turn leave the height as it was.
  have hfinal (top : ℕ) : LuaJson.final top (next.after ops).ops = LuaJson.final top next.ops := by
    rw [StackRun.after_ops, final_append, h.final]
  refine ⟨fun hne top => ?_, fun hnone => ?_, fun top k hk => ?_, fun n hn top => ?_,
    fun n hn => ?_⟩
  · rw [hfinal]
    exact hnext.ok hne top
  · obtain ⟨n, hn, hleft⟩ := hnext.fails hnone
    exact ⟨n, (hstops n).mpr hn, fun top => by rw [hfinal, hleft]⟩
  · rw [StackRun.after_ops, heights_append, h.final, List.mem_append] at hk
    rcases hk with hk | hk
    · exact h.upper top k hk
    · rcases hnext.upper top k hk with ⟨n, hn, hle⟩ | ⟨n, hn, hle⟩
      · exact .inl ⟨n, (hopens n).mpr (.inr hn), hle⟩
      · exact .inr ⟨n, (hstops n).mpr hn, hle⟩
  · rw [hfinal, StackRun.after_ops, heights_append, h.final]
    rcases (hopens n).mp hn with hreached | hn
    · obtain ⟨k, hk, hle⟩ := h.lower n hreached top
      exact .inl ⟨k, List.mem_append_left _ hk, hle⟩
    · rcases hnext.lower n hn top with ⟨k, hk, hle⟩ | hend
      · exact .inl ⟨k, List.mem_append_right _ hk, hle⟩
      · exact .inr hend
  · obtain ⟨hnone, hleft⟩ := hnext.stops n ((hstops n).mp hn)
    exact ⟨hnone, fun top => by rw [hfinal, hleft]⟩

/-- How a turn ends, by what follows its value `u`: the bracket, a comma and the other turns, or
something else, which is an error. -/
theorem Turn.ends {u : Bytes} {close : UInt8} {next : Bytes → StackRun}
    (h : Turn place s ops reached) (hclose : close ≠ comma)
    (hnext : ∀ r, skip_whitespace u = comma :: r → Counts place 0 r (next r))
    (hopens : ∀ n, Opens place n s ↔
      reached n ∨ ∃ r, skip_whitespace u = comma :: r ∧ Opens place n r)
    (hstops : ∀ n, Stops place n s ↔
      (n = 0 ∧ ∀ c ∈ (skip_whitespace u).head?, c ≠ close ∧ c ≠ comma) ∨
        ∃ r, skip_whitespace u = comma :: r ∧ Stops place n r) :
    Counts place 0 s
      (match skip_whitespace u with
      | [] => ⟨ops, none⟩
      | c :: rest =>
        if c = close then ⟨ops, some rest⟩
        else if c = comma then (next rest).after ops
        else ⟨ops, none⟩) := by
  split
  · next hend =>
    -- The text ends before the bracket.
    simp only [hend, List.head?_nil, Option.not_mem_none, false_implies, implies_true,
      and_true, reduceCtorEq, false_and, exists_false, or_false] at hopens hstops
    exact h.errs (fun n => (hopens n).mp) ((hstops 0).mpr rfl) fun n => (hstops n).mp
  · next c rest hend =>
    simp only [hend, List.head?_cons, Option.mem_some_iff, forall_eq', List.cons.injEq,
      and_assoc, exists_and_left, exists_eq_left'] at hopens hstops
    split_ifs with hc hcomma
    · subst hc
      exact h.closes (fun n hn => by simpa [hclose] using (hopens n).mp hn)
        (fun n hn => by simpa [hclose] using (hstops n).mp hn) rest
    · subst hcomma
      exact h.goes_on (hnext rest hend) (fun n => by simpa using hopens n)
        fun n => by simpa using hstops n
    · exact h.errs (fun n hn => by simpa [hcomma] using (hopens n).mp hn)
        ((hstops 0).mpr (.inl ⟨rfl, hc, hcomma⟩))
        fun n hn => by simpa [hcomma, hc] using (hstops n).mp hn

end Turn

/-! ### Arrays -/

/-- A complete element is put into the table. -/
theorem Counts.element_turn {run : StackRun} (h : Counts .value 1 s run) (hrest : run.rest ≠ none) :
    Turn .elements s (run.ops ++ [.pop 1]) fun n => Opens .value n s where
  final top := by
    rw [final_append, h.ok hrest]
    rfl
  upper top k hk := by
    rw [heights_append, List.mem_append, h.ok hrest] at hk
    rcases hk with hk | hk
    · rcases h.upper top k hk with ⟨n, hn, hle⟩ | ⟨n, hn, hle⟩
      · exact .inl ⟨n, .element hn, hle⟩
      · exact .inr ⟨n, .element hn, hle⟩
    · obtain rfl : k = top := by simpa [heights, StackOp.apply] using hk
      exact .inl ⟨0, .element .here, by omega⟩
  lower n hn top := by
    rcases h.lower n hn top with ⟨k, hk, hle⟩ | ⟨hnone, -⟩
    · exact ⟨k, by simp [hk], hle⟩
    · exact absurd hnone hrest

/-- **The elements of an array.** -/
theorem array_counts (h : Reader fuel value) {turns : ℕ} (hturns : s.length ≤ turns)
    (hfuel : s.length < fuel) : Counts .elements 0 s (array_run value turns s) := by
  induction turns generalizing s with
  | zero =>
    obtain rfl := List.eq_nil_of_length_eq_zero (Nat.le_zero.mp hturns)
    exact counts_nil
  | succ turns ih =>
    rw [array_run]
    split_ifs with hs
    · rw [hs]
      exact counts_nil
    have hcounts := h.counts s hfuel
    -- Either the element is not complete, or it is put into the table.
    cases hrest : (value s).rest with
    | none =>
      refine hcounts.element_error hrest fun t ht => ?_
      rw [(h.rest s hfuel t).mpr ht] at hrest
      cases hrest
    | some t =>
      have ht := (h.rest s hfuel t).mp hrest
      have hne : (value s).rest ≠ none := by rw [hrest]; simp
      have hturn := hcounts.element_turn hne
      have hlen := ht.length_lt
      refine hturn.ends (by decide) (fun r hr => ?_) (fun n => opens_elements_iff ht)
        fun n => stops_elements_iff ht fun hn => hne (hcounts.stops n hn).1
      have hlen' := length_lt_of_skip hr
      exact ih (by omega) (by omega)

/-! ### Objects -/

theorem object_run_no_key (h : ∀ t, ¬ KeyString s t) (turns : ℕ) :
    object_run value turns s = ⟨[], none⟩ := by
  cases turns with
  | zero => rfl
  | succ turns =>
    rw [object_run]
    split_ifs with hs
    · rfl
    · split
      · rfl
      · next c r hskip =>
        split_ifs with hquote
        · rfl
        · rw [not_ne_iff] at hquote
          split
          · rfl
          · next k t hk => exact absurd (keyString_iff.mpr ⟨r, k, by rw [hskip, hquote], hk⟩) (h t)

theorem object_run_key (h : KeyString s t) (turns : ℕ) :
    object_run value (turns + 1) s = member_run value (object_run value turns) t := by
  obtain ⟨r, k, hs, hr⟩ := keyString_iff.mp h
  have hne : s ≠ [] := by
    rintro rfl
    cases hs
  rw [object_run, if_neg hne, hs]
  simp only [ne_eq, not_true_eq_false, if_false, hr]

theorem counts_no_key (h : ∀ t, ¬ KeyString s t) : Counts .members 0 s ⟨[], none⟩ where
  ok h := absurd rfl h
  fails _ := ⟨0, .no_key h, fun _ => rfl⟩
  upper _ _ hk := by cases hk
  lower n hn := by
    cases hn with
    | member hkey => exact absurd hkey (h _)
    | next_member hkey => exact absurd hkey (h _)
  stops n hn := by
    cases hn with
    | no_key => exact ⟨rfl, fun _ => rfl⟩
    | no_colon hkey => exact absurd hkey (h _)
    | member hkey => exact absurd hkey (h _)
    | member_separator hkey => exact absurd hkey (h _)
    | next_member hkey => exact absurd hkey (h _)

theorem counts_no_colon (hkey : KeyString s t)
    (h : ∀ c ∈ (skip_whitespace t).head?, c ≠ colon) :
    Counts .members 0 s ⟨[.push], none⟩ := by
  have hother {t' r : Bytes} (hkey' : KeyString s t') (hcolon : skip_whitespace t' = colon :: r) :
      False := by
    obtain rfl := hkey.unique hkey'
    exact h colon (by rw [hcolon]; rfl) rfl
  refine ⟨fun h => absurd rfl h, fun _ => ⟨1, .no_colon hkey h, fun _ => rfl⟩, fun top k hk => ?_,
    fun n hn => ?_, fun n hn => ?_⟩
  · obtain rfl : k = top + 1 := by simpa [heights, StackOp.apply] using hk
    exact .inr ⟨1, .no_colon hkey h, by omega⟩
  · cases hn with
    | member hkey' hcolon => exact (hother hkey' hcolon).elim
    | next_member hkey' hcolon => exact (hother hkey' hcolon).elim
  · cases hn with
    | no_key hnone => exact absurd hkey (hnone t)
    | no_colon => exact ⟨rfl, fun _ => rfl⟩
    | member hkey' hcolon => exact (hother hkey' hcolon).elim
    | member_separator hkey' hcolon => exact (hother hkey' hcolon).elim
    | next_member hkey' hcolon => exact (hother hkey' hcolon).elim

section Members

variable {u : Bytes} {n : ℕ}

/-- A member whose value is not complete. -/
theorem Counts.member_error {run : StackRun} (hkey : KeyString s t)
    (hcolon : skip_whitespace t = colon :: r) (h : Counts .value 1 r run) (hrest : run.rest = none)
    (hcomplete : ∀ u, ¬ Complete r u) : Counts .members 0 s ⟨.push :: run.ops, none⟩ where
  ok h := absurd rfl h
  fails _ := by
    obtain ⟨n, hn, hfinal⟩ := h.fails hrest
    refine ⟨n + 1, .member hkey hcolon hn, fun top => ?_⟩
    rw [final_cons, hfinal, StackOp.apply]
    omega
  upper top k hk := by
    rcases List.mem_cons.mp hk with rfl | hk
    · exact .inl ⟨1, .member hkey hcolon .here, by rw [StackOp.apply]; omega⟩
    · rcases h.upper _ k hk with ⟨n, hn, hle⟩ | ⟨n, hn, hle⟩
      · exact .inl ⟨n + 1, .member hkey hcolon hn, by rw [StackOp.apply] at hle; omega⟩
      · exact .inr ⟨n + 1, .member hkey hcolon hn, by rw [StackOp.apply] at hle; omega⟩
  lower n hn top := by
    -- Below the value there is the key.
    rcases (opens_members_iff hkey hcolon).mp hn with ⟨m, rfl, hm⟩ | ⟨u, hc, -⟩
    · rcases h.lower m hm (top + 1) with ⟨k, hk, hle⟩ | ⟨-, hle⟩
      · exact .inl ⟨k, List.mem_cons_of_mem _ hk, by omega⟩
      · exact .inr ⟨rfl, by rw [final_cons, StackOp.apply]; omega⟩
    · exact absurd hc (hcomplete u)
  stops n hn := by
    rcases (stops_members_iff hkey hcolon).mp hn with ⟨m, rfl, hm⟩ | ⟨u, hc, -⟩
    · refine ⟨rfl, fun top => ?_⟩
      rw [final_cons, (h.stops m hm).2, StackOp.apply]
      omega
    · exact absurd hc (hcomplete u)

/-- A member is put into the table. -/
theorem Counts.member_turn {run : StackRun} (hkey : KeyString s t)
    (hcolon : skip_whitespace t = colon :: r) (h : Counts .value 1 r run)
    (hrest : run.rest ≠ none) :
    Turn .members s (.push :: run.ops ++ [.pop 2]) fun n => ∃ m, n = m + 1 ∧ Opens .value m r where
  final top := by
    rw [List.cons_append, final_cons, final_append, h.ok hrest]
    rfl
  upper top k hk := by
    rw [List.cons_append, heights, heights_append, h.ok hrest, List.mem_cons, List.mem_append] at hk
    rcases hk with rfl | hk | hk
    · exact .inl ⟨1, .member hkey hcolon .here, by rw [StackOp.apply]; omega⟩
    · rcases h.upper _ k hk with ⟨n, hn, hle⟩ | ⟨n, hn, hle⟩
      · exact .inl ⟨n + 1, .member hkey hcolon hn, by rw [StackOp.apply] at hle; omega⟩
      · exact .inr ⟨n + 1, .member hkey hcolon hn, by rw [StackOp.apply] at hle; omega⟩
    · obtain rfl : k = top := by simpa [heights, StackOp.apply] using hk
      exact .inl ⟨1, .member hkey hcolon .here, by omega⟩
  lower n hn top := by
    obtain ⟨m, rfl, hm⟩ := hn
    rcases h.lower m hm (top + 1) with ⟨k, hk, hle⟩ | ⟨hnone, -⟩
    · refine ⟨k, ?_, by omega⟩
      rw [List.cons_append, heights, heights_append, List.mem_cons, List.mem_append]
      exact .inr (.inl hk)
    · exact absurd hnone hrest

end Members

/-- **The members of an object.** -/
theorem object_counts (h : Reader fuel value) {turns : ℕ} (hturns : s.length ≤ turns)
    (hfuel : s.length < fuel) : Counts .members 0 s (object_run value turns s) := by
  induction turns generalizing s with
  | zero =>
    have hs := List.eq_nil_of_length_eq_zero (Nat.le_zero.mp hturns)
    refine counts_no_key fun t ht => ?_
    have := ht.length_lt
    simp [hs] at this
  | succ turns ih =>
    -- A turn needs a key, a colon and a complete value.
    by_cases hstring : ∃ t, KeyString s t
    · obtain ⟨t, hkey⟩ := hstring
      rw [object_run_key hkey, member_run]
      have hlen := hkey.length_lt
      split
      · next hskip => exact counts_no_colon hkey (by simp [hskip])
      · next c r hskip =>
        have hlen' := length_lt_of_skip hskip
        split_ifs with hc
        · exact counts_no_colon hkey (by simpa [hskip] using hc)
        rw [not_ne_iff] at hc
        rw [hc] at hskip
        have hcounts := h.counts r (by omega)
        cases hrest : (value r).rest with
        | none =>
          refine hcounts.member_error hkey hskip hrest fun u hu => ?_
          rw [(h.rest r (by omega) u).mpr hu] at hrest
          cases hrest
        | some u =>
          have hu := (h.rest r (by omega) u).mp hrest
          have hne : (value r).rest ≠ none := by rw [hrest]; simp
          have hturn := hcounts.member_turn hkey hskip hne
          -- The value is complete, so it does not stop inside, and what is left of it is known.
          have hvalue (m : ℕ) : ¬ Stops .value m r := fun hm => hne (hcounts.stops m hm).1
          have hunique {u' : Bytes} (h : Complete r u') : u' = u := h.unique hu
          have hlen'' := hu.length_lt
          have hopens (n : ℕ) : Opens .members n s ↔ (∃ m, n = m + 1 ∧ Opens .value m r) ∨
              ∃ r', skip_whitespace u = comma :: r' ∧ Opens .members n r' := by
            rw [opens_members_iff hkey hskip]
            refine or_congr_right ⟨?_, fun h => ⟨u, hu, h⟩⟩
            rintro ⟨u', hu', h⟩
            rwa [hunique hu'] at h
          have hstops (n : ℕ) : Stops .members n s ↔
              (n = 0 ∧ ∀ c ∈ (skip_whitespace u).head?, c ≠ rbrace ∧ c ≠ comma) ∨
                ∃ r', skip_whitespace u = comma :: r' ∧ Stops .members n r' := by
            rw [stops_members_iff hkey hskip]
            refine ⟨?_, fun h => .inr ⟨u, hu, h⟩⟩
            rintro (⟨m, -, hm⟩ | ⟨u', hu', h⟩)
            · exact absurd hm (hvalue m)
            · rwa [hunique hu'] at h
          refine hturn.ends (by decide) (fun r' hr' => ?_) hopens hstops
          have hlen''' := length_lt_of_skip hr'
          exact ih (by omega) (by omega)
    · rw [object_run_no_key fun t ht => hstring ⟨t, ht⟩]
      exact counts_no_key fun t ht => hstring ⟨t, ht⟩

end Loops

/-! ### Values -/

section Values

variable {s t r : Bytes}

theorem value_run_rest_iff {fuel : ℕ} (hfuel : s.length < fuel) :
    (value_run fuel s).rest = some t ↔ Complete s t := by
  rw [value_run_rest, ← parse_value_eq_ok_iff hfuel]
  cases parse_value fuel s with
  | error e => simp [Read.rest]
  | ok p =>
    obtain ⟨v, u⟩ := p
    simp [Read.rest]

/-- A token, or something that is none. -/
theorem counts_token {run : StackRun}
    (hhead : ∀ c ∈ (skip_whitespace s).head?, c ≠ lbracket ∧ c ≠ lbrace)
    (hrest : ∀ t, run.rest = some t ↔ Complete s t)
    (hops : run.ops = if run.rest = none then [] else [.push]) : Counts .value 1 s run := by
  have hbracket {c : UInt8} {r : Bytes} (h : skip_whitespace s = c :: r) :
      c ≠ lbracket ∧ c ≠ lbrace := hhead c (by rw [h]; rfl)
  have hopens {n : ℕ} (h : Opens .value n s) : n = 0 := by
    cases h with
    | here => rfl
    | array hs => exact absurd rfl (hbracket hs).1
    | object hs => exact absurd rfl (hbracket hs).2
  have hstops {n : ℕ} (h : Stops .value n s) : n = 0 ∧ run.rest = none := by
    cases h with
    | token _ hnone =>
      refine ⟨rfl, ?_⟩
      cases hrun : run.rest with
      | none => rfl
      | some t => exact absurd ((hrest t).mp hrun) (hnone t)
    | array_end hs => exact absurd rfl (hbracket hs).1
    | array hs => exact absurd rfl (hbracket hs).1
    | object_end hs => exact absurd rfl (hbracket hs).2
    | object hs => exact absurd rfl (hbracket hs).2
  -- An error leaves nothing on the stack, a token its value.
  by_cases hnone : run.rest = none
  · rw [if_pos hnone] at hops
    have hstop : Stops .value 0 s := .token hhead fun t ht => by
      rw [(hrest t).mpr ht] at hnone
      cases hnone
    refine ⟨fun h => absurd hnone h, fun _ => ⟨0, hstop, fun top => by rw [hops]; rfl⟩,
      fun top k hk => ?_, fun n hn top => ?_, fun n hn => ?_⟩
    · rw [hops] at hk
      cases hk
    · obtain rfl := hopens hn
      exact .inr ⟨hnone, by rw [hops, final_nil]; omega⟩
    · obtain rfl := (hstops hn).1
      exact ⟨hnone, fun top => by rw [hops]; rfl⟩
  · rw [if_neg hnone] at hops
    refine ⟨fun _ top => by rw [hops]; rfl, fun h => absurd h hnone, fun top k hk => ?_,
      fun n hn top => ?_, fun n hn => absurd (hstops hn).2 hnone⟩
    · rw [hops] at hk
      obtain rfl : k = top + 1 := by simpa [heights, StackOp.apply] using hk
      exact .inl ⟨0, .here, by omega⟩
    · obtain rfl := hopens hn
      exact .inl ⟨top + 1, by rw [hops]; exact List.mem_singleton.mpr rfl, by omega⟩

/-- A container that is empty, or whose text ends at once. -/
theorem counts_bracket {rest : Option Bytes} (hopens : ∀ n, Opens .value n s → n = 0)
    (hstops : ∀ n, Stops .value n s ↔ rest = none ∧ n = 1) :
    Counts .value 1 s ⟨[.push], rest⟩ where
  ok _ _ := rfl
  fails h := ⟨1, (hstops 1).mpr ⟨h, rfl⟩, fun _ => rfl⟩
  upper top k hk := by
    obtain rfl : k = top + 1 := by simpa [heights, StackOp.apply] using hk
    exact .inl ⟨0, .here, by omega⟩
  lower n hn top := by
    obtain rfl := hopens n hn
    exact .inl ⟨top + 1, List.mem_singleton.mpr rfl, by omega⟩
  stops n hn := by
    obtain ⟨hrest, rfl⟩ := (hstops n).mp hn
    exact ⟨hrest, fun _ => rfl⟩

/-- The loop of a container, whose table has been pushed. -/
theorem Counts.container {place : Place} {run : StackRun} (h : Counts place 0 r run)
    (hopens : ∀ n, Opens .value n s ↔ n = 0 ∨ ∃ m, n = m + 1 ∧ Opens place m r)
    (hstops : ∀ n, Stops .value n s ↔ ∃ m, n = m + 1 ∧ Stops place m r) :
    Counts .value 1 s (run.after [.push]) where
  ok hne top := by
    rw [StackRun.after_ops, final_append, h.ok hne]
    rfl
  fails hnone := by
    obtain ⟨n, hn, hfinal⟩ := h.fails hnone
    refine ⟨n + 1, (hstops _).mpr ⟨n, rfl, hn⟩, fun top => ?_⟩
    rw [StackRun.after_ops, final_append, hfinal, final_cons, final_nil, StackOp.apply]
    omega
  upper top k hk := by
    rw [StackRun.after_ops, heights_append, List.mem_append] at hk
    rcases hk with hk | hk
    · obtain rfl : k = top + 1 := by simpa [heights, StackOp.apply] using hk
      exact .inl ⟨0, .here, by omega⟩
    · -- The table is below everything inside.
      rcases h.upper _ k hk with ⟨n, hn, hle⟩ | ⟨n, hn, hle⟩
      · rw [final_cons, final_nil, StackOp.apply] at hle
        exact .inl ⟨n + 1, (hopens _).mpr (.inr ⟨n, rfl, hn⟩), by omega⟩
      · rw [final_cons, final_nil, StackOp.apply] at hle
        exact .inr ⟨n + 1, (hstops _).mpr ⟨n, rfl, hn⟩, by omega⟩
  lower n hn top := by
    rw [StackRun.after_ops, heights_append, final_append, final_cons, final_nil]
    rcases (hopens n).mp hn with rfl | ⟨m, rfl, hm⟩
    · exact .inl ⟨top + 1, List.mem_append_left _ (List.mem_singleton.mpr rfl), by omega⟩
    · rcases h.lower m hm (top + 1) with ⟨k, hk, hle⟩ | ⟨hnone, hle⟩
      · exact .inl ⟨k, List.mem_append_right _ hk, by omega⟩
      · exact .inr ⟨hnone, by rw [StackOp.apply]; omega⟩
  stops n hn := by
    obtain ⟨m, rfl, hm⟩ := (hstops n).mp hn
    obtain ⟨hnone, hfinal⟩ := h.stops m hm
    refine ⟨hnone, fun top => ?_⟩
    rw [StackRun.after_ops, final_append, hfinal, final_cons, final_nil, StackOp.apply]
    omega

/-- What follows an opening bracket: nothing, the closing one, or the loop of the container. -/
theorem counts_after_bracket {place : Place} {close : UInt8} {loop : Bytes → Bytes → StackRun}
    (hloop : ∀ d r', skip_whitespace r = d :: r' → Counts place 0 (d :: r') (loop r' (d :: r')))
    (hopens : ∀ n, Opens .value n s ↔ n = 0 ∨ ∃ m d r', n = m + 1 ∧
      skip_whitespace r = d :: r' ∧ d ≠ close ∧ Opens place m (d :: r'))
    (hstops : ∀ n, Stops .value n s ↔ (n = 1 ∧ skip_whitespace r = []) ∨ ∃ m d r', n = m + 1 ∧
      skip_whitespace r = d :: r' ∧ d ≠ close ∧ Stops place m (d :: r')) :
    Counts .value 1 s
      (match skip_whitespace r with
      | [] => ⟨[.push], none⟩
      | d :: rest =>
        if d = close then ⟨[.push], some rest⟩ else (loop rest (d :: rest)).after [.push]) := by
  split
  · next hinner =>
    simp only [hinner, reduceCtorEq, false_and, and_false, exists_false, or_false,
      and_true] at hopens hstops
    exact counts_bracket (fun n => (hopens n).mp) fun n => by simpa using hstops n
  · next d rest hinner =>
    simp only [hinner, List.cons.injEq, reduceCtorEq, and_false, false_or, and_assoc,
      exists_and_left, exists_eq_left'] at hopens hstops
    split_ifs with hclose
    · subst hclose
      exact counts_bracket (fun n hn => by simpa using (hopens n).mp hn)
        fun n => by simpa using hstops n
    · exact (hloop d rest hinner).container (fun n => by simpa [hclose] using hopens n)
        fun n => by simpa [hclose] using hstops n

theorem token_run_ops {α : Type} (r : Read α) :
    (token_run r).ops = if (token_run r).rest = none then [] else [.push] := by
  cases r with
  | ok p => rfl
  | error e => rfl

/-- **The calls of `parse_value` are those that the text asks for.** -/
theorem reader_value_run (fuel : ℕ) : Reader fuel (value_run fuel) := by
  induction fuel with
  | zero =>
    exact ⟨fun s hs => absurd hs (Nat.not_lt_zero _), fun s hs => absurd hs (Nat.not_lt_zero _)⟩
  | succ fuel ih =>
    refine ⟨fun s hs t => value_run_rest_iff hs, fun s hs => ?_⟩
    have hrest (t : Bytes) := @value_run_rest_iff s t (fuel + 1) hs
    rw [value_run] at hrest ⊢
    -- By the first character: a token, a bracket, or an error.
    cases hskip : skip_whitespace s with
    | nil =>
      rw [hskip] at hrest
      exact counts_token (by simp [hskip]) hrest rfl
    | cons c rest =>
      have hlen := length_lt_of_skip hskip
      simp only [hskip] at hrest ⊢
      have htoken (hne : c ≠ lbracket ∧ c ≠ lbrace) :
          ∀ d ∈ (skip_whitespace s).head?, d ≠ lbracket ∧ d ≠ lbrace := by
        simpa [hskip] using hne
      split_ifs at hrest ⊢ with hn ht hf hquote hbracket hbrace hnumber
      · exact counts_token (htoken (by rw [hn]; decide)) hrest (token_run_ops _)
      · exact counts_token (htoken (by rw [ht]; decide)) hrest (token_run_ops _)
      · exact counts_token (htoken (by rw [hf]; decide)) hrest (token_run_ops _)
      · exact counts_token (htoken (by rw [hquote]; decide)) hrest (token_run_ops _)
      · rw [hbracket] at hskip
        refine counts_after_bracket (fun d r' hinner => ?_) (fun n => opens_bracket_iff hskip)
          fun n => stops_bracket_iff hskip
        have hlen' := length_lt_of_skip hinner
        exact array_counts ih (le_refl (r'.length + 1)) (by rw [List.length_cons]; omega)
      · rw [hbrace] at hskip
        refine counts_after_bracket (fun d r' hinner => ?_) (fun n => opens_brace_iff hskip)
          fun n => stops_brace_iff hskip
        have hlen' := length_lt_of_skip hinner
        exact object_counts ih (le_refl (r'.length + 1)) (by rw [List.length_cons]; omega)
      · exact counts_token (htoken ⟨hbracket, hbrace⟩) hrest (token_run_ops _)
      · exact counts_token (htoken ⟨hbracket, hbrace⟩) (by simpa using hrest) rfl

end Values

/-! ### The whole input -/

/-- Below a value that is read, the text asks for less than `n` slots; where it stops being JSON, it
leaves room for nil and the message. -/
def NestsWithin (n : ℕ) (s : Bytes) : Prop :=
  (∀ k, Opens .value k s → k < n) ∧ ∀ k, Stops .value k s → k + 2 ≤ n

/-- **The height of the stack** is that of the text. -/
theorem heights_decode_iff {n : ℕ} (hn : 2 ≤ n) (s : Bytes) :
    (∀ k ∈ heights 0 (decode_run s), k ≤ n) ↔ NestsWithin n s := by
  have hcounts := (reader_value_run (s.length + 1)).counts s (Nat.lt_succ_self _)
  unfold decode_run
  generalize value_run (s.length + 1) s = run at hcounts
  cases hrest : run.rest with
  | none =>
    obtain ⟨m, hstop, hfinal⟩ := hcounts.fails hrest
    have hheights : heights 0 (run.ops ++ [.push, .push]) =
        heights 0 run.ops ++ [m + 1, m + 2] := by
      rw [heights_append, hfinal, Nat.zero_add]
      rfl
    simp only [hrest, hheights, List.mem_append, List.mem_cons, List.not_mem_nil, or_false]
    constructor
    · intro h
      have hm : m + 2 ≤ n := h _ (.inr (.inr rfl))
      refine ⟨fun k hk => ?_, fun k hk => ?_⟩
      · rcases hcounts.lower k hk 0 with ⟨k', hk', hle⟩ | ⟨-, hle⟩
        · have := h k' (.inl hk')
          omega
        · rw [hfinal] at hle
          omega
      · have := (hcounts.stops k hk).2 0
        rw [hfinal] at this
        omega
    · rintro ⟨hopens, hstops⟩ k (hk | rfl | rfl)
      · rcases hcounts.upper 0 k hk with ⟨j, hj, hle⟩ | ⟨j, hj, hle⟩
        · have := hopens j hj
          omega
        · have := hstops j hj
          omega
      · have := hstops m hstop
        omega
      · exact hstops m hstop
  | some rest =>
    have hne : run.rest ≠ none := by rw [hrest]; simp
    have hnostop (k : ℕ) : ¬ Stops .value k s := fun hk => hne (hcounts.stops k hk).1
    -- The values of an error are not above the one value of success.
    have hend : (∀ k ∈ heights 0 (if skip_whitespace rest = [] then run.ops
        else run.ops ++ [.pop 1, .push, .push]), k ≤ n) ↔ ∀ k ∈ heights 0 run.ops, k ≤ n := by
      split_ifs with hblank
      · rfl
      · rw [heights_append, hcounts.ok hne]
        simp only [heights, StackOp.apply, List.mem_append, List.mem_cons, List.not_mem_nil,
          or_false]
        refine ⟨fun h k hk => h k (.inl hk), fun h k hk => ?_⟩
        rcases hk with hk | rfl | rfl | rfl
        · exact h k hk
        · omega
        · omega
        · omega
    simp only [hrest]
    rw [hend]
    constructor
    · intro h
      refine ⟨fun k hk => ?_, fun k hk => absurd hk (hnostop k)⟩
      rcases hcounts.lower k hk 0 with ⟨k', hk', hle⟩ | ⟨hnone, -⟩
      · have := h k' hk'
        omega
      · exact absurd hnone hne
    · rintro ⟨hopens, -⟩ k hk
      rcases hcounts.upper 0 k hk with ⟨j, hj, hle⟩ | ⟨j, hj, -⟩
      · have := hopens j hj
        omega
      · exact absurd hj (hnostop j)

/-- **What is pushed has a slot**, at every point of `json_decode`: one of those that it is given,
or one that the push reserves.  The given ones are enough for the texts that nest within them; for
other texts more values are on the stack, or a push raises an error. -/
theorem decode_stack (nargs : ℕ) (memory : ℕ → Bool) (s : Bytes) :
    (∀ f ∈ exec nargs memory .start (decode_run s), f.top ≤ f.reserved) ∧
    (NestsWithin LUA_MINSTACK s →
      ∀ f ∈ exec nargs memory .start (decode_run s), f.top ≤ LUA_MINSTACK) ∧
    (¬ NestsWithin LUA_MINSTACK s → completes nargs memory .start (decode_run s) →
      ∃ f ∈ exec nargs memory .start (decode_run s), LUA_MINSTACK < f.top) := by
  have hiff := @heights_decode_iff LUA_MINSTACK (by decide) s
  refine ⟨exec_reserved _ (Nat.zero_le _), fun hnests f hf => ?_, fun hnests => ?_⟩
  · have hheights := hiff.mpr hnests
    rw [exec_within hheights] at hf
    obtain ⟨k, hk, rfl⟩ := List.mem_map.mp hf
    exact hheights k hk
  · rw [← hiff] at hnests
    push Not at hnests
    exact exec_beyond hnests

/-- Arrays that are 21 deep. -/
def deepArrays : Bytes := List.replicate 21 lbracket ++ List.replicate 21 rbracket

/-- Twenty slots are not enough for every text. -/
theorem not_decode_stack_within :
    ¬ ∀ (nargs : ℕ) (memory : ℕ → Bool) (s : Bytes),
      ∀ f ∈ exec nargs memory .start (decode_run s), f.top ≤ LUA_MINSTACK := by
  intro h
  have hdeep : ∃ f ∈ exec 1 (fun _ => true) .start (decode_run deepArrays),
      LUA_MINSTACK < f.top := by
    decide
  obtain ⟨f, hf, hlt⟩ := hdeep
  exact absurd (h 1 _ _ f hf) (Nat.not_le.mpr hlt)

end LuaJson

end Jaci
