import Jaci.BufLib.Functions

/-!
# Sequences of calls on buffers

* `runs_run` : every sequence of calls runs as operations on arrays;
* `readinteger_writeinteger`, `readlong_writelong`, `readbits_writebits` : what is read back;
* **`refines_arrays`** : the library refines arrays of bytes.
-/

namespace Jaci

namespace BufLib

open Wire

/-! ### Sequences of calls -/

section Sequences

variable {C : Casts} {args args' : ℕ → Value} {heap heap' : Heap}

/-- **Every function does what it means.** -/
theorem Function.meets {f : Function} (hoffsets : f.Offsets C args) (hvalues : f.Values C args) :
    Meets C heap (f.meaning C args heap) (f.call C args) := by
  obtain ⟨hints, hbits⟩ := hoffsets
  cases f with
  | create => exact meets_create hints
  | fromstring => exact meets_fromstring
  | tostring => exact meets_tostring
  | len => exact meets_len
  | readinteger T => exact meets_readinteger hints
  | writeinteger T => exact meets_writeinteger hints hvalues
  | readlong => exact meets_readlong hints
  | writelong => exact meets_writelong hints
  | readfp T => exact meets_readfp hints
  | writefp T => exact meets_writefp hints
  | readstring => exact meets_readstring hints
  | writestring => exact meets_writestring hints
  | copy => exact meets_copy hints
  | fill => exact meets_fill hints hvalues
  | readbits => exact meets_readbits hints hbits
  | writebits => exact meets_writebits hints hbits hvalues

/-- The calls of a sequence run as operations on arrays. -/
theorem runs_run {calls : List (Function × (ℕ → Value))}
    (h : ∀ c ∈ calls, c.1.Offsets C c.2 ∧ c.1.Values C c.2) (heap : Heap) :
    Runs C calls heap (run C calls heap).1 (run C calls heap).2 := by
  induction calls generalizing heap with
  | nil => exact .nil heap
  | cons c calls ih =>
    obtain ⟨f, args⟩ := c
    obtain ⟨hoffsets, hvalues⟩ := h _ List.mem_cons_self
    have hrest := ih fun c hc => h c (List.mem_cons_of_mem _ hc)
    obtain ⟨op, hop, hfits, r, heap₁, hx, heffect⟩ | ⟨hno, e, hx⟩ :=
      @Function.meets C args heap f hoffsets hvalues
    · rw [run, hx]
      exact .returned hop hfits heffect (hrest heap₁)
    · rw [run, hx]
      exact .refused e hno (hrest heap)

/-! ### Reading back -/

/-- A call that returns had its effect. -/
theorem effect_of_ok {f : Function} (hoffsets : f.Offsets C args) (hvalues : f.Values C args)
    {r : Pushed} (hcall : f.call C args heap = (.ok r, heap')) :
    ∃ op, f.meaning C args heap = some op ∧ op.Fits heap ∧ op.Effect C heap r heap' := by
  obtain ⟨op, hop, hfits, r', heap₁, hx, heffect⟩ | ⟨-, e, hx⟩ :=
    @Function.meets C args heap f hoffsets hvalues
  · rw [hcall, Prod.mk.injEq, Except.ok.injEq] at hx
    obtain ⟨rfl, rfl⟩ := hx
    exact ⟨op, hop, hfits, heffect⟩
  · rw [hcall] at hx
    cases hx

/-- A call whose operation fits returns. -/
theorem ok_of_fits {f : Function} (hoffsets : f.Offsets C args) (hvalues : f.Values C args)
    {op : Op} (hop : f.meaning C args heap = some op) (hfits : op.Fits heap) :
    ∃ r heap', f.call C args heap = (.ok r, heap') ∧ op.Effect C heap r heap' := by
  obtain ⟨op', hop', -, hx⟩ | ⟨hno, -⟩ := @Function.meets C args heap f hoffsets hvalues
  · rw [hop, Option.some.injEq] at hop'
    exact hop' ▸ hx
  · exact absurd hfits (hno op hop)

theorem slice_of_put {a s a' : Bytes} {o : ℤ} (h : Put a o s a') (ho : 0 ≤ o)
    (hend : o + s.length ≤ a.length) : slice a' o s.length = s := by
  obtain ⟨hlength, hget⟩ := h
  refine List.ext_getElem (by rw [slice, List.length_take, List.length_drop]; omega) ?_
  intro i hi hs
  have hbyte := hget (o.toNat + i) (by omega)
  rw [if_pos (by omega), List.getD_eq_getElem _ _ (by omega),
    List.getD_eq_getElem _ _ (by omega)] at hbyte
  simp only [slice, List.getElem_take, List.getElem_drop]
  rw [hbyte]
  congr 1
  omega

theorem IntType.wrap_emod (T : IntType) (z : ℤ) : T.wrap (z % 256 ^ T.size) = T.wrap z := by
  rw [wrap, wrap]
  split
  · have hmod := Int.emod_bmod z (256 ^ T.size)
    push_cast at hmod
    exact hmod
  · exact Int.emod_emod_of_dvd z (dvd_refl _)

theorem intArg_congr {narg : ℕ} (h : args' narg = args narg) :
    intArg C args' narg = intArg C args narg := by
  rw [intArg, intArg, h]

theorem bufferArg_congr {narg : ℕ} (h : args' narg = args narg)
    (hlength : heap'.length = heap.length) :
    bufferArg args' heap' narg = bufferArg args heap narg := by
  rw [bufferArg, bufferArg, h, hlength]

theorem ranges_congr {lo hi : ℤ} {nargs : List ℕ} (h : ∀ narg ∈ nargs, args' narg = args narg)
    (hrange : Ranges C args lo hi nargs) : Ranges C args' lo hi nargs :=
  fun narg hnarg n hn => hrange narg hnarg n (h narg hnarg ▸ hn)

/-- A read of the same type size gives the value that was written, as far as it fits. -/
theorem readinteger_writeinteger {T T' : IntType} (hsize : T'.size = T.size)
    (hoffsets : (Function.writeinteger T).Offsets C args)
    (hvalues : (Function.writeinteger T).Values C args) (h₁ : args' 1 = args 1)
    (h₂ : args' 2 = args 2) {r : Pushed}
    (hcall : (Function.writeinteger T).call C args heap = (.ok r, heap')) :
    ∃ z, intArg C args 3 = some z ∧
      (Function.readinteger T').call C args' heap' = (.ok (.number (T'.wrap z)), heap') := by
  obtain ⟨op, hop, hfits, heffect⟩ := effect_of_ok hoffsets hvalues hcall
  simp only [Function.meaning, Option.bind_eq_bind, Option.bind_eq_some_iff, Option.pure_def,
    Option.some.injEq] at hop
  obtain ⟨b, hb, o, ho, z, hz, rfl⟩ := hop
  obtain ⟨-, a', hput, hlength, ha', -⟩ := heffect
  refine ⟨z, hz, ?_⟩
  have hread : (Function.readinteger T').meaning C args' heap' =
      some (.read b o (.int T')) := by
    simp only [Function.meaning, Option.bind_eq_bind, Option.pure_def]
    rw [bufferArg_congr h₁ hlength, hb, intArg_congr h₂, ho]
    rfl
  have hoffsets' : (Function.readinteger T').Offsets C args' :=
    ⟨ranges_congr (fun narg hn => by obtain rfl := List.mem_singleton.mp hn; exact h₂) hoffsets.1,
      fun _ hn => nomatch hn⟩
  obtain ⟨hn, hpos, hend⟩ := hfits
  have hsame : (leBytes T.size z).length = T'.size := by rw [length_leBytes, hsize]
  obtain ⟨r', heap₁, hx, rfl, rfl⟩ := ok_of_fits hoffsets' (fun _ hn => nomatch hn) hread
    (show Inside heap' b o T'.size by
      rw [hsame] at hend
      exact ⟨by omega, hpos, by rw [ha', hput.1]; exact hend⟩)
  have hslice := slice_of_put hput hpos hend
  rw [hsame] at hslice
  rw [hx, Format.read, Format.size, ha', hslice, leNat_leBytes, ← hsize, T'.wrap_emod]

/-- A read of 64 bits gives the integer that was written. -/
theorem readlong_writelong (hoffsets : Function.writelong.Offsets C args) (h₁ : args' 1 = args 1)
    (h₂ : args' 2 = args 2) {r : Pushed}
    (hcall : Function.writelong.call C args heap = (.ok r, heap')) :
    ∃ l, longArg args 3 = some l ∧
      Function.readlong.call C args' heap' = (.ok (.integer l), heap') := by
  obtain ⟨op, hop, hfits, heffect⟩ := effect_of_ok hoffsets (fun _ hn => nomatch hn) hcall
  simp only [Function.meaning, Option.bind_eq_bind, Option.bind_eq_some_iff, Option.pure_def,
    Option.some.injEq] at hop
  obtain ⟨b, hb, o, ho, l, hl, rfl⟩ := hop
  obtain ⟨-, a', hput, hlength, ha', -⟩ := heffect
  refine ⟨l, hl, ?_⟩
  have hread : Function.readlong.meaning C args' heap' = some (.read b o .long) := by
    simp only [Function.meaning, Option.bind_eq_bind, Option.pure_def]
    rw [bufferArg_congr h₁ hlength, hb, intArg_congr h₂, ho]
    rfl
  have hoffsets' : Function.readlong.Offsets C args' :=
    ⟨ranges_congr (fun narg hn => by obtain rfl := List.mem_singleton.mp hn; exact h₂) hoffsets.1,
      fun _ hn => nomatch hn⟩
  obtain ⟨hn, hpos, hend⟩ := hfits
  have hsame : (leBytes 8 l.toInt).length = 8 := length_leBytes _ _
  obtain ⟨r', heap₁, hx, rfl, rfl⟩ := ok_of_fits hoffsets' (fun _ hn => nomatch hn) hread
    (show Inside heap' b o (8 : ℕ) by
      rw [hsame] at hend
      exact ⟨by omega, hpos, by rw [ha', hput.1]; exact hend⟩)
  have hslice := slice_of_put hput hpos hend
  rw [hsame] at hslice
  have hvalue : BitVec.ofNat 64 (leNat (leBytes 8 l.toInt)) = l := by
    apply BitVec.eq_of_toNat_eq
    have hle := leNat_leBytes 8 l.toInt
    have hint := l.toInt_eq_toNat_cond
    have hlt := l.isLt
    rw [BitVec.toNat_ofNat]
    split at hint <;> omega
  rw [hx, Format.read, Format.size, ha', hslice, hvalue]

/-- A read of bits gives those that were written. -/
theorem readbits_writebits (hoffsets : Function.writebits.Offsets C args)
    (hvalues : Function.writebits.Values C args) (h₁ : args' 1 = args 1) (h₂ : args' 2 = args 2)
    (h₃ : args' 3 = args 3) {r : Pushed}
    (hcall : Function.writebits.call C args heap = (.ok r, heap')) :
    ∃ c z, intArg C args 3 = some c ∧ intArg C args 4 = some z ∧
      Function.readbits.call C args' heap' = (.ok (.number (z % 2 ^ c.toNat)), heap') := by
  obtain ⟨op, hop, hfits, heffect⟩ := effect_of_ok hoffsets hvalues hcall
  simp only [Function.meaning, Option.bind_eq_bind, Option.bind_eq_some_iff, Option.pure_def,
    Option.some.injEq] at hop
  obtain ⟨b, hb, o, ho, c, hc, z, hz, rfl⟩ := hop
  obtain ⟨-, a', ⟨hsame, hbits⟩, hlength, ha', -⟩ := heffect
  refine ⟨c, z, hc, hz, ?_⟩
  have hread : Function.readbits.meaning C args' heap' = some (.readbits b o c) := by
    simp only [Function.meaning, Option.bind_eq_bind, Option.pure_def]
    rw [bufferArg_congr h₁ hlength, hb, intArg_congr h₂, ho, intArg_congr h₃, hc]
    rfl
  have hoffsets' : Function.readbits.Offsets C args' :=
    ⟨ranges_congr (fun narg hn => by obtain rfl := List.mem_singleton.mp hn; exact h₃) hoffsets.1,
      ranges_congr (fun narg hn => by obtain rfl := List.mem_singleton.mp hn; exact h₂) hoffsets.2⟩
  obtain ⟨hpos, h32, hstart, hend⟩ := hfits
  obtain ⟨r', heap₁, hx, ⟨n, rfl, hlt, hn⟩, rfl⟩ := ok_of_fits hoffsets' (fun _ hn => nomatch hn)
    hread (show 0 ≤ c ∧ c ≤ 32 ∧ 0 ≤ o ∧ o + c ≤ 8 * (bytes heap' b).length by
      rw [ha', hsame]
      exact ⟨hpos, h32, hstart, hend⟩)
  have hvalue : n = (z % 2 ^ c.toNat).toNat := by
    refine Nat.eq_of_testBit_eq fun j => ?_
    by_cases hj : j < c.toNat
    · have hplace : ((o.toNat + j : ℕ) - o : ℤ).toNat = j := by omega
      rw [hn j hj, ha', hbits _ (by omega), if_pos (by omega), hplace]
    · have hpow : (0 : ℤ) < 2 ^ c.toNat := by positivity
      have hmod : (z % 2 ^ c.toNat).toNat < 2 ^ c.toNat := by
        rw [Int.toNat_lt (Int.emod_nonneg z hpow.ne')]
        exact_mod_cast Int.emod_lt_of_pos z hpow
      have hle : 2 ^ c.toNat ≤ 2 ^ j := Nat.pow_le_pow_right (by decide) (by omega)
      rw [Nat.testBit_lt_two_pow (hlt.trans_le hle), Nat.testBit_lt_two_pow (hmod.trans_le hle)]
  have hnonneg : 0 ≤ z % 2 ^ c.toNat := Int.emod_nonneg z (by positivity)
  rw [hx, hvalue, Int.toNat_of_nonneg hnonneg]

/-- The arguments that name the range of a write. -/
def Function.range : Function → List ℕ
  | writebits => [1, 2, 3]
  | _ => [1, 2]

/-- A read of the range that a call wrote gives the value, as far as it fits. -/
def Function.ReadsBack (C : Casts) (args args' : ℕ → Value) (heap' : Heap) : Function → Prop
  | writeinteger T => ∀ T' : IntType, T'.size = T.size → ∃ z, intArg C args 3 = some z ∧
      (readinteger T').call C args' heap' = (.ok (.number (T'.wrap z)), heap')
  | writelong => ∃ l, longArg args 3 = some l ∧
      readlong.call C args' heap' = (.ok (.integer l), heap')
  | writebits => ∃ c z, intArg C args 3 = some c ∧ intArg C args 4 = some z ∧
      readbits.call C args' heap' = (.ok (.number (z % 2 ^ c.toNat)), heap')
  | _ => True

theorem readsBack {f : Function} (hoffsets : f.Offsets C args) (hvalues : f.Values C args)
    {r : Pushed} (hcall : f.call C args heap = (.ok r, heap'))
    (h : ∀ narg ∈ f.range, args' narg = args narg) : f.ReadsBack C args args' heap' := by
  cases f with
  | writeinteger T =>
    exact fun T' hsize => readinteger_writeinteger hsize hoffsets hvalues (h 1 (.head _))
      (h 2 (.tail _ (.head _))) hcall
  | writelong => exact readlong_writelong hoffsets (h 1 (.head _)) (h 2 (.tail _ (.head _))) hcall
  | writebits =>
    exact readbits_writebits hoffsets hvalues (h 1 (.head _)) (h 2 (.tail _ (.head _)))
      (h 3 (.tail _ (.tail _ (.head _)))) hcall
  | _ => trivial

end Sequences

/-- **Buffers are arrays of bytes**, for offsets, sizes and counts that are an `int`, offsets in
bits below `2 ^ 53` and values of at most 64 bits: every sequence of calls runs as operations on
arrays, and a read of the range that was written gives the value, as far as it fits. -/
theorem refines_arrays (C : Casts) (calls : List (Function × (ℕ → Value))) (heap : Heap)
    (h : ∀ c ∈ calls, c.1.Offsets C c.2 ∧ c.1.Values C c.2) :
    Runs C calls heap (run C calls heap).1 (run C calls heap).2 ∧
      ∀ f args, (f, args) ∈ calls → ∀ before r after, f.call C args before = (.ok r, after) →
        ∀ args', (∀ narg ∈ f.range, args' narg = args narg) → f.ReadsBack C args args' after :=
  ⟨runs_run h heap, fun _ _ hmem _ _ _ hcall _ hargs =>
    readsBack (h _ hmem).1 (h _ hmem).2 hcall hargs⟩

/-- A machine whose conversions of numbers that are out of range give the least integer. -/
def x64 : Casts where
  wide _ := BitVec.intMin 32
  widelong _ := BitVec.intMin 64
  float _ := 0
  double _ := 0
  text _ := ⟨[], Nat.zero_le _⟩
  str2d _ := none

/-- The arguments of a write at the start of the first buffer. -/
def writeArgs (n : BitVec 64) (narg : ℕ) : Value :=
  if narg = 1 then .buffer 0 else if narg = 2 then .number 0 else .number n

/-- Minus 300, as an `int16_t`. -/
theorem refines_arrays_write :
    let calls := [(Function.writeinteger .int16_t, writeArgs 0xC072C00000000000)]
    Runs x64 calls [⟨[0, 0], by decide⟩] (run x64 calls [⟨[0, 0], by decide⟩]).1
      (run x64 calls [⟨[0, 0], by decide⟩]).2 := by
  refine (refines_arrays x64 _ _ fun c hc => ?_).1
  obtain rfl := List.mem_singleton.mp hc
  refine ⟨⟨fun narg hn n h => ?_, fun _ hn => nomatch hn⟩, fun narg hn n h => ?_⟩
  · obtain rfl := List.mem_singleton.mp hn
    obtain rfl := Option.some.inj h
    exact ⟨0, by decide⟩
  · obtain rfl := List.mem_singleton.mp hn
    obtain rfl := Option.some.inj h
    exact ⟨-300, by decide⟩

/-- **A value of more than 64 bits** is not written as it is. -/
theorem wide_value : ¬ ∀ (C : Casts) (calls : List (Function × (ℕ → Value))) (heap : Heap),
    (∀ c ∈ calls, c.1.Offsets C c.2) →
      Runs C calls heap (run C calls heap).1 (run C calls heap).2 := by
  intro h
  have hruns := h x64 [(Function.writeinteger .uint16_t, writeArgs 0x43F0000000000001)]
    [⟨[0, 0], by decide⟩] fun c hc => by
      obtain rfl := List.mem_singleton.mp hc
      refine ⟨fun narg hn n h => ?_, fun _ hn => nomatch hn⟩
      obtain rfl := List.mem_singleton.mp hn
      obtain rfl := Option.some.inj h
      exact ⟨0, by decide⟩
  have hrun : run x64 [(Function.writeinteger .uint16_t, writeArgs 0x43F0000000000001)]
      [⟨[0, 0], by decide⟩] = ([.ok .nothing], [⟨[0, 0], by decide⟩]) := rfl
  have hmeaning : (Function.writeinteger .uint16_t).meaning x64 (writeArgs 0x43F0000000000001)
      [⟨[0, 0], by decide⟩] = some (.write 0 0 [0, 16]) := rfl
  rw [hrun] at hruns
  cases hruns with
  | returned hop hfits heffect hrest =>
    rw [hmeaning] at hop
    obtain rfl := Option.some.inj hop
    cases hrest
    obtain ⟨-, a', ⟨-, hput⟩, -, ha', -⟩ := heffect
    have hbyte := hput 1 (by decide)
    rw [← ha'] at hbyte
    exact absurd hbyte (by decide)

end BufLib

end Jaci
