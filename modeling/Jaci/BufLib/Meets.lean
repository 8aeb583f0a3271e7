import Jaci.BufLib.Arrays
import Mathlib.Data.List.GetD

/-!
# Steps of the functions of buffers

A function of the library checks its arguments one after the other, then the range, and copies bytes
last.  Each of these steps has a rule here.

* `testBit_leNat`, `Put.bit_eq` : the bits of bytes that are read or put;
* `load_apply`, `store_apply` : copies of a range that is inside of a buffer;
* `isoutofbounds_iff` : the test of a range, in integers without a bound;
* `Meets` : a call does what it means, and `meets_checkbuffer` … `meets_newbuffer`, its rules.
-/

namespace Jaci

namespace BufLib

open Wire

/-! ### Bits of bytes -/

theorem bit_nil (i : ℕ) : bit [] i = false := by simp [bit]

theorem bit_of_length_le {a : Bytes} {i : ℕ} (h : 8 * a.length ≤ i) : bit a i = false := by
  have hout : a.getD (i / 8) 0 = 0 := List.getD_eq_default _ _ (by omega)
  rw [bit, hout]
  exact Nat.zero_testBit _

theorem testBit_leNat (s : Bytes) (i : ℕ) : (leNat s).testBit i = bit s i := by
  induction s generalizing i with
  | nil => rw [bit_nil, leNat, Nat.zero_testBit]
  | cons b s ih =>
    rw [leNat, Nat.testBit_or, Nat.testBit_shiftLeft, ih]
    by_cases hi : 8 ≤ i
    · have hb : b.toNat.testBit i = false :=
        Nat.testBit_lt_two_pow (b.toNat_lt.trans_le (Nat.pow_le_pow_right (by decide) hi))
      have hdiv : i / 8 = (i - 8) / 8 + 1 := by omega
      have hmod : i % 8 = (i - 8) % 8 := by omega
      rw [hb, decide_eq_true hi, Bool.false_or, Bool.true_and, bit, bit, hdiv, hmod,
        List.getD_cons_succ]
    · have hdiv : i / 8 = 0 := by omega
      have hmod : i % 8 = i := by omega
      rw [decide_eq_false hi, Bool.false_and, Bool.or_false, bit, hdiv, hmod, List.getD_cons_zero]

theorem bit_leBytes {k i : ℕ} (n : ℕ) (h : i < 8 * k) : bit (leBytes k n) i = n.testBit i := by
  have hread : leNat (leBytes k n) = n % 2 ^ (8 * k) := by
    have hread := leNat_leBytes k n
    rw [pow_mul]
    exact_mod_cast hread
  rw [← testBit_leNat, hread, Nat.testBit_mod_two_pow, decide_eq_true h, Bool.true_and]

theorem bit_slice {a : Bytes} {o n i : ℕ} (h : i < 8 * n) :
    bit (slice a o n) i = bit a (8 * o + i) := by
  have hdiv : (8 * o + i) / 8 = o + i / 8 := by omega
  have hmod : (8 * o + i) % 8 = i % 8 := by omega
  rw [bit, bit, hdiv, hmod, slice, Int.toNat_natCast, List.getD_eq_getElem?_getD,
    List.getElem?_take_of_lt (by omega), List.getElem?_drop, ← List.getD_eq_getElem?_getD]

/-! ### Bytes that are put -/

theorem getD_splice {a s : Bytes} {o : ℕ} (h : o + s.length ≤ a.length) (i : ℕ) :
    (Call.splice a o s).getD i 0 =
      if o ≤ i ∧ i < o + s.length then s.getD (i - o) 0 else a.getD i 0 := by
  have hlength : (a.take o ++ s).length = o + s.length := by
    rw [List.length_append, List.length_take]
    omega
  have htake : (a.take o).length = o := by
    rw [List.length_take]
    omega
  rw [Call.splice]
  by_cases hi : i < o + s.length
  · rw [List.getD_append _ _ _ _ (by omega)]
    by_cases hle : o ≤ i
    · rw [if_pos ⟨hle, hi⟩, List.getD_append_right _ _ _ _ (by omega), htake]
    · rw [if_neg (by omega), List.getD_append _ _ _ _ (by omega), List.getD_eq_getElem?_getD,
        List.getElem?_take_of_lt (by omega), ← List.getD_eq_getElem?_getD]
  · rw [if_neg (by omega), List.getD_append_right _ _ _ _ (by omega), hlength,
      List.getD_eq_getElem?_getD, List.getElem?_drop, ← List.getD_eq_getElem?_getD]
    congr 1
    omega

theorem put_splice {a s : Bytes} {o : ℤ} (ho : 0 ≤ o) (h : o.toNat + s.length ≤ a.length) :
    Put a o s (Call.splice a o.toNat s) := by
  refine ⟨Call.length_splice h, fun i _ => ?_⟩
  rw [getD_splice h]
  have hiff : o.toNat ≤ i ∧ i < o.toNat + s.length ↔ o ≤ i ∧ (i : ℤ) < o + s.length := by omega
  have hsub : i - o.toNat = (i - o).toNat := by omega
  simp only [hiff, hsub]

/-- The bits after bytes were put. -/
theorem Put.bit_eq {a s a' : Bytes} {o : ℕ} (h : Put a o s a') {i : ℕ} (hi : i < 8 * a.length) :
    bit a' i = if 8 * o ≤ i ∧ i < 8 * (o + s.length) then bit s (i - 8 * o) else bit a i := by
  have hiff : (o : ℤ) ≤ (i / 8 : ℕ) ∧ ((i / 8 : ℕ) : ℤ) < o + s.length ↔
      8 * o ≤ i ∧ i < 8 * (o + s.length) := by omega
  rw [bit, h.2 _ (by omega)]
  simp only [hiff]
  split
  · have hdiv : (((i / 8 : ℕ) : ℤ) - o).toNat = (i - 8 * o) / 8 := by omega
    have hmod : i % 8 = (i - 8 * o) % 8 := by omega
    rw [hdiv, hmod, bit]
  · rw [bit]

/-! ### Reading and writing memory -/

section Memory

variable {heap : Heap} {b n : ℕ} {o : ℤ} {s : Bytes}

theorem bytes_eq (h : b < heap.length) : bytes heap b = heap[b].data := by
  rw [bytes, List.getElem?_eq_getElem h]
  rfl

theorem length_bytes_le (b : ℕ) : (bytes heap b).length ≤ 2 ^ 30 := by
  rw [bytes]
  cases heap[b]? with
  | none => exact Nat.zero_le _
  | some buf => exact buf.length_le

theorem load_apply (hb : b < heap.length) (h : Inside heap b o n) :
    Call.load b o n heap = (.ok (slice (bytes heap b) o n), heap) := by
  have hfits := h.2
  rw [bytes_eq hb] at hfits ⊢
  rw [Call.load, List.getElem?_eq_getElem hb]
  exact if_pos hfits

theorem changes_set (hb : b < heap.length) (buf : Buffer) :
    Changes heap b buf.data (heap.set b buf) := by
  refine ⟨List.length_set, ?_, fun j hj => ?_⟩
  · rw [bytes, List.getElem?_set_self hb]
    rfl
  · rw [bytes, List.getElem?_set_ne (Ne.symm hj), bytes]

theorem store_apply (hb : b < heap.length) (h : Inside heap b o s.length) :
    ∃ heap', Call.store b o s heap = (.ok (), heap') ∧
      ∃ a', Put (bytes heap b) o s a' ∧ Changes heap b a' heap' := by
  obtain ⟨-, ho, hfits⟩ := h
  have hput : 0 ≤ o ∧ o.toNat + s.length ≤ (bytes heap b).length := ⟨ho, by omega⟩
  rw [bytes_eq hb] at hput ⊢
  rw [Call.store, List.getElem?_eq_getElem hb]
  dsimp only
  rw [dif_pos hput]
  exact ⟨_, rfl, _, put_splice ho hput.2, changes_set hb ⟨Call.splice heap[b].data o.toNat s,
    (Call.length_splice hput.2).trans_le heap[b].length_le⟩⟩

theorem newbuffer_apply {data : Bytes} (h : data.length ≤ MAX_BUFFER_SIZE) :
    ∃ heap', newbuffer data heap = (.ok (.buffer heap.length), heap') ∧ Adds heap data heap' := by
  refine ⟨_, by rw [newbuffer, dif_pos h], by simp, ?_, fun j hj => ?_⟩
  · rw [bytes, List.getElem?_concat_length]
    rfl
  · rw [bytes, List.getElem?_append_left hj, bytes]

end Memory

/-! ### Words -/

section Words

variable {z : ℤ}

theorem toNat_word : (BitVec.ofInt 32 z).toNat = (z % 2 ^ 32).toNat := BitVec.toNat_ofInt z

theorem toNat_long : (BitVec.ofInt 64 z).toNat = (z % 2 ^ 64).toNat := BitVec.toNat_ofInt z

theorem toInt_word (h : -2 ^ 31 ≤ z ∧ z < 2 ^ 31) : (BitVec.ofInt 32 z).toInt = z :=
  BitVec.toInt_ofInt_eq_self (by decide) h.1 h.2

theorem isoutofbounds_iff {len n : ℕ} (h : -2 ^ 31 ≤ z ∧ z < 2 ^ 31) (hlen : len ≤ 2 ^ 30)
    (hn : n < 2 ^ 32) : isoutofbounds (BitVec.ofInt 32 z) len n ↔ ¬ (0 ≤ z ∧ z + n ≤ len) := by
  rw [isoutofbounds, toNat_word]
  omega

theorem toNat_sdiv {x : Long} (h : x.toNat < 2 ^ 63) : (x.sdiv 8).toNat = x.toNat / 8 := by
  have hx : x.msb = false := by
    rw [BitVec.msb_eq_false_iff_two_mul_lt]
    omega
  have h8 : (8 : Long).msb = false := by decide
  rw [BitVec.sdiv, hx, h8]
  exact BitVec.toNat_udiv

theorem setWidth_long : (BitVec.ofInt 64 z).setWidth 32 = BitVec.ofInt 32 z := by
  apply BitVec.eq_of_toNat_eq
  rw [BitVec.toNat_setWidth, toNat_word, toNat_long]
  omega

/-- The bytes of a word that an integer became are those of the integer. -/
theorem leBytes_word {k : ℕ} (h : k ≤ 4) :
    leBytes k (BitVec.ofInt 32 z).toInt = leBytes k z := by
  have hdvd : (256 : ℤ) ^ k ∣ 2 ^ 32 := by
    have hpow : (2 : ℤ) ^ 32 = 256 ^ 4 := by norm_num
    rw [hpow]
    exact pow_dvd_pow _ h
  refine leNat_inj (by rw [length_leBytes, length_leBytes]) ?_
  have hread := leNat_leBytes k (BitVec.ofInt 32 z).toInt
  have hmod : (BitVec.ofInt 32 z).toInt % 2 ^ 32 = z % 2 ^ 32 := by
    rw [BitVec.toInt_ofInt]
    exact Int.bmod_emod
  rw [← Int.emod_emod_of_dvd _ hdvd, hmod, Int.emod_emod_of_dvd _ hdvd, ← leNat_leBytes] at hread
  exact_mod_cast hread

end Words

/-! ### Meaning -/

/-- A call raises and changes nothing. -/
abbrev Refused (x : Call Pushed) (heap : Heap) : Prop := ∃ e, x heap = (.error (.raised e), heap)

/-- A call does what it means, and is refused where that does not fit. -/
def Meets (C : Casts) (heap : Heap) (op : Option Op) (x : Call Pushed) : Prop :=
  (∃ op', op = some op' ∧ op'.Fits heap ∧
    ∃ r heap', x heap = (.ok r, heap') ∧ op'.Effect C heap r heap') ∨
  (∀ op', op = some op' → ¬ op'.Fits heap) ∧ Refused x heap

section Meets

variable {α : Type} {C : Casts} {args : ℕ → Value} {heap : Heap} {narg : ℕ} {x : Call Pushed}
  {op : Op}

theorem meets_none {e : Error} : Meets C heap none (Call.raise e) :=
  .inr ⟨fun _ h => (nomatch h), e, rfl⟩

/-- A test that refuses what does not fit. -/
theorem meets_raiseIf {p : Prop} [Decidable p] {e : Error} {f : Unit → Call Pushed}
    (hp : p → ¬ op.Fits heap) (hf : ¬ p → Meets C heap (some op) (f ())) :
    Meets C heap (some op) (Call.raiseIf p e >>= f) := by
  rw [Call.raiseIf_bind]
  split
  case isTrue h => exact .inr ⟨fun op' hop => Option.some.inj hop ▸ hp h, e, rfl⟩
  case isFalse h => exact hf h

theorem meets_argcheck {p : Prop} [Decidable p] {msg : String} {f : Unit → Call Pushed}
    (hp : ¬ p → ¬ op.Fits heap) (hf : p → Meets C heap (some op) (f ())) :
    Meets C heap (some op) (argcheck narg p msg >>= f) :=
  meets_raiseIf hp fun h => hf (not_not.mp h)

theorem checkbuffer_of_some {b : ℕ} (h : bufferArg args heap narg = some b) :
    b < heap.length ∧ checkbuffer args narg heap = (.ok (b, (bytes heap b).length), heap) := by
  rw [bufferArg] at h
  rw [checkbuffer]
  split at h
  case h_1 i hargs =>
    split at h
    case isTrue hi =>
      obtain rfl := Option.some.inj h
      rw [hargs, bytes_eq hi]
      dsimp only
      rw [List.getElem?_eq_getElem hi]
      exact ⟨hi, rfl⟩
    case isFalse => cases h
  case h_2 => cases h

theorem checkbuffer_of_none (h : bufferArg args heap narg = none) :
    checkbuffer args narg heap = (.error (.raised (.tag_error narg .buffer)), heap) := by
  rw [bufferArg] at h
  rw [checkbuffer]
  cases hargs : args narg with
  | buffer i =>
    rw [hargs] at h
    have hi : ¬ i < heap.length := fun hi => nomatch (if_pos hi).symm.trans h
    dsimp only
    rw [List.getElem?_eq_none (by omega)]
  | nil | number | integer | string | other => rfl

theorem meets_checkbuffer {f : ℕ × ℕ → Call Pushed} {g : ℕ → Option Op}
    (h : ∀ b < heap.length, Meets C heap (g b) (f (b, (bytes heap b).length))) :
    Meets C heap ((bufferArg args heap narg).bind g) (checkbuffer args narg >>= f) := by
  cases hb : bufferArg args heap narg with
  | some b =>
    obtain ⟨hlt, hcheck⟩ := checkbuffer_of_some hb
    have hbind : (checkbuffer args narg >>= f) heap = f (b, (bytes heap b).length) heap :=
      Call.bind_of_ok hcheck
    obtain ⟨op', hop, hfits, r, heap', hx, heffect⟩ | ⟨hno, e, hx⟩ := h b hlt
    · exact .inl ⟨op', hop, hfits, r, heap', hbind.trans hx, heffect⟩
    · exact .inr ⟨hno, e, hbind.trans hx⟩
  | none =>
    refine .inr ⟨fun _ h => (nomatch h), .tag_error narg .buffer, ?_⟩
    show Call.bind _ f heap = _
    rw [Call.bind, checkbuffer_of_none hb]

theorem meets_checknumber {f : BitVec 64 → Call Pushed} {g : BitVec 64 → Option Op}
    (h : ∀ n, tonumberx C (args narg) = some n → Meets C heap (g n) (f n)) :
    Meets C heap ((tonumberx C (args narg)).bind g) (checknumber C args narg >>= f) := by
  rw [checknumber]
  cases hn : tonumberx C (args narg) with
  | some n => exact h n hn
  | none => exact meets_none

/-- An integral argument. -/
theorem meets_integral {lo hi : ℤ} {nargs : List ℕ} (hrange : Ranges C args lo hi nargs)
    (hnarg : narg ∈ nargs) {f : BitVec 64 → Call Pushed} {g : ℤ → Option Op}
    (h : ∀ n z, Ffi.truncated n = some z → lo ≤ z ∧ z < hi → Meets C heap (g z) (f n)) :
    Meets C heap ((intArg C args narg).bind g) (checknumber C args narg >>= f) := by
  rw [intArg, Option.bind_assoc]
  refine meets_checknumber fun n hn => ?_
  obtain ⟨z, hz, hin⟩ := hrange narg hnarg n hn
  rw [hz, Option.bind_some]
  exact h n z hz hin

/-- An integral argument that is read with a conversion. -/
theorem meets_convert {lo hi : ℤ} {nargs : List ℕ} (hrange : Ranges C args lo hi nargs)
    (hnarg : narg ∈ nargs) {convert : BitVec 64 → α} {become : ℤ → α}
    (hconvert : ∀ n z, Ffi.truncated n = some z → lo ≤ z ∧ z < hi → convert n = become z)
    {f : α → Call Pushed} {g : ℤ → Option Op}
    (h : ∀ z, lo ≤ z ∧ z < hi → Meets C heap (g z) (f (become z))) :
    Meets C heap ((intArg C args narg).bind g)
      ((checknumber C args narg >>= fun n => pure (convert n)) >>= f) := by
  rw [Call.bind_assoc]
  refine meets_integral hrange hnarg fun n z hz hin => ?_
  rw [Call.pure_bind, hconvert n z hz hin]
  exact h z hin

theorem num2int_eq {n : BitVec 64} {z : ℤ} (hz : Ffi.truncated n = some z)
    (h : -2 ^ 31 ≤ z ∧ z < 2 ^ 31) : num2int C n = BitVec.ofInt 32 z := by
  rw [num2int, hz]
  exact if_pos h

theorem num2long_eq {n : BitVec 64} {z : ℤ} (hz : Ffi.truncated n = some z)
    (h : -2 ^ 63 ≤ z ∧ z < 2 ^ 63) : num2long C n = BitVec.ofInt 64 z := by
  rw [num2long, hz]
  exact if_pos h

theorem meets_checkinteger {nargs : List ℕ} (hrange : Ranges C args (-2 ^ 31) (2 ^ 31) nargs)
    (hnarg : narg ∈ nargs) {f : Word → Call Pushed} {g : ℤ → Option Op}
    (h : ∀ z, -2 ^ 31 ≤ z ∧ z < 2 ^ 31 → Meets C heap (g z) (f (BitVec.ofInt 32 z))) :
    Meets C heap ((intArg C args narg).bind g) (checkinteger C args narg >>= f) :=
  meets_convert hrange hnarg (fun _ _ => num2int_eq) h

theorem meets_checkunsigned {nargs : List ℕ} (hrange : Ranges C args (-2 ^ 63) (2 ^ 63) nargs)
    (hnarg : narg ∈ nargs) {f : Word → Call Pushed} {g : ℤ → Option Op}
    (h : ∀ z, Meets C heap (g z) (f (BitVec.ofInt 32 z))) :
    Meets C heap ((intArg C args narg).bind g) (checkunsigned C args narg >>= f) :=
  meets_convert hrange hnarg
    (fun _ _ hz hin => (congrArg _ (num2long_eq hz hin)).trans setWidth_long) fun z _ => h z

theorem meets_optinteger {nargs : List ℕ} (hrange : Ranges C args (-2 ^ 31) (2 ^ 31) nargs)
    (hnarg : narg ∈ nargs) {d : ℤ} {f : Word → Call Pushed} {g : ℤ → Option Op}
    (h : ∀ z, (-2 ^ 31 ≤ z ∧ z < 2 ^ 31) ∨ z = d → Meets C heap (g z) (f (BitVec.ofInt 32 z))) :
    Meets C heap ((optArg C args narg d).bind g)
      (optinteger C args narg (BitVec.ofInt 32 d) >>= f) := by
  have hcheck := meets_checkinteger hrange hnarg fun z hz => h z (.inl hz)
  rw [optArg, optinteger]
  cases args narg with
  | nil => exact h d (.inr rfl)
  | number | integer | string | buffer | other => exact hcheck

theorem meets_checklstring {f : TString → Call Pushed} {g : Bytes → Option Op}
    (h : ∀ s : TString, Meets C heap (g s.data) (f s)) :
    Meets C heap ((stringArg C args narg).bind g) (checklstring C args narg >>= f) := by
  rw [stringArg, checklstring]
  cases args narg with
  | string s => exact h s
  | number n => exact h (C.text n)
  | nil | integer | buffer | other => exact meets_none

theorem meets_checkinteger64 {f : Long → Call Pushed} {g : Long → Option Op}
    (h : ∀ l, Meets C heap (g l) (f l)) :
    Meets C heap ((longArg args narg).bind g) (checkinteger64 args narg >>= f) := by
  rw [longArg, checkinteger64]
  cases args narg with
  | integer l => exact h l
  | nil | number | string | buffer | other => exact meets_none

/-- A read that fits. -/
theorem meets_load {b n : ℕ} {o : ℤ} {f : Bytes → Call Pushed} (hb : b < heap.length)
    (hin : Inside heap b o n) (h : Meets C heap (some op) (f (slice (bytes heap b) o n))) :
    Meets C heap (some op) (Call.load b o n >>= f) := by
  have hload : (Call.load b o n >>= f) heap = f (slice (bytes heap b) o n) heap :=
    Call.bind_of_ok (load_apply hb hin)
  obtain ⟨op', hop, hfits, r, heap', hx, heffect⟩ | ⟨hno, e, hx⟩ := h
  · exact .inl ⟨op', hop, hfits, r, heap', hload.trans hx, heffect⟩
  · exact .inr ⟨hno, e, hload.trans hx⟩

/-- A write that fits. -/
theorem meets_store {b : ℕ} {o : ℤ} {s : Bytes} (hb : b < heap.length) (hfits : op.Fits heap)
    (hin : Inside heap b o s.length) (h : ∀ r heap', Writes heap b o s r heap' →
      op.Effect C heap r heap') :
    Meets C heap (some op) (Call.store b o s >>= fun _ => pure .nothing) := by
  obtain ⟨heap', hstore, hwrites⟩ := store_apply hb hin
  exact .inl ⟨op, rfl, hfits, .nothing, heap', (Call.bind_of_ok hstore).trans rfl,
    h .nothing heap' ⟨rfl, hwrites⟩⟩

theorem meets_pure {r : Pushed} (hfits : op.Fits heap) (h : op.Effect C heap r heap) :
    Meets C heap (some op) (pure r) := .inl ⟨op, rfl, hfits, r, heap, rfl, h⟩

theorem meets_pushlstring {s : Bytes} (hs : s.length ≤ MAXSSIZE) (hfits : op.Fits heap)
    (h : op.Effect C heap (.string ⟨s, hs⟩) heap) : Meets C heap (some op) (pushlstring s) := by
  rw [pushlstring, dif_pos hs]
  exact meets_pure hfits h

theorem meets_newbuffer {data : Bytes} (hiff : op.Fits heap ↔ data.length ≤ MAX_BUFFER_SIZE)
    (h : ∀ heap', Adds heap data heap' → op.Effect C heap (.buffer heap.length) heap') :
    Meets C heap (some op) (newbuffer data) := by
  by_cases hlength : data.length ≤ MAX_BUFFER_SIZE
  · obtain ⟨heap', hnew, hadds⟩ := newbuffer_apply hlength
    exact .inl ⟨op, rfl, hiff.mpr hlength, _, heap', hnew, h heap' hadds⟩
  · refine .inr ⟨fun op' hop => Option.some.inj hop ▸ fun hfits => hlength (hiff.mp hfits),
      .toobig, ?_⟩
    rw [newbuffer, dif_neg hlength]

end Meets

end BufLib

end Jaci
