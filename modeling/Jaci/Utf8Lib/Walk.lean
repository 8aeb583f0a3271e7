import Jaci.Utf8Lib.Decode
import Mathlib.Data.List.GetD

/-!
# Walks over a string

The functions of the library walk over a string by different rules: they decode, they look for the
bytes that continue a character, and they do so backwards.

* `Safe` : nothing after the end of a string is read, and a call ends;
* `text` : the string of a list of scalar values, and the walks over it;
* `utf8_library` : **the functions agree about every list of scalar values**;
* `long_slice` : but `utf8.codepoint` refuses a long string.
-/

namespace Jaci

namespace Utf8Lib

open Wire Utf8

variable {s : Bytes} {o : ℕ}

/-! ### Every string -/

/-- A call ends, and nothing after the end of a string is read. -/
def Safe {α : Type} (x : Exec α) : Prop := Gives (· ≠ .overread) x fun _ => True

theorem gives_argcheck {cond : Prop} [Decidable cond] {arg : ℕ} {mes : String} :
    Gives (· ≠ .overread) (argcheck cond arg mes) fun _ => cond := by
  rw [argcheck]
  split_ifs with h
  · exact gives_pure h
  · exact gives_throw (by simp)

theorem skipBack_spec {q p : ℕ} (hp : p ≤ s.length) (hq : q ≤ p)
    (htails : ∀ i, q < i → i ≤ p → IsTail (s.getD i 0)) (hhead : q = 0 ∨ ¬IsTail (s.getD q 0)) :
    Returns (skipBack s p) (· = q) := by
  refine gives_loop (I := fun x => q ≤ x ∧ x ≤ p) (μ := id) (fun x hx => ?_) ⟨hq, le_rfl⟩
    (Nat.lt_succ_of_le hp)
  split_ifs with hpos
  · rw [iscont_eq (hx.2.trans hp), pure_bind]
    split_ifs with htail
    · rw [decide_eq_true_iff] at htail
      have hne : x ≠ q := by
        rintro rfl
        exact hhead.elim (fun h => by omega) fun h => h htail
      exact gives_pure ⟨by omega, by simp only [id]; omega⟩
    · rw [decide_eq_true_iff] at htail
      by_contra hne
      have hlt : q < x := lt_of_le_of_ne hx.1 fun h => hne (gives_pure h.symm)
      exact htail (htails x hlt hx.2)
  · exact gives_pure (show x = q by omega)

theorem skipBack_safe {p : ℕ} (hp : p ≤ s.length) :
    Gives (· ≠ .overread) (skipBack s p) (· ≤ p) := by
  refine gives_loop (I := (· ≤ p)) (μ := id) (fun x hx => ?_) le_rfl (Nat.lt_succ_of_le hp)
  split_ifs with hpos
  · rw [iscont_eq (hx.trans hp), pure_bind]
    split_ifs
    · exact gives_pure ⟨by omega, by simp only [id]; omega⟩
    · exact gives_pure hx
  · exact gives_pure hx

theorem skipForward_spec {p q : ℕ} (hp : p ≤ q) (hq : q ≤ s.length)
    (htails : ∀ i, p ≤ i → i < q → IsTail (s.getD i 0)) (hhead : ¬IsTail (s.getD q 0)) :
    Returns (skipForward s p) (· = q) := by
  refine gives_loop (I := fun x => p ≤ x ∧ x ≤ q) (μ := fun x => q - x) (fun x hx => ?_)
    ⟨le_rfl, hp⟩ (by omega)
  rw [iscont_eq (hx.2.trans hq), pure_bind]
  split_ifs with htail
  · rw [decide_eq_true_iff] at htail
    have hne : x ≠ q := by
      rintro rfl
      exact hhead htail
    exact gives_pure ⟨by omega, by omega⟩
  · rw [decide_eq_true_iff] at htail
    by_contra hne
    have hlt : x < q := lt_of_le_of_ne hx.2 fun h => hne (gives_pure h)
    exact htail (htails x hx.1 hlt)

theorem skipForward_safe {p : ℕ} (hp : p ≤ s.length) :
    Gives (· ≠ .overread) (skipForward s p) fun q => p ≤ q ∧ q ≤ s.length := by
  refine gives_loop (I := fun x => p ≤ x ∧ x ≤ s.length) (μ := fun x => s.length - x)
    (fun x hx => ?_) ⟨le_rfl, hp⟩ (by omega)
  rw [iscont_eq hx.2, pure_bind]
  split_ifs with htail
  · have hlt := lt_of_isTail (of_decide_eq_true htail)
    exact gives_pure ⟨by omega, by omega⟩
  · exact gives_pure hx

theorem moveBack_safe {n : ℤ} {p : ℕ} (hp : p ≤ s.length) : Safe (moveBack s n p) := by
  refine gives_loop (I := fun r : ℤ × ℕ => r.2 ≤ p) (μ := Prod.snd) (fun r hr => ?_) le_rfl
    (Nat.lt_succ_of_le hp)
  obtain ⟨n, x⟩ := r
  dsimp only at hr ⊢
  split_ifs with hcond
  · refine (skipBack_safe (p := x - 1) (by omega)).bind fun q hq => gives_pure ⟨?_, ?_⟩ <;>
      dsimp only <;> omega
  · exact gives_pure trivial

theorem moveForward_safe {n : ℤ} {p : ℕ} (hp : p ≤ s.length) : Safe (moveForward s n p) := by
  refine gives_loop (I := fun r : ℤ × ℕ => r.2 ≤ s.length) (μ := fun r => s.length - r.2)
    (fun r hr => ?_) hp (by dsimp only; omega)
  obtain ⟨n, x⟩ := r
  dsimp only at hr ⊢
  split_ifs with hcond
  · refine (skipForward_safe (p := x + 1) (by omega)).bind fun q hq => gives_pure ⟨?_, ?_⟩ <;>
      dsimp only <;> omega
  · exact gives_pure trivial

theorem utf8_decode_safe (ho : o ≤ s.length) :
    Gives (· ≠ .overread) (utf8_decode s o) (Decodes s o) := (utf8_decode_spec ho).gives

theorem utflen_safe (s : Bytes) (i j : Option ℤ) : Safe (utflen s i j) := by
  rw [utflen]
  refine gives_argcheck.bind fun _ hi => gives_argcheck.bind fun _ hj => ?_
  refine gives_loop (I := fun r : ℕ × ℕ => r.1 ≤ s.length) (μ := fun r => s.length - r.1)
    (fun r hr => ?_) (by dsimp only; omega) (by dsimp only; omega)
  obtain ⟨x, n⟩ := r
  dsimp only at hr ⊢
  split_ifs with hle
  · refine (utf8_decode_safe hr).bind fun r' hr' => ?_
    rcases r' with _ | ⟨c, next⟩
    · exact gives_pure trivial
    · have hnext := hr'.le (by omega) rfl
      exact gives_pure ⟨hnext.2, by dsimp only; omega⟩
  · exact gives_pure trivial

theorem checkstack_safe (top size : ℕ) (mes : String) : Safe (checkstack top size mes) := by
  rw [checkstack]
  split_ifs
  · exact gives_throw (by simp)
  · exact gives_pure trivial

theorem codepoint_safe (s : Bytes) (top : ℕ) (i j : Option ℤ) : Safe (codepoint s top i j) := by
  rw [codepoint]
  refine gives_argcheck.bind fun _ hi => gives_argcheck.bind fun _ hj => ?_
  split_ifs with hempty hmax
  · exact gives_pure trivial
  · exact gives_throw (by simp)
  · refine (checkstack_safe _ _ _).bind fun _ _ => ?_
    refine gives_loop (I := fun r : ℕ × List ℕ => r.1 ≤ s.length) (μ := fun r => s.length - r.1)
      (fun r hr => ?_) (by dsimp only; omega) (by dsimp only; omega)
    obtain ⟨x, codes⟩ := r
    dsimp only at hr ⊢
    split_ifs with hlt
    · refine (utf8_decode_safe hr).bind fun r' hr' => ?_
      rcases r' with _ | ⟨c, next⟩
      · exact gives_throw (by simp)
      · have hnext := hr'.le (by omega) rfl
        exact gives_pure ⟨hnext.2, by dsimp only; omega⟩
    · exact gives_pure trivial

theorem byteoffset_safe (s : Bytes) (n : ℤ) (i : Option ℤ) : Safe (byteoffset s n i) := by
  rw [byteoffset]
  refine gives_argcheck.bind fun _ hi => ?_
  dsimp only
  obtain ⟨p, hp⟩ : ∃ p, p = (u_posrelat (i.getD (if n ≥ 0 then 1 else s.length + 1)) s.length -
    1).toNat := ⟨_, rfl⟩
  rw [← hp]
  have hle : p ≤ s.length := by omega
  split_ifs with hzero hneg
  · exact (skipBack_safe hle).bind fun _ _ => gives_pure trivial
  all_goals
    rw [iscont_eq hle, pure_bind]
    split_ifs
    · exact gives_throw (by simp)
  · exact (moveBack_safe hle).bind fun _ _ => gives_pure trivial
  · exact (moveForward_safe hle).bind fun _ _ => gives_pure trivial

theorem iter_aux_safe (s : Bytes) (control : ℤ) : Safe (iter_aux s control) := by
  have hstart : Safe (iterStart s control) := by
    rw [iterStart]
    split_ifs with hneg hlt
    · exact gives_pure trivial
    · exact (skipForward_safe (by omega)).mono fun _ _ => trivial
    · exact gives_pure trivial
  rw [iter_aux]
  refine hstart.bind fun n _ => ?_
  split_ifs with hend
  · exact gives_pure trivial
  · refine (utf8_decode_safe (by omega)).bind fun r hr => ?_
    rcases r with _ | ⟨c, next⟩
    · exact gives_throw (by simp)
    · dsimp only
      rw [iscont_eq (hr.le (by omega) rfl).2, pure_bind]
      split_ifs
      · exact gives_throw (by simp)
      · exact gives_pure trivial

/-! ### Lists of scalar values -/

/-- The string of a list of scalar values. -/
def text (cs : List ℕ) : Bytes := cs.flatMap encode

/-- Where the characters of a string begin, as positions, and what they are. -/
def enumerate (o : ℕ) : List ℕ → List (ℕ × ℕ)
  | [] => []
  | c :: cs => (o + 1, c) :: enumerate (o + (encode c).length) cs

/-- Where character `k` begins; the first one has the number 0. -/
def start (cs : List ℕ) (k : ℕ) : ℕ := (text (cs.take k)).length

@[simp] theorem text_append (l l' : List ℕ) : text (l ++ l') = text l ++ text l' :=
  List.flatMap_append

@[simp] theorem text_cons (c : ℕ) (l : List ℕ) : text (c :: l) = encode c ++ text l := rfl

@[simp] theorem text_nil : text [] = [] := rfl

theorem enumerate_append (o : ℕ) (l l' : List ℕ) :
    enumerate o (l ++ l') = enumerate o l ++ enumerate (o + (text l).length) l' := by
  induction l generalizing o with
  | nil => rfl
  | cons c l ih =>
    rw [List.cons_append, enumerate, ih, enumerate, text_cons, List.length_append, Nat.add_assoc]
    rfl

theorem length_enumerate (o : ℕ) (l : List ℕ) : (enumerate o l).length = l.length := by
  induction l generalizing o with
  | nil => rfl
  | cons c l ih => rw [enumerate, List.length_cons, ih, List.length_cons]

theorem length_le_text (l : List ℕ) : l.length ≤ (text l).length := by
  induction l with
  | nil => exact le_rfl
  | cons c l ih =>
    have := (length_encode c).1
    rw [text_cons, List.length_append, List.length_cons]
    omega

/-- The first byte of an encoding does not continue one, and the others do. -/
theorem encode_tails {c : ℕ} (hc : c < 0x110000) : ∃ b ts, encode c = b :: ts ∧ ¬IsTail b ∧
    ∀ t ∈ ts, IsTail t := by
  rcases encode_cases hc with ⟨hlt, hencode⟩ | ⟨-, b, t, hencode, h1, h2, ht, -⟩ |
    ⟨-, b, t, u, hencode, h1, h2, ht, hu, -⟩ | ⟨-, b, t, u, v, hencode, h1, h2, ht, hu, hv, -⟩ <;>
    refine ⟨_, _, hencode, ?_, ?_⟩
  · rw [IsTail, toNat_ofNat_of_lt (by omega)]
    omega
  · exact fun _ h => absurd h List.not_mem_nil
  all_goals first
    | exact fun h => by have := h.2; omega
    | simp only [List.mem_cons, List.not_mem_nil, or_false, forall_eq_or_imp, forall_eq]
      exact ⟨ht, hu, hv⟩
    | simp only [List.mem_cons, List.not_mem_nil, or_false, forall_eq_or_imp, forall_eq]
      exact ⟨ht, hu⟩
    | simp only [List.mem_cons, List.not_mem_nil, or_false, forall_eq]
      exact ht

section Split

variable {pre post : List ℕ} {c : ℕ}

/-- A character does not begin with a byte that continues one, and the string does not end so. -/
theorem head_getD (hpost : ∀ d ∈ post, Scalar d) :
    ¬IsTail ((text (pre ++ post)).getD (text pre).length 0) := by
  rw [text_append, List.getD_append_right _ _ _ _ le_rfl, Nat.sub_self]
  cases post with
  | nil => decide
  | cons d post =>
    obtain ⟨b, ts, hencode, hb, -⟩ := encode_tails (hpost d List.mem_cons_self).1
    rw [text_cons, hencode]
    exact hb

theorem tail_getD (hc : Scalar c) {i : ℕ} (h1 : (text pre).length < i)
    (h2 : i < (text pre).length + (encode c).length) :
    IsTail ((text (pre ++ c :: post)).getD i 0) := by
  obtain ⟨b, ts, hencode, -, hts⟩ := encode_tails hc.1
  rw [hencode, List.length_cons] at h2
  obtain ⟨j, rfl⟩ : ∃ j, i = (text pre).length + (j + 1) := ⟨i - (text pre).length - 1, by omega⟩
  rw [text_append, List.getD_append_right _ _ _ _ (by omega), Nat.add_sub_cancel_left, text_cons,
    hencode, List.cons_append, List.getD_cons_succ, List.getD_append _ _ _ _ (by omega),
    List.getD_eq_getElem?_getD, List.getElem?_eq_getElem (by omega), Option.getD_some]
  exact hts _ (List.getElem_mem _)

theorem decode_text (hc : Scalar c) : utf8_decode (text (pre ++ c :: post)) (text pre).length =
    pure (some (c, (text pre).length + (encode c).length)) := by
  have hle : (text pre).length ≤ (text (pre ++ c :: post)).length := by
    rw [text_append, List.length_append]
    omega
  obtain ⟨r, hr, hspec⟩ := (utf8_decode_spec hle).exists
  rw [hr, (hspec c _).2 ⟨hc, ?_, rfl⟩]
  rw [text_append, text_cons, List.append_assoc, List.drop_left, List.append_assoc]
  exact List.prefix_append _ _

theorem length_text_cons_lt (pre post : List ℕ) (c : ℕ) :
    (text pre).length < (text (pre ++ c :: post)).length := by
  have := (length_encode c).1
  simp only [text_append, text_cons, List.length_append]
  omega

theorem length_text_snoc (pre : List ℕ) (c : ℕ) :
    (text (pre ++ [c])).length = (text pre).length + (encode c).length := by
  simp only [text_append, text_cons, text_nil, List.append_nil, List.length_append]

theorem length_text_le (pre post : List ℕ) : (text pre).length ≤ (text (pre ++ post)).length := by
  rw [text_append, List.length_append]
  omega

theorem eq_pure {α : Type} {x : Exec α} {a : α} (h : Returns x (· = a)) : x = pure a := by
  obtain ⟨b, hb, rfl⟩ := h.exists
  exact hb

theorem skipForward_text (hc : Scalar c) (hpost : ∀ d ∈ post, Scalar d) :
    skipForward (text (pre ++ c :: post)) ((text pre).length + 1) =
      pure (text (pre ++ [c])).length := by
  have hlen := length_text_snoc pre c
  have hpos := (length_encode c).1
  have hsplit : pre ++ c :: post = (pre ++ [c]) ++ post := by rw [List.append_assoc]; rfl
  refine eq_pure (skipForward_spec (by omega) ?_ (fun i h1 h2 => ?_) ?_)
  · rw [hsplit]
    exact length_text_le _ _
  · exact tail_getD hc (by omega) (by omega)
  · rw [hsplit]
    exact head_getD hpost

theorem skipBack_text (hc : Scalar c) :
    skipBack (text (pre ++ c :: post)) ((text (pre ++ [c])).length - 1) =
      pure (text pre).length := by
  have hlen := length_text_snoc pre c
  have hpos := (length_encode c).1
  have hsplit : pre ++ c :: post = (pre ++ [c]) ++ post := by rw [List.append_assoc]; rfl
  have hle := length_text_le (pre ++ [c]) post
  rw [← hsplit] at hle
  refine eq_pure (skipBack_spec (by omega) (by omega) (fun i h1 h2 => ?_) (.inr ?_))
  · exact tail_getD hc h1 (by omega)
  · obtain ⟨b, ts, hencode, hb, -⟩ := encode_tails hc.1
    rwa [text_append, List.getD_append_right _ _ _ _ le_rfl, Nat.sub_self, text_cons, hencode]

/-- Going on over some characters. -/
theorem moveForward_text {mid : List ℕ} (hmid : ∀ d ∈ mid, Scalar d)
    (hpost : ∀ d ∈ post, Scalar d) : moveForward (text (pre ++ (mid ++ post))) mid.length
      (text pre).length = pure (0, (text (pre ++ mid)).length) := by
  refine eq_pure (gives_loop (I := fun r : ℤ × ℕ => ∃ l l', mid = l ++ l' ∧ r.1 = l'.length ∧
    r.2 = (text (pre ++ l)).length) (μ := fun r => r.1.toNat) ?_
    ⟨[], mid, rfl, rfl, by rw [List.append_nil]⟩ ?_)
  · rintro ⟨n, p⟩ ⟨l, l', rfl, hn, hp⟩
    dsimp only at hn hp ⊢
    subst hn hp
    cases l' with
    | nil =>
      rw [if_neg (by simp)]
      exact gives_pure (by simp)
    | cons c l' =>
      have hc : Scalar c := hmid c (by simp)
      have hrest : ∀ d ∈ l' ++ post, Scalar d := fun d hd =>
        (List.mem_append.1 hd).elim (fun h => hmid d (by simp [h])) (hpost d)
      have hsplit : pre ++ (l ++ c :: l' ++ post) = (pre ++ l) ++ c :: (l' ++ post) := by simp
      rw [hsplit, if_pos ⟨by simp only [List.length_cons]; omega, length_text_cons_lt _ _ _⟩,
        skipForward_text hc hrest, pure_bind]
      refine gives_pure ⟨⟨l ++ [c], l', by simp, ?_, by simp⟩, ?_⟩ <;>
        simp only [List.length_cons] <;> omega
  · have h1 := length_le_text (pre ++ (mid ++ post))
    simp only [List.length_append] at h1
    dsimp only
    omega

/-- Going back over some characters. -/
theorem moveBack_text {mid : List ℕ} (hmid : ∀ d ∈ mid, Scalar d) :
    moveBack (text (pre ++ (mid ++ post))) (-mid.length) (text (pre ++ mid)).length =
      pure (0, (text pre).length) := by
  refine eq_pure (gives_loop (I := fun r : ℤ × ℕ => ∃ l l', mid = l ++ l' ∧ r.1 = -l.length ∧
    r.2 = (text (pre ++ l)).length) (μ := fun r => (-r.1).toNat) ?_
    ⟨mid, [], (List.append_nil _).symm, rfl, rfl⟩ ?_)
  · rintro ⟨n, p⟩ ⟨l, l', rfl, hn, hp⟩
    dsimp only at hn hp ⊢
    subst hn hp
    rcases List.eq_nil_or_concat l with rfl | ⟨l, c, rfl⟩
    · rw [if_neg (by simp)]
      exact gives_pure (by simp)
    · rw [List.concat_eq_append] at hmid ⊢
      have hc : Scalar c := hmid c (by simp)
      have hsplit : pre ++ (l ++ [c] ++ l' ++ post) = (pre ++ l) ++ c :: (l' ++ post) := by simp
      have hsnoc : pre ++ (l ++ [c]) = pre ++ l ++ [c] := (List.append_assoc _ _ _).symm
      have hpos : 0 < (text (pre ++ l ++ [c])).length := by
        rw [length_text_snoc]
        have := (length_encode c).1
        omega
      rw [hsplit, hsnoc, if_pos ⟨by simp only [List.length_append, List.length_singleton]; omega,
        hpos⟩, skipBack_text hc, pure_bind]
      refine gives_pure ⟨⟨l, c :: l', by simp, ?_, rfl⟩, ?_⟩ <;>
        simp only [List.length_append, List.length_singleton] <;> omega
  · have h1 := length_le_text (pre ++ (mid ++ post))
    simp only [List.length_append] at h1
    dsimp only
    omega

theorem byteoffset_pos (hcs : ∀ d ∈ pre ++ c :: post, Scalar d) :
    byteoffset (text (pre ++ c :: post)) (pre.length + 1) none =
      pure (some ((text pre).length + 1 : ℤ)) := by
  have hhead : ¬IsTail ((text (pre ++ c :: post)).getD 0 0) := @head_getD [] _ hcs
  have hmove := @moveForward_text [] (c :: post) pre
    (fun d hd => hcs d (by simp [hd])) fun d hd => hcs d (List.mem_append_right _ hd)
  rw [List.nil_append, List.nil_append, text_nil, List.length_nil] at hmove
  rw [byteoffset]
  dsimp only
  rw [Option.getD_none, if_pos (by omega), u_posrelat, if_pos (by decide), argcheck,
    if_pos ⟨by omega, by omega⟩, pure_bind, if_neg (by omega)]
  simp only [Int.sub_self, Int.toNat_zero]
  rw [iscont_eq (Nat.zero_le _), pure_bind, if_neg (by simpa using hhead), if_neg (by omega),
    Int.add_sub_cancel, hmove, pure_bind]
  rfl

theorem byteoffset_neg (hcs : ∀ d ∈ pre ++ c :: post, Scalar d) :
    byteoffset (text (pre ++ c :: post)) (-(post.length + 1)) none =
      pure (some ((text pre).length + 1 : ℤ)) := by
  have hhead : ¬IsTail ((text (pre ++ c :: post)).getD (text (pre ++ c :: post)).length 0) := by
    have := @head_getD (pre ++ c :: post) [] (fun d hd => absurd hd List.not_mem_nil)
    rwa [List.append_nil] at this
  have hmove := @moveBack_text pre [] (c :: post)
    (fun d hd => hcs d (List.mem_append_right _ hd))
  rw [List.append_nil, List.length_cons] at hmove
  rw [byteoffset]
  dsimp only
  rw [Option.getD_none, if_neg (by omega), u_posrelat, if_pos (by omega), argcheck,
    if_pos ⟨by omega, by omega⟩, pure_bind, if_neg (by omega)]
  simp only [Int.add_sub_cancel, Int.toNat_natCast]
  rw [iscont_eq le_rfl, pure_bind, if_neg (by simpa using hhead), if_pos (by omega)]
  push_cast at hmove
  rw [hmove, pure_bind]
  rfl

theorem posrelat_last (n : ℕ) : u_posrelat (-1) n = n := by
  rw [u_posrelat, if_neg (by decide)]
  split_ifs <;> omega

theorem utflen_text {cs : List ℕ} (hcs : ∀ d ∈ cs, Scalar d) :
    utflen (text cs) none none = pure (.inl cs.length) := by
  rw [utflen]
  dsimp only
  rw [Option.getD_none, Option.getD_none, posrelat_last,
    u_posrelat, if_pos (by decide), argcheck,
    if_pos ⟨by omega, by omega⟩, pure_bind, argcheck, if_pos (by omega), pure_bind]
  refine eq_pure (gives_loop (I := fun r : ℕ × ℕ => ∃ pre post, cs = pre ++ post ∧
    r.1 = (text pre).length ∧ r.2 = pre.length) (μ := fun r => cs.length - r.2) ?_
    ⟨[], cs, rfl, rfl, rfl⟩ ?_)
  · rintro ⟨p, n⟩ ⟨pre, post, rfl, hp, hn⟩
    dsimp only at hp hn ⊢
    subst hp hn
    cases post with
    | nil =>
      rw [List.append_nil, if_neg (by omega)]
      exact gives_pure rfl
    | cons c post =>
      have hlt := length_text_cons_lt pre post c
      rw [if_pos (by omega), decode_text (hcs c (by simp)), pure_bind]
      refine gives_pure ⟨⟨pre ++ [c], post, by simp, (length_text_snoc pre c).symm, ?_⟩, ?_⟩
      · rw [List.length_append, List.length_singleton]
      · simp only [List.length_append, List.length_cons]
        omega
  · have := length_le_text cs
    dsimp only
    omega

/-- `utf8.codepoint` gives the characters if there is room for as many as the string has bytes. -/
theorem codepoint_text {cs : List ℕ} (hcs : ∀ d ∈ cs, Scalar d)
    (hfit : (text cs).length + 3 ≤ LUAI_MAXCSTACK) :
    codepoint (text cs) 3 (some 1) (some (-1)) = pure cs := by
  rw [codepoint]
  dsimp only
  rw [LUAI_MAXCSTACK] at hfit
  rw [Option.getD_some, Option.getD_some, posrelat_last,
    u_posrelat, if_pos (by decide), argcheck,
    if_pos (by decide), pure_bind, argcheck, if_pos le_rfl, pure_bind]
  split_ifs with hempty hmax
  · cases cs with
    | nil => rfl
    | cons c cs =>
      have := length_le_text (c :: cs)
      rw [List.length_cons] at this
      omega
  · omega
  · rw [checkstack, LUAI_MAXCSTACK, if_neg (by omega), pure_bind]
    refine eq_pure (gives_loop (I := fun r : ℕ × List ℕ => ∃ pre post, cs = pre ++ post ∧
      r.1 = (text pre).length ∧ r.2 = pre) (μ := fun r => cs.length - r.2.length) ?_
      ⟨[], cs, rfl, rfl, rfl⟩ ?_)
    · rintro ⟨p, codes⟩ ⟨pre, post, rfl, hp, hn⟩
      dsimp only at hp hn ⊢
      subst hp hn
      cases post with
      | nil =>
        rw [List.append_nil, if_neg (by omega)]
        exact gives_pure rfl
      | cons c post =>
        have hlt := length_text_cons_lt codes post c
        rw [if_pos (by omega), decode_text (hcs c (by simp)), pure_bind]
        refine gives_pure ⟨⟨codes ++ [c], post, by simp, (length_text_snoc codes c).symm, rfl⟩, ?_⟩
        simp only [List.length_append, List.length_cons, List.length_nil]
        omega
    · have := length_le_text cs
      dsimp only
      omega

/-- Otherwise it fails. -/
theorem codepoint_long {cs : List ℕ} (hlong : LUAI_MAXCSTACK < (text cs).length + 3) :
    ∃ mes, codepoint (text cs) 3 (some 1) (some (-1)) = throw (.error mes) := by
  rw [codepoint]
  dsimp only
  rw [LUAI_MAXCSTACK] at hlong
  rw [Option.getD_some, Option.getD_some, posrelat_last,
    u_posrelat, if_pos (by decide), argcheck,
    if_pos (by decide), pure_bind, argcheck, if_pos le_rfl, pure_bind, if_neg (by omega)]
  split_ifs with hmax
  · exact ⟨_, rfl⟩
  · rw [checkstack, LUAI_MAXCSTACK, if_pos (by omega)]
    exact ⟨_, rfl⟩

/-- The first call of `iter_aux`. -/
theorem iterStart_zero (s : Bytes) : iterStart s 0 = pure 0 := by
  rw [iterStart, if_pos (by decide)]

theorem iterStart_text (hcs : ∀ d ∈ pre ++ c :: post, Scalar d) :
    iterStart (text (pre ++ c :: post)) ((text pre).length + 1 : ℕ) =
      pure (text (pre ++ [c])).length := by
  have hlt := length_text_cons_lt pre post c
  rw [iterStart, if_neg (by omega), if_pos (by omega)]
  push_cast
  rw [Int.add_sub_cancel, Int.toNat_natCast]
  exact skipForward_text (hcs c (by simp)) fun d hd => hcs d (by simp [hd])

theorem iter_aux_end {s : Bytes} {control : ℤ} (h : iterStart s control = pure s.length) :
    iter_aux s control = pure none := by
  rw [iter_aux, h, pure_bind, if_pos (le_refl s.length)]

theorem iter_aux_text {control : ℤ} (hcs : ∀ d ∈ pre ++ c :: post, Scalar d)
    (h : iterStart (text (pre ++ c :: post)) control = pure (text pre).length) :
    iter_aux (text (pre ++ c :: post)) control = pure (some ((text pre).length + 1, c)) := by
  have hsplit : pre ++ c :: post = (pre ++ [c]) ++ post := by rw [List.append_assoc]; rfl
  have hlt := length_text_cons_lt pre post c
  have hle : (text pre).length + (encode c).length ≤ (text (pre ++ c :: post)).length := by
    rw [← length_text_snoc, hsplit]
    exact length_text_le _ _
  have hhead : ¬IsTail ((text (pre ++ c :: post)).getD ((text pre).length + (encode c).length) 0) := by
    rw [← length_text_snoc, hsplit]
    exact head_getD fun d hd => hcs d (by simp [hd])
  rw [iter_aux, h, pure_bind, if_neg (Nat.not_le.2 hlt), decode_text (hcs c (by simp)), pure_bind]
  dsimp only
  rw [iscont_eq hle, pure_bind, if_neg (by simpa using hhead)]

theorem codes_text {cs : List ℕ} (hcs : ∀ d ∈ cs, Scalar d) :
    codes (text cs) = pure (enumerate 0 cs) := by
  -- before each round the characters before the next one have been seen
  refine eq_pure (gives_loop (I := fun r : ℤ × List (ℕ × ℕ) => ∃ pre post, cs = pre ++ post ∧
    r.2 = enumerate 0 pre ∧ iterStart (text cs) r.1 = pure (text pre).length)
    (μ := fun r => cs.length - r.2.length) ?_ ⟨[], cs, rfl, rfl, iterStart_zero _⟩ ?_)
  · rintro ⟨control, seen⟩ ⟨pre, post, rfl, hseen, hstart⟩
    dsimp only at hseen hstart ⊢
    subst hseen
    cases post with
    | nil =>
      rw [List.append_nil] at hstart ⊢
      rw [iter_aux_end hstart, pure_bind]
      exact gives_pure rfl
    | cons c post =>
      have hsnoc : enumerate 0 pre ++ [((text pre).length + 1, c)] = enumerate 0 (pre ++ [c]) := by
        rw [enumerate_append, Nat.zero_add]
        rfl
      rw [iter_aux_text hcs hstart, pure_bind]
      refine gives_pure ⟨⟨pre ++ [c], post, by simp, hsnoc, iterStart_text hcs⟩, ?_⟩
      dsimp only
      rw [hsnoc]
      simp only [length_enumerate, List.length_append, List.length_cons, List.length_nil]
      omega
  · have := length_le_text cs
    dsimp only
    omega

end Split

/-! ### The library -/

theorem buffutfchar_eq (arg : ℕ) {c : ℕ} (hc : Scalar c) :
    buffutfchar arg c = pure (encode c) := by
  have hmax : (c : ℤ) ≤ MAXUNICODE := by
    have := hc.1
    rw [MAXUNICODE]
    omega
  rw [buffutfchar, argcheck, if_pos ⟨by omega, hmax⟩, pure_bind, Int.toNat_natCast]
  exact luaO_utf8esc_eq hc.1

theorem utfcharFrom_eq (i : ℕ) {cs : List ℕ} (hcs : ∀ d ∈ cs, Scalar d) :
    utfcharFrom i (cs.map (↑)) = pure (text cs) := by
  induction cs generalizing i with
  | nil => rfl
  | cons c cs ih =>
    rw [List.map_cons, utfcharFrom, buffutfchar_eq i (hcs c List.mem_cons_self), pure_bind,
      ih (i + 1) fun d hd => hcs d (List.mem_cons_of_mem _ hd)]
    rfl

/-- `utf8.char` gives the string. -/
theorem utfchar_eq {cs : List ℕ} (hcs : ∀ d ∈ cs, Scalar d) :
    utfchar (cs.map (↑)) = pure (text cs) := by
  rcases cs with _ | ⟨c, _ | ⟨d, cs⟩⟩
  · rfl
  · rw [List.map_cons, List.map_nil, utfchar, buffutfchar_eq 1 (hcs c List.mem_cons_self), text_cons,
      text_nil, List.append_nil]
  · exact utfcharFrom_eq 1 hcs

theorem byteoffset_start {cs : List ℕ} (hcs : ∀ d ∈ cs, Scalar d) {k : ℕ} (hk : k < cs.length) :
    byteoffset (text cs) (k + 1) none = pure (some (start cs k + 1 : ℤ)) ∧
    byteoffset (text cs) (-(k + 1)) none = pure (some (start cs (cs.length - 1 - k) + 1 : ℤ)) := by
  have hsplit : ∀ j (hj : j < cs.length), cs.take j ++ cs[j] :: cs.drop (j + 1) = cs := by
    intro j hj
    rw [← List.drop_eq_getElem_cons hj, List.take_append_drop]
  constructor
  · have h := @byteoffset_pos (cs.take k) (cs.drop (k + 1)) (cs[k])
      (by rwa [hsplit])
    rwa [hsplit, List.length_take, Nat.min_eq_left hk.le] at h
  · have hj : cs.length - 1 - k < cs.length := by omega
    have h := @byteoffset_neg (cs.take (cs.length - 1 - k)) (cs.drop (cs.length - 1 - k + 1)) (cs[cs.length - 1 - k]) (by rwa [hsplit])
    rwa [hsplit, List.length_drop, show cs.length - (cs.length - 1 - k + 1) = k by omega] at h

/-- **The UTF-8 library.**  The decoder accepts exactly the encodings of scalar values; for a list of
scalar values the functions agree, but `utf8.codepoint` fails if the string has more bytes than there
is room on the stack; and nothing after the end of a string is read. -/
theorem utf8_library :
    (∀ (s : Bytes) (o : ℕ), o ≤ s.length → ∃ r, utf8_decode s o = pure r ∧ ∀ n p, r = some (n, p) ↔
      Scalar n ∧ encode n <+: (s ++ [0]).drop o ∧ p = o + (encode n).length) ∧
    (∀ cs : List ℕ, (∀ c ∈ cs, Scalar c) → ∃ s, utfchar (cs.map (↑)) = pure s ∧
      (s.length + 3 ≤ LUAI_MAXCSTACK → codepoint s 3 (some 1) (some (-1)) = pure cs) ∧
      (LUAI_MAXCSTACK < s.length + 3 →
        ∃ mes, codepoint s 3 (some 1) (some (-1)) = throw (.error mes)) ∧
      utflen s none none = pure (.inl cs.length) ∧
      codes s = pure (enumerate 0 cs) ∧
      ∀ k < cs.length, byteoffset s (k + 1) none = pure (some (start cs k + 1 : ℤ)) ∧
        byteoffset s (-(k + 1)) none = pure (some (start cs (cs.length - 1 - k) + 1 : ℤ))) ∧
    ∀ s : Bytes, (∀ o ≤ s.length, Safe (utf8_decode s o)) ∧ (∀ i j, Safe (utflen s i j)) ∧
      (∀ top i j, Safe (codepoint s top i j)) ∧ (∀ n i, Safe (byteoffset s n i)) ∧
      ∀ control, Safe (iter_aux s control) := by
  refine ⟨fun s o ho => (utf8_decode_spec ho).exists, fun cs hcs => ?_, fun s => ?_⟩
  · exact ⟨text cs, utfchar_eq hcs, codepoint_text hcs, codepoint_long, utflen_text hcs,
      codes_text hcs, fun k hk => byteoffset_start hcs hk⟩
  · exact ⟨fun o ho => (utf8_decode_safe ho).mono fun _ _ => trivial, utflen_safe s,
      codepoint_safe s, byteoffset_safe s, iter_aux_safe s⟩

/-- The code points of a string of 8004 bytes are refused, though they are 2001. -/
theorem long_slice : ¬∀ cs : List ℕ, (∀ c ∈ cs, Scalar c) →
    (utfchar (cs.map (↑)) >>= fun s => codepoint s 3 (some 1) (some (-1))) = pure cs := by
  intro h
  obtain ⟨cs, hcs⟩ : ∃ cs, cs = List.replicate 2001 0x10000 := ⟨_, rfl⟩
  have hscalar : ∀ c ∈ cs, Scalar c := by
    intro c hc
    rw [hcs] at hc
    rw [List.eq_of_mem_replicate hc]
    decide
  have hlength : (text cs).length = 8004 := by
    rw [hcs, text, List.length_flatMap, List.map_replicate, List.sum_replicate]
    rfl
  obtain ⟨mes, hlong⟩ := @codepoint_long cs (by rw [hlength]; decide)
  have hchar := h cs hscalar
  rw [utfchar_eq hscalar, pure_bind, hlong] at hchar
  cases hchar

end Utf8Lib

end Jaci
