import Jaci.Ast.Lexer
import Mathlib.Data.List.TakeWhile

/-!
# The lexer covers the buffer

In a buffer of fewer than `2 ^ 32` bytes every function of the lexer ends.  A byte is consumed only
where it is known not to be 0, since at the end `peekch` gives 0, too; thus the first byte that is 0
ends the lexemes as the end of the buffer does.

* `Adv` : bytes are consumed, and none of them is 0;
* `readNext_spec` : a lexeme consumes a byte, but for the last one at a 0 or the end;
* `lexesWhole_iff` : the buffers that the lexemes cover.
-/

namespace Jaci

namespace Ast

open Wire

namespace Lexer

variable {s t u : Lexer}

/-- The offset, as a number. -/
def pos (s : Lexer) : ℕ := s.offset.toNat

/-- The buffer is small, and the offset is in it. -/
structure Small (s : Lexer) : Prop where
  size : s.bufferSize < 2 ^ 32
  pos : s.pos ≤ s.bufferSize

/-- Bytes are consumed, and none of them is 0. -/
structure Adv (s t : Lexer) : Prop where
  buffer : t.buffer = s.buffer
  le : s.pos ≤ t.pos
  inside : t.pos ≤ s.bufferSize
  nonzero : ∀ i, s.pos ≤ i → i < t.pos → s.at_ i ≠ 0

/-- At least one byte is consumed. -/
structure Consumes (s t : Lexer) : Prop extends Adv s t where
  lt : s.pos < t.pos

theorem Small.refl (h : s.Small) : s.Adv s := ⟨rfl, le_rfl, h.pos, fun _ h1 h2 => by omega⟩

theorem Adv.size (h : s.Adv t) : t.bufferSize = s.bufferSize := by
  rw [bufferSize, bufferSize, h.buffer]

theorem Adv.at_ (h : s.Adv t) (i : ℕ) : t.at_ i = s.at_ i := by rw [Lexer.at_, Lexer.at_, h.buffer]

theorem Adv.small (h : s.Adv t) (hs : s.Small) : t.Small :=
  ⟨h.size ▸ hs.size, h.size ▸ h.inside⟩

theorem Adv.trans (h : s.Adv t) (h' : t.Adv u) : s.Adv u where
  buffer := h'.buffer.trans h.buffer
  le := h.le.trans h'.le
  inside := h.size ▸ h'.inside
  nonzero i h1 h2 := by
    by_cases hi : i < t.pos
    · exact h.nonzero i h1 hi
    · rw [← h.at_]
      exact h'.nonzero i (Nat.le_of_not_lt hi) h2

theorem Adv.consumes (h : s.Adv t) (h' : t.Consumes u) : s.Consumes u :=
  ⟨h.trans h'.toAdv, lt_of_le_of_lt h.le h'.lt⟩

theorem Consumes.adv (h : s.Consumes t) (h' : t.Adv u) : s.Consumes u :=
  ⟨h.toAdv.trans h', lt_of_lt_of_le h.lt h'.le⟩

theorem Consumes.trans (h : s.Consumes t) (h' : t.Consumes u) : s.Consumes u := h.adv h'.toAdv

/-- Other fields do not count. -/
theorem Adv.congr (h : s.Adv t) (hbuffer : u.buffer = t.buffer) (hoffset : u.offset = t.offset) :
    s.Adv u := by
  have hpos : u.pos = t.pos := by rw [pos, pos, hoffset]
  exact ⟨hbuffer.trans h.buffer, hpos ▸ h.le, hpos ▸ h.inside, hpos ▸ h.nonzero⟩

/-! ### Single bytes -/

theorem peekch_eq (s : Lexer) : s.peekch = s.at_ s.pos := by
  simp only [peekch, at_, pos]
  split_ifs with h
  · rfl
  · rw [List.getD_eq_getElem?_getD, List.getElem?_eq_none (Nat.le_of_not_lt h), Option.getD_none]

theorem lt_of_peekch (h : s.peekch ≠ 0) : s.pos < s.bufferSize := by
  by_contra hlt
  exact h (if_neg hlt)

theorem pos_succ (hs : s.Small) (h : s.peekch ≠ 0) (hoffset : t.offset = s.offset + 1) :
    t.pos = s.pos + 1 := by
  have hlt := lt_of_peekch h
  have hsize := hs.size
  rw [pos, hoffset, UInt32.toNat_add]
  simp only [pos] at hlt ⊢
  exact Nat.mod_eq_of_lt (by rw [UInt32.toNat_one]; omega)

/-- One byte that is not 0. -/
theorem consumes_of (hs : s.Small) (h : s.peekch ≠ 0) (hbuffer : t.buffer = s.buffer)
    (hoffset : t.offset = s.offset + 1) : s.Consumes t := by
  have hlt := lt_of_peekch h
  have hpos := pos_succ hs h hoffset
  refine ⟨⟨hbuffer, by omega, by omega, fun i h1 h2 => ?_⟩, by omega⟩
  rw [show i = s.pos by omega, ← peekch_eq]
  exact h

theorem consumes_consume (hs : s.Small) (h : s.peekch ≠ 0) : s.Consumes s.consume :=
  consumes_of hs h rfl rfl

theorem consumes_consumeAny (hs : s.Small) (h : s.peekch ≠ 0) : s.Consumes s.consumeAny := by
  rw [consumeAny]
  split_ifs
  · exact consumes_of hs h rfl rfl
  · exact consumes_consume hs h

/-- Two bytes. -/
theorem consumes_two (hs : s.Small) (h : s.peekch ≠ 0) (h' : s.peekchAt 1 ≠ 0) :
    s.Consumes s.consume.consume :=
  have h1 := consumes_consume hs h
  h1.trans (consumes_consume (h1.small hs) h')

/-! ### Loops -/

/-- A loop each round of which consumes a byte ends. -/
theorem loop_spec {ρ : Type} {body : Lexer → Option (Lexer ⊕ ρ)} {Q : ρ → Prop} (hs : s.Small)
    (hround : ∀ t, s.Adv t → (∃ t', body t = some (.inl t') ∧ t.Consumes t') ∨
      ∃ r, body t = some (.inr r) ∧ Q r) : ∃ r, Loop.run body s.rounds s = some r ∧ Q r := by
  refine Loop.run_spec (I := s.Adv) (μ := fun t => s.bufferSize - t.pos) (fun t ht => ?_)
    hs.refl ?_
  · rcases hround t ht with ⟨t', hbody, h⟩ | hr
    · refine .inl ⟨t', hbody, ht.trans h.toAdv, ?_⟩
      have hlt := h.lt
      have hinside := h.inside
      rw [ht.size] at hinside
      dsimp only
      omega
    · exact .inr hr
  · rw [rounds]
    omega

theorem skipLine_spec (hs : s.Small) : ∃ t, s.skipLine = some t ∧ s.Adv t := by
  refine loop_spec hs fun t ht => ?_
  split_ifs with h
  · exact .inl ⟨_, rfl, consumes_consume (ht.small hs) h.1⟩
  · exact .inr ⟨_, rfl, ht⟩

theorem skipEquals_spec (hs : s.Small) :
    ∃ t count, s.skipEquals = some (t, count) ∧ s.Adv t ∧ 0 ≤ count := by
  have h : ∃ r, s.skipEquals = some r ∧ s.Adv r.1 ∧ 0 ≤ r.2 := by
    refine Loop.run_spec (I := fun r => s.Adv r.1 ∧ 0 ≤ r.2)
      (μ := fun r => s.bufferSize - r.1.pos) ?_ ⟨hs.refl, le_rfl⟩ (by rw [rounds]; dsimp only; omega)
    rintro ⟨t, count⟩ ⟨ht, hcount⟩
    dsimp only at ht hcount
    rw [Loop.Round]
    dsimp only
    split_ifs with hpeek
    · have h := consumes_consume (ht.small hs) (by rw [hpeek]; decide)
      have hlt := h.lt
      have hinside := h.inside
      rw [ht.size] at hinside
      exact .inl ⟨_, rfl, ⟨ht.trans h.toAdv, by omega⟩, by dsimp only; omega⟩
    · exact .inr ⟨_, rfl, ht, hcount⟩
  obtain ⟨⟨t, count⟩, hrun, ht⟩ := h
  exact ⟨t, count, hrun, ht⟩

theorem skipLongSeparator_spec (hs : s.Small) (h : s.peekch ≠ 0) :
    ∃ t sep, s.skipLongSeparator = some (t, sep) ∧ s.Consumes t ∧
      (0 ≤ sep → t.peekch = s.peekch) := by
  have h1 := consumes_consume hs h
  obtain ⟨t, count, hrun, ht, hcount⟩ := skipEquals_spec (h1.small hs)
  rw [skipLongSeparator, hrun, Option.map_some]
  dsimp only
  split_ifs with heq
  · exact ⟨t, _, rfl, h1.adv ht, fun _ => heq.symm⟩
  · exact ⟨t, _, rfl, h1.adv ht, fun h => by omega⟩

/-- A lexeme is read, and it is not the end. -/
def Reads (s : Lexer) (r : Lexer × Lexeme) : Prop := s.Adv r.1 ∧ r.2.type ≠ .Eof

/-- A lexeme is read that has a byte. -/
def Starts (s : Lexer) (r : Lexer × Lexeme) : Prop := s.Consumes r.1 ∧ r.2.type ≠ .Eof

theorem Consumes.reads {r : Lexer × Lexeme} (h : s.Consumes t) (hr : t.Reads r) : s.Starts r :=
  ⟨h.adv hr.1, hr.2⟩

theorem readLongString_spec (hs : s.Small) (h : s.peekch ≠ 0) (start : Position) (sep : ℤ)
    (ok broken : LexemeType) (hok : ok ≠ .Eof) (hbroken : broken ≠ .Eof) (hsep : 0 ≤ sep) :
    ∃ r, s.readLongString start sep ok broken = some r ∧ s.Starts r := by
  have h1 := consumes_consume hs h
  have hloop : ∃ r, s.readLongString start sep ok broken = some r ∧ s.consume.Reads r := by
    rw [readLongString]
    refine loop_spec (h1.small hs) fun t ht => ?_
    have hsmall := ht.small (h1.small hs)
    dsimp only
    split_ifs with h0 hb
    · exact .inr ⟨_, rfl, ht, hbroken⟩
    · obtain ⟨u, found, hu, hadv, hpeek⟩ := skipLongSeparator_spec hsmall h0
      rw [hu, Option.map_some]
      dsimp only
      split_ifs with hf
      · refine .inr ⟨_, rfl, ?_, hok⟩
        have h2 := consumes_consume (hadv.small hsmall) (by rw [hpeek (by omega)]; exact h0)
        exact ht.trans (hadv.adv h2.toAdv).toAdv
      · exact .inl ⟨u, rfl, hadv⟩
    · exact .inl ⟨_, rfl, consumes_consumeAny hsmall h0⟩
  obtain ⟨r, hrun, hr⟩ := hloop
  exact ⟨r, hrun, h1.reads hr⟩

theorem readCommentBody_spec (hs : s.Small) (h : s.peekch ≠ 0) (h' : s.peekchAt 1 ≠ 0) :
    ∃ r, s.readCommentBody = some r ∧ s.Starts r := by
  have h2 := consumes_two hs h h'
  have hsmall := h2.small hs
  -- The rest of the line is the comment.
  have hline : ∀ t, s.Consumes t → ∃ r, (t.skipLine.map fun u =>
      (u, u.slice s.position .Comment s.consume.consume.offset u.offset)) = some r ∧ s.Starts r := by
    intro t ht
    obtain ⟨u, hu, hadv⟩ := skipLine_spec (ht.small hs)
    exact ⟨_, by rw [hu, Option.map_some], ht.adv hadv, by simp [slice, upTo]⟩
  rw [readCommentBody]
  dsimp only
  split_ifs with hb
  · obtain ⟨t, sep, ht, hadv, hpeek⟩ := skipLongSeparator_spec hsmall (by rw [hb]; decide)
    rw [ht, Option.bind_some]
    dsimp only
    split_ifs with hsep
    · obtain ⟨r, hr, hreads⟩ := readLongString_spec (hadv.small hsmall)
        (by rw [hpeek hsep, hb]; decide) s.position sep .BlockComment .BrokenComment (by decide)
        (by decide) hsep
      exact ⟨r, hr, h2.trans (hadv.trans hreads.1), hreads.2⟩
    · exact hline t (h2.trans hadv)
  · exact hline _ h2

theorem skipSpaces_spec (hs : s.Small) : ∃ t, s.skipSpaces = some t ∧ s.Adv t := by
  refine loop_spec hs fun t ht => ?_
  split_ifs with h
  · refine .inl ⟨_, rfl, consumes_consumeAny (ht.small hs) fun h0 => ?_⟩
    rw [h0] at h
    revert h
    decide
  · exact .inr ⟨_, rfl, ht⟩

theorem readBackslashInString_spec (hs : s.Small) (h : s.peekch ≠ 0) :
    ∃ t, s.readBackslashInString = some t ∧ s.Consumes t := by
  have h1 := consumes_consume hs h
  have hsmall := h1.small hs
  rw [readBackslashInString]
  dsimp only
  split_ifs with hr hn h0 hz
  · have h2 := consumes_consume hsmall (by rw [hr]; decide)
    exact ⟨_, rfl, h1.trans (h2.trans (consumes_consumeAny (h2.small hsmall) (by rw [hn]; decide)))⟩
  · exact ⟨_, rfl, h1.trans (consumes_consume hsmall (by rw [hr]; decide))⟩
  · exact ⟨_, rfl, h1⟩
  · have h2 := consumes_consume hsmall h0
    obtain ⟨t, ht, hadv⟩ := skipSpaces_spec (h2.small hsmall)
    exact ⟨t, ht, h1.trans (h2.adv hadv)⟩
  · exact ⟨_, rfl, h1.trans (consumes_consumeAny hsmall h0)⟩

theorem reads_slice (h : s.Adv t) {start : Position} {type : LexemeType} (ht : type ≠ .Eof)
    (a b : UInt32) : s.Reads (t, t.slice start type a b) := ⟨h, ht⟩

theorem readQuotedString_spec (hs : s.Small) (h : s.peekch ≠ 0) :
    ∃ r, s.readQuotedString = some r ∧ s.Starts r := by
  have h1 := consumes_consume hs h
  have hloop : ∃ r, s.readQuotedString = some r ∧ s.consume.Reads r := by
    rw [readQuotedString]
    refine loop_spec (h1.small hs) fun t ht => ?_
    have hsmall := ht.small (h1.small hs)
    dsimp only
    split_ifs with hd h0 hb
    · have h2 := consumes_consume hsmall (by rw [hd]; exact h)
      exact .inr ⟨_, rfl, reads_slice (ht.consumes h2).toAdv (by decide) _ _⟩
    · exact .inr ⟨_, rfl, ht, by simp [upTo]⟩
    · obtain ⟨u, hu, hadv⟩ := readBackslashInString_spec hsmall fun h => h0 (.inl h)
      exact .inl ⟨u, by rw [hu, Option.map_some], hadv⟩
    · exact .inl ⟨_, rfl, consumes_consume hsmall fun h => h0 (.inl h)⟩
  obtain ⟨r, hrun, hr⟩ := hloop
  exact ⟨r, hrun, h1.reads hr⟩

theorem peekchAt_two (s : Lexer) : s.consume.consume.peekch = s.peekchAt 2 := by
  have h : s.offset + 1 + 1 = s.offset + 2 := UInt32.add_assoc _ _ _
  simp only [peekch, peekchAt, consume, h]
  rfl

theorem readInterpolatedStringSection_spec (hs : s.Small) (start : Position)
    (formatType endType : LexemeType) (hformat : formatType ≠ .Eof) (hend : endType ≠ .Eof) :
    ∃ r, s.readInterpolatedStringSection start formatType endType = some r ∧ s.Reads r := by
  rw [readInterpolatedStringSection]
  refine loop_spec hs fun t ht => ?_
  have hsmall := ht.small hs
  dsimp only
  split_ifs with hq h0 hb hu hopen htwo
  · have h2 := consumes_consume hsmall (by rw [hq]; decide)
    exact .inr ⟨_, rfl, reads_slice (ht.consumes h2).toAdv hend _ _⟩
  · exact .inr ⟨_, rfl, ht, by simp [upTo]⟩
  · have h2 := consumes_two hsmall (by rw [hb]; decide) (by rw [hu.1]; decide)
    exact .inl ⟨_, rfl, h2.trans (consumes_consume (h2.small hsmall)
      (by rw [peekchAt_two, hu.2]; decide))⟩
  · obtain ⟨u, hu', hadv⟩ := readBackslashInString_spec hsmall (by rw [hb]; decide)
    exact .inl ⟨u, by rw [hu', Option.map_some], hadv⟩
  · have h2 := consumes_two hsmall (by rw [hopen]; decide) (by rw [show t.peekchAt 1 = _ from htwo]; decide)
    exact .inr ⟨_, rfl, (ht.consumes h2).toAdv.congr rfl rfl, by simp [slice, upTo]⟩
  · have h2 := consumes_consume hsmall (by rw [hopen]; decide)
    exact .inr ⟨_, rfl, (ht.consumes h2).toAdv.congr rfl rfl, hformat⟩
  · exact .inl ⟨_, rfl, consumes_consume hsmall fun h => h0 (.inl h)⟩

theorem readInterpolatedStringBegin_spec (hs : s.Small) (h : s.peekch ≠ 0) :
    ∃ r, s.readInterpolatedStringBegin = some r ∧ s.Starts r := by
  have h1 := consumes_consume hs h
  obtain ⟨r, hr, hreads⟩ := readInterpolatedStringSection_spec (h1.small hs) s.position
    .InterpStringBegin .InterpStringSimple (by decide) (by decide)
  exact ⟨r, hr, h1.reads hreads⟩

/-! ### Numbers, names and other bytes -/

theorem scan_le {p : UInt8 → Bool} {cur : ℕ} (hcur : cur ≤ s.bufferSize) :
    s.scan p cur ≤ s.bufferSize := by
  have hlen : ((s.buffer.drop cur).takeWhile p).length ≤ s.bufferSize - cur := by
    rw [bufferSize, ← List.length_drop]
    exact (List.takeWhile_prefix p).length_le
  rw [scan]
  omega

theorem of_lt_scan {p : UInt8 → Bool} {cur i : ℕ} (hcur : cur ≤ s.bufferSize) (h1 : cur ≤ i)
    (h2 : i < s.scan p cur) : p (s.at_ i) = true := by
  have hle := scan_le (p := p) hcur
  rw [scan] at h2 hle
  have hi : i - cur < ((s.buffer.drop cur).takeWhile p).length := by omega
  have hmem := List.mem_takeWhile_imp (List.getElem_mem hi)
  rw [(List.takeWhile_prefix p).getElem hi, List.getElem_drop] at hmem
  have heq : cur + (i - cur) = i := by omega
  simp only [heq] at hmem
  rwa [at_, List.getD_eq_getElem?_getD, List.getElem?_eq_getElem (by rw [bufferSize] at *; omega),
    Option.getD_some]

theorem scan_spec {p : UInt8 → Bool} (hp : p 0 = false) {cur : ℕ} (hcur : cur ≤ s.bufferSize) :
    cur ≤ s.scan p cur ∧ s.scan p cur ≤ s.bufferSize ∧
      ∀ i, cur ≤ i → i < s.scan p cur → s.at_ i ≠ 0 := by
  refine ⟨Nat.le_add_right _ _, scan_le hcur, fun i h1 h2 h0 => ?_⟩
  have h := of_lt_scan hcur h1 h2
  rw [h0, hp] at h
  cases h

/-- From `a` to `b` no byte is 0. -/
def NonzeroTo (s : Lexer) (a b : ℕ) : Prop :=
  a ≤ b ∧ b ≤ s.bufferSize ∧ ∀ i, a ≤ i → i < b → s.at_ i ≠ 0

theorem NonzeroTo.trans {a b c : ℕ} (h : s.NonzeroTo a b) (h' : s.NonzeroTo b c) :
    s.NonzeroTo a c := by
  refine ⟨h.1.trans h'.1, h'.2.1, fun i h1 h2 => ?_⟩
  by_cases hi : i < b
  · exact h.2.2 i h1 hi
  · exact h'.2.2 i (Nat.le_of_not_lt hi) h2

theorem nonzeroTo_peekch (h : s.peekch ≠ 0) : s.NonzeroTo s.pos (s.pos + 1) := by
  refine ⟨Nat.le_succ _, lt_of_peekch h, fun i h1 h2 => ?_⟩
  rw [show i = s.pos by omega, ← peekch_eq]
  exact h

theorem nonzeroTo_skipIf {p : UInt8 → Bool} (hp : p 0 = false) {cur : ℕ}
    (hcur : cur ≤ s.bufferSize) : s.NonzeroTo cur (s.skipIf p cur) := by
  rw [skipIf]
  split_ifs with h
  · refine ⟨Nat.le_succ _, h.1, fun i h1 h2 h0 => ?_⟩
    rw [show i = cur by omega] at h0
    rw [h0, hp] at h
    cases h.2
  · exact ⟨le_rfl, hcur, fun i h1 h2 => by omega⟩

theorem nonzeroTo_scanExponent {cur : ℕ} (hcur : cur ≤ s.bufferSize) :
    s.NonzeroTo cur (s.scanExponent cur) := by
  rw [scanExponent]
  split_ifs with h
  · have he : s.NonzeroTo cur (cur + 1) := by
      refine ⟨Nat.le_succ _, h.1, fun i h1 h2 h0 => ?_⟩
      rw [show i = cur by omega] at h0
      have hc := h.2
      rw [h0] at hc
      revert hc
      decide
    exact he.trans (nonzeroTo_skipIf (by decide) h.1)
  · exact ⟨le_rfl, hcur, fun i h1 h2 => by omega⟩

theorem consumes_to (hs : s.Small) {cur : ℕ} (h : s.NonzeroTo s.pos cur) (hlt : s.pos < cur)
    (hbuffer : t.buffer = s.buffer) (hoffset : t.offset = .ofNat cur) : s.Consumes t := by
  have hsize := hs.size
  have hpos : t.pos = cur := by
    rw [pos, hoffset, UInt32.toNat_ofNat']
    exact Nat.mod_eq_of_lt (by have := h.2.1; omega)
  exact ⟨⟨hbuffer, by omega, hpos ▸ h.2.1, hpos ▸ h.2.2⟩, by omega⟩

theorem starts_readNumber (hs : s.Small) (h : s.peekch ≠ 0) (start : Position)
    (startOffset : UInt32) : s.Starts (s.readNumber start startOffset) := by
  have h1 := nonzeroTo_peekch h
  have h2 : s.NonzeroTo (s.pos + 1) (s.scan (fun c => isDigit c || c = byte '.' || c = byte '_')
      (s.pos + 1)) := scan_spec (by decide) h1.2.1
  have h3 := nonzeroTo_scanExponent h2.2.1
  have h4 : s.NonzeroTo _ (s.scan isIdentChar _) := scan_spec (by decide) h3.2.1
  have hto := h1.trans (h2.trans (h3.trans h4))
  refine ⟨consumes_to hs hto ?_ rfl rfl, by simp [readNumber, slice, upTo]⟩
  have := (h2.trans (h3.trans h4)).1
  omega

theorem readName_spec (hs : s.Small) (h : s.peekch ≠ 0) :
    s.Consumes s.readName.1 ∧ s.readName.2.2 ≠ .Eof := by
  have h1 := nonzeroTo_peekch h
  have h2 : s.NonzeroTo (s.pos + 1) (s.scan isIdentChar (s.pos + 1)) :=
    scan_spec (by decide) h1.2.1
  have hlt : s.pos < s.scan isIdentChar (s.pos + 1) := by
    have := h2.1
    omega
  rw [readName]
  dsimp only
  split_ifs
  · refine ⟨consumes_to hs (h1.trans h2) hlt rfl rfl, ?_⟩
    rw [AstNameTable.getOrAddWithType]
    split
    · rename_i e he
      exact s.names.notEof e (List.mem_of_find?_eq_some he)
    · exact AstNameTable.newType_ne _
  · refine ⟨consumes_to hs (h1.trans h2) hlt rfl rfl, ?_⟩
    rw [AstNameTable.getWithType]
    split
    · rename_i e he
      exact s.names.notEof e (List.mem_of_find?_eq_some he)
    · exact LexemeType.noConfusion

theorem adv_readContinuation (n : ℕ) (hs : s.Small) (codepoint : UInt32) :
    s.Adv (readContinuation n s codepoint).1 := by
  induction n generalizing s codepoint with
  | zero => exact hs.refl
  | succ n ih =>
    rw [readContinuation]
    split_ifs with h
    · exact hs.refl
    · have h1 := consumes_consume hs (by
        intro h0
        rw [h0] at h
        exact h (by decide))
      exact h1.toAdv.trans (ih (h1.small hs) _)

theorem starts_readUtf8Error (hs : s.Small) (h : s.peekch ≠ 0) : s.Starts s.readUtf8Error := by
  have h1 := consumes_consume hs h
  rw [readUtf8Error]
  split
  · exact ⟨h1, by simp [upTo]⟩
  · rename_i size codepoint _
    have h2 := adv_readContinuation (size - 1) (h1.small hs) codepoint
    split
    · rename_i t ht
      rw [ht] at h2
      exact ⟨h1.adv h2, by simp [upTo]⟩
    · rename_i t c ht
      rw [ht] at h2
      exact ⟨h1.adv h2, by simp [upTo]⟩

/-! ### The next lexeme -/

theorem ofChar_ne {c : UInt8} (h : c ≠ 0) : LexemeType.ofChar c ≠ .Eof := by
  rw [LexemeType.ofChar, if_neg h]
  simp

theorem token_ne {c : UInt8} (h : c ≠ 0) (start : Position) (length : UInt32) :
    (token start length (.ofChar c)).type ≠ .Eof := ofChar_ne h

theorem starts_consume (hs : s.Small) (h : s.peekch ≠ 0) {lexeme : Lexeme}
    (ht : lexeme.type ≠ .Eof) : s.Starts (s.consume, lexeme) := ⟨consumes_consume hs h, ht⟩

theorem starts_two (hs : s.Small) (h : s.peekch ≠ 0) (h' : s.consume.peekch ≠ 0) {lexeme : Lexeme}
    (ht : lexeme.type ≠ .Eof) : s.Starts (s.consume.consume, lexeme) := ⟨consumes_two hs h h', ht⟩

theorem starts_three (hs : s.Small) (h : s.peekch ≠ 0) (h' : s.consume.peekch ≠ 0)
    (h'' : s.consume.consume.peekch ≠ 0) {lexeme : Lexeme} (ht : lexeme.type ≠ .Eof) :
    s.Starts (s.consume.consume.consume, lexeme) :=
  have h2 := consumes_two hs h h'
  ⟨h2.trans (consumes_consume (h2.small hs) h''), ht⟩

theorem starts_operator (hs : s.Small) (h : s.peekch ≠ 0) (start : Position) {first second : Char}
    {type : LexemeType} (hfirst : byte first ≠ 0) (hsecond : byte second ≠ 0)
    (htype : type ≠ .Eof) : s.Starts (s.operator start first second type) := by
  rw [operator]
  split_ifs with h'
  · exact starts_two hs h (by rw [h']; exact hsecond) htype
  · exact starts_consume hs h (token_ne hfirst _ _)

theorem readMinus_spec (hs : s.Small) (h : s.peekch ≠ 0) (start : Position) :
    ∃ r, s.readMinus start = some r ∧ s.Starts r := by
  rw [readMinus]
  split_ifs with h1 h2 h3
  · exact ⟨_, rfl, starts_two hs h (by rw [show s.consume.peekch = _ from h1]; decide) (by simp [token])⟩
  · exact ⟨_, rfl, starts_two hs h (by rw [show s.consume.peekch = _ from h2]; decide) (by simp [token])⟩
  · exact readCommentBody_spec hs h (by rw [h3]; decide)
  · exact ⟨_, rfl, starts_consume hs h (token_ne (by decide) _ _)⟩

theorem readBracket_spec (hs : s.Small) (h : s.peekch ≠ 0) (start : Position) :
    ∃ r, s.readBracket start = some r ∧ s.Starts r := by
  obtain ⟨t, sep, ht, hadv, hpeek⟩ := skipLongSeparator_spec hs h
  rw [readBracket, ht, Option.bind_some]
  dsimp only
  split_ifs with h0 h1
  · obtain ⟨r, hr, hreads⟩ := readLongString_spec (hadv.small hs) (by rw [hpeek h0]; exact h)
      start sep .RawString .BrokenString (by decide) (by decide) h0
    exact ⟨r, hr, hadv.trans hreads.1, hreads.2⟩
  · exact ⟨_, rfl, hadv, token_ne (by decide) _ _⟩
  · exact ⟨_, rfl, hadv, by simp [upTo]⟩

theorem starts_readOpenBrace (hs : s.Small) (h : s.peekch ≠ 0) (start : Position) :
    s.Starts (s.readOpenBrace start) := by
  have h1 := consumes_consume hs h
  refine ⟨⟨h1.toAdv.congr ?_ ?_, ?_⟩, token_ne (by decide) _ _⟩
  all_goals
    rw [readOpenBrace]
    dsimp only
    split_ifs
  all_goals
    first
    | rfl
    | exact h1.lt

theorem readCloseBrace_spec (hs : s.Small) (h : s.peekch ≠ 0) (start : Position) :
    ∃ r, s.readCloseBrace start = some r ∧ s.Starts r := by
  have h1 := consumes_consume hs h
  rw [readCloseBrace]
  dsimp only
  split
  · exact ⟨_, rfl, h1, token_ne (by decide) _ _⟩
  · rename_i top rest _
    have h2 : s.Consumes { s.consume with braceStack := rest } := ⟨h1.toAdv.congr rfl rfl, h1.lt⟩
    split_ifs
    · exact ⟨_, rfl, h2, token_ne (by decide) _ _⟩
    · obtain ⟨r, hr, hreads⟩ := readInterpolatedStringSection_spec (h2.small hs) start
        .InterpStringMid .InterpStringEnd (by decide) (by decide)
      exact ⟨r, hr, h2.reads hreads⟩

theorem starts_readDot (hs : s.Small) (h : s.peekch ≠ 0) (start : Position) :
    s.Starts (s.readDot start) := by
  have h1 := consumes_consume hs h
  rw [readDot]
  dsimp only
  split_ifs with hdot hdots heq hdigit
  · exact starts_three hs h (by rw [hdot]; decide) (by rw [hdots]; decide) (by simp [token])
  · exact starts_three hs h (by rw [hdot]; decide) (by rw [heq]; decide) (by simp [token])
  · exact starts_two hs h (by rw [hdot]; decide) (by simp [token])
  · have h2 := starts_readNumber (h1.small hs) (by
      intro h0
      rw [h0] at hdigit
      revert hdigit
      decide) start (s.consume.offset - 1)
    exact ⟨h1.trans h2.1, h2.2⟩
  · exact starts_consume hs h (token_ne (by decide) _ _)

theorem starts_readSlash (hs : s.Small) (h : s.peekch ≠ 0) (start : Position) :
    s.Starts (s.readSlash start) := by
  rw [readSlash]
  dsimp only
  split_ifs with heq hslash heq'
  · exact starts_two hs h (by rw [heq]; decide) (by simp [token])
  · exact starts_three hs h (by rw [hslash]; decide) (by rw [heq']; decide) (by simp [token])
  · exact starts_two hs h (by rw [hslash]; decide) (by simp [token])
  · exact starts_consume hs h (token_ne (by decide) _ _)

theorem peekch_ne_of_alpha (h : isAlpha s.peekch ∨ s.peekch = byte '_') : s.peekch ≠ 0 := by
  intro h0
  rw [h0] at h
  revert h
  decide

theorem starts_readAt (hs : s.Small) (h : s.peekch ≠ 0) (start : Position) :
    s.Starts (s.readAt start) := by
  have h1 := consumes_consume hs h
  rw [readAt]
  dsimp only
  split_ifs with hopen halpha
  · exact starts_two hs h (by rw [show s.consume.peekch = _ from hopen]; decide) (by simp [token])
  · have h2 := readName_spec (h1.small hs) (peekch_ne_of_alpha halpha)
    exact ⟨h1.trans h2.1, by simp [upTo]⟩
  · exact ⟨h1, by simp [upTo]⟩

theorem starts_readOther (hs : s.Small) (h : s.peekch ≠ 0) (start : Position) :
    s.Starts (s.readOther start) := by
  rw [readOther]
  dsimp only
  split_ifs
  · exact starts_readNumber hs h start s.offset
  · have h2 := readName_spec hs h
    exact ⟨h2.1, h2.2⟩
  · exact starts_readUtf8Error hs h
  · exact starts_consume hs h (token_ne h _ _)

/-- **The next lexeme.**  It has a byte, but for the end, where the next byte is 0 or missing. -/
theorem readNext_spec (hs : s.Small) : ∃ r, s.readNext = some r ∧
    (s.peekch = 0 → r = (s, token s.position 0 .Eof)) ∧ (s.peekch ≠ 0 → s.Starts r) := by
  by_cases h : s.peekch = 0
  · exact ⟨(s, token s.position 0 .Eof), if_pos h, fun _ => rfl, fun h' => absurd h h'⟩
  · let P (x : Option (Lexer × Lexeme)) : Prop := ∃ r, x = some r ∧ s.Starts r
    suffices hP : P s.readNext by
      obtain ⟨r, hr, hstarts⟩ := hP
      exact ⟨r, hr, fun h0 => absurd h0 h, fun _ => hstarts⟩
    have hop : ∀ {first second : Char} {type : LexemeType}, byte first ≠ 0 → byte second ≠ 0 →
        type ≠ .Eof → P (some (s.operator s.position first second type)) :=
      fun h1 h2 h3 => ⟨_, rfl, starts_operator hs h _ h1 h2 h3⟩
    -- One case for each character of the switch, in its order.
    refine iteInduction (motive := P) (fun h0 => absurd h0 h) fun _ => ?_
    refine iteInduction (motive := P) (fun _ => readMinus_spec hs h _) fun _ => ?_
    refine iteInduction (motive := P) (fun _ => readBracket_spec hs h _) fun _ => ?_
    refine iteInduction (motive := P) (fun _ => ⟨_, rfl, starts_readOpenBrace hs h _⟩) fun _ => ?_
    refine iteInduction (motive := P) (fun _ => readCloseBrace_spec hs h _) fun _ => ?_
    refine iteInduction (motive := P) (fun _ => hop (by decide) (by decide) (by decide)) fun _ => ?_
    refine iteInduction (motive := P) (fun _ => hop (by decide) (by decide) (by decide)) fun _ => ?_
    refine iteInduction (motive := P) (fun _ => hop (by decide) (by decide) (by decide)) fun _ => ?_
    refine iteInduction (motive := P) (fun _ => hop (by decide) (by decide) (by decide)) fun _ => ?_
    refine iteInduction (motive := P) (fun _ => readQuotedString_spec hs h) fun _ => ?_
    refine iteInduction (motive := P) (fun _ => readInterpolatedStringBegin_spec hs h) fun _ => ?_
    refine iteInduction (motive := P) (fun _ => ⟨_, rfl, starts_readDot hs h _⟩) fun _ => ?_
    refine iteInduction (motive := P) (fun _ => hop (by decide) (by decide) (by decide)) fun _ => ?_
    refine iteInduction (motive := P) (fun _ => ⟨_, rfl, starts_readSlash hs h _⟩) fun _ => ?_
    refine iteInduction (motive := P) (fun _ => hop (by decide) (by decide) (by decide)) fun _ => ?_
    refine iteInduction (motive := P) (fun _ => hop (by decide) (by decide) (by decide)) fun _ => ?_
    refine iteInduction (motive := P) (fun _ => hop (by decide) (by decide) (by decide)) fun _ => ?_
    refine iteInduction (motive := P) (fun _ => hop (by decide) (by decide) (by decide)) fun _ => ?_
    refine iteInduction (motive := P) (fun _ => ⟨_, rfl, starts_consume hs h (token_ne h _ _)⟩)
      fun _ => ?_
    exact iteInduction (motive := P) (fun _ => ⟨_, rfl, starts_readAt hs h _⟩)
      fun _ => ⟨_, rfl, starts_readOther hs h _⟩

/-! ### White space -/

/-- Between the two offsets there is only white space. -/
def Spaces (s t : Lexer) : Prop := ∀ i, s.pos ≤ i → i < t.pos → isSpace (s.at_ i)

/-- A round of white space. -/
def Skips (s t : Lexer) : Prop := s.Consumes t ∧ s.Spaces t

theorem skips_of (hs : s.Small) (h : isSpace s.peekch) (hbuffer : t.buffer = s.buffer)
    (hoffset : t.offset = s.offset + 1) : s.Skips t := by
  have h0 : s.peekch ≠ 0 := by
    intro h0
    rw [h0] at h
    revert h
    decide
  refine ⟨consumes_of hs h0 hbuffer hoffset, fun i h1 h2 => ?_⟩
  have hpos := pos_succ hs h0 hoffset
  rw [show i = s.pos by omega, ← peekch_eq]
  exact h

theorem Spaces.trans (hadv : s.Adv t) (h : s.Spaces t) (h' : t.Spaces u) : s.Spaces u := by
  intro i h1 h2
  by_cases hi : i < t.pos
  · exact h i h1 hi
  · rw [← hadv.at_]
    exact h' i (Nat.le_of_not_lt hi) h2

theorem Skips.trans (h : s.Skips t) (h' : t.Skips u) : s.Skips u :=
  ⟨h.1.trans h'.1, h.2.trans h.1.toAdv h'.2⟩

theorem skipSpace_spec (hs : s.Small) : ∃ t, s.skipSpace = some t ∧ s.Adv t ∧ s.Spaces t := by
  refine Loop.run_spec (I := fun t => s.Adv t ∧ s.Spaces t) (μ := fun t => s.bufferSize - t.pos)
    (fun t ht => ?_) ⟨hs.refl, fun i h1 h2 => by omega⟩ (by rw [rounds]; omega)
  have hsmall := ht.1.small hs
  have hnext : ∀ u, t.Skips u → (s.Adv u ∧ s.Spaces u) ∧
      s.bufferSize - u.pos < s.bufferSize - t.pos := by
    intro u hu
    have hlt := hu.1.lt
    have hinside := hu.1.inside
    rw [ht.1.size] at hinside
    exact ⟨⟨ht.1.trans hu.1.toAdv, ht.2.trans ht.1 hu.2⟩, by omega⟩
  rw [Loop.Round]
  dsimp only
  have hpeek : t.at_ t.offset.toNat = t.peekch := (peekch_eq t).symm
  rw [hpeek]
  split_ifs with hlt hblank hline hreturn hlf hother
  · exact .inl ⟨_, rfl, hnext _ (skips_of hsmall (by rcases hblank with h | h <;> rw [h] <;> decide)
      rfl rfl)⟩
  · exact .inl ⟨_, rfl, hnext _ (skips_of hsmall (by rw [hline]; decide) rfl rfl)⟩
  · -- The carriage return has a line feed after it.
    have h1 := skips_of hsmall (t := t.consume) (by rw [hreturn]; decide) rfl rfl
    have hpeek' : t.consume.peekch = byte '\n' := (peekch_eq _).trans hlf.2
    exact .inl ⟨_, rfl, hnext _ (h1.trans (skips_of (h1.1.small hsmall) (by rw [hpeek']; decide)
      rfl rfl))⟩
  · exact .inl ⟨_, rfl, hnext _ (skips_of hsmall (by rw [hreturn]; decide) rfl rfl)⟩
  · exact .inl ⟨_, rfl, hnext _ (skips_of hsmall (by rcases hother with h | h <;> rw [h] <;> decide)
      rfl rfl)⟩
  · exact .inr ⟨_, rfl, ht⟩
  · exact .inr ⟨_, rfl, ht⟩

/-- `next(false, ...)` skips white space and reads a lexeme. -/
theorem next_spec (hs : s.Small) (updatePrevLocation : Bool) : ∃ t u, s.skipSpace = some t ∧
    s.next false updatePrevLocation = some u ∧ s.Adv t ∧ s.Spaces t ∧ t.Adv u ∧
    (t.peekch = 0 → u.pos = t.pos ∧ u.lexeme.type = .Eof) ∧
    (t.peekch ≠ 0 → t.pos < u.pos ∧ u.lexeme.type ≠ .Eof) := by
  obtain ⟨t, ht, hadv, hspaces⟩ := skipSpace_spec hs
  obtain ⟨v, hv⟩ : ∃ v, v =
    if updatePrevLocation then { t with prevLocation := t.lexeme.location } else t := ⟨_, rfl⟩
  have hvt : v.buffer = t.buffer ∧ v.offset = t.offset := by
    rw [hv]
    split_ifs <;> exact ⟨rfl, rfl⟩
  have hsv : s.Adv v := hadv.congr hvt.1 hvt.2
  have hpos : v.pos = t.pos := by rw [pos, pos, hvt.2]
  have hpeek : v.peekch = t.peekch := by rw [peekch_eq, peekch_eq, hpos, at_, at_, hvt.1]
  obtain ⟨r, hr, hend, hstarts⟩ := readNext_spec (hsv.small hs)
  refine ⟨t, { r.1 with lexeme := r.2 }, ht, ?_, hadv, hspaces, ?_, fun h => ?_, fun h => ?_⟩
  · rw [next, rounds, Loop.run]
    dsimp only
    rw [ht, Option.bind_some, ← hv, hr, Option.map_some, Option.bind_some]
    rfl
  · have hvr : v.Adv { r.1 with lexeme := r.2 } := by
      by_cases h : v.peekch = 0
      · rw [hend h]
        exact (hsv.small hs).refl.congr rfl rfl
      · exact (hstarts h).1.toAdv.congr rfl rfl
    exact ⟨hvr.buffer.trans hvt.1, hpos ▸ hvr.le, by
      have := hvr.inside
      rwa [bufferSize, hvt.1] at this, fun i h1 h2 => by
      have := hvr.nonzero i (by omega) h2
      rwa [at_, hvt.1] at this⟩
  · rw [hend (hpeek.trans h)]
    exact ⟨hpos, rfl⟩
  · have := hstarts (by rwa [hpeek])
    exact ⟨hpos ▸ this.1.lt, this.2⟩

end Lexer

/-! ### The lexemes of a buffer -/

/-- A lexeme with its place in the buffer. -/
structure Token where
  start : ℕ
  stop : ℕ
  lexeme : Lexeme

/-- The lexemes that `next(false, ...)` gives one after the other up to the end, if there are at
most so many; `updatePrevLocation` has the second argument of each call. -/
def lexAll : (ℕ → Bool) → ℕ → Lexer → Option (List Token)
  | _, 0, _ => none
  | updatePrevLocation, n + 1, s =>
    s.skipSpace.bind fun before =>
      (s.next false (updatePrevLocation 0)).bind fun s =>
        let token : Token := ⟨before.offset.toNat, s.offset.toNat, s.lexeme⟩
        if s.lexeme.type = .Eof then some [token]
        else (lexAll (fun i => updatePrevLocation (i + 1)) n s).map (token :: ·)

/-- The lexemes cover the buffer from one offset to another: each has a byte, they are in order with
only white space before them, and the end comes last. -/
def CoversTo (buffer : Bytes) (stop : ℕ) : ℕ → List Token → Prop
  | _, [] => False
  | p, token :: tokens =>
    p ≤ token.start ∧ (∀ i, p ≤ i → i < token.start → isSpace (buffer.getD i 0)) ∧
      if token.lexeme.type = .Eof then tokens = [] ∧ token.start = stop ∧ token.stop = stop
      else token.start < token.stop ∧ CoversTo buffer stop token.stop tokens

/-- The lexemes cover the whole buffer. -/
def Covers (buffer : Bytes) (tokens : List Token) : Prop :=
  CoversTo buffer buffer.length 0 tokens

/-- The calls of `next(false, ...)` end, and the lexemes cover the buffer. -/
def LexesWhole (buffer : Bytes) (names : AstNameTable) (startPosition : Position)
    (readNames : Bool) (updatePrevLocation : ℕ → Bool) : Prop :=
  ∃ n tokens, lexAll updatePrevLocation n (.new buffer names startPosition readNames) =
    some tokens ∧ Covers buffer tokens

theorem CoversTo.stop_mem {buffer : Bytes} {stop p : ℕ} {tokens : List Token}
    (h : CoversTo buffer stop p tokens) : ∃ token ∈ tokens, token.stop = stop := by
  induction tokens generalizing p with
  | nil => exact h.elim
  | cons token tokens ih =>
    rw [CoversTo] at h
    split_ifs at h
    · exact ⟨token, List.mem_cons_self, h.2.2.2.2⟩
    · obtain ⟨t, ht, hstop⟩ := ih h.2.2.2
      exact ⟨t, List.mem_cons_of_mem _ ht, hstop⟩

theorem CoversTo.unique {buffer : Bytes} {a b p : ℕ} {tokens : List Token}
    (h : CoversTo buffer a p tokens) (h' : CoversTo buffer b p tokens) : a = b := by
  induction tokens generalizing p with
  | nil => exact h.elim
  | cons token tokens ih =>
    rw [CoversTo] at h h'
    split_ifs at h h'
    · rw [← h.2.2.2.2, ← h'.2.2.2.2]
    · exact ih h.2.2.2 h'.2.2.2

/-- Offsets have 32 bits. -/
theorem stop_lt {updatePrevLocation : ℕ → Bool} {n : ℕ} {s : Lexer} {tokens : List Token}
    (h : lexAll updatePrevLocation n s = some tokens) : ∀ token ∈ tokens, token.stop < 2 ^ 32 := by
  induction n generalizing updatePrevLocation s tokens with
  | zero => cases h
  | succ n ih =>
    rw [lexAll] at h
    obtain ⟨t, -, h⟩ := Option.bind_eq_some_iff.1 h
    obtain ⟨u, -, h⟩ := Option.bind_eq_some_iff.1 h
    dsimp only at h
    have hu := UInt32.toNat_lt u.offset
    split_ifs at h
    · obtain rfl := Option.some.inj h
      intro token htoken
      rw [List.mem_singleton.1 htoken]
      exact hu
    · obtain ⟨rest, hrest, rfl⟩ := Option.map_eq_some_iff.1 h
      intro token htoken
      rcases List.mem_cons.1 htoken with rfl | htoken
      · exact hu
      · exact ih hrest token htoken

/-- The lexemes of a small buffer end, at the first byte that is 0 or at the end. -/
theorem lexAll_spec (n : ℕ) {s : Lexer} (hs : s.Small) (updatePrevLocation : ℕ → Bool) :
    (∀ tokens, lexAll updatePrevLocation n s = some tokens → ∃ stop, stop ≤ s.bufferSize ∧
      s.at_ stop = 0 ∧ (∀ i, s.pos ≤ i → i < stop → s.at_ i ≠ 0) ∧
      CoversTo s.buffer stop s.pos tokens) ∧
    (s.bufferSize - s.pos < n → ∃ tokens, lexAll updatePrevLocation n s = some tokens) := by
  induction n generalizing s updatePrevLocation with
  | zero => exact ⟨fun _ h => (by cases h), fun h => absurd h (Nat.not_lt_zero _)⟩
  | succ n ih =>
    obtain ⟨t, u, ht, hu, hadv, hspaces, hadv', hend, hstart⟩ :=
      Lexer.next_spec hs (updatePrevLocation 0)
    have hsu := hadv.trans hadv'
    have hpeek := t.peekch_eq
    rw [lexAll, ht, Option.bind_some, hu, Option.bind_some]
    dsimp only
    by_cases h0 : t.peekch = 0
    · obtain ⟨hpos, htype⟩ := hend h0
      rw [if_pos htype]
      refine ⟨fun tokens h => ?_, fun _ => ⟨_, rfl⟩⟩
      obtain rfl := Option.some.inj h
      refine ⟨t.pos, hadv.inside, by rw [← hadv.at_, ← hpeek, h0], hadv.nonzero, hadv.le, hspaces, ?_⟩
      rw [if_pos htype]
      exact ⟨rfl, rfl, hpos⟩
    · obtain ⟨hlt, htype⟩ := hstart h0
      rw [if_neg htype]
      obtain ⟨hcovers, hends⟩ := ih (hsu.small hs) fun i => updatePrevLocation (i + 1)
      constructor
      · intro tokens h
        obtain ⟨rest, hrest, rfl⟩ := Option.map_eq_some_iff.1 h
        obtain ⟨stop, hstop, hzero, hnonzero, hcover⟩ := hcovers rest hrest
        rw [hsu.size] at hstop
        rw [hsu.at_] at hzero
        rw [hsu.buffer] at hcover
        refine ⟨stop, hstop, hzero, fun i h1 h2 => ?_, hadv.le, hspaces, ?_⟩
        · by_cases hi : i < u.pos
          · exact hsu.nonzero i h1 hi
          · rw [← hsu.at_]
            exact hnonzero i (Nat.le_of_not_lt hi) h2
        · rw [if_neg htype]
          exact ⟨hlt, hcover⟩
      · intro hn
        have hle := hadv.le
        have hinside := hsu.inside
        obtain ⟨rest, hrest⟩ := hends (by rw [hsu.size]; omega)
        exact ⟨_, by rw [hrest, Option.map_some]⟩

/-- **Which buffers the lexemes cover.**  Exactly those of fewer than `2 ^ 32` bytes without the
byte 0. -/
theorem lexesWhole_iff (buffer : Bytes) (names : AstNameTable) (startPosition : Position)
    (readNames : Bool) (updatePrevLocation : ℕ → Bool) :
    LexesWhole buffer names startPosition readNames updatePrevLocation ↔
      buffer.length < 2 ^ 32 ∧ 0 ∉ buffer := by
  constructor
  · rintro ⟨n, tokens, hrun, hcovers⟩
    obtain ⟨token, htoken, hstop⟩ := hcovers.stop_mem
    have hsize : buffer.length < 2 ^ 32 := hstop ▸ stop_lt hrun token htoken
    refine ⟨hsize, fun h0 => ?_⟩
    obtain ⟨stop, -, -, hnonzero, hto⟩ := (lexAll_spec n
      (s := .new buffer names startPosition readNames) ⟨hsize, Nat.zero_le _⟩ _).1 tokens hrun
    obtain rfl := hcovers.unique hto
    obtain ⟨i, hi, hget⟩ := List.getElem_of_mem h0
    refine hnonzero i (Nat.zero_le _) hi ?_
    rw [Lexer.at_, Lexer.new, List.getD_eq_getElem?_getD, List.getElem?_eq_getElem hi,
      Option.getD_some, hget]
  · rintro ⟨hsize, h0⟩
    obtain ⟨hcovers, hends⟩ := lexAll_spec (buffer.length + 1)
      (s := .new buffer names startPosition readNames) ⟨hsize, Nat.zero_le _⟩ updatePrevLocation
    obtain ⟨tokens, hrun⟩ := hends (Nat.lt_succ_of_le (Nat.sub_le _ _))
    obtain ⟨stop, hstop, hzero, -, hto⟩ := hcovers tokens hrun
    have heq : stop = buffer.length := by
      by_contra hne
      have hlt : stop < buffer.length := lt_of_le_of_ne hstop hne
      rw [Lexer.at_, Lexer.new, List.getD_eq_getElem?_getD, List.getElem?_eq_getElem hlt,
        Option.getD_some] at hzero
      exact h0 (hzero ▸ List.getElem_mem hlt)
    rw [heq] at hto
    exact ⟨_, tokens, hrun, hto⟩

/-- The name after a byte 0 is not read. -/
theorem not_lexesWhole : ¬LexesWhole [0x61, 0, 0x62] .reserved ⟨0, 0⟩ true fun _ => true := by
  rintro ⟨n, tokens, hrun, hcovers⟩
  obtain ⟨stop, -, -, hnonzero, hto⟩ :=
    (lexAll_spec n (s := .new [0x61, 0, 0x62] .reserved ⟨0, 0⟩ true)
      ⟨by decide, Nat.zero_le _⟩ _).1 tokens hrun
  obtain rfl := hcovers.unique hto
  exact hnonzero 1 (by decide) (by decide) rfl

end Ast

end Jaci
