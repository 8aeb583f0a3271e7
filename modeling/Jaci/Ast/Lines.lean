import Jaci.Ast.Covers

/-!
# Lines

The lexer counts lines in several places: between lexemes a carriage return ends a line, with or
without a line feed after it; in comments and strings only a line feed does.

* `LineRule` : which newline sequences end a line, and the position of an offset by that rule;
* `Tracks` : what a function of the lexer does to the line;
* `Reads` : the runs of the lexer;
* `lexemes_located` : **where the positions of the lexemes are right**;
* `no_line_rule` : no rule is right for every buffer.
-/

namespace Jaci

namespace Ast

open Wire

/-! ### Rules -/

/-- A rule for lines: the newline sequences that end one. -/
structure LineRule where
  /-- A line feed without a carriage return before it. -/
  lf : Bool
  crlf : Bool
  /-- A carriage return without a line feed after it. -/
  cr : Bool

namespace LineRule

/-- A line ends with byte `i`. -/
def ends (R : LineRule) (b : Bytes) (i : ℕ) : Bool :=
  if b.getD i 0 = byte '\n' then
    if 0 < i ∧ b.getD (i - 1) 0 = byte '\r' then R.crlf else R.lf
  else R.cr && decide (b.getD i 0 = byte '\r' ∧ b.getD (i + 1) 0 ≠ byte '\n')

/-- The number of lines that end before an offset, and where the last one begins. -/
def before (R : LineRule) (b : Bytes) : ℕ → ℕ × ℕ
  | 0 => (0, 0)
  | o + 1 => if R.ends b o then ((R.before b o).1 + 1, o + 1) else R.before b o

/-- The position of an offset, in a buffer that begins at `start`. -/
def position (R : LineRule) (b : Bytes) (start : Position) (o : ℕ) : Position :=
  ⟨start.line + UInt32.ofNat (R.before b o).1,
    if (R.before b o).1 = 0 then start.column + UInt32.ofNat o
    else UInt32.ofNat (o - (R.before b o).2)⟩

end LineRule

/-- The rule of the lexer: a line feed ends a line, with or without a carriage return before it, and
so may a carriage return alone. -/
def newlines (cr : Bool) : LineRule := ⟨true, true, cr⟩

/-- Byte `i` is a carriage return without a line feed after it. -/
def Lone (b : Bytes) (i : ℕ) : Prop := b.getD i 0 = byte '\r' ∧ b.getD (i + 1) 0 ≠ byte '\n'

instance (b : Bytes) (i : ℕ) : Decidable (Lone b i) := inferInstanceAs (Decidable (_ ∧ _))

theorem newlines_ends {cr : Bool} {b : Bytes} {i : ℕ} :
    (newlines cr).ends b i = true ↔ b.getD i 0 = byte '\n' ∨ cr = true ∧ Lone b i := by
  rw [LineRule.ends]
  split_ifs with hlf hcr
  · exact ⟨fun _ => .inl hlf, fun _ => rfl⟩
  · exact ⟨fun _ => .inl hlf, fun _ => rfl⟩
  · rw [newlines, Bool.and_eq_true, decide_eq_true_iff, ← Lone]
    exact ⟨.inr, fun h => h.resolve_left hlf⟩

theorem LineRule.before_le (R : LineRule) (b : Bytes) (o : ℕ) : (R.before b o).2 ≤ o := by
  induction o with
  | zero => exact le_rfl
  | succ o ih =>
    rw [before]
    split_ifs
    · exact le_rfl
    · exact ih.trans (Nat.le_succ o)

theorem LineRule.before_count (R : LineRule) (b : Bytes) (n : ℕ) : (R.before b n).1 ≤ n := by
  induction n with
  | zero => exact le_rfl
  | succ n ih =>
    rw [before]
    split_ifs
    · exact Nat.succ_le_succ ih
    · exact ih.trans (Nat.le_succ n)

theorem LineRule.before_mono (R : LineRule) (b : Bytes) {m n : ℕ} (h : m ≤ n) :
    (R.before b m).1 ≤ (R.before b n).1 := by
  induction n, h using Nat.le_induction with
  | base => exact le_rfl
  | succ n _ ih =>
    rw [before]
    split_ifs
    · exact ih.trans (Nat.le_succ _)
    · exact ih

/-- No byte on the way ends a line. -/
theorem LineRule.before_congr {R : LineRule} {b : Bytes} {m n : ℕ} (hle : m ≤ n)
    (h : ∀ i, m ≤ i → i < n → ¬R.ends b i = true) : R.before b n = R.before b m := by
  induction n, hle using Nat.le_induction with
  | base => rfl
  | succ n hle ih =>
    rw [before, if_neg (h n hle (Nat.lt_succ_self n))]
    exact ih fun i h1 h2 => h i h1 (by omega)

theorem ends_false {b : Bytes} {i : ℕ} :
    (newlines false).ends b i = true ↔ (newlines true).ends b i = true ∧ ¬Lone b i := by
  rw [newlines_ends, newlines_ends]
  constructor
  · rintro (hlf | ⟨h, -⟩)
    · refine ⟨.inl hlf, fun hlone => ?_⟩
      rw [hlone.1] at hlf
      exact absurd hlf (by decide)
    · cases h
  · rintro ⟨hlf | ⟨-, hlone⟩, hnot⟩
    · exact .inl hlf
    · exact absurd hlone hnot

/-- Between two offsets the rules differ by the lone carriage returns. -/
theorem before_lone (b : Bytes) {m n : ℕ} (h : m ≤ n) :
    ((newlines false).before b n).1 + ((newlines true).before b m).1 ≤
      ((newlines true).before b n).1 + ((newlines false).before b m).1 ∧
    (((newlines false).before b n).1 + ((newlines true).before b m).1 =
      ((newlines true).before b n).1 + ((newlines false).before b m).1 →
      ∀ i, m ≤ i → i < n → ¬Lone b i) := by
  induction n, h using Nat.le_induction with
  | base => exact ⟨(Nat.add_comm _ _).le, fun _ i h1 h2 => by omega⟩
  | succ n hle ih =>
    obtain ⟨hcount, hnone⟩ := ih
    have hends := ends_false (b := b) (i := n)
    rw [LineRule.before, LineRule.before]
    by_cases hlone : Lone b n
    · have htrue : (newlines true).ends b n = true := newlines_ends.2 (.inr ⟨rfl, hlone⟩)
      rw [if_neg fun h => (hends.1 h).2 hlone, if_pos htrue]
      dsimp only
      exact ⟨by omega, fun h => by omega⟩
    · have hlast : ∀ i, m ≤ i → i < n + 1 → (∀ i, m ≤ i → i < n → ¬Lone b i) → ¬Lone b i := by
        intro i h1 h2 hbelow
        rcases Nat.lt_succ_iff_lt_or_eq.1 h2 with hlt | rfl
        · exact hbelow i h1 hlt
        · exact hlone
      by_cases htrue : (newlines true).ends b n = true
      · rw [if_pos (hends.2 ⟨htrue, hlone⟩), if_pos htrue]
        dsimp only
        exact ⟨by omega, fun h i h1 h2 => hlast i h1 h2 (hnone (by omega))⟩
      · rw [if_neg fun h => htrue (hends.1 h).1, if_neg htrue]
        exact ⟨hcount, fun h i h1 h2 => hlast i h1 h2 (hnone h)⟩

namespace Lexer

variable {s t u : Lexer} {start : Position}

/-- The line of the lexer is right by the rule. -/
structure Lined (cr : Bool) (start : Position) (s : Lexer) : Prop where
  line : s.line = start.line + UInt32.ofNat ((newlines cr).before s.buffer s.pos).1
  lineOffset : s.lineOffset = if ((newlines cr).before s.buffer s.pos).1 = 0 then 0 - start.column
    else UInt32.ofNat ((newlines cr).before s.buffer s.pos).2

theorem Lined.position_eq {cr : Bool} (h : s.Lined cr start) :
    s.position = (newlines cr).position s.buffer start s.pos := by
  rw [position, LineRule.position, h.line, h.lineOffset]
  congr 1
  have hoffset : s.offset = UInt32.ofNat s.pos := (UInt32.ofNat_toNat).symm
  split_ifs
  · rw [← hoffset]
    grind
  · rw [hoffset, ← UInt32.ofNat_sub ((newlines cr).before_le _ _)]

/-- The lines that have ended after `l`, by the rule. -/
def Ended (cr : Bool) (l : UInt32) (s : Lexer) : Prop :=
  s.line = l + UInt32.ofNat ((newlines cr).before s.buffer s.pos).1

/-- Bytes are consumed, and the lines that end among them are counted by the rule. -/
structure Tracks (c : Bool) (s t : Lexer) : Prop extends Adv s t where
  /-- The line stays right by this rule, and by the other where the two agree. -/
  lined : ∀ cr start, (cr ≠ c → ∀ i, s.pos ≤ i → i < t.pos → ¬Lone s.buffer i) →
    s.Lined cr start → t.Lined cr start
  ended : ∀ l, s.Ended c l → t.Ended c l

variable {c : Bool}

theorem Small.tracks (hs : s.Small) : s.Tracks c s := ⟨hs.refl, fun _ _ _ h => h, fun _ h => h⟩

theorem Tracks.trans (h : s.Tracks c t) (h' : t.Tracks c u) : s.Tracks c u := by
  refine ⟨h.toAdv.trans h'.toAdv, fun cr start hlone hs => ?_, fun l hs => h'.ended l (h.ended l hs)⟩
  have hle := h.le
  have hle' := h'.le
  refine h'.lined cr start (fun hcr i h1 h2 => ?_)
    (h.lined cr start (fun hcr i h1 h2 => hlone hcr i h1 (by omega)) hs)
  rw [h.buffer]
  exact hlone hcr i (by omega) h2

/-- Other fields do not count. -/
theorem Tracks.congr (h : s.Tracks c t) (hbuffer : u.buffer = t.buffer)
    (hoffset : u.offset = t.offset) (hline : u.line = t.line)
    (hlineOffset : u.lineOffset = t.lineOffset) : s.Tracks c u := by
  have hpos : u.pos = t.pos := by rw [pos, pos, hoffset]
  refine ⟨h.toAdv.congr hbuffer hoffset, fun cr start hlone hs => ?_, fun l hs => ?_⟩
  · rw [hpos] at hlone
    obtain ⟨h1, h2⟩ := h.lined cr start hlone hs
    exact ⟨by rw [hline, h1, hbuffer, hpos], by rw [hlineOffset, h2, hbuffer, hpos]⟩
  · rw [Ended, hline, h.ended l hs, hbuffer, hpos]

/-! ### Single bytes -/

/-- No byte on the way ends a line by the rule. -/
theorem Adv.tracks (h : s.Adv t) (hlf : ∀ i, s.pos ≤ i → i < t.pos → s.at_ i ≠ byte '\n')
    (hcr : c = true → ∀ i, s.pos ≤ i → i < t.pos → ¬Lone s.buffer i)
    (hline : t.line = s.line) (hlineOffset : t.lineOffset = s.lineOffset) : s.Tracks c t := by
  have hbefore : ∀ cr, (cr = true → ∀ i, s.pos ≤ i → i < t.pos → ¬Lone s.buffer i) →
      (newlines cr).before t.buffer t.pos = (newlines cr).before s.buffer s.pos := by
    intro cr hlone
    rw [h.buffer]
    refine LineRule.before_congr h.le fun i h1 h2 => ?_
    rw [newlines_ends]
    exact fun hends => hends.elim (hlf i h1 h2) fun hcr => hlone hcr.1 i h1 h2 hcr.2
  refine ⟨h, fun cr start hlone hs => ?_, fun l hs => ?_⟩
  · have hlone' : cr = true → ∀ i, s.pos ≤ i → i < t.pos → ¬Lone s.buffer i := by
      intro h
      by_cases hc : cr = c
      · exact hcr (hc.symm.trans h)
      · exact hlone hc
    exact ⟨by rw [hbefore cr hlone', hline, hs.line],
      by rw [hbefore cr hlone', hlineOffset, hs.lineOffset]⟩
  · rw [Ended, hline, hbefore c hcr]
    exact hs

theorem tracks_of (hs : s.Small) (h0 : s.peekch ≠ 0) (hlf : s.peekch ≠ byte '\n')
    (hbuffer : t.buffer = s.buffer) (hoffset : t.offset = s.offset + 1) (hline : t.line = s.line)
    (hlineOffset : t.lineOffset = s.lineOffset) : s.Tracks false t := by
  have hpos := pos_succ hs h0 hoffset
  refine (consumes_of hs h0 hbuffer hoffset).toAdv.tracks (fun i h1 h2 => ?_)
    (fun h => by cases h) hline hlineOffset
  rw [show i = s.pos by omega, ← peekch_eq]
  exact hlf

theorem tracks_consume (hs : s.Small) (h0 : s.peekch ≠ 0) (hlf : s.peekch ≠ byte '\n') :
    s.Tracks false s.consume := tracks_of hs h0 hlf rfl rfl rfl rfl

/-- A line ends with byte `o`, and `t` is after it. -/
theorem ended_ends {cr : Bool} {l : UInt32} {o : ℕ}
    (hline : s.line = l + UInt32.ofNat ((newlines cr).before s.buffer o).1)
    (hends : (newlines cr).ends s.buffer o = true) (hbuffer : t.buffer = s.buffer)
    (hpos : t.pos = o + 1) (ht : t.line = s.line + 1) :
    t.line = l + UInt32.ofNat ((newlines cr).before t.buffer t.pos).1 := by
  rw [hbuffer, hpos, LineRule.before, if_pos hends, ht, hline, UInt32.ofNat_add, UInt32.add_assoc]
  rfl

theorem lined_ends {cr : Bool} {o : ℕ}
    (hline : s.line = start.line + UInt32.ofNat ((newlines cr).before s.buffer o).1)
    (hends : (newlines cr).ends s.buffer o = true) (hbuffer : t.buffer = s.buffer)
    (hpos : t.pos = o + 1) (ht : t.line = s.line + 1) (hlineOffset : t.lineOffset = t.offset) :
    t.Lined cr start := by
  refine ⟨ended_ends hline hends hbuffer hpos ht, ?_⟩
  rw [hbuffer, hpos, LineRule.before, if_pos hends, if_neg (Nat.succ_ne_zero _), hlineOffset]
  dsimp only
  rw [← hpos]
  exact UInt32.ofNat_toNat.symm

theorem tracks_newline (hs : s.Small) (h : s.peekch = byte '\n') : s.Tracks c s.newline := by
  have h0 : s.peekch ≠ 0 := by rw [h]; decide
  have hpos : s.newline.pos = s.pos + 1 := pos_succ hs h0 rfl
  have hends : ∀ {cr}, (newlines cr).ends s.buffer s.pos = true :=
    newlines_ends.2 (.inl ((peekch_eq s).symm.trans h))
  exact ⟨(consumes_of (t := s.newline) hs h0 rfl rfl).toAdv,
    fun cr start _ hlined => lined_ends hlined.line hends rfl hpos rfl rfl,
    fun l hl => ended_ends hl hends rfl hpos rfl⟩

theorem tracks_consumeAny (hs : s.Small) (h0 : s.peekch ≠ 0) : s.Tracks false s.consumeAny := by
  have hat : s.at_ s.offset.toNat = s.peekch := (peekch_eq s).symm
  rw [consumeAny, hat, isNewline]
  split_ifs with hlf
  · exact tracks_newline hs (of_decide_eq_true hlf)
  · exact tracks_consume hs h0 fun h => hlf (decide_eq_true h)

theorem tracks_two (hs : s.Small) (h0 : s.peekch ≠ 0) (hlf : s.peekch ≠ byte '\n')
    (h0' : s.peekchAt 1 ≠ 0) (hlf' : s.peekchAt 1 ≠ byte '\n') : s.Tracks false s.consume.consume :=
  have h1 := tracks_consume hs h0 hlf
  h1.trans (tracks_consume (h1.small hs) h0' hlf')

/-! ### Comments and strings -/

/-- A loop whose rounds keep the line right. -/
theorem loop_tracks {ρ : Type} {body : Lexer → Option (Lexer ⊕ ρ)} {Q : ρ → Prop} {n : ℕ} {r : ρ}
    (hs : s.Small) (hround : ∀ t u, t.Small → s.Tracks false t → body t = some (.inl u) → t.Tracks false u)
    (hend : ∀ t r, t.Small → s.Tracks false t → body t = some (.inr r) → Q r)
    (h : Loop.run body n s = some r) : Q r :=
  Loop.run_partial (I := fun t => t.Small ∧ s.Tracks false t)
    (fun t u ht hbody =>
      have hu := hround t u ht.1 ht.2 hbody
      ⟨hu.small ht.1, ht.2.trans hu⟩)
    (fun t r ht hbody => hend t r ht.1 ht.2 hbody) ⟨hs, hs.tracks⟩ h

theorem tracks_skipLine (hs : s.Small) (h : s.skipLine = some t) : s.Tracks false t := by
  refine loop_tracks hs (fun t u hsmall _ hbody => ?_) (fun t r _ ht hbody => ?_) h <;>
    split_ifs at hbody with hpeek <;> cases hbody
  · exact tracks_consume hsmall hpeek.1 fun h => hpeek.2.2 (decide_eq_true h)
  · exact ht

/-- The rest of a line has no carriage return. -/
theorem skipLine_ne (hs : s.Small) (h : s.skipLine = some t) :
    ∀ i, s.pos ≤ i → i < t.pos → s.at_ i ≠ byte '\r' := by
  refine (Loop.run_partial (I := fun t => s.Adv t ∧
    ∀ i, s.pos ≤ i → i < t.pos → s.at_ i ≠ byte '\r') (Q := fun t => s.Adv t ∧
    ∀ i, s.pos ≤ i → i < t.pos → s.at_ i ≠ byte '\r') ?_ ?_
    ⟨hs.refl, fun i h1 h2 => absurd h1 (Nat.not_le.2 h2)⟩ h).2
  · rintro t u ⟨hadv, hne⟩ hbody
    split_ifs at hbody with hpeek <;> cases hbody
    have hsmall := hadv.small hs
    have hpos : t.consume.pos = t.pos + 1 := pos_succ hsmall hpeek.1 rfl
    refine ⟨hadv.trans (tracks_consume hsmall hpeek.1
      fun h => hpeek.2.2 (decide_eq_true h)).toAdv, fun i h1 h2 => ?_⟩
    rcases Nat.lt_succ_iff_lt_or_eq.1 (hpos ▸ h2) with hlt | rfl
    · exact hne i h1 hlt
    · rw [← hadv.at_, ← peekch_eq]
      exact hpeek.2.1
  · rintro t r ht hbody
    split_ifs at hbody with hpeek <;> cases hbody
    exact ht

theorem tracks_skipEquals {count : ℤ} (hs : s.Small) (h : s.skipEquals = some (t, count)) :
    s.Tracks false t := by
  refine Loop.run_partial (I := fun r : Lexer × ℤ => r.1.Small ∧ s.Tracks false r.1)
    (Q := fun r : Lexer × ℤ => s.Tracks false r.1) ?_ ?_ ⟨hs, hs.tracks⟩ h
  · rintro ⟨t, count⟩ r ⟨hsmall, ht⟩ hbody
    dsimp only at hbody
    split_ifs at hbody with hpeek <;> cases hbody
    have h1 := tracks_consume hsmall (by rw [hpeek]; decide) (by rw [hpeek]; decide)
    exact ⟨h1.small hsmall, ht.trans h1⟩
  · rintro ⟨t, count⟩ r ⟨-, ht⟩ hbody
    dsimp only at hbody
    split_ifs at hbody <;> cases hbody
    exact ht

theorem tracks_skipLongSeparator {sep : ℤ} (hs : s.Small) (h0 : s.peekch ≠ 0)
    (hlf : s.peekch ≠ byte '\n') (h : s.skipLongSeparator = some (t, sep)) : s.Tracks false t := by
  have h1 := tracks_consume hs h0 hlf
  rw [skipLongSeparator, Option.map_eq_some_iff] at h
  obtain ⟨⟨u, count⟩, hrun, h⟩ := h
  have h2 := h1.trans (tracks_skipEquals (h1.small hs) hrun)
  dsimp only at h
  split_ifs at h <;> cases h <;> exact h2

/-- A lexeme that begins at a position is read. -/
def Places (s : Lexer) (start : Position) (r : Lexer × Lexeme) : Prop :=
  s.Tracks false r.1 ∧ r.2.location.begin = start

theorem Tracks.places {r : Lexer × Lexeme} (h : s.Tracks false t) (hr : t.Places start r) :
    s.Places start r := ⟨h.trans hr.1, hr.2⟩

theorem places_readLongString {sep : ℤ} {ok broken : LexemeType} {r : Lexer × Lexeme} (hs : s.Small)
    (h0 : s.peekch ≠ 0) (hlf : s.peekch ≠ byte '\n') (hsep : 0 ≤ sep)
    (h : s.readLongString start sep ok broken = some r) : s.Places start r := by
  have h1 := tracks_consume hs h0 hlf
  refine h1.places (loop_tracks (h1.small hs) (fun t u hsmall ht hbody => ?_)
    (fun t r hsmall ht hbody => ?_) h)
  · split_ifs at hbody with hend hb
    · cases hbody
    · obtain ⟨⟨v, found⟩, hv, hbody⟩ := Option.map_eq_some_iff.1 hbody
      have h2 := tracks_skipLongSeparator hsmall hend (by rw [hb]; decide) hv
      dsimp only at hbody
      split_ifs at hbody
      cases hbody
      exact h2
    · cases hbody
      exact tracks_consumeAny hsmall hend
  · split_ifs at hbody with hend hb
    · cases hbody
      exact ⟨ht, rfl⟩
    · obtain ⟨⟨v, found⟩, hv, hbody⟩ := Option.map_eq_some_iff.1 hbody
      have h2 := tracks_skipLongSeparator hsmall hend (by rw [hb]; decide) hv
      obtain ⟨_, _, hv', -, hpeek⟩ := skipLongSeparator_spec hsmall hend
      rw [hv] at hv'
      cases hv'
      dsimp only at hbody
      split_ifs at hbody with hfound
      cases hbody
      have hclose : v.peekch = byte ']' := (hpeek (by omega)).trans hb
      exact ⟨ht.trans (h2.trans (tracks_consume (h2.small hsmall) (by rw [hclose]; decide)
        (by rw [hclose]; decide))), rfl⟩
    · cases hbody

theorem places_readCommentBody {r : Lexer × Lexeme} (hs : s.Small) (h0 : s.peekch ≠ 0)
    (hlf : s.peekch ≠ byte '\n') (h0' : s.peekchAt 1 ≠ 0) (hlf' : s.peekchAt 1 ≠ byte '\n')
    (h : s.readCommentBody = some r) : s.Places s.position r := by
  have h2 := tracks_two hs h0 hlf h0' hlf'
  have hsmall := h2.small hs
  -- The rest of the line is the comment.
  have hline : ∀ t r, s.Tracks false t → (t.skipLine.map fun u =>
      (u, u.slice s.position .Comment s.consume.consume.offset u.offset)) = some r →
      s.Places s.position r := by
    intro t r ht hr
    obtain ⟨u, hu, rfl⟩ := Option.map_eq_some_iff.1 hr
    exact ⟨ht.trans (tracks_skipLine (ht.small hs) hu), rfl⟩
  rw [readCommentBody] at h
  dsimp only at h
  split_ifs at h with hb
  · have hb0 : s.consume.consume.peekch ≠ 0 := by rw [hb]; decide
    have hblf : s.consume.consume.peekch ≠ byte '\n' := by rw [hb]; decide
    obtain ⟨⟨t, sep⟩, ht, h⟩ := Option.bind_eq_some_iff.1 h
    have h3 := tracks_skipLongSeparator hsmall hb0 hblf ht
    obtain ⟨_, _, ht', -, hpeek⟩ := skipLongSeparator_spec hsmall hb0
    rw [ht] at ht'
    cases ht'
    dsimp only at h
    split_ifs at h with hsep
    · exact (h2.trans h3).places (places_readLongString (h3.small hsmall)
        (by rw [hpeek hsep]; exact hb0) (by rw [hpeek hsep]; exact hblf) hsep h)
    · exact hline t r (h2.trans h3) h
  · exact hline _ r h2 h

theorem tracks_skipSpaces (hs : s.Small) (h : s.skipSpaces = some t) : s.Tracks false t := by
  refine loop_tracks hs (fun t u hsmall _ hbody => ?_) (fun t r _ ht hbody => ?_) h <;>
    split_ifs at hbody with hspace <;> cases hbody
  · refine tracks_consumeAny hsmall fun h0 => ?_
    rw [h0] at hspace
    revert hspace
    decide
  · exact ht

theorem tracks_readBackslashInString (hs : s.Small) (h : s.peekch = backslash)
    (hrun : s.readBackslashInString = some t) : s.Tracks false t := by
  have h1 := tracks_consume hs (by rw [h]; decide) (by rw [h]; decide)
  have hsmall := h1.small hs
  rw [readBackslashInString] at hrun
  dsimp only at hrun
  split_ifs at hrun with hr hn h0 hz
  · have h2 := tracks_consume hsmall (by rw [hr]; decide) (by rw [hr]; decide)
    cases hrun
    exact h1.trans (h2.trans (tracks_consumeAny (h2.small hsmall) (by rw [hn]; decide)))
  · cases hrun
    exact h1.trans (tracks_consume hsmall (by rw [hr]; decide) (by rw [hr]; decide))
  · cases hrun
    exact h1
  · have h2 := tracks_consume hsmall h0 (by rw [hz]; decide)
    exact h1.trans (h2.trans (tracks_skipSpaces (h2.small hsmall) hrun))
  · cases hrun
    exact h1.trans (tracks_consumeAny hsmall h0)

theorem places_readQuotedString {r : Lexer × Lexeme} (hs : s.Small) (h0 : s.peekch ≠ 0)
    (hlf : s.peekch ≠ byte '\n') (h : s.readQuotedString = some r) : s.Places s.position r := by
  have h1 := tracks_consume hs h0 hlf
  refine h1.places (loop_tracks (h1.small hs) (fun t u hsmall ht hbody => ?_)
    (fun t r hsmall ht hbody => ?_) h)
  · dsimp only at hbody
    split_ifs at hbody with hd hend hb
    · cases hbody
    · cases hbody
    · obtain ⟨v, hv, hvu⟩ := Option.map_eq_some_iff.1 hbody
      cases hvu
      exact tracks_readBackslashInString hsmall hb hv
    · cases hbody
      exact tracks_consume hsmall (fun h => hend (.inl h)) fun h => hend (.inr (.inr h))
  · dsimp only at hbody
    split_ifs at hbody with hd hend hb
    · cases hbody
      exact ⟨ht.trans (tracks_consume hsmall (by rw [hd]; exact h0) (by rw [hd]; exact hlf)), rfl⟩
    · cases hbody
      exact ⟨ht, rfl⟩
    · obtain ⟨v, -, hvu⟩ := Option.map_eq_some_iff.1 hbody
      cases hvu
    · cases hbody

theorem places_readInterpolatedStringSection {formatType endType : LexemeType}
    {r : Lexer × Lexeme} (hs : s.Small)
    (h : s.readInterpolatedStringSection start formatType endType = some r) :
    s.Places start r := by
  rw [readInterpolatedStringSection] at h
  refine loop_tracks hs (fun t u hsmall ht hbody => ?_) (fun t r hsmall ht hbody => ?_) h
  · dsimp only at hbody
    split_ifs at hbody with hq hend hb hu hopen htwo
    · cases hbody
    · cases hbody
    · cases hbody
      have h2 := tracks_two hsmall (by rw [hb]; decide) (by rw [hb]; decide) (by rw [hu.1]; decide)
        (by rw [hu.1]; decide)
      exact h2.trans (tracks_consume (h2.small hsmall) (by rw [peekchAt_two, hu.2]; decide)
        (by rw [peekchAt_two, hu.2]; decide))
    · obtain ⟨v, hv, hvu⟩ := Option.map_eq_some_iff.1 hbody
      cases hvu
      exact tracks_readBackslashInString hsmall hb hv
    · cases hbody
    · cases hbody
    · cases hbody
      exact tracks_consume hsmall (fun h => hend (.inl h)) fun h => hend (.inr (.inr h))
  · dsimp only at hbody
    split_ifs at hbody with hq hend hb hu hopen htwo
    · cases hbody
      exact ⟨ht.trans (tracks_consume hsmall (by rw [hq]; decide) (by rw [hq]; decide)), rfl⟩
    · cases hbody
      exact ⟨ht, rfl⟩
    · cases hbody
    · obtain ⟨v, -, hvu⟩ := Option.map_eq_some_iff.1 hbody
      cases hvu
    · cases hbody
      have htwo' : t.peekchAt 1 = byte '{' := htwo
      have h2 := tracks_two hsmall (by rw [hopen]; decide) (by rw [hopen]; decide)
        (by rw [htwo']; decide) (by rw [htwo']; decide)
      exact ⟨(ht.trans h2).congr rfl rfl rfl rfl, rfl⟩
    · cases hbody
      have h1 := tracks_consume hsmall (by rw [hopen]; decide) (by rw [hopen]; decide)
      exact ⟨(ht.trans h1).congr rfl rfl rfl rfl, rfl⟩
    · cases hbody

theorem places_readInterpolatedStringBegin {r : Lexer × Lexeme} (hs : s.Small)
    (h0 : s.peekch ≠ 0) (hlf : s.peekch ≠ byte '\n') (h : s.readInterpolatedStringBegin = some r) :
    s.Places s.position r :=
  have h1 := tracks_consume hs h0 hlf
  h1.places (places_readInterpolatedStringSection (h1.small hs) h)

/-! ### Numbers, names and other bytes -/

/-- From `a` to `b` there is no line feed. -/
def LineTo (s : Lexer) (a b : ℕ) : Prop := ∀ i, a ≤ i → i < b → s.at_ i ≠ byte '\n'

theorem LineTo.trans {a b c : ℕ} (h : s.LineTo a b) (h' : s.LineTo b c) : s.LineTo a c :=
  fun i h1 h2 => if hi : i < b then h i h1 hi else h' i (Nat.le_of_not_lt hi) h2

theorem lineTo_peekch (h : s.peekch ≠ byte '\n') : s.LineTo s.pos (s.pos + 1) := by
  intro i h1 h2
  rw [show i = s.pos by omega, ← peekch_eq]
  exact h

theorem lineTo_scan {p : UInt8 → Bool} (hp : p (byte '\n') = false) {cur : ℕ}
    (hcur : cur ≤ s.bufferSize) : s.LineTo cur (s.scan p cur) := by
  intro i h1 h2 hlf
  have h := of_lt_scan hcur h1 h2
  rw [hlf, hp] at h
  cases h

theorem lineTo_scanExponent (cur : ℕ) : s.LineTo cur (s.scanExponent cur) := by
  rw [scanExponent]
  split_ifs with h
  · have he : s.LineTo cur (cur + 1) := by
      intro i h1 h2 hlf
      rw [show i = cur by omega] at hlf
      have hc := h.2
      rw [hlf] at hc
      revert hc
      decide
    refine he.trans fun i h1 h2 hlf => ?_
    rw [skipIf] at h2
    split_ifs at h2 with hsign
    · rw [show i = cur + 1 by omega] at hlf
      rw [hlf] at hsign
      exact absurd hsign.2 (by decide)
    · omega
  · exact fun i h1 h2 => by omega

theorem tracks_to (hs : s.Small) {cur : ℕ} (h : s.NonzeroTo s.pos cur) (hlt : s.pos < cur)
    (hline : s.LineTo s.pos cur) :
    s.Tracks false { s with offset := .ofNat cur } := by
  have hpos : ({ s with offset := .ofNat cur } : Lexer).pos = cur := by
    have hsize := hs.size
    have hinside := h.2.1
    rw [pos, UInt32.toNat_ofNat']
    exact Nat.mod_eq_of_lt (by omega)
  refine (consumes_to (t := { s with offset := .ofNat cur }) hs h hlt rfl rfl).toAdv.tracks
    (fun i h1 h2 => hline i h1 ?_) (fun h => by cases h) rfl rfl
  rwa [hpos] at h2

theorem places_readNumber (hs : s.Small) (h0 : s.peekch ≠ 0) (hlf : s.peekch ≠ byte '\n')
    (start : Position) (startOffset : UInt32) :
    s.Places start (s.readNumber start startOffset) := by
  have h1 := nonzeroTo_peekch h0
  have h2 : s.NonzeroTo (s.pos + 1) (s.scan (fun c => isDigit c || c = byte '.' || c = byte '_')
      (s.pos + 1)) := scan_spec (by decide) h1.2.1
  have h3 := nonzeroTo_scanExponent h2.2.1
  have h4 : s.NonzeroTo _ (s.scan isIdentChar _) := scan_spec (by decide) h3.2.1
  have hline := (lineTo_peekch hlf).trans ((lineTo_scan (p := fun c => isDigit c || c = byte '.' ||
    c = byte '_') (by decide) h1.2.1).trans ((lineTo_scanExponent _).trans
      (lineTo_scan (p := isIdentChar) (by decide) h3.2.1)))
  exact ⟨tracks_to hs (h1.trans (h2.trans (h3.trans h4)))
    (lt_of_lt_of_le (Nat.lt_succ_self _) (h2.trans (h3.trans h4)).1) hline, rfl⟩

theorem tracks_readName (hs : s.Small) (h0 : s.peekch ≠ 0) (hlf : s.peekch ≠ byte '\n') :
    s.Tracks false s.readName.1 := by
  have h1 := nonzeroTo_peekch h0
  have h2 : s.NonzeroTo (s.pos + 1) (s.scan isIdentChar (s.pos + 1)) :=
    scan_spec (by decide) h1.2.1
  have hline := (lineTo_peekch hlf).trans (lineTo_scan (p := isIdentChar) (by decide) h1.2.1)
  have hlt : s.pos < s.scan isIdentChar (s.pos + 1) := by
    have := h2.1
    omega
  have htracks := tracks_to hs (h1.trans h2) hlt hline
  rw [readName]
  dsimp only
  split_ifs
  · exact htracks.congr rfl rfl rfl rfl
  · exact htracks

theorem tracks_readContinuation (n : ℕ) (hs : s.Small) (codepoint : UInt32) :
    s.Tracks false (readContinuation n s codepoint).1 := by
  induction n generalizing s codepoint with
  | zero => exact hs.tracks
  | succ n ih =>
    rw [readContinuation]
    split_ifs with h
    · exact hs.tracks
    · rw [not_not] at h
      have h1 := tracks_consume hs (by rintro h0; rw [h0] at h; exact absurd h (by decide))
        (by rintro h0; rw [h0] at h; exact absurd h (by decide))
      exact h1.trans (ih (h1.small hs) _)

theorem places_readUtf8Error (hs : s.Small) (h0 : s.peekch ≠ 0) (hlf : s.peekch ≠ byte '\n') :
    s.Places s.position s.readUtf8Error := by
  have h1 := tracks_consume hs h0 hlf
  rw [readUtf8Error]
  split
  · exact ⟨h1, rfl⟩
  · rename_i size codepoint _
    have h2 := tracks_readContinuation (size - 1) (h1.small hs) codepoint
    split
    · rename_i t ht
      rw [ht] at h2
      exact ⟨h1.trans h2, rfl⟩
    · rename_i t c ht
      rw [ht] at h2
      exact ⟨h1.trans h2, rfl⟩

/-! ### The next lexeme -/

theorem places_operator (hs : s.Small) (h0 : s.peekch ≠ 0) (hlf : s.peekch ≠ byte '\n')
    (start : Position) {first second : Char} {type : LexemeType} (hsecond : byte second ≠ 0)
    (hsecond' : byte second ≠ byte '\n') : s.Places start (s.operator start first second type) := by
  rw [operator]
  split_ifs with h'
  · exact ⟨tracks_two hs h0 hlf (by rw [show s.peekchAt 1 = _ from h']; exact hsecond)
      (by rw [show s.peekchAt 1 = _ from h']; exact hsecond'), rfl⟩
  · exact ⟨tracks_consume hs h0 hlf, rfl⟩

theorem places_readMinus {r : Lexer × Lexeme} (hs : s.Small) (h0 : s.peekch ≠ 0)
    (hlf : s.peekch ≠ byte '\n') (h : s.readMinus s.position = some r) :
    s.Places s.position r := by
  rw [readMinus] at h
  split_ifs at h with h1 h2 h3
  · cases h
    exact ⟨tracks_two hs h0 hlf (by rw [h1]; decide) (by rw [h1]; decide), rfl⟩
  · cases h
    exact ⟨tracks_two hs h0 hlf (by rw [h2]; decide) (by rw [h2]; decide), rfl⟩
  · exact places_readCommentBody hs h0 hlf (by rw [h3]; decide) (by rw [h3]; decide) h
  · cases h
    exact ⟨tracks_consume hs h0 hlf, rfl⟩

theorem places_readBracket {r : Lexer × Lexeme} (hs : s.Small) (h0 : s.peekch ≠ 0)
    (hlf : s.peekch ≠ byte '\n') (h : s.readBracket start = some r) : s.Places start r := by
  obtain ⟨⟨t, sep⟩, ht, h⟩ := Option.bind_eq_some_iff.1 h
  have h1 := tracks_skipLongSeparator hs h0 hlf ht
  obtain ⟨_, _, ht', -, hpeek⟩ := skipLongSeparator_spec hs h0
  rw [ht] at ht'
  cases ht'
  dsimp only at h
  split_ifs at h with hsep hone
  · exact h1.places (places_readLongString (h1.small hs) (by rw [hpeek hsep]; exact h0)
      (by rw [hpeek hsep]; exact hlf) hsep h)
  · cases h
    exact ⟨h1, rfl⟩
  · cases h
    exact ⟨h1, rfl⟩

theorem places_readOpenBrace (hs : s.Small) (h0 : s.peekch ≠ 0) (hlf : s.peekch ≠ byte '\n')
    (start : Position) : s.Places start (s.readOpenBrace start) := by
  have h1 := tracks_consume hs h0 hlf
  refine ⟨h1.congr ?_ ?_ ?_ ?_, rfl⟩ <;> rw [readOpenBrace] <;> dsimp only <;> split_ifs <;> rfl

theorem places_readCloseBrace {r : Lexer × Lexeme} (hs : s.Small) (h0 : s.peekch ≠ 0)
    (hlf : s.peekch ≠ byte '\n') (h : s.readCloseBrace start = some r) : s.Places start r := by
  have h1 := tracks_consume hs h0 hlf
  rw [readCloseBrace] at h
  dsimp only at h
  split at h
  · cases h
    exact ⟨h1, rfl⟩
  · rename_i top rest _
    have h2 : s.Tracks false { s.consume with braceStack := rest } := h1.congr rfl rfl rfl rfl
    split_ifs at h
    · cases h
      exact ⟨h2, rfl⟩
    · exact h2.places (places_readInterpolatedStringSection (h2.small hs) h)

theorem places_readDot (hs : s.Small) (h0 : s.peekch ≠ 0) (hlf : s.peekch ≠ byte '\n')
    (start : Position) : s.Places start (s.readDot start) := by
  have h1 := tracks_consume hs h0 hlf
  have hsmall := h1.small hs
  rw [readDot]
  dsimp only
  split_ifs with hdot hdots heq hdigit
  · have h2 := h1.trans (tracks_consume hsmall (by rw [hdot]; decide) (by rw [hdot]; decide))
    exact ⟨h2.trans (tracks_consume (h2.small hs) (by rw [hdots]; decide) (by rw [hdots]; decide)),
      rfl⟩
  · have h2 := h1.trans (tracks_consume hsmall (by rw [hdot]; decide) (by rw [hdot]; decide))
    exact ⟨h2.trans (tracks_consume (h2.small hs) (by rw [heq]; decide) (by rw [heq]; decide)), rfl⟩
  · exact ⟨h1.trans (tracks_consume hsmall (by rw [hdot]; decide) (by rw [hdot]; decide)), rfl⟩
  · refine h1.places (places_readNumber hsmall ?_ ?_ start _) <;>
    · intro h
      rw [h] at hdigit
      exact absurd hdigit (by decide)
  · exact ⟨h1, rfl⟩

theorem places_readSlash (hs : s.Small) (h0 : s.peekch ≠ 0) (hlf : s.peekch ≠ byte '\n')
    (start : Position) : s.Places start (s.readSlash start) := by
  have h1 := tracks_consume hs h0 hlf
  have hsmall := h1.small hs
  rw [readSlash]
  dsimp only
  split_ifs with heq hslash heq'
  · exact ⟨h1.trans (tracks_consume hsmall (by rw [heq]; decide) (by rw [heq]; decide)), rfl⟩
  · have h2 := h1.trans (tracks_consume hsmall (by rw [hslash]; decide) (by rw [hslash]; decide))
    exact ⟨h2.trans (tracks_consume (h2.small hs) (by rw [heq']; decide) (by rw [heq']; decide)),
      rfl⟩
  · exact ⟨h1.trans (tracks_consume hsmall (by rw [hslash]; decide) (by rw [hslash]; decide)), rfl⟩
  · exact ⟨h1, rfl⟩

theorem peekch_ne_lf_of_alpha (h : isAlpha s.peekch ∨ s.peekch = byte '_') :
    s.peekch ≠ byte '\n' := by
  intro hlf
  rw [hlf] at h
  revert h
  decide

theorem places_readAt (hs : s.Small) (h0 : s.peekch ≠ 0) (hlf : s.peekch ≠ byte '\n')
    (start : Position) : s.Places start (s.readAt start) := by
  have h1 := tracks_consume hs h0 hlf
  rw [readAt]
  dsimp only
  split_ifs with hopen halpha
  · exact ⟨tracks_two hs h0 hlf (by rw [hopen]; decide) (by rw [hopen]; decide), rfl⟩
  · exact ⟨h1.trans (tracks_readName (h1.small hs) (peekch_ne_of_alpha halpha)
      (peekch_ne_lf_of_alpha halpha)), rfl⟩
  · exact ⟨h1, rfl⟩

theorem places_readOther (hs : s.Small) (h0 : s.peekch ≠ 0) (hlf : s.peekch ≠ byte '\n') :
    s.Places s.position (s.readOther s.position) := by
  rw [readOther]
  dsimp only
  split_ifs
  · exact places_readNumber hs h0 hlf _ s.offset
  · exact ⟨tracks_readName hs h0 hlf, rfl⟩
  · exact places_readUtf8Error hs h0 hlf
  · exact ⟨tracks_consume hs h0 hlf, rfl⟩

/-- **The next lexeme** begins where the lexer is, and keeps the line. -/
theorem places_readNext {r : Lexer × Lexeme} (hs : s.Small) (hlf : s.peekch ≠ byte '\n')
    (h : s.readNext = some r) : s.Places s.position r := by
  by_cases h0 : s.peekch = 0
  · rw [readNext, if_pos h0] at h
    cases h
    exact ⟨hs.tracks, rfl⟩
  · let P (x : Option (Lexer × Lexeme)) : Prop := ∀ r, x = some r → s.Places s.position r
    suffices hP : P s.readNext from hP r h
    have hpure : ∀ {r : Lexer × Lexeme}, s.Places s.position r → P (some r) := by
      intro r hr r' heq
      cases heq
      exact hr
    have hop : ∀ {first second : Char} {type : LexemeType}, byte second ≠ 0 →
        byte second ≠ byte '\n' → P (some (s.operator s.position first second type)) :=
      fun h1 h2 => hpure (places_operator hs h0 hlf _ h1 h2)
    -- One case for each character of the switch, in its order.
    refine iteInduction (motive := P) (fun h => absurd h h0) fun _ => ?_
    refine iteInduction (motive := P) (fun _ _ => places_readMinus hs h0 hlf) fun _ => ?_
    refine iteInduction (motive := P) (fun _ _ => places_readBracket hs h0 hlf) fun _ => ?_
    refine iteInduction (motive := P) (fun _ => hpure (places_readOpenBrace hs h0 hlf _))
      fun _ => ?_
    refine iteInduction (motive := P) (fun _ _ => places_readCloseBrace hs h0 hlf) fun _ => ?_
    refine iteInduction (motive := P) (fun _ => hop (by decide) (by decide)) fun _ => ?_
    refine iteInduction (motive := P) (fun _ => hop (by decide) (by decide)) fun _ => ?_
    refine iteInduction (motive := P) (fun _ => hop (by decide) (by decide)) fun _ => ?_
    refine iteInduction (motive := P) (fun _ => hop (by decide) (by decide)) fun _ => ?_
    refine iteInduction (motive := P) (fun _ _ => places_readQuotedString hs h0 hlf) fun _ => ?_
    refine iteInduction (motive := P) (fun _ _ => places_readInterpolatedStringBegin hs h0 hlf)
      fun _ => ?_
    refine iteInduction (motive := P) (fun _ => hpure (places_readDot hs h0 hlf _)) fun _ => ?_
    refine iteInduction (motive := P) (fun _ => hop (by decide) (by decide)) fun _ => ?_
    refine iteInduction (motive := P) (fun _ => hpure (places_readSlash hs h0 hlf _)) fun _ => ?_
    refine iteInduction (motive := P) (fun _ => hop (by decide) (by decide)) fun _ => ?_
    refine iteInduction (motive := P) (fun _ => hop (by decide) (by decide)) fun _ => ?_
    refine iteInduction (motive := P) (fun _ => hop (by decide) (by decide)) fun _ => ?_
    refine iteInduction (motive := P) (fun _ => hop (by decide) (by decide)) fun _ => ?_
    refine iteInduction (motive := P) (fun _ => hpure ⟨tracks_consume hs h0 hlf, rfl⟩) fun _ => ?_
    exact iteInduction (motive := P) (fun _ => hpure (places_readAt hs h0 hlf _))
      fun _ => hpure (places_readOther hs h0 hlf)

/-! ### White space -/

/-- A byte of white space that ends no line. -/
theorem tracks_blank (hs : s.Small) (h0 : s.peekch ≠ 0) (hlf : s.peekch ≠ byte '\n')
    (hcr : s.peekch ≠ byte '\r') : s.Tracks c s.consume := by
  have hpos : s.consume.pos = s.pos + 1 := pos_succ hs h0 rfl
  have hat : ∀ i, s.pos ≤ i → i < s.consume.pos → s.at_ i = s.peekch := by
    intro i h1 h2
    rw [show i = s.pos by omega, peekch_eq]
  exact (consumes_of (t := s.consume) hs h0 rfl rfl).toAdv.tracks
    (fun i h1 h2 => hat i h1 h2 ▸ hlf) (fun _ i h1 h2 hlone => hcr ((hat i h1 h2).symm.trans hlone.1))
    rfl rfl

/-- A carriage return ends a line, with the line feed after it if there is one. -/
theorem tracks_return (hs : s.Small) (h : s.peekch = byte '\r') (hbuffer : t.buffer = s.buffer)
    (hoffset : t.offset = if s.consume.peekch = byte '\n' then s.consume.offset + 1
      else s.consume.offset)
    (hline : t.line = s.line + 1) (hlineOffset : t.lineOffset = t.offset) : s.Tracks true t := by
  have h1 := consumes_of (t := s.consume) hs (by rw [h]; decide) rfl rfl
  have hpos : s.consume.pos = s.pos + 1 := pos_succ hs (by rw [h]; decide) rfl
  have hreturn : s.buffer.getD s.pos 0 = byte '\r' := (peekch_eq s).symm.trans h
  have hpeek : s.consume.peekch = s.buffer.getD (s.pos + 1) 0 := by
    rw [peekch_eq, hpos]
    rfl
  split_ifs at hoffset with hlf
  · -- The line ends with the line feed.
    have h0 : s.consume.peekch ≠ 0 := by rw [hlf]; decide
    have hpos2 : t.pos = s.pos + 1 + 1 := hpos ▸ pos_succ (h1.small hs) h0 hoffset
    rw [hpeek] at hlf
    have hends : ∀ {cr}, (newlines cr).ends s.buffer (s.pos + 1) = true := newlines_ends.2 (.inl hlf)
    have hbefore : ∀ {cr}, (newlines cr).before s.buffer (s.pos + 1) =
        (newlines cr).before s.buffer s.pos := by
      intro cr
      rw [LineRule.before, if_neg]
      rw [newlines_ends, hreturn]
      rintro (hbad | ⟨-, -, hbad⟩)
      · exact absurd hbad (by decide)
      · exact hbad hlf
    refine ⟨(h1.trans (consumes_of (h1.small hs) h0 hbuffer hoffset)).toAdv,
      fun cr start _ hlined => lined_ends ?_ hends hbuffer hpos2 hline hlineOffset,
      fun l hl => ended_ends ?_ hends hbuffer hpos2 hline⟩
    · rw [hbefore]
      exact hlined.line
    · rw [hbefore]
      exact hl
  · rw [hpeek] at hlf
    have hpos1 : t.pos = s.pos + 1 := by rw [← hpos, Lexer.pos, Lexer.pos, hoffset]
    have hlone : Lone s.buffer s.pos := ⟨hreturn, hlf⟩
    have hends : (newlines true).ends s.buffer s.pos = true := newlines_ends.2 (.inr ⟨rfl, hlone⟩)
    refine ⟨h1.toAdv.congr hbuffer hoffset, fun cr start hagree hlined => ?_,
      fun l hl => ended_ends hl hends hbuffer hpos1 hline⟩
    cases cr with
    | true => exact lined_ends hlined.line hends hbuffer hpos1 hline hlineOffset
    | false => exact absurd hlone (hagree (by decide) s.pos le_rfl (by omega))

theorem tracks_skipSpace (hs : s.Small) (h : s.skipSpace = some t) :
    s.Tracks true t ∧ t.peekch ≠ byte '\n' := by
  refine Loop.run_partial (I := fun t : Lexer => t.Small ∧ s.Tracks true t)
    (Q := fun t : Lexer => s.Tracks true t ∧ t.peekch ≠ byte '\n') ?_ ?_ ⟨hs, hs.tracks⟩ h
  · rintro t u ⟨hsmall, ht⟩ hbody
    have hnext : t.Tracks true u → u.Small ∧ s.Tracks true u :=
      fun hu => ⟨hu.small hsmall, ht.trans hu⟩
    have hpeek : t.at_ t.offset.toNat = t.peekch := (peekch_eq t).symm
    dsimp only at hbody
    rw [hpeek] at hbody
    split at hbody
    swap
    · cases hbody
    have hpeek' : t.consume.at_ t.consume.offset.toNat = t.consume.peekch := (peekch_eq _).symm
    rw [hpeek'] at hbody
    split_ifs at hbody with hblank hline hreturn hlf hother <;> cases hbody
    · exact hnext (by rcases hblank with h | h <;>
        exact tracks_blank hsmall (by rw [h]; decide) (by rw [h]; decide) (by rw [h]; decide))
    · exact hnext (tracks_newline hsmall hline)
    · exact hnext (tracks_return hsmall hreturn rfl (by rw [if_pos hlf.2]; rfl) rfl rfl)
    · refine hnext (tracks_return hsmall hreturn rfl ?_ rfl rfl)
      rw [if_neg fun h => hlf ⟨lt_of_peekch (by rw [h]; decide), h⟩]
    · exact hnext (by rcases hother with h | h <;>
        exact tracks_blank hsmall (by rw [h]; decide) (by rw [h]; decide) (by rw [h]; decide))
  · rintro t u ⟨hsmall, ht⟩ hbody
    have hpeek : t.at_ t.offset.toNat = t.peekch := (peekch_eq t).symm
    dsimp only at hbody
    rw [hpeek] at hbody
    split at hbody
    · split_ifs at hbody with hblank hline <;> cases hbody
      exact ⟨ht, hline⟩
    · rename_i hlt
      cases hbody
      refine ⟨ht, ?_⟩
      rw [peekch, if_neg hlt]
      decide

theorem Tracks.line_eq (h : s.Tracks c t) : t.line = s.line + UInt32.ofNat
    (((newlines c).before s.buffer t.pos).1 - ((newlines c).before s.buffer s.pos).1) := by
  have hs : s.Ended c (s.line - UInt32.ofNat ((newlines c).before s.buffer s.pos).1) := by
    rw [Ended]
    grind
  have ht := h.ended _ hs
  rw [Ended, h.buffer] at ht
  rw [ht, UInt32.ofNat_sub (LineRule.before_mono _ _ h.le)]
  grind

end Lexer

/-! ### Runs -/

/-- An offset is in one of the lexemes. -/
def Within (tokens : List Token) (i : ℕ) : Prop :=
  ∃ token ∈ tokens, token.start ≤ i ∧ i < token.stop

/-- What the users of the lexer do with it, and the lexemes read: a round of `next` skips white space
and reads a lexeme, and `nextline` skips the rest of a line before it calls `next`. -/
inductive Reads (s : Lexer) : List Token → Lexer → Prop
  | start : Reads s [] s
  | round {tokens : List Token} {t u : Lexer} {r : Lexer × Lexeme} (updatePrevLocation : Bool)
      (h : Reads s tokens t) (hspace : t.skipSpace = some u)
      (hnext : (if updatePrevLocation then { u with prevLocation := u.lexeme.location }
        else u).readNext = some r) :
      Reads s (tokens ++ [⟨u.pos, r.1.pos, r.2⟩]) { r.1 with lexeme := r.2 }
  | nextline {tokens : List Token} {t u : Lexer} (h : Reads s tokens t)
      (hline : t.skipLine = some u) : Reads s tokens u
  | setReadNames {tokens : List Token} {t : Lexer} (readNames : Bool) (h : Reads s tokens t) :
      Reads s tokens { t with readNames := readNames }

/-- `next` does such rounds. -/
theorem Reads.next {s t u : Lexer} {tokens : List Token} {skipComments updatePrevLocation : Bool}
    (h : Reads s tokens t) (hnext : t.next skipComments updatePrevLocation = some u) :
    ∃ more token, Reads s (tokens ++ more ++ [token]) u ∧ token.lexeme = u.lexeme := by
  refine Loop.run_partial
    (I := fun r : Lexer × Bool => ∃ more, Reads s (tokens ++ more) r.1)
    (Q := fun u => ∃ more token, Reads s (tokens ++ more ++ [token]) u ∧ token.lexeme = u.lexeme)
    ?_ ?_ ⟨[], by rwa [List.append_nil]⟩ hnext
  · rintro ⟨t, upd⟩ ⟨t', upd'⟩ ⟨more, hmore⟩ hbody
    obtain ⟨v, hv, hbody⟩ := Option.bind_eq_some_iff.1 hbody
    obtain ⟨⟨w, lexeme⟩, hw, hbody⟩ := Option.map_eq_some_iff.1 hbody
    have hround := hmore.round upd hv hw
    dsimp only at hbody
    split_ifs at hbody
    cases hbody
    exact ⟨_, List.append_assoc .. ▸ hround⟩
  · rintro ⟨t, upd⟩ u ⟨more, hmore⟩ hbody
    obtain ⟨v, hv, hbody⟩ := Option.bind_eq_some_iff.1 hbody
    obtain ⟨⟨w, lexeme⟩, hw, hbody⟩ := Option.map_eq_some_iff.1 hbody
    have hround := hmore.round upd hv hw
    dsimp only at hbody
    split_ifs at hbody
    cases hbody
    exact ⟨more, _, hround, rfl⟩

/-- Before an offset the rule counts the lone carriage returns that the lexer counts: those that are
in no lexeme. -/
def Agrees (cr : Bool) (b : Bytes) (tokens : List Token) (o : ℕ) : Prop :=
  ∀ i < o, Lone b i → (Within tokens i ↔ cr = false)

section Counted

variable {b : Bytes} {start : Position} {tokens tokens' : List Token} {t u : Lexer} {c cr : Bool}

theorem within_append {i : ℕ} : Within (tokens ++ tokens') i ↔ Within tokens i ∨ Within tokens' i := by
  simp only [Within, List.mem_append, or_and_right, exists_or]

/-- What holds of the line of the lexer after a run. -/
structure Counted (b : Bytes) (start : Position) (tokens : List Token) (t : Lexer) : Prop where
  small : t.Small
  buffer : t.buffer = b
  lined : ∀ cr, Agrees cr b tokens t.pos → t.Lined cr start
  /-- The number of lines that have ended lies between those of the two rules, and is one of them
  only if that rule agrees. -/
  count : ∃ n, t.line = start.line + UInt32.ofNat n ∧ ((newlines false).before b t.pos).1 ≤ n ∧
    n ≤ ((newlines true).before b t.pos).1 ∧
    ∀ cr, n = ((newlines cr).before b t.pos).1 → Agrees cr b tokens t.pos

/-- The lone carriage returns on the way are in lexemes, if they end no line, and only then. -/
theorem Counted.tracks (h : Counted b start tokens t) (htu : t.Tracks c u)
    (hsame : ∀ i < t.pos, Within tokens' i ↔ Within tokens i)
    (hwithin : ∀ i, t.pos ≤ i → i < u.pos → Lone b i → (Within tokens' i ↔ c = false)) :
    Counted b start tokens' u := by
  have hagrees : ∀ cr, Agrees cr b tokens' u.pos ↔ Agrees cr b tokens t.pos ∧
      (cr ≠ c → ∀ i, t.pos ≤ i → i < u.pos → ¬Lone b i) := by
    intro cr
    constructor
    · refine fun hcr => ⟨fun i hi hlone => ?_, fun hne i h1 h2 hlone => ?_⟩
      · rw [← hsame i hi]
        exact hcr i (lt_of_lt_of_le hi htu.le) hlone
      · have hiff := (hwithin i h1 h2 hlone).symm.trans (hcr i h2 hlone)
        revert hiff hne
        cases c <;> cases cr <;> simp
    · rintro ⟨hcr, hnone⟩ i hi hlone
      by_cases hit : i < t.pos
      · rw [hsame i hit]
        exact hcr i hit hlone
      · rw [hwithin i (Nat.le_of_not_lt hit) hi hlone]
        by_cases hne : cr = c
        · rw [hne]
        · exact absurd hlone (hnone hne i (Nat.le_of_not_lt hit) hi)
  obtain ⟨n, hline, hlow, hhigh, hcount⟩ := h.count
  have hbuffer := h.buffer
  refine ⟨htu.small h.small, htu.buffer.trans hbuffer, fun cr hcr => ?_, ?_⟩
  · obtain ⟨hcr, hnone⟩ := (hagrees cr).1 hcr
    exact htu.lined cr start (hbuffer.symm ▸ hnone) (h.lined cr hcr)
  · obtain ⟨hlone, hnone⟩ := before_lone b htu.le
    have hmono : ∀ cr, _ := fun cr => (newlines cr).before_mono b htu.le
    refine ⟨n + (((newlines c).before b u.pos).1 - ((newlines c).before b t.pos).1), ?_, ?_, ?_,
      fun cr hcr => (hagrees cr).2 ?_⟩
    · rw [htu.line_eq, hline, hbuffer, UInt32.ofNat_add, UInt32.add_assoc]
    · have := hmono c
      cases c <;> omega
    · have := hmono c
      cases c <;> omega
    · have := hmono c
      by_cases hne : cr = c
      · subst hne
        exact ⟨hcount cr (by omega), fun h => absurd rfl h⟩
      · -- the bounds are met only without a lone carriage return on the way
        cases c <;> cases cr <;> try exact absurd rfl hne
        · exact ⟨hcount true (by omega), fun _ => hnone (by omega)⟩
        · exact ⟨hcount false (by omega), fun _ => hnone (by omega)⟩

/-- The lexer is at the right position exactly by the rules that agree. -/
theorem Counted.position_iff (h : Counted b start tokens t) :
    t.position = (newlines cr).position b start t.pos ↔ Agrees cr b tokens t.pos := by
  constructor
  · intro hposition
    obtain ⟨n, hline, hlow, hhigh, hcount⟩ := h.count
    refine hcount cr ?_
    have hline' := congrArg Position.line hposition
    rw [Lexer.position, LineRule.position] at hline'
    dsimp only at hline'
    rw [hline] at hline'
    have heq := UInt32.add_right_inj _ |>.1 hline'
    have hsize := h.small.size
    have hpos := h.small.pos
    have hbound := (newlines true).before_count b t.pos
    have hbound' := (newlines cr).before_count b t.pos
    have hnat := congrArg UInt32.toNat heq
    rwa [UInt32.toNat_ofNat', UInt32.toNat_ofNat', Nat.mod_eq_of_lt (by omega),
      Nat.mod_eq_of_lt (by omega)] at hnat
  · intro hagrees
    rw [(h.lined cr hagrees).position_eq, h.buffer]

theorem Agrees.congr {o : ℕ} (h : ∀ i < o, Within tokens' i ↔ Within tokens i) :
    Agrees cr b tokens' o ↔ Agrees cr b tokens o :=
  forall₂_congr fun i hi => imp_congr_right fun _ => by rw [h i hi]

/-- The lexemes of a run are before its end. -/
def Before (tokens : List Token) (o : ℕ) : Prop := ∀ token ∈ tokens, token.start ≤ o ∧ token.stop ≤ o

theorem Before.mono {m n : ℕ} (h : Before tokens m) (hle : m ≤ n) : Before tokens n :=
  fun token htoken => ⟨(h token htoken).1.trans hle, (h token htoken).2.trans hle⟩

theorem Before.not_within {o i : ℕ} (h : Before tokens o) (hi : o ≤ i) : ¬Within tokens i := by
  rintro ⟨token, htoken, -, hlt⟩
  exact absurd hlt (Nat.not_lt.2 ((h token htoken).2.trans hi))

/-- **What a run preserves.** -/
theorem Reads.counted {s : Lexer} (hs : Counted b start [] s) (h : Reads s tokens t) :
    Counted b start tokens t ∧ Before tokens t.pos ∧
    ∀ token ∈ tokens, ∀ cr, token.lexeme.location.begin =
      (newlines cr).position b start token.start ↔ Agrees cr b tokens token.start := by
  induction h with
  | start => exact ⟨hs, fun _ h => absurd h List.not_mem_nil, fun _ h => absurd h List.not_mem_nil⟩
  | @round tokens t u r upd h hspace hnext ih =>
    obtain ⟨hcounted, hbefore, hplaced⟩ := ih
    -- the white space is in no lexeme, and its lone carriage returns end lines
    obtain ⟨htu, hlf⟩ := Lexer.tracks_skipSpace hcounted.small hspace
    have hu : Counted b start tokens u := hcounted.tracks htu (fun _ _ => Iff.rfl) fun i h1 _ _ =>
      ⟨fun h => absurd h (hbefore.not_within h1), fun h => by cases h⟩
    have hbefore' := hbefore.mono htu.le
    -- the lone carriage returns of the lexeme do not
    obtain ⟨hread, hbegin⟩ : u.Places u.position r := by
      cases upd
      · exact Lexer.places_readNext hu.small hlf hnext
      · have hv : u.Tracks false { u with prevLocation := u.lexeme.location } :=
          hu.small.tracks.congr rfl rfl rfl rfl
        exact hv.places (Lexer.places_readNext (hv.small hu.small) hlf hnext)
    have hlast : ∀ i, Within (tokens ++ [⟨u.pos, r.1.pos, r.2⟩]) i ↔
        Within tokens i ∨ u.pos ≤ i ∧ i < r.1.pos := by
      intro i
      rw [within_append]
      refine or_congr_right ⟨?_, fun hi => ⟨_, List.mem_singleton_self _, hi⟩⟩
      rintro ⟨token, htoken, hi⟩
      rwa [List.mem_singleton.1 htoken] at hi
    have hsame : ∀ o ≤ u.pos, ∀ i < o,
        Within (tokens ++ [⟨u.pos, r.1.pos, r.2⟩]) i ↔ Within tokens i := by
      intro o ho i hi
      rw [hlast, or_iff_left fun h => absurd h.1 (by omega)]
    have hw : u.Tracks false { r.1 with lexeme := r.2 } := hread.congr rfl rfl rfl rfl
    refine ⟨hu.tracks hw (hsame u.pos le_rfl) fun i h1 h2 _ => ?_, ?_, fun token htoken cr => ?_⟩
    · rw [hlast]
      exact ⟨fun _ => rfl, fun _ => .inr ⟨h1, h2⟩⟩
    · intro token htoken
      rcases List.mem_append.1 htoken with htoken | htoken
      · exact hbefore'.mono hw.le token htoken
      · rw [List.mem_singleton.1 htoken]
        exact ⟨hw.le, le_rfl⟩
    · rcases List.mem_append.1 htoken with htoken | htoken
      · rw [Agrees.congr (hsame _ (hbefore' token htoken).1)]
        exact hplaced token htoken cr
      · rw [List.mem_singleton.1 htoken, Agrees.congr (hsame _ le_rfl)]
        dsimp only
        rw [hbegin]
        exact hu.position_iff
  | nextline h hline ih =>
    obtain ⟨hcounted, hbefore, hplaced⟩ := ih
    have htu := Lexer.tracks_skipLine hcounted.small hline
    refine ⟨hcounted.tracks htu (fun _ _ => Iff.rfl) fun i h1 h2 hlone => ?_, hbefore.mono htu.le,
      hplaced⟩
    exact absurd hlone.1 (hcounted.buffer ▸ Lexer.skipLine_ne hcounted.small hline i h1 h2)
  | @setReadNames tokens t readNames h ih =>
    obtain ⟨hcounted, hbefore, hplaced⟩ := ih
    have htu := (hcounted.small.tracks (c := false)).congr (u := { t with readNames := readNames })
      rfl rfl rfl rfl
    exact ⟨hcounted.tracks htu (fun _ _ => Iff.rfl) fun i h1 h2 _ => absurd h1 (Nat.not_le.2 h2),
      hbefore, hplaced⟩

/-- **Where the lines of a buffer are right.**  The lexemes of a run begin at the positions of the
rule exactly if it counts the lone carriage returns before them as the lexer does: those between
lexemes, and not those in lexemes. -/
theorem lexemes_located (names : AstNameTable) (readNames : Bool) (hsize : b.length < 2 ^ 32)
    (h : Reads (.new b names start readNames) tokens t) (cr : Bool) :
    (∀ token ∈ tokens, token.lexeme.location.begin = (newlines cr).position b start token.start) ↔
      ∀ token ∈ tokens, Agrees cr b tokens token.start := by
  have hs : Counted b start [] (.new b names start readNames) := by
    refine ⟨⟨hsize, Nat.zero_le _⟩, rfl, fun cr _ => ⟨?_, rfl⟩, 0, ?_, le_rfl, le_rfl,
      fun cr _ i hi => absurd hi (Nat.not_lt_zero i)⟩ <;>
    · exact (UInt32.add_zero _).symm
  obtain ⟨-, -, hplaced⟩ := h.counted hs
  exact forall₂_congr fun token htoken => hplaced token htoken cr

end Counted

/-- A carriage return and a name: the name is on the second line. -/
theorem lone_between : ∃ token t, Reads (.new [0x0D, 0x78] .reserved ⟨0, 0⟩ false) [token] t ∧
    token.start = 1 ∧ token.lexeme.location.begin = ⟨1, 0⟩ := by
  refine ⟨_, _, Reads.start.round true rfl rfl, ?_, ?_⟩ <;> decide

/-- A string with a carriage return after a backslash, and a name: the name is on the first line. -/
theorem lone_inside : ∃ string name t,
    Reads (.new [0x27, 0x5C, 0x0D, 0x27, 0x78] .reserved ⟨0, 0⟩ false) [string, name] t ∧
    name.start = 4 ∧ name.lexeme.location.begin = ⟨0, 4⟩ := by
  refine ⟨_, _, _, (Reads.start.round true rfl rfl).round true rfl rfl, ?_, ?_⟩ <;> decide

/-- No rule is right for both buffers. -/
theorem no_line_rule : ¬∃ R : LineRule, ∀ (b : Bytes) (names : AstNameTable) (start : Position)
    (readNames : Bool) (tokens : List Token) (t : Lexer),
    Reads (.new b names start readNames) tokens t →
    ∀ token ∈ tokens, token.lexeme.location.begin = R.position b start token.start := by
  rintro ⟨R, hR⟩
  obtain ⟨token, t, hreads, hstart, hbegin⟩ := lone_between
  have hbetween := hR _ _ _ _ _ _ hreads token (List.mem_singleton_self _)
  obtain ⟨string, name, t', hreads', hstart', hbegin'⟩ := lone_inside
  have hinside := hR _ _ _ _ _ _ hreads' name (List.mem_cons_of_mem _ (List.mem_singleton_self _))
  rw [hstart, hbegin] at hbetween
  rw [hstart', hbegin'] at hinside
  obtain ⟨lf, crlf, cr⟩ := R
  revert hbetween hinside
  cases lf <;> cases crlf <;> cases cr <;> decide

/-- Of the first buffer one rule is right, and the other is not. -/
theorem lexemes_located_between : ∃ tokens t,
    Reads (.new [0x0D, 0x78] .reserved ⟨0, 0⟩ false) tokens t ∧
    (∀ token ∈ tokens, token.lexeme.location.begin =
      (newlines true).position [0x0D, 0x78] ⟨0, 0⟩ token.start) ∧
    ¬∀ token ∈ tokens, token.lexeme.location.begin =
      (newlines false).position [0x0D, 0x78] ⟨0, 0⟩ token.start := by
  obtain ⟨token, t, hreads, hstart, -⟩ := lone_between
  have hagrees : ∀ cr, Agrees cr [0x0D, 0x78] [token] 1 ↔ cr = true := by
    intro cr
    have hlone : Lone [0x0D, 0x78] 0 := by decide
    have hwithin : ¬Within [token] 0 := by
      rintro ⟨_, htoken, hle, -⟩
      rw [List.mem_singleton.1 htoken, hstart] at hle
      exact absurd hle (by decide)
    constructor
    · intro h
      cases cr
      · exact absurd ((h 0 Nat.one_pos hlone).2 rfl) hwithin
      · rfl
    · rintro rfl i hi -
      obtain rfl := Nat.lt_one_iff.1 hi
      exact ⟨fun h => absurd h hwithin, fun h => by cases h⟩
  refine ⟨_, t, hreads, (lexemes_located _ _ (by decide) hreads true).2 ?_, fun h => ?_⟩
  · intro _ htoken
    rw [List.mem_singleton.1 htoken, hstart]
    exact (hagrees true).2 rfl
  · have h1 := (lexemes_located _ _ (by decide) hreads false).1 h token (List.mem_singleton_self _)
    rw [hstart] at h1
    exact absurd ((hagrees false).1 h1) (by decide)

end Ast

end Jaci
