import Jaci.Bytecode.Fold
import Mathlib.Data.List.Sort
import Mathlib.Data.Nat.Count

/-!
# Jump trampolines

A jump that is too long for 16 bits becomes `JUMP +1`, `JUMPX offset`, `OP -2`.  The two words that are
added move what comes after them, so that shorter jumps grow, and every place that is recorded moves.

* `patchJumpD` : a jump is recorded;
* `expandJumps` : the trampolines are added and the offsets computed again;
* `place` : where a word of the code goes;
* `Expanded` : what the new code should be to the old one;
* `expandJumps_iff` : **when it is**;
* `slot_stays` : a feedback slot does not move.
-/

namespace Jaci

namespace Bytecode

/-- Where a local lives; the end is exclusive. -/
structure Scope where
  startpc : ℕ
  endpc : ℕ

/-- `DebugLocal`, as far as its places go. -/
abbrev DebugLocal := Scope

/-- `TypedLocal`, as far as its places go. -/
abbrev TypedLocal := Scope

/-- `BytecodeBuilder`, as far as jumps go. -/
structure BytecodeBuilder where
  insns : List UInt32
  lines : List ℤ
  jumps : List Jump
  hasLongJumps : Bool
  debugLocals : List DebugLocal
  typedLocals : List TypedLocal
  fbSlots : List ℕ

def Jump.offset (jump : Jump) : ℤ := jump.target - jump.source - 1

def kMaxJumpDistance : ℕ := 2 ^ 23

def kMaxJumpDistanceConservative : ℕ := 32767 / 3

def patchJumpD (b : BytecodeBuilder) (jumpLabel targetLabel : ℕ) : Option BytecodeBuilder :=
  let jump : Jump := ⟨jumpLabel, targetLabel⟩
  if FitsD jump.offset then
    some { b with
      insns := b.insns.set jumpLabel
        (word b.insns jumpLabel ||| ((UInt16.ofInt jump.offset).toUInt32 <<< 16))
      jumps := b.jumps ++ [jump] }
  else if jump.offset.natAbs < kMaxJumpDistance then
    some { b with hasLongJumps := true, jumps := b.jumps ++ [jump] }
  else none

def addFbSlot (b : BytecodeBuilder) : BytecodeBuilder :=
  { b with fbSlots := b.fbSlots ++ [b.insns.length] }

/-! ### The copy -/

/-- The jump gets a trampoline. -/
def Jump.isLong (jump : Jump) : Bool := decide (jump.offset.natAbs > kMaxJumpDistanceConservative)

/-- The new buffers. -/
structure Copy where
  newinsns : List UInt32
  newlines : List ℤ
  remap : List ℕ

namespace Copy

/-- A trampoline without its offset. -/
def trampoline (s : Copy) (line : ℤ) : Copy :=
  { s with
    newinsns := s.newinsns ++ [LuauOpcode.JUMP.code ||| ((1 : UInt32) <<< 16), LuauOpcode.JUMPX.code]
    newlines := s.newlines ++ [line, line] }

def move (s : Copy) (insn : UInt32) (line : ℤ) : Copy where
  newinsns := s.newinsns ++ [insn]
  newlines := s.newlines ++ [line]
  remap := s.remap ++ [s.newinsns.length]

end Copy

/-- How many words an instruction has. -/
def oplen (insn : UInt32) : ℕ := (opcode insn).elim 1 LuauOpcode.getOpLength

/-- The first loop of `expandJumps`, from the word `i` on; `left` words of its instruction are left. -/
def copy : ℕ → ℕ → List Jump → Copy → List (UInt32 × ℤ) → Copy
  | _, _, _, s, [] => s
  | i, 0, jumps, s, (insn, line) :: rest =>
    let found := jumps.head?.any fun jump => jump.source = i
    let s := if found && jumps.head?.any Jump.isLong then s.trampoline line else s
    copy (i + 1) (oplen insn - 1) (if found then jumps.tail else jumps) (s.move insn line) rest
  | i, left + 1, jumps, s, (insn, line) :: rest =>
    copy (i + 1) left jumps (s.move insn line) rest

/-- A round of the second loop of `expandJumps`. -/
def patch (remap : List ℕ) (newinsns : List UInt32) (jump : Jump) : List UInt32 :=
  let source := remap.getD jump.source 0
  let newoffset : ℤ := remap.getD jump.target 0 - source - 1
  if jump.isLong then
    (newinsns.set (source - 1) (withE (word newinsns (source - 1)) (newoffset + 1))).set source
      (withD (word newinsns source) (-2))
  else newinsns.set source (withD (word newinsns source) newoffset)

/-- The place of a local in the new code. -/
def Scope.moved (remap : List ℕ) (l : Scope) : Scope where
  endpc := if l.startpc ≠ l.endpc then remap.getD (l.endpc - 1) 0 + 1 else remap.getD l.endpc 0
  startpc := remap.getD l.startpc 0

/-- `expandJumps`, with the table of moves. -/
def expandJumps (b : BytecodeBuilder) : BytecodeBuilder × List ℕ :=
  if b.hasLongJumps then
    let jumps := b.jumps.mergeSort fun lhs rhs => lhs.source ≤ rhs.source
    let s := copy 0 0 jumps ⟨[], [], []⟩ (b.insns.zip b.lines)
    ({ b with
        insns := jumps.foldl (patch s.remap) s.newinsns
        lines := s.newlines
        jumps := jumps
        debugLocals := b.debugLocals.map (Scope.moved s.remap)
        typedLocals := b.typedLocals.map (Scope.moved s.remap) }, s.remap)
  else (b, [])

/-! ### What should come out -/

/-- What `patchJumpD` leaves of a jump. -/
structure Accepted (b : BytecodeBuilder) (jump : Jump) : Prop where
  offset_lt : jump.offset.natAbs < kMaxJumpDistance
  field : FitsD jump.offset → insnD (word b.insns jump.source) = jump.offset
  long : ¬ FitsD jump.offset → b.hasLongJumps

/-- What holds of a builder when its jumps are expanded: each instruction has its words, each jump was
accepted and is made by an instruction of its own, and what is recorded lies in the code. -/
structure Patched (b : BytecodeBuilder) : Prop where
  lines_length : b.lines.length = b.insns.length
  complete : ∀ pc, Starts b.insns pc → ∃ op, opcode (word b.insns pc) = some op ∧
    pc + op.getOpLength ≤ b.insns.length
  sources : ∀ jump ∈ b.jumps, Starts b.insns jump.source ∧
    (opcode (word b.insns jump.source)).any LuauOpcode.isJumpD
  distinct : (b.jumps.map Jump.source).Nodup
  targets : ∀ jump ∈ b.jumps, jump.target < b.insns.length
  accepted : ∀ jump ∈ b.jumps, Accepted b jump
  locals : ∀ l ∈ b.debugLocals ++ b.typedLocals, l.startpc < b.insns.length ∧
    l.startpc ≤ l.endpc ∧ l.endpc ≤ b.insns.length
  slots : ∀ slot ∈ b.fbSlots, slot < b.insns.length

/-- Where the jump at `pc` goes, perhaps by way of a `JUMPX`. -/
def Reaches (insns : List UInt32) (pc t : ℕ) : Prop :=
  jumpTarget insns pc = t ∨ ∃ p : ℕ, jumpTarget insns pc = p ∧
    opcode (word insns p) = some .JUMPX ∧ (p + 1 + insnE (word insns p) : ℤ) = t

/-- A local lives through the same instructions. -/
structure Covers (size : ℕ) (remap : ℕ → ℕ) (l l' : Scope) : Prop where
  start_eq : l'.startpc = remap l.startpc
  covers : ∀ pc < size, (l.startpc ≤ pc ∧ pc < l.endpc ↔ l'.startpc ≤ remap pc ∧ remap pc < l'.endpc)

/-- The code moves by `remap`, and means the same. -/
structure Expanded (b b' : BytecodeBuilder) (remap : ℕ → ℕ) : Prop where
  ordered : ∀ pc pc', pc < pc' → pc' < b.insns.length → remap pc < remap pc'
  words : ∀ pc < b.insns.length, remap pc < b'.insns.length ∧
    shape (word b'.insns (remap pc)) = shape (word b.insns pc) ∧
    b'.lines[remap pc]? = b.lines[pc]?
  others : ∀ pc < b.insns.length, (∀ jump ∈ b.jumps, jump.source ≠ pc) →
    word b'.insns (remap pc) = word b.insns pc
  /-- Nothing else is there but trampolines, and the run steps over them. -/
  added : ∀ p < b'.insns.length, (∃ pc < b.insns.length, p = remap pc) ∨
    ∃ jump ∈ b.jumps, (p + 1 = remap jump.source ∧ opcode (word b'.insns p) = some .JUMPX) ∨
      (p + 2 = remap jump.source ∧ opcode (word b'.insns p) = some .JUMP ∧
        jumpTarget b'.insns p = remap jump.source)
  jumps : ∀ jump ∈ b.jumps, Reaches b'.insns (remap jump.source) (remap jump.target)
  near : ∀ jump ∈ b.jumps, ¬ jump.isLong → FitsD (remap jump.target - remap jump.source - 1)
  far : ∀ jump ∈ b.jumps, jump.isLong → FitsE (remap jump.target - remap jump.source)
  debugLocals : List.Forall₂ (Covers b.insns.length remap) b.debugLocals b'.debugLocals
  typedLocals : List.Forall₂ (Covers b.insns.length remap) b.typedLocals b'.typedLocals
  fbSlots : b'.fbSlots = b.fbSlots.map remap

/-- Where `expandJumps` says that a word goes. -/
def moves (b : BytecodeBuilder) (pc : ℕ) : ℕ :=
  if b.hasLongJumps then (expandJumps b).2.getD pc 0 else pc

/-- Some jump at `pc` gets a trampoline. -/
def LongAt (jumps : List Jump) (pc : ℕ) : Prop := ∃ jump ∈ jumps, jump.isLong ∧ jump.source = pc

instance (jumps : List Jump) : DecidablePred (LongAt jumps) := fun _ =>
  inferInstanceAs (Decidable (∃ jump ∈ jumps, _))

/-- How many places after `lo` up to `hi` have a jump that gets a trampoline. -/
def crossed (jumps : List Jump) (lo hi : ℕ) : ℕ :=
  Nat.count (fun k => LongAt jumps (lo + 1 + k)) (hi - lo)

/-- When the trampolines do what they are for: no short jump of the greatest length goes over nothing
but long ones, a long jump and the trampolines that it crosses fit into 24 bits, and no feedback slot
lies after a long jump. -/
structure Fits (b : BytecodeBuilder) : Prop where
  near : ∀ jump ∈ b.jumps, jump.offset = kMaxJumpDistanceConservative →
    ∃ pc, jump.source < pc ∧ pc ≤ jump.target ∧ ¬ LongAt b.jumps pc
  forward : ∀ jump ∈ b.jumps, jump.isLong → jump.source < jump.target →
    jump.target - jump.source + 2 * crossed b.jumps jump.source jump.target < 2 ^ 23
  backward : ∀ jump ∈ b.jumps, jump.isLong → jump.target ≤ jump.source →
    jump.source - jump.target + 2 * crossed b.jumps jump.target jump.source ≤ 2 ^ 23
  slots : ∀ slot ∈ b.fbSlots, ∀ jump ∈ b.jumps, jump.isLong → slot < jump.source

/-! ### Recorded jumps -/

theorem or_offset {w : UInt32} {offset : ℤ} (h : insnD w = 0) :
    w ||| ((UInt16.ofInt offset).toUInt32 <<< 16) = withD w offset := by
  have hlow : w &&& (0xffff : UInt32) = w := by
    refine UInt32.toNat_inj.1 ?_
    have hlt := w.toNat_lt
    have hmask : (w &&& 0xffff).toNat = w.toNat % 2 ^ 16 := by
      rw [UInt32.toNat_and]
      exact Nat.and_two_pow_sub_one_eq_mod _ 16
    rw [insnD_eq, Int.bmod_def] at h
    rw [hmask]
    split_ifs at h <;> omega
  rw [withD, hlow]

/-- A jump that `patchJumpD` takes is accepted. -/
theorem patchJumpD_accepted {b b' : BytecodeBuilder} {s t : ℕ} (hs : s < b.insns.length)
    (hzero : insnD (word b.insns s) = 0) (h : patchJumpD b s t = some b') : Accepted b' ⟨s, t⟩ := by
  rw [patchJumpD] at h
  split_ifs at h with hfits hlt
  · obtain rfl := Option.some.inj h
    refine ⟨?_, fun _ => ?_, fun hnot => absurd hfits hnot⟩
    · obtain ⟨h1, h2⟩ := hfits
      rw [kMaxJumpDistance]
      omega
    · rw [word_set hs, if_pos rfl, or_offset hzero, insnD_withD _ hfits]
  · obtain rfl := Option.some.inj h
    exact ⟨hlt, fun hnot => absurd hnot hfits, fun _ => rfl⟩

/-- The jumps before it stay accepted. -/
theorem Accepted.patchJumpD {b b' : BytecodeBuilder} {s t : ℕ} {jump : Jump} (ha : Accepted b jump)
    (hs : s < b.insns.length) (hne : jump.source ≠ s) (h : patchJumpD b s t = some b') :
    Accepted b' jump := by
  rw [Bytecode.patchJumpD] at h
  split_ifs at h
  · obtain rfl := Option.some.inj h
    refine ⟨ha.offset_lt, fun hfits => ?_, ha.long⟩
    rw [word_set hs, if_neg hne]
    exact ha.field hfits
  · obtain rfl := Option.some.inj h
    exact ⟨ha.offset_lt, ha.field, fun _ => rfl⟩

/-- A slot is where the next word goes. -/
theorem addFbSlot_slots {b : BytecodeBuilder} (h : ∀ slot ∈ b.fbSlots, slot < b.insns.length)
    (insn : UInt32) : ∀ slot ∈ (addFbSlot b).fbSlots, slot < (b.insns ++ [insn]).length := by
  intro slot hslot
  rw [List.length_append, List.length_singleton]
  rcases List.mem_append.1 hslot with hold | hnew
  · exact Nat.lt_succ_of_lt (h slot hold)
  · rw [List.mem_singleton.1 hnew]
    exact Nat.lt_succ_self _

/-! ### Places -/

section Places

variable {J : List Jump} {i j lo hi : ℕ}

/-- Where a word goes: each long jump before it, or at it, has moved it by two. -/
def place (jumps : List Jump) (pc : ℕ) : ℕ := pc + 2 * Nat.count (LongAt jumps) (pc + 1)

theorem place_lt (h : i < j) : place J i < place J j := by
  have hle := Nat.count_monotone (LongAt J) (Nat.succ_le_succ h.le)
  rw [Nat.succ_eq_add_one, Nat.succ_eq_add_one] at hle
  rw [place, place]
  omega

theorem place_long (h : i < j) (hlong : LongAt J j) : place J i + 3 ≤ place J j := by
  have hle := Nat.count_monotone (LongAt J) (Nat.succ_le_of_lt h)
  rw [place, place, Nat.count_succ _ j, if_pos hlong]
  rw [Nat.succ_eq_add_one] at hle
  omega

theorem place_inj (h : place J i = place J j) : i = j := by
  rcases Nat.lt_trichotomy i j with hlt | heq | hlt
  · exact absurd h (place_lt hlt).ne
  · exact heq
  · exact absurd h (place_lt hlt).ne'

/-- What is crossed moves the further end. -/
theorem place_crossed (h : lo ≤ hi) : place J hi = place J lo + (hi - lo) + 2 * crossed J lo hi := by
  have hsplit := Nat.count_add (LongAt J) (lo + 1) (hi - lo)
  rw [place, place, crossed, show hi + 1 = lo + 1 + (hi - lo) by omega, hsplit]
  omega

theorem crossed_le : crossed J lo hi ≤ hi - lo := Nat.count_le _

end Places

/-! ### The first loop -/

section FirstLoop

variable {insns : List UInt32} {words : List (UInt32 × ℤ)} {J js : List Jump} {i left : ℕ} {s : Copy}

/-- Instructions do not overlap. -/
theorem Starts.apart {pc pc' : ℕ} (h : Starts insns pc) (h' : Starts insns pc') (hlt : pc < pc') :
    ∃ op, opcode (word insns pc) = some op ∧ pc + op.getOpLength ≤ pc' := by
  induction pc' using Nat.strong_induction_on generalizing pc with
  | h pc' ih =>
    cases h' with
    | first => exact absurd hlt (Nat.not_lt_zero _)
    | @next p insn op hp hinsn hop _ =>
      have hword : word insns p = insn := by
        rw [word, List.getD_eq_getElem?_getD, hinsn, Option.getD_some]
      have hpos := op.getOpLength_pos
      rcases Nat.lt_trichotomy pc p with hlt' | rfl | hlt'
      · obtain ⟨op', hop', hle⟩ := ih p (by omega) h hp hlt'
        exact ⟨op', hop', by omega⟩
      · exact ⟨op, hword ▸ hop, Nat.le_refl _⟩
      · -- the one before would reach into the instruction at `p`
        obtain ⟨op', hop', hle⟩ := ih pc hlt hp h hlt'
        rw [hword, hop] at hop'
        obtain rfl : op = op' := Option.some.inj hop'
        omega

/-- What has been copied before the word `i`. -/
structure Copied (J : List Jump) (words : List (UInt32 × ℤ)) (i : ℕ) (s : Copy) : Prop where
  insns_length : s.newinsns.length = i + 2 * Nat.count (LongAt J) i
  lines_length : s.newlines.length = i + 2 * Nat.count (LongAt J) i
  remap_eq : s.remap = (List.range i).map (place J)
  words : ∀ k < i, ∀ w, words[k]? = some w →
    s.newinsns[place J k]? = some w.1 ∧ s.newlines[place J k]? = some w.2
  thunks : ∀ k < i, LongAt J k → ∃ p, p + 2 = place J k ∧
    s.newinsns[p]? = some (LuauOpcode.JUMP.code ||| ((1 : UInt32) <<< 16)) ∧
    s.newinsns[p + 1]? = some LuauOpcode.JUMPX.code
  added : ∀ p < s.newinsns.length, ∃ k < i, p = place J k ∨
    (LongAt J k ∧ (p + 1 = place J k ∨ p + 2 = place J k))

theorem copied_zero : Copied J words 0 ⟨[], [], []⟩ := by
  constructor <;> simp

theorem Copied.bound (h : Copied J words i s) {k : ℕ} (hk : k < i) :
    place J k < s.newinsns.length := by
  have hle := Nat.count_monotone (LongAt J) (Nat.succ_le_of_lt hk)
  rw [Nat.succ_eq_add_one] at hle
  rw [place, h.insns_length]
  omega

/-- A word is copied to its place, after its trampoline if it has one. -/
theorem Copied.step {w : UInt32 × ℤ} (h : Copied J words i s) (hw : words[i]? = some w) :
    Copied J words (i + 1) ((if LongAt J i then s.trampoline w.2 else s).move w.1 w.2) := by
  have hlength : s.newlines.length = s.newinsns.length := h.lines_length.trans h.insns_length.symm
  -- what stands before the word
  obtain ⟨extra, extraLines, s', hs', hinsns, hlines, hremap, hplace, hplace', hextra⟩ :
      ∃ extra extraLines s', (if LongAt J i then s.trampoline w.2 else s) = s' ∧
        s'.newinsns = s.newinsns ++ extra ∧ s'.newlines = s.newlines ++ extraLines ∧
        s'.remap = s.remap ∧ s'.newinsns.length = place J i ∧ s'.newlines.length = place J i ∧
        (¬ LongAt J i ∧ extra = [] ∨ LongAt J i ∧
          extra = [LuauOpcode.JUMP.code ||| ((1 : UInt32) <<< 16), LuauOpcode.JUMPX.code]) := by
    by_cases hlong : LongAt J i
    · have hself : place J i = s.newinsns.length + 2 := by
        rw [place, Nat.count_succ, if_pos hlong, h.insns_length]
        omega
      refine ⟨_, _, _, if_pos hlong, rfl, rfl, rfl, ?_, ?_, .inr ⟨hlong, rfl⟩⟩
      · simp [Copy.trampoline, hself]
      · simp [Copy.trampoline, hself, hlength]
    · have hself : place J i = s.newinsns.length := by
        rw [place, Nat.count_succ, if_neg hlong, h.insns_length]
        omega
      refine ⟨[], [], _, if_neg hlong, ?_, ?_, rfl, hself.symm, hlength.trans hself.symm,
        .inl ⟨hlong, rfl⟩⟩
      · rw [List.append_nil]
      · rw [List.append_nil]
  rw [hs']
  have hnext : place J i + 1 = (i + 1) + 2 * Nat.count (LongAt J) (i + 1) := by
    rw [place]
    omega
  have hold : ∀ {p}, p < s.newinsns.length →
      (s'.newinsns ++ [w.1])[p]? = s.newinsns[p]? := by
    intro p hp
    rw [hinsns, List.append_assoc, List.getElem?_append_left hp]
  have holdLine : ∀ {p}, p < s.newinsns.length →
      (s'.newlines ++ [w.2])[p]? = s.newlines[p]? := by
    intro p hp
    rw [hlines, List.append_assoc, List.getElem?_append_left (hlength ▸ hp)]
  constructor
  · simp only [Copy.move, List.length_append, List.length_singleton, hplace, hnext]
  · simp only [Copy.move, List.length_append, List.length_singleton, hplace', hnext]
  · simp only [Copy.move, hremap, hplace, h.remap_eq, List.range_succ, List.map_append,
      List.map_singleton]
  · intro k hk w' hw'
    rcases Nat.lt_succ_iff_lt_or_eq.1 hk with hlt | rfl
    · obtain ⟨hi, hl⟩ := h.words k hlt w' hw'
      exact ⟨(hold (h.bound hlt)).trans hi, (holdLine (h.bound hlt)).trans hl⟩
    · obtain rfl : w = w' := Option.some.inj (hw.symm.trans hw')
      simp only [Copy.move, ← hplace, List.getElem?_concat_length, true_and]
      rw [hplace, ← hplace', List.getElem?_concat_length]
  · intro k hk hlong
    rcases Nat.lt_succ_iff_lt_or_eq.1 hk with hlt | rfl
    · obtain ⟨p, hp, h1, h2⟩ := h.thunks k hlt hlong
      have hbound := h.bound hlt
      exact ⟨p, hp, (hold (by omega)).trans h1, (hold (by omega)).trans h2⟩
    · obtain ⟨hnot, -⟩ | ⟨-, rfl⟩ := hextra
      · exact absurd hlong hnot
      · rw [hinsns, List.length_append] at hplace
        refine ⟨s.newinsns.length, hplace, ?_, ?_⟩
        · simp [Copy.move, hinsns]
        · simp [Copy.move, hinsns]
  · intro p hp
    simp only [Copy.move, List.length_append, List.length_singleton, hplace] at hp
    by_cases hlt : p < s.newinsns.length
    · obtain ⟨k, hk, hcase⟩ := h.added p hlt
      exact ⟨k, Nat.lt_succ_of_lt hk, hcase⟩
    · refine ⟨i, Nat.lt_succ_self i, ?_⟩
      rw [hinsns, List.length_append] at hplace
      obtain ⟨-, rfl⟩ | ⟨hlong, rfl⟩ := hextra
      · rw [List.length_nil] at hplace
        exact .inl (by omega)
      · simp only [List.length_cons, List.length_nil] at hplace
        by_cases hlast : p = place J i
        · exact .inl hlast
        · exact .inr ⟨hlong, by omega⟩

/-- The word at `i` begins an instruction, or `left` words of one are left. -/
def Within (insns : List UInt32) (i left : ℕ) : Prop :=
  if left = 0 then i < insns.length → Starts insns i
  else ∃ pc op, Starts insns pc ∧ opcode (word insns pc) = some op ∧ pc < i ∧
    i + left = pc + op.getOpLength

theorem Starts.within {pc : ℕ} {op : LuauOpcode} (h : Starts insns pc)
    (hop : opcode (word insns pc) = some op) (hlt : pc < i) (hleft : i + left = pc + op.getOpLength) :
    Within insns i left := by
  rw [Within]
  split_ifs with hzero
  · intro hi
    obtain rfl : i = pc + op.getOpLength := by omega
    refine .next h ?_ hop hi
    rw [word, List.getD_eq_getElem?_getD, List.getElem?_eq_getElem h.lt, Option.getD_some]
  · exact ⟨pc, op, h, hop, hlt, hleft⟩

theorem not_starts_of_within (h : Within insns i (left + 1)) : ¬ Starts insns i := by
  intro hi
  rw [Within, if_neg (Nat.succ_ne_zero left)] at h
  obtain ⟨pc, op, hpc, hop, hlt, hleft⟩ := h
  obtain ⟨op', hop', hle⟩ := hpc.apart hi hlt
  obtain rfl : op = op' := Option.some.inj (hop.symm.trans hop')
  omega

/-- The jumps that are left are those from `i` on. -/
structure Pending (J js : List Jump) (i : ℕ) : Prop where
  sorted : js.Pairwise fun jump other => jump.source < other.source
  mem_iff : ∀ jump, jump ∈ js ↔ jump ∈ J ∧ i ≤ jump.source

/-- A place without a jump is passed. -/
theorem Pending.pass (h : Pending J js i) (hnone : ∀ jump ∈ J, jump.source ≠ i) :
    Pending J js (i + 1) := by
  refine ⟨h.sorted, fun jump => ?_⟩
  rw [h.mem_iff jump]
  refine and_congr_right fun hmem => ?_
  have hne := hnone jump hmem
  omega

/-- The first jump is taken when its place comes. -/
theorem Pending.take {jump : Jump} (h : Pending J (jump :: js) i) (heq : jump.source = i) :
    Pending J js (i + 1) ∧ (LongAt J i ↔ jump.isLong) := by
  obtain ⟨hfirst, hsorted⟩ := List.pairwise_cons.1 h.sorted
  obtain ⟨hjump, -⟩ := (h.mem_iff jump).1 List.mem_cons_self
  have hunique : ∀ other ∈ J, i ≤ other.source → other = jump ∨ other ∈ js := by
    intro other hmem hle
    exact List.mem_cons.1 ((h.mem_iff other).2 ⟨hmem, hle⟩)
  refine ⟨⟨hsorted, fun other => ⟨fun hmem => ?_, fun ⟨hmem, hle⟩ => ?_⟩⟩, fun hlong => ?_, fun hlong => ?_⟩
  · have hlt := hfirst other hmem
    exact ⟨((h.mem_iff other).1 (List.mem_cons_of_mem _ hmem)).1, by omega⟩
  · rcases hunique other hmem (by omega) with rfl | hin
    · omega
    · exact hin
  · obtain ⟨other, hmem, hlong, hsource⟩ := hlong
    rcases hunique other hmem hsource.ge with rfl | hin
    · exact hlong
    · have hlt := hfirst other hin
      omega
  · exact ⟨jump, hjump, hlong, heq⟩

/-- No jump is at a place that the first one has not come to. -/
theorem Pending.none (h : Pending J js i)
    (hnone : js.head?.any (fun jump => decide (jump.source = i)) = false) :
    ∀ jump ∈ J, jump.source ≠ i := by
  intro jump hmem heq
  have hin := (h.mem_iff jump).2 ⟨hmem, heq.ge⟩
  cases js with
  | nil => exact absurd hin List.not_mem_nil
  | cons first js =>
    simp only [List.head?_cons, Option.any_some, decide_eq_false_iff_not] at hnone
    have hle := ((h.mem_iff first).1 List.mem_cons_self).2
    rcases List.mem_cons.1 hin with rfl | hin
    · exact hnone heq
    · have hlt := (List.pairwise_cons.1 h.sorted).1 jump hin
      omega

theorem not_longAt (h : ∀ jump ∈ J, jump.source ≠ i) : ¬ LongAt J i :=
  fun ⟨jump, hmem, _, heq⟩ => h jump hmem heq

/-- The first loop copies every word to its place. -/
theorem copied_copy (hwords : words.map Prod.fst = insns)
    (hsources : ∀ jump ∈ J, Starts insns jump.source)
    (hcomplete : ∀ pc, Starts insns pc → ∃ op, opcode (word insns pc) = some op)
    {rest : List (UInt32 × ℤ)} (hrest : words.drop i = rest) (h : Copied J words i s)
    (hjs : Pending J js i) (hleft : Within insns i left) :
    Copied J words (i + rest.length) (copy i left js s rest) := by
  induction rest generalizing i left js s with
  | nil =>
    cases left <;> exact h
  | cons w rest ih =>
    have hw : words[i]? = some w := by
      rw [← List.head?_drop, hrest, List.head?_cons]
    have hnext : words.drop (i + 1) = rest := by
      rw [← List.tail_drop, hrest, List.tail_cons]
    have hword : word insns i = w.1 := by
      rw [word, List.getD_eq_getElem?_getD, ← hwords, List.getElem?_map, hw]
      rfl
    have hstep := h.step hw
    rw [List.length_cons, Nat.add_comm rest.length, ← Nat.add_assoc]
    cases left with
    | zero =>
      have hlt : i < insns.length := by
        rw [← hwords, List.length_map]
        exact (List.getElem?_eq_some_iff.1 hw).1
      have hstart : Starts insns i := hleft hlt
      obtain ⟨op, hop⟩ := hcomplete i hstart
      have hpos := op.getOpLength_pos
      have hlen : oplen w.1 = op.getOpLength := by rw [oplen, ← hword, hop, Option.elim_some]
      have hwithin : Within insns (i + 1) (oplen w.1 - 1) :=
        hstart.within hop (Nat.lt_succ_self i) (by omega)
      rw [copy]
      cases hfound : js.head?.any (fun jump => decide (jump.source = i)) with
      | false =>
        have hnone := hjs.none hfound
        rw [if_neg (not_longAt hnone)] at hstep
        exact ih hnext hstep (hjs.pass hnone) hwithin
      | true =>
        cases js with
        | nil => cases hfound
        | cons jump js =>
          simp only [List.head?_cons, Option.any_some, decide_eq_true_eq] at hfound
          obtain ⟨hpending, hlong⟩ := hjs.take hfound
          simp only [List.head?_cons, Option.any_some, Bool.true_and, List.tail_cons, if_true]
          simp only [hlong] at hstep
          exact ih hnext hstep hpending hwithin
    | succ left =>
      have hnot := not_starts_of_within hleft
      have hnone : ∀ jump ∈ J, jump.source ≠ i := fun jump hmem heq => hnot (heq ▸ hsources jump hmem)
      rw [if_neg (not_longAt hnone)] at hstep
      rw [copy]
      refine ih hnext hstep (hjs.pass hnone) ?_
      rw [Within, if_neg (Nat.succ_ne_zero left)] at hleft
      obtain ⟨pc, op, hpc, hop, hlt, heq⟩ := hleft
      exact hpc.within hop (by omega) (by omega)

end FirstLoop

/-! ### The second loop -/

section SecondLoop

variable {J js : List Jump} {jump : Jump} {ns : List UInt32} {n p : ℕ}

/-- How much further a jump goes in the new code. -/
def newoffset (J : List Jump) (jump : Jump) : ℤ := place J jump.target - place J jump.source - 1

/-- What a round makes of the word at `p`. -/
def patchWord (J : List Jump) (p : ℕ) (w : UInt32) (jump : Jump) : UInt32 :=
  if p = place J jump.source then withD w (if jump.isLong then -2 else newoffset J jump)
  else if jump.isLong ∧ p + 1 = place J jump.source then withE w (newoffset J jump + 1)
  else w

theorem getD_remap {i : ℕ} (h : i < n) : ((List.range n).map (place J)).getD i 0 = place J i := by
  simp [List.getD_eq_getElem?_getD, h]

theorem length_patch {remap : List ℕ} : (patch remap ns jump).length = ns.length := by
  rw [patch]
  split <;> simp

theorem word_patch (hsource : jump.source < n) (htarget : jump.target < n)
    (hlength : place J jump.source < ns.length) (hlong : jump.isLong → 0 < place J jump.source) :
    word (patch ((List.range n).map (place J)) ns jump) p = patchWord J p (word ns p) jump := by
  rw [patch, getD_remap hsource, getD_remap htarget]
  split_ifs with h
  · have hpos := hlong h
    rw [word_set (by rw [List.length_set]; exact hlength), word_set (by omega), patchWord]
    by_cases hp : p = place J jump.source
    · subst hp
      rw [if_pos rfl, if_pos rfl, if_pos h]
    · rw [if_neg hp, if_neg hp]
      by_cases hp' : p = place J jump.source - 1
      · rw [if_pos hp', if_pos ⟨h, by omega⟩, hp']
        rfl
      · rw [if_neg hp', if_neg (by omega)]
  · rw [word_set hlength, patchWord, if_neg h]
    by_cases hp : p = place J jump.source
    · subst hp
      rw [if_pos rfl, if_pos rfl]
      rfl
    · rw [if_neg hp, if_neg hp, if_neg (fun hboth => h hboth.1)]

theorem word_patches (h : ∀ jump ∈ js, jump.source < n ∧ jump.target < n ∧
      place J jump.source < ns.length ∧ (jump.isLong → 0 < place J jump.source)) :
    word (js.foldl (patch ((List.range n).map (place J))) ns) p =
      js.foldl (patchWord J p) (word ns p) := by
  induction js generalizing ns with
  | nil => rfl
  | cons jump js ih =>
    obtain ⟨hsource, htarget, hlength, hlong⟩ := h jump List.mem_cons_self
    rw [List.foldl_cons, List.foldl_cons, ih, word_patch hsource htarget hlength hlong]
    intro other hother
    rw [length_patch]
    exact h other (List.mem_cons_of_mem _ hother)

theorem length_patches {remap : List ℕ} : (js.foldl (patch remap) ns).length = ns.length := by
  induction js generalizing ns with
  | nil => rfl
  | cons jump js ih => rw [List.foldl_cons, ih, length_patch]

/-- The word at `p` is the jump, or its trampoline. -/
def Touches (J : List Jump) (p : ℕ) (jump : Jump) : Prop :=
  p = place J jump.source ∨ jump.isLong ∧ p + 1 = place J jump.source

theorem patchWord_of_not_touches {w : UInt32} (h : ¬ Touches J p jump) :
    patchWord J p w jump = w := by
  rw [Touches, not_or] at h
  rw [patchWord, if_neg h.1, if_neg h.2]

/-- Trampolines lie apart from what is copied, and from each other. -/
theorem touches_unique {other : Jump} (hjump : jump ∈ J) (hother : other ∈ J)
    (h : Touches J p jump) (h' : Touches J p other) : jump.source = other.source := by
  have hlt : ∀ {a b : Jump}, b ∈ J → b.isLong → a.source < b.source →
      place J a.source + 3 ≤ place J b.source :=
    fun hb hlong hlt => place_long hlt ⟨_, hb, hlong, rfl⟩
  rcases Nat.lt_trichotomy jump.source other.source with hs | hs | hs
  · have hplace := place_lt (J := J) hs
    obtain rfl | ⟨-, h⟩ := h <;> obtain h' | ⟨hlong, h'⟩ := h'
    · omega
    · have := hlt hother hlong hs
      omega
    · omega
    · have := hlt hother hlong hs
      omega
  · exact hs
  · have hplace := place_lt (J := J) hs
    obtain rfl | ⟨hlong, h⟩ := h <;> obtain h' | ⟨-, h'⟩ := h'
    · omega
    · omega
    · have := hlt hjump hlong hs
      omega
    · have := hlt hjump hlong hs
      omega

/-- A word that no jump is about stays. -/
theorem foldl_patchWord_none {w : UInt32} (h : ∀ jump ∈ js, ¬ Touches J p jump) :
    js.foldl (patchWord J p) w = w := by
  induction js with
  | nil => rfl
  | cons jump js ih =>
    rw [List.foldl_cons, patchWord_of_not_touches (h jump List.mem_cons_self)]
    exact ih fun other hother => h other (List.mem_cons_of_mem _ hother)

/-- Another one is patched once. -/
theorem foldl_patchWord {w : UInt32} (hsub : ∀ jump ∈ js, jump ∈ J)
    (hdistinct : (js.map Jump.source).Nodup) (hjump : jump ∈ js) (h : Touches J p jump) :
    js.foldl (patchWord J p) w = patchWord J p w jump := by
  induction js generalizing w with
  | nil => exact absurd hjump List.not_mem_nil
  | cons first js ih =>
    rw [List.map_cons, List.nodup_cons] at hdistinct
    have hrest : ∀ other ∈ js, other ∈ J := fun other hother => hsub other (List.mem_cons_of_mem _ hother)
    rw [List.foldl_cons]
    rcases List.mem_cons.1 hjump with rfl | hin
    · refine foldl_patchWord_none fun other hother htouches => hdistinct.1 ?_
      rw [touches_unique (hsub jump List.mem_cons_self) (hrest other hother) h htouches]
      exact List.mem_map_of_mem hother
    · have hfirst : ¬ Touches J p first := by
        intro htouches
        refine hdistinct.1 ?_
        rw [touches_unique (hsub first List.mem_cons_self) (hrest jump hin) htouches h]
        exact List.mem_map_of_mem hin
      rw [patchWord_of_not_touches hfirst]
      exact ih hrest hdistinct.2 hin

end SecondLoop

/-! ### Distances -/

section Distances

variable {b : BytecodeBuilder} {J : List Jump} {jump : Jump} {lo hi : ℕ}

theorem kMaxJumpDistanceConservative_eq : kMaxJumpDistanceConservative = 10922 := rfl

theorem not_isLong : ¬ jump.isLong ↔ jump.offset.natAbs ≤ 10922 := by
  rw [Jump.isLong, decide_eq_true_eq, kMaxJumpDistanceConservative_eq, not_lt]

theorem crossed_eq_iff : crossed J lo hi = hi - lo ↔ ∀ pc, lo < pc → pc ≤ hi → LongAt J pc := by
  rw [crossed, Nat.count_iff_forall]
  constructor
  · intro h pc hlo hhi
    have := h (pc - (lo + 1)) (by omega)
    rwa [Nat.add_sub_cancel' hlo] at this
  · exact fun h k hk => h _ (by omega) (by omega)

theorem newoffset_forward (h : jump.source ≤ jump.target) :
    newoffset J jump = jump.offset + 2 * crossed J jump.source jump.target := by
  have hplace := place_crossed (J := J) h
  rw [newoffset, Jump.offset]
  omega

theorem newoffset_backward (h : jump.target ≤ jump.source) :
    newoffset J jump = jump.offset - 2 * crossed J jump.target jump.source := by
  have hplace := place_crossed (J := J) h
  rw [newoffset, Jump.offset]
  omega

/-- A short jump stays short but in one case. -/
theorem fitsD_newoffset_iff (hshort : ¬ jump.isLong) : FitsD (newoffset J jump) ↔
    (jump.offset = kMaxJumpDistanceConservative →
      ∃ pc, jump.source < pc ∧ pc ≤ jump.target ∧ ¬ LongAt J pc) := by
  obtain ⟨hlower, hupper⟩ : -10922 ≤ jump.offset ∧ jump.offset ≤ 10922 := by
    rw [not_isLong] at hshort
    omega
  clear hshort
  rw [kMaxJumpDistanceConservative_eq]
  rcases Nat.le_total jump.source jump.target with h | h
  · have hle := @crossed_le J jump.source jump.target
    have hoff : jump.offset = jump.target - jump.source - 1 := rfl
    rw [newoffset_forward h, FitsD]
    constructor
    · intro hfits heq
      by_contra hall
      push Not at hall
      have hcrossed := crossed_eq_iff.2 hall
      omega
    · intro hcond
      by_cases heq : jump.offset = (10922 : ℕ)
      · obtain ⟨pc, hlo, hhi, hnot⟩ := hcond heq
        have hne : crossed J jump.source jump.target ≠ jump.target - jump.source :=
          fun hall => hnot (crossed_eq_iff.1 hall pc hlo hhi)
        omega
      · omega
  · have hle := @crossed_le J jump.target jump.source
    have hoff : jump.offset = jump.target - jump.source - 1 := rfl
    rw [newoffset_backward h, FitsD]
    exact ⟨fun _ heq => by omega, fun _ => by omega⟩

theorem fitsE_newoffset_iff : FitsE (newoffset J jump + 1) ↔
    (jump.source < jump.target →
      jump.target - jump.source + 2 * crossed J jump.source jump.target < 2 ^ 23) ∧
    (jump.target ≤ jump.source →
      jump.source - jump.target + 2 * crossed J jump.target jump.source ≤ 2 ^ 23) := by
  have hoff : jump.offset = jump.target - jump.source - 1 := rfl
  rw [FitsE]
  rcases Nat.lt_or_ge jump.source jump.target with h | h
  · rw [newoffset_forward h.le]
    constructor
    · exact fun hfits => ⟨fun _ => by omega, fun hle => absurd h (by omega)⟩
    · rintro ⟨hforward, -⟩
      have := hforward h
      omega
  · rw [newoffset_backward h]
    constructor
    · exact fun hfits => ⟨fun hlt => absurd h (by omega), fun _ => by omega⟩
    · rintro ⟨-, hbackward⟩
      have := hbackward h
      omega

/-- A slot stays where it is if no long jump comes before it. -/
theorem place_eq_self_iff {slot : ℕ} :
    place J slot = slot ↔ ∀ jump ∈ J, jump.isLong → slot < jump.source := by
  rw [place, Nat.add_eq_left, Nat.mul_eq_zero, or_iff_right two_ne_zero, Nat.count_iff_forall_not]
  constructor
  · intro h jump hmem hlong
    by_contra hle
    exact h jump.source (by omega) ⟨jump, hmem, hlong, rfl⟩
  · rintro h pc hpc ⟨jump, hmem, hlong, rfl⟩
    have hlt := h jump hmem hlong
    omega

end Distances

/-! ### The new code -/

section Result

variable {b : BytecodeBuilder} {jump : Jump} {pc p : ℕ}

/-- The jumps in their order. -/
def sortedJumps (b : BytecodeBuilder) : List Jump :=
  b.jumps.mergeSort fun lhs rhs => lhs.source ≤ rhs.source

/-- What the first loop leaves. -/
def copied (b : BytecodeBuilder) : Copy :=
  copy 0 0 (sortedJumps b) ⟨[], [], []⟩ (b.insns.zip b.lines)

theorem sortedJumps_perm : (sortedJumps b).Perm b.jumps := List.mergeSort_perm _ _

theorem Patched.sorted_distinct (h : Patched b) : ((sortedJumps b).map Jump.source).Nodup :=
  (sortedJumps_perm.map Jump.source).nodup_iff.2 h.distinct

theorem Patched.pending (h : Patched b) : Pending b.jumps (sortedJumps b) 0 := by
  refine ⟨?_, fun jump => by simp [sortedJumps_perm.mem_iff]⟩
  have hle : (sortedJumps b).Pairwise fun lhs rhs => decide (lhs.source ≤ rhs.source) = true := by
    refine List.pairwise_mergeSort ?_ ?_ _
    · intro x y z hxy hyz
      simp only [decide_eq_true_eq] at hxy hyz ⊢
      omega
    · intro x y
      simp only [Bool.or_eq_true, decide_eq_true_eq]
      omega
  have hne := List.pairwise_map.1 h.sorted_distinct
  refine (hle.and hne).imp fun hboth => ?_
  exact lt_of_le_of_ne (of_decide_eq_true hboth.1) hboth.2

theorem Patched.nonempty_starts (h : 0 < b.insns.length) : Starts b.insns 0 :=
  .first (List.length_pos_iff.1 h)

theorem Patched.copied (h : Patched b) :
    Copied b.jumps (b.insns.zip b.lines) b.insns.length (copied b) := by
  have hcopied := copied_copy (List.map_fst_zip h.lines_length.ge)
    (fun jump hjump => (h.sources jump hjump).1)
    (fun pc hpc => (h.complete pc hpc).imp fun op hop => hop.1) rfl copied_zero h.pending
    (by rw [Within, if_pos rfl]; exact Patched.nonempty_starts)
  rwa [Nat.zero_add, List.drop_zero, List.length_zip, h.lines_length, Nat.min_self] at hcopied

theorem Patched.expandJumps (h : Patched b) (hlong : b.hasLongJumps) : expandJumps b = ({ b with
    insns := (sortedJumps b).foldl (patch ((List.range b.insns.length).map (place b.jumps)))
      (Bytecode.copied b).newinsns
    lines := (Bytecode.copied b).newlines
    jumps := sortedJumps b
    debugLocals := b.debugLocals.map
      (Scope.moved ((List.range b.insns.length).map (place b.jumps)))
    typedLocals := b.typedLocals.map
      (Scope.moved ((List.range b.insns.length).map (place b.jumps))) },
    (List.range b.insns.length).map (place b.jumps)) := by
  rw [← h.copied.remap_eq, Bytecode.expandJumps, if_pos hlong]
  rfl

/-- What the second loop makes of a word. -/
theorem Patched.word_eq (h : Patched b) (hlong : b.hasLongJumps) :
    word (Bytecode.expandJumps b).1.insns p =
      (sortedJumps b).foldl (patchWord b.jumps p) (word (Bytecode.copied b).newinsns p) := by
  rw [h.expandJumps hlong]
  refine word_patches fun jump hjump => ?_
  rw [sortedJumps_perm.mem_iff] at hjump
  have hsource := (h.sources jump hjump).1.lt
  refine ⟨hsource, h.targets jump hjump, h.copied.bound hsource, fun hjumplong => ?_⟩
  obtain ⟨p, hp, -⟩ := h.copied.thunks _ hsource ⟨jump, hjump, hjumplong, rfl⟩
  omega

theorem Patched.length_eq (h : Patched b) (hlong : b.hasLongJumps) :
    (Bytecode.expandJumps b).1.insns.length = (Bytecode.copied b).newinsns.length := by
  rw [h.expandJumps hlong]
  exact length_patches

theorem word_of_getElem? {insns : List UInt32} {insn : UInt32} (h : insns[p]? = some insn) :
    word insns p = insn := by
  rw [word, List.getD_eq_getElem?_getD, h, Option.getD_some]

theorem Patched.word_zip (h : Patched b) (hpc : pc < b.insns.length) :
    ∃ line, (b.insns.zip b.lines)[pc]? = some (word b.insns pc, line) ∧ b.lines[pc]? = some line := by
  have hline : pc < b.lines.length := h.lines_length ▸ hpc
  refine ⟨b.lines[pc], ?_, List.getElem?_eq_getElem hline⟩
  rw [List.getElem?_zip_eq_some, word_of_getElem? (List.getElem?_eq_getElem hpc)]
  exact ⟨List.getElem?_eq_getElem hpc, List.getElem?_eq_getElem hline⟩

theorem Patched.word_copied (h : Patched b) (hpc : pc < b.insns.length) :
    word (Bytecode.copied b).newinsns (place b.jumps pc) = word b.insns pc := by
  obtain ⟨line, hw, -⟩ := h.word_zip hpc
  exact word_of_getElem? (h.copied.words pc hpc _ hw).1

/-- A jump in the new code. -/
theorem Patched.word_source (h : Patched b) (hlong : b.hasLongJumps) (hjump : jump ∈ b.jumps) :
    word (Bytecode.expandJumps b).1.insns (place b.jumps jump.source) =
      withD (word b.insns jump.source) (if jump.isLong then -2 else newoffset b.jumps jump) := by
  rw [h.word_eq hlong, foldl_patchWord (fun jump => sortedJumps_perm.mem_iff.1) h.sorted_distinct
    (sortedJumps_perm.mem_iff.2 hjump) (.inl rfl), patchWord, if_pos rfl,
    h.word_copied (h.sources jump hjump).1.lt]

/-- The far end of a trampoline. -/
theorem Patched.word_thunk (h : Patched b) (hlong : b.hasLongJumps) (hjump : jump ∈ b.jumps)
    (hjumplong : jump.isLong) (hp : p + 1 = place b.jumps jump.source) :
    word (Bytecode.expandJumps b).1.insns p =
      withE LuauOpcode.JUMPX.code (newoffset b.jumps jump + 1) := by
  obtain ⟨p', hp', -, hthunk⟩ :=
    h.copied.thunks _ (h.sources jump hjump).1.lt ⟨jump, hjump, hjumplong, rfl⟩
  obtain rfl : p = p' + 1 := by omega
  rw [h.word_eq hlong, foldl_patchWord (fun jump => sortedJumps_perm.mem_iff.1) h.sorted_distinct
    (sortedJumps_perm.mem_iff.2 hjump) (.inr ⟨hjumplong, hp⟩), patchWord, if_neg (by omega),
    if_pos ⟨hjumplong, hp⟩, word_of_getElem? hthunk]

/-- The near end of a trampoline. -/
theorem Patched.word_over (h : Patched b) (hlong : b.hasLongJumps) (hpc : pc < b.insns.length)
    (hat : LongAt b.jumps pc) (hp : p + 2 = place b.jumps pc) :
    word (Bytecode.expandJumps b).1.insns p = LuauOpcode.JUMP.code ||| ((1 : UInt32) <<< 16) := by
  obtain ⟨p', hp', hover, -⟩ := h.copied.thunks pc hpc hat
  obtain rfl : p = p' := by omega
  rw [h.word_eq hlong, foldl_patchWord_none ?_, word_of_getElem? hover]
  rintro other - (heq | ⟨hotherlong, heq⟩)
  · rcases Nat.lt_trichotomy other.source pc with hlt | heq' | hlt
    · have := place_long hlt hat
      omega
    · rw [heq'] at heq
      omega
    · have := place_lt (J := b.jumps) hlt
      omega
  · rcases Nat.lt_trichotomy other.source pc with hlt | heq' | hlt
    · have := place_long hlt hat
      omega
    · rw [heq'] at heq
      omega
    · have := place_lt (J := b.jumps) hlt
      omega

/-- Another word. -/
theorem Patched.word_other (h : Patched b) (hlong : b.hasLongJumps) (hpc : pc < b.insns.length)
    (hnone : ∀ jump ∈ b.jumps, jump.source ≠ pc) :
    word (Bytecode.expandJumps b).1.insns (place b.jumps pc) = word b.insns pc := by
  rw [h.word_eq hlong, foldl_patchWord_none ?_, h.word_copied hpc]
  rintro other hother (heq | ⟨hotherlong, heq⟩)
  · rw [sortedJumps_perm.mem_iff] at hother
    exact hnone other hother (place_inj heq).symm
  · rw [sortedJumps_perm.mem_iff] at hother
    have hat : LongAt b.jumps other.source := ⟨other, hother, hotherlong, rfl⟩
    rcases Nat.lt_or_ge pc other.source with hlt | hge
    · have := place_long hlt hat
      omega
    · have := place_lt (J := b.jumps) (lt_of_le_of_ne hge (hnone other hother))
      omega

theorem Patched.moves_eq (h : Patched b) (hlong : b.hasLongJumps) (hpc : pc < b.insns.length) :
    moves b pc = place b.jumps pc := by
  rw [moves, if_pos hlong, h.expandJumps hlong]
  exact getD_remap hpc

/-- A local moves with its instructions. -/
theorem covers_moved {remap : List ℕ} {size : ℕ} {l : Scope}
    (hmono : ∀ pc pc', pc < pc' → pc' < size → remap.getD pc 0 < remap.getD pc' 0)
    (hstart : l.startpc < size) (hle : l.startpc ≤ l.endpc) (hend : l.endpc ≤ size) :
    Covers size (fun pc => remap.getD pc 0) l (l.moved remap) := by
  have hmono' : ∀ {pc pc'}, pc < size → pc' < size →
      (remap.getD pc 0 ≤ remap.getD pc' 0 ↔ pc ≤ pc') := by
    intro pc pc' hpc hpc'
    rcases Nat.lt_trichotomy pc pc' with hlt | rfl | hlt
    · have := hmono pc pc' hlt hpc'
      omega
    · omega
    · have := hmono pc' pc hlt hpc
      omega
  refine ⟨rfl, fun pc hpc => ?_⟩
  rw [Scope.moved]
  dsimp only
  rw [hmono' hstart hpc]
  refine and_congr_right fun hge => ?_
  split_ifs with hne
  · rw [Nat.lt_succ_iff, hmono' hpc (by omega)]
    omega
  · -- an empty local stays empty
    have hiff := @hmono' l.endpc pc (by omega) hpc
    omega

theorem forall₂_map {f : Scope → Scope} {R : Scope → Scope → Prop} {l : List Scope}
    (h : ∀ x ∈ l, R x (f x)) : List.Forall₂ R l (l.map f) := by
  rw [List.forall₂_map_right_iff, List.forall₂_same]
  exact h

theorem shape_withD {w : UInt32} {offset : ℤ} (h : (opcode w).any LuauOpcode.isJumpD) :
    shape (withD w offset) = shape w := by
  rw [shape, shape, opcode_withD, if_pos h, if_pos h, withD_withD]

/-- A jump of the new code reaches its target if its offset fits. -/
theorem Patched.reaches (h : Patched b) (hlong : b.hasLongJumps) (hjump : jump ∈ b.jumps)
    (hnear : ¬ jump.isLong → FitsD (newoffset b.jumps jump))
    (hfar : jump.isLong → FitsE (newoffset b.jumps jump + 1)) :
    Reaches (Bytecode.expandJumps b).1.insns (place b.jumps jump.source)
      (place b.jumps jump.target) := by
  have hword := h.word_source hlong hjump
  by_cases hjumplong : jump.isLong
  · obtain ⟨p', hp', -⟩ :=
      h.copied.thunks _ (h.sources jump hjump).1.lt ⟨jump, hjump, hjumplong, rfl⟩
    have hthunk := h.word_thunk hlong hjump hjumplong (p := p' + 1) hp'
    refine .inr ⟨p' + 1, ?_, ?_, ?_⟩
    · rw [jumpTarget, ← word, hword, if_pos hjumplong, insnD_withD _ (by decide), ← hp']
      omega
    · rw [hthunk, opcode_withE]
      decide
    · rw [hthunk, insnE_withE _ (hfar hjumplong), newoffset, ← hp']
      omega
  · left
    rw [jumpTarget, ← word, hword, if_neg hjumplong, insnD_withD _ (hnear hjumplong), newoffset]
    omega

/-- The jumps come out right when the code fits. -/
theorem Patched.expanded (h : Patched b) (hlong : b.hasLongJumps) (hfits : Fits b) :
    Expanded b (Bytecode.expandJumps b).1 (moves b) := by
  have hmoves : ∀ {pc}, pc < b.insns.length → moves b pc = place b.jumps pc := h.moves_eq hlong
  have hsource : ∀ jump ∈ b.jumps, moves b jump.source = place b.jumps jump.source :=
    fun jump hjump => hmoves (h.sources jump hjump).1.lt
  have htarget : ∀ jump ∈ b.jumps, moves b jump.target = place b.jumps jump.target :=
    fun jump hjump => hmoves (h.targets jump hjump)
  have hnear : ∀ jump ∈ b.jumps, ¬ jump.isLong → FitsD (newoffset b.jumps jump) :=
    fun jump hjump hshort => (fitsD_newoffset_iff hshort).2 (hfits.near jump hjump)
  have hfar : ∀ jump ∈ b.jumps, jump.isLong → FitsE (newoffset b.jumps jump + 1) :=
    fun jump hjump hjumplong => fitsE_newoffset_iff.2
      ⟨hfits.forward jump hjump hjumplong, hfits.backward jump hjump hjumplong⟩
  have hmono : ∀ pc pc', pc < pc' → pc' < b.insns.length → moves b pc < moves b pc' := by
    intro pc pc' hlt hpc'
    rw [hmoves hpc', hmoves (hlt.trans hpc')]
    exact place_lt hlt
  have hlocals : ∀ l ∈ b.debugLocals ++ b.typedLocals, Covers b.insns.length (moves b) l
      (l.moved ((List.range b.insns.length).map (place b.jumps))) := by
    intro l hl
    obtain ⟨hstart, hle, hend⟩ := h.locals l hl
    have htable : moves b = fun pc => ((List.range b.insns.length).map (place b.jumps)).getD pc 0 := by
      funext pc
      rw [moves, if_pos hlong, h.expandJumps hlong]
    rw [htable] at hmono ⊢
    exact covers_moved hmono hstart hle hend
  constructor
  · exact hmono
  · intro pc hpc
    obtain ⟨line, hw, hline⟩ := h.word_zip hpc
    rw [hmoves hpc, h.length_eq hlong, hline]
    refine ⟨h.copied.bound hpc, ?_, ?_⟩
    · by_cases hany : ∃ jump ∈ b.jumps, jump.source = pc
      · obtain ⟨jump, hjump, rfl⟩ := hany
        rw [h.word_source hlong hjump, shape_withD (h.sources jump hjump).2]
      · rw [h.word_other hlong hpc fun jump hjump heq => hany ⟨jump, hjump, heq⟩]
    · rw [h.expandJumps hlong]
      exact (h.copied.words pc hpc _ hw).2
  · intro pc hpc hnone
    rw [hmoves hpc, h.word_other hlong hpc hnone]
  · intro p hp
    rw [h.length_eq hlong] at hp
    obtain ⟨k, hk, rfl | ⟨hat, hthunk⟩⟩ := h.copied.added p hp
    · exact .inl ⟨k, hk, (hmoves hk).symm⟩
    · obtain ⟨jump, hjump, hjumplong, rfl⟩ := id hat
      refine .inr ⟨jump, hjump, hthunk.imp (fun hp => ⟨?_, ?_⟩) (fun hp => ⟨?_, ?_, ?_⟩)⟩
      · rw [hp, hmoves hk]
      · rw [h.word_thunk hlong hjump hjumplong hp, opcode_withE]
        decide
      · rw [hp, hmoves hk]
      · rw [h.word_over hlong hk hat hp]
        decide
      · rw [jumpTarget, ← word, h.word_over hlong hk hat hp, hmoves hk, ← hp,
          show insnD (LuauOpcode.JUMP.code ||| ((1 : UInt32) <<< 16)) = 1 by decide]
        omega
  · intro jump hjump
    rw [hsource jump hjump, htarget jump hjump]
    exact h.reaches hlong hjump (hnear jump hjump) (hfar jump hjump)
  · intro jump hjump hshort
    rw [hsource jump hjump, htarget jump hjump]
    exact hnear jump hjump hshort
  · intro jump hjump hjumplong
    have hfit := hfar jump hjump hjumplong
    rwa [newoffset, Int.sub_add_cancel, ← hsource jump hjump, ← htarget jump hjump] at hfit
  · rw [h.expandJumps hlong]
    exact forall₂_map fun l hl => hlocals l (List.mem_append_left _ hl)
  · rw [h.expandJumps hlong]
    exact forall₂_map fun l hl => hlocals l (List.mem_append_right _ hl)
  · rw [h.expandJumps hlong]
    refine (List.map_id _).symm.trans (List.map_congr_left fun slot hslot => ?_)
    rw [hmoves (h.slots slot hslot)]
    exact (place_eq_self_iff.2 (hfits.slots slot hslot)).symm

/-- And only then. -/
theorem Patched.fits (h : Patched b) (hlong : b.hasLongJumps)
    (hexpanded : Expanded b (Bytecode.expandJumps b).1 (moves b)) : Fits b := by
  have hmoves : ∀ {pc}, pc < b.insns.length → moves b pc = place b.jumps pc := h.moves_eq hlong
  have hsource : ∀ jump ∈ b.jumps, moves b jump.source = place b.jumps jump.source :=
    fun jump hjump => hmoves (h.sources jump hjump).1.lt
  have htarget : ∀ jump ∈ b.jumps, moves b jump.target = place b.jumps jump.target :=
    fun jump hjump => hmoves (h.targets jump hjump)
  have hfar : ∀ jump ∈ b.jumps, jump.isLong → FitsE (newoffset b.jumps jump + 1) := by
    intro jump hjump hjumplong
    have hfit := hexpanded.far jump hjump hjumplong
    rwa [hsource jump hjump, htarget jump hjump, ← Int.sub_add_cancel (_ - _) 1] at hfit
  constructor
  · intro jump hjump heq
    have hshort : ¬ jump.isLong := by
      rw [not_isLong, heq]
      decide
    have hfit := hexpanded.near jump hjump hshort
    rw [hsource jump hjump, htarget jump hjump] at hfit
    exact (fitsD_newoffset_iff hshort).1 hfit heq
  · exact fun jump hjump hjumplong => (fitsE_newoffset_iff.1 (hfar jump hjump hjumplong)).1
  · exact fun jump hjump hjumplong => (fitsE_newoffset_iff.1 (hfar jump hjump hjumplong)).2
  · intro slot hslot
    have hslots := hexpanded.fbSlots
    rw [h.expandJumps hlong] at hslots
    have hself : moves b slot = slot :=
      (List.map_inj_left.1 ((List.map_id _).trans hslots) slot hslot).symm
    rw [hmoves (h.slots slot hslot)] at hself
    exact place_eq_self_iff.1 hself

/-- Code without long jumps stays. -/
theorem Patched.stays (h : Patched b) (hlong : ¬ b.hasLongJumps) :
    Expanded b (Bytecode.expandJumps b).1 (moves b) := by
  have hmoves : ∀ pc, moves b pc = pc := fun pc => by rw [moves, if_neg hlong]
  have hb : (Bytecode.expandJumps b).1 = b := by rw [Bytecode.expandJumps, if_neg hlong]
  have hfits : ∀ jump ∈ b.jumps, FitsD jump.offset := fun jump hjump =>
    by_contra fun hnot => hlong ((h.accepted jump hjump).long hnot)
  have hcovers : ∀ l : Scope, Covers b.insns.length (moves b) l l := fun l =>
    ⟨(hmoves _).symm, fun pc _ => by rw [hmoves]⟩
  rw [hb]
  constructor
  · intro pc pc' hlt _
    rwa [hmoves, hmoves]
  · intro pc hpc
    rw [hmoves]
    exact ⟨hpc, rfl, rfl⟩
  · intro pc _ _
    rw [hmoves]
  · exact fun p hp => .inl ⟨p, hp, (hmoves p).symm⟩
  · intro jump hjump
    rw [hmoves, hmoves]
    left
    rw [jumpTarget, ← word, (h.accepted jump hjump).field (hfits jump hjump), Jump.offset]
    omega
  · intro jump hjump _
    rw [hmoves, hmoves]
    exact hfits jump hjump
  · intro jump hjump _
    rw [hmoves, hmoves]
    obtain ⟨h1, h2⟩ := hfits jump hjump
    rw [Jump.offset] at h1 h2
    exact ⟨by omega, by omega⟩
  · exact List.forall₂_same.2 fun l _ => hcovers l
  · exact List.forall₂_same.2 fun l _ => hcovers l
  · rw [funext hmoves]
    exact (List.map_id _).symm

end Result

/-- **Jump expansion keeps the control flow exactly when the code fits**: every jump reaches the copy of
its target, every offset fits its field, all else keeps its order, and what is recorded about places
moves along. -/
theorem expandJumps_iff {b : BytecodeBuilder} (h : Patched b) :
    Expanded b (expandJumps b).1 (moves b) ↔ (b.hasLongJumps → Fits b) := by
  by_cases hlong : b.hasLongJumps
  · exact ⟨fun hexpanded _ => h.fits hlong hexpanded, fun hfits => h.expanded hlong (hfits hlong)⟩
  · exact ⟨fun _ hlong' => absurd hlong' hlong, fun _ => h.stays hlong⟩

/-! ### A feedback slot -/

/-- A jump over a call with a feedback slot, and a lot of other code. -/
def far : BytecodeBuilder where
  insns := [0x00000017, LuauOpcode.CALLFB.code, 0] ++ List.replicate 40000 0x00000002 ++ [0x00010016]
  lines := List.replicate 40004 1
  jumps := [⟨0, 40003⟩]
  hasLongJumps := true
  debugLocals := []
  typedLocals := []
  fbSlots := [1]

theorem stretch_length : ([0x00000017, LuauOpcode.CALLFB.code, 0] ++
    List.replicate 40000 (0x00000002 : UInt32)).length = 40003 := by
  rw [List.length_append, List.length_replicate]
  rfl

theorem far_length : far.insns.length = 40004 := by
  rw [far, List.length_append, stretch_length]
  rfl

theorem far_word {pc : ℕ} (h : pc < 40004) : (pc = 1 ∧ word far.insns pc = LuauOpcode.CALLFB.code) ∨
    (pc ≠ 1 ∧ word far.insns pc ∈ [(0x00000017 : UInt32), 0, 2, 0x00010016]) := by
  rcases Nat.lt_or_ge pc 3 with hlt | hge
  · obtain rfl | rfl | rfl : pc = 0 ∨ pc = 1 ∨ pc = 2 := by omega
    · exact .inr ⟨by decide, List.mem_of_elem_eq_true rfl⟩
    · exact .inl ⟨rfl, rfl⟩
    · exact .inr ⟨by decide, List.mem_of_elem_eq_true rfl⟩
  · refine .inr ⟨by omega, ?_⟩
    rcases Nat.lt_or_ge pc 40003 with hlt | hge'
    · have hget : far.insns[pc]? = some 2 := by
        rw [far, List.getElem?_append_left (stretch_length ▸ hlt), List.getElem?_append_right hge,
          List.getElem?_replicate, if_pos (by simp only [List.length_cons, List.length_nil]; omega)]
      rw [word_of_getElem? hget]
      decide
    · have hget : far.insns[pc]? = some 0x00010016 := by
        rw [far, List.getElem?_append_right (stretch_length ▸ hge'), stretch_length,
          show pc - 40003 = 0 by omega]
        rfl
      rw [word_of_getElem? hget]
      decide

theorem far_patched : Patched far := by
  constructor
  · rw [far_length]
    exact List.length_replicate
  · intro pc hstart
    have hlt := hstart.lt
    rw [far_length] at hlt ⊢
    obtain ⟨rfl, hword⟩ | ⟨-, hword⟩ := far_word hlt
    · exact ⟨.CALLFB, by rw [hword]; decide, by decide⟩
    · have hall : ∀ w ∈ [(0x00000017 : UInt32), 0, 2, 0x00010016],
          ∃ op, opcode w = some op ∧ op.getOpLength = 1 := by
        intro w hw
        simp only [List.mem_cons, List.not_mem_nil, or_false] at hw
        obtain rfl | rfl | rfl | rfl := hw
        · exact ⟨.JUMP, by decide, rfl⟩
        · exact ⟨.NOP, by decide, rfl⟩
        · exact ⟨.LOADNIL, by decide, rfl⟩
        · exact ⟨.RETURN, by decide, rfl⟩
      obtain ⟨op, hop, hone⟩ := hall _ hword
      exact ⟨op, hop, by omega⟩
  · intro jump hjump
    obtain rfl := List.mem_singleton.1 hjump
    exact ⟨.first (List.cons_ne_nil _ _), rfl⟩
  · exact List.nodup_singleton _
  · intro jump hjump
    obtain rfl := List.mem_singleton.1 hjump
    rw [far_length]
    decide
  · intro jump hjump
    obtain rfl := List.mem_singleton.1 hjump
    exact ⟨by decide, fun hfits => absurd hfits (by decide), fun _ => rfl⟩
  · intro l hl
    cases hl
  · intro slot hslot
    obtain rfl := List.mem_singleton.1 hslot
    rw [far_length]
    decide

theorem expandJumps_iff_far :
    Expanded far (expandJumps far).1 (moves far) ↔ (far.hasLongJumps → Fits far) :=
  expandJumps_iff far_patched

/-- The slot of the call that a long jump comes before is not moved with it. -/
theorem slot_stays : Patched far ∧ ¬ Expanded far (expandJumps far).1 (moves far) := by
  refine ⟨far_patched, fun h => ?_⟩
  have hslot := (far_patched.fits rfl h).slots 1 (by decide) ⟨0, 40003⟩ (by decide) (by decide)
  exact absurd hslot (by decide)

end Bytecode

end Jaci
