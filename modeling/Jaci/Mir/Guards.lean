import Jaci.Mir.Data

/-!
# Guards

A guard leaves the native code when a value does not have the tag, the shape or the range that the
code after it relies on.  Two passes drop guards that look like an earlier one: both remember a
packed key for each guard they have seen, and the first of them also asks whether the block of the
remembered guard dominates, or whether its index is smaller.

* `guards_dropped_implied` : the functions from which the passes drop only guards that another
  guard implies;
* `guard_dropped_after_join` : a guard after a branch that goes because of one in one of its arms.
-/

namespace Jaci

namespace Mir

/-! ### Control flow -/

def computeControlFlow (f : Function) : Function :=
  let numBlocks := f.blocks.length
  { f with
    blocks := f.blocks.zipIdx.map fun (b, c) =>
      { b with
        successors := f.successorsOf c
        predecessors := (List.range numBlocks).flatMap fun bidx =>
          ((f.successorsOf bidx).filter (· = c)).map fun _ => bidx
        isLoopHeader := b.isLoopHeader ||
          (List.range numBlocks).any fun bidx => (f.successorsOf bidx).contains c && c ≤ bidx } }

/-- The loops that walk up from two blocks to a common one.  A walk from a block without a dominator
reads outside of the list. -/
def intersect (idoms : List (Option ℕ)) : ℕ → ℕ → ℕ → Option ℕ
  | 0, _, _ => none
  | fuel + 1, f1, f2 =>
    if f1 = f2 then some f1
    else if f1 > f2 then (idoms[f1]?.join).bind fun f1 => intersect idoms fuel f1 f2
    else (idoms[f2]?.join).bind fun f2 => intersect idoms fuel f1 f2

/-- The loop over the predecessors of a block. -/
def newIdom (fuel : ℕ) (idoms : List (Option ℕ)) (preds : List ℕ) : Option (Option ℕ) :=
  preds.foldlM (fun acc pred =>
    if (idoms[pred]?.join).isNone then some acc
    else match acc with
      | none => some (some pred)
      | some idom => (intersect idoms fuel pred idom).map some) none

/-- The loop over the blocks, and whether it changes a dominator. -/
def dominanceRound (fuel : ℕ) (f : Function) (idoms : List (Option ℕ)) :
    Option (List (Option ℕ) × Bool) :=
  f.blocks.zipIdx.foldlM (fun st (b, i) =>
    if i = f.entryBlock ∨ b.isDead then some st
    else (newIdom fuel st.1 b.predecessors).map fun idom =>
      if idom.isSome ∧ st.1[i]?.join ≠ idom then (st.1.set i idom, true) else st) (idoms, false)

/-- The loop that goes on while a dominator changes. -/
def dominanceLoop (inner : ℕ) (f : Function) : ℕ → List (Option ℕ) → Option (List (Option ℕ))
  | 0, _ => none
  | fuel + 1, idoms => (dominanceRound inner f idoms).bind fun (idoms, changed) =>
    if changed then dominanceLoop inner f fuel idoms else some idoms

/-- `computeDominance`: the immediate dominators, `none` where there is none yet.  There is no
result where a loop does not end within the fuel. -/
def computeDominance (fuel : ℕ) (f : Function) : Option (List (Option ℕ)) :=
  if f.blocks = [] then some []
  else dominanceLoop fuel f fuel
    ((List.replicate f.blocks.length none).set f.entryBlock (some f.entryBlock))

/-- The loop of `isDominating`. -/
def isDominatingLoop (idoms : List (Option ℕ)) (entryBlock a : ℕ) : ℕ → ℕ → Option Bool
  | 0, _ => none
  | fuel + 1, curr =>
    if curr = entryBlock then some false
    else match idoms[curr]? with
      | none => none
      | some none => some (a = 0xffffffff)
      | some (some parent) =>
        if parent = a then some true
        else if parent = curr then some false
        else isDominatingLoop idoms entryBlock a fuel parent

def isDominating (fuel : ℕ) (idoms : List (Option ℕ)) (entryBlock a b : ℕ) : Option Bool :=
  if a = b then some true
  else if b ≥ idoms.length then some false
  else isDominatingLoop idoms entryBlock a fuel b

/-! ### The passes -/

/-- The key of `runRedundantGuardElimination`. -/
def Inst.guardKey (x : Inst) : Option UInt64 :=
  match x.cmd, x.args with
  | .guardTag, v :: _ | .guardShape, v :: _ | .guardNotNil, v :: _ =>
    some ((UInt64.ofNat x.cmd.ctorIdx <<< 48) ||| (v.index.toUInt64 <<< 32) ||| x.extra.toUInt64)
  | _, _ => none

/-- The key of `runBoundsCheckElimination`. -/
def Inst.boundsKey (x : Inst) : Option UInt64 :=
  match x.cmd, x.args with
  | .guardBounds, a :: b :: _ => some ((a.index.toUInt64 <<< 32) ||| b.index.toUInt64)
  | _, _ => none

/-- `inst.cmd = Cmd::Nop; inst.args.clear()`. -/
def Inst.cleared (x : Inst) : Inst := { x with cmd := .nop, args := [] }

/-- The function and `activeGuards`. -/
structure GuardState where
  function : Function
  activeGuards : List (UInt64 × ℕ) := []

/-- The body of the loops of `runRedundantGuardElimination`. -/
def visitGuard (fuel : ℕ) (idoms : List (Option ℕ)) (s : GuardState) (at_ : ℕ × ℕ) :
    Option GuardState :=
  let (bidx, instIdx) := at_
  let inst := s.function.inst instIdx
  match inst.guardKey with
  | none => some s
  | some key =>
    match s.activeGuards.lookup key with
    | some domGuardIdx =>
      (isDominating fuel idoms s.function.entryBlock
        (s.function.inst domGuardIdx).offset.toUInt32.toNat bidx).map fun dominating =>
          if dominating || domGuardIdx < instIdx then
            { s with function := s.function.setInst instIdx inst.cleared }
          else s
    | none =>
      some { function := s.function.setInst instIdx { inst with offset := Int32.ofNat bidx }
             activeGuards := (key, instIdx) :: s.activeGuards }

def runRedundantGuardElimination (fuel : ℕ) (f : Function) : Option Function :=
  let f := computeControlFlow f
  (computeDominance fuel f).bind fun idoms =>
    (f.layout.foldlM (visitGuard fuel idoms) { function := f }).map GuardState.function

/-- The function and `activeBounds`. -/
structure BoundsState where
  function : Function
  activeBounds : List UInt64 := []

/-- The body of the loops of `runBoundsCheckElimination`. -/
def visitBounds (s : BoundsState) (at_ : ℕ × ℕ) : BoundsState :=
  let inst := s.function.inst at_.2
  match inst.boundsKey with
  | none => s
  | some key =>
    if key ∈ s.activeBounds then { s with function := s.function.setInst at_.2 inst.cleared }
    else { s with activeBounds := key :: s.activeBounds }

def runBoundsCheckElimination (f : Function) : Function :=
  (f.layout.foldl visitBounds { function := f }).function

/-! ### What implies a guard -/

def Inst.isGuard (x : Inst) : Prop :=
  x.cmd = .guardTag ∨ x.cmd = .guardShape ∨ x.cmd = .guardNotNil ∨ x.cmd = .guardBounds

/-- The values that a guard tests.  A tag or a shape is in `extra` too. -/
def Inst.tested (x : Inst) : List Value :=
  if x.cmd = .guardBounds then x.args.take 2 else x.args.take 1

/-- A guard tests the same as another one. -/
structure SameGuard (x y : Inst) : Prop where
  cmd : y.cmd = x.cmd
  tested : y.tested = x.tested
  extra : y.extra = x.extra

/-- On every path to a guard that the pass from `f` to `f'` drops there is another one that is
still there. -/
def DropsImplied (f f' : Function) : Prop :=
  ∀ i before, (f.inst i).isGuard → (f'.inst i).cmd = .nop → f.Reaches before i →
    ∃ j ∈ before, SameGuard (f.inst i) (f'.inst j)

/-- The first instruction with a key. -/
def Function.first (f : Function) (key : Inst → Option UInt64) (seen : List (ℕ × ℕ)) (k : UInt64) :
    Option (ℕ × ℕ) :=
  seen.find? fun o => key (f.inst o.2) = some k

/-- Where an instruction has the key of an earlier one, the first of these is another instruction,
tests the same, and is on every path. -/
def Covered (f : Function) (key : Inst → Option UInt64) (drops : ℕ × ℕ → ℕ × ℕ → Prop) : Prop :=
  ∀ pre o post k d, f.layout = pre ++ o :: post → key (f.inst o.2) = some k →
    f.first key pre k = some d → drops d o →
      ∀ before, f.Reaches before o.2 →
        d.2 ≠ o.2 ∧ SameGuard (f.inst o.2) (f.inst d.2) ∧ d.2 ∈ before

/-- What `isDominating` says of the blocks `a` and `b`; `a` goes through an `int32_t`. -/
def Dominates (f : Function) (a b : ℕ) : Prop :=
  ∃ fuel idoms, computeDominance fuel (computeControlFlow f) = some idoms ∧
    isDominating fuel idoms f.entryBlock (Int32.ofNat a).toUInt32.toNat b = some true

/-- What `runRedundantGuardElimination` asks before it drops the guard at `o` for the one at `d`. -/
def DropsFor (f : Function) (d o : ℕ × ℕ) : Prop := Dominates f d.1 o.1 ∨ d.2 < o.2

/-- The indices go up along the blocks, as they do when the blocks are filled one after another. -/
def Ordered (f : Function) : Prop := (f.layout.map Prod.snd).Pairwise (· < ·)

/-! ### One pass -/

/-- An instruction that the pass drops in the part `seen` of the layout. -/
def Dropped (f : Function) (key : Inst → Option UInt64) (drops : ℕ × ℕ → ℕ × ℕ → Prop)
    (seen : List (ℕ × ℕ)) (i : ℕ) : Prop :=
  ∃ pre b post k d, seen = pre ++ (b, i) :: post ∧ key (f.inst i) = some k ∧
    f.first key pre k = some d ∧ drops d (b, i)

/-- The instructions of `g` are those of `f` without the dropped ones. -/
def Visited (f : Function) (key : Inst → Option UInt64) (drops : ℕ × ℕ → ℕ × ℕ → Prop)
    (seen : List (ℕ × ℕ)) (g : Function) : Prop :=
  ∀ i, (¬ Dropped f key drops seen i ∧ ∃ o, g.inst i = { f.inst i with offset := o }) ∨
    (Dropped f key drops seen i ∧ (g.inst i).cmd = .nop ∧ (g.inst i).args = [])

section Pass

variable {f g : Function} {key : Inst → Option UInt64} {drops : ℕ × ℕ → ℕ × ℕ → Prop}
  {seen : List (ℕ × ℕ)} {o d : ℕ × ℕ} {k : UInt64} {i : ℕ}

theorem first_append : f.first key (seen ++ [o]) k =
    (f.first key seen k).or (if key (f.inst o.2) = some k then some o else none) := by
  simp only [Function.first, List.find?_append, List.find?_singleton]
  simp

theorem first_append_of_some (h : ∀ k, key (f.inst o.2) = some k → ∃ d, f.first key seen k = some d) :
    f.first key (seen ++ [o]) k = f.first key seen k := by
  rw [first_append]
  split_ifs with hk
  · obtain ⟨d, hd⟩ := h k hk
    rw [hd, Option.some_or]
  · rw [Option.or_none]

theorem first_append_of_none (hk : key (f.inst o.2) = some k) (hn : f.first key seen k = none)
    (k' : UInt64) :
    f.first key (seen ++ [o]) k' = if k' = k then some o else f.first key seen k' := by
  rw [first_append, hk]
  by_cases hkk : k' = k
  · subst hkk
    simp [hn]
  · simp [hkk, Ne.symm hkk]

theorem first_mono (rest : List (ℕ × ℕ)) (h : f.first key seen k = some d) :
    f.first key (seen ++ rest) k = some d := by
  unfold Function.first at h ⊢
  rw [List.find?_append, h, Option.some_or]

theorem dropped_append : Dropped f key drops (seen ++ [o]) i ↔
    Dropped f key drops seen i ∨ (o.2 = i ∧ ∃ k d, key (f.inst i) = some k ∧
      f.first key seen k = some d ∧ drops d o) := by
  constructor
  · rintro ⟨pre, b, post, k, d, heq, hk, hd, hdr⟩
    rcases List.eq_nil_or_concat post with rfl | ⟨post, x, rfl⟩
    · obtain ⟨rfl, h⟩ := List.append_inj' heq rfl
      obtain rfl : o = (b, i) := by simpa using h
      exact .inr ⟨rfl, k, d, hk, hd, hdr⟩
    · rw [List.concat_eq_append, ← List.cons_append, ← List.append_assoc] at heq
      obtain ⟨rfl, -⟩ := List.append_inj' heq rfl
      exact .inl ⟨pre, b, post, k, d, rfl, hk, hd, hdr⟩
  · rintro (⟨pre, b, post, k, d, rfl, hk, hd, hdr⟩ | ⟨rfl, k, d, hk, hd, hdr⟩)
    · exact ⟨pre, b, post ++ [o], k, d, by simp, hk, hd, hdr⟩
    · exact ⟨seen, o.1, [], k, d, rfl, hk, hd, hdr⟩

/-- A step that drops nothing. -/
theorem Visited.keep {g' : Function} (h : Visited f key drops seen g)
    (hg : ∀ i, ∃ o, g'.inst i = { g.inst i with offset := o })
    (hd : ∀ k d, key (f.inst o.2) = some k → f.first key seen k = some d → drops d o →
      Dropped f key drops seen o.2) :
    Visited f key drops (seen ++ [o]) g' := by
  intro i
  have hdrop : Dropped f key drops (seen ++ [o]) i ↔ Dropped f key drops seen i := by
    rw [dropped_append]
    constructor
    · rintro (h | ⟨rfl, k, d, hk, hf, hdr⟩)
      · exact h
      · exact hd k d hk hf hdr
    · exact .inl
  rw [hdrop]
  obtain ⟨off, hoff⟩ := hg i
  rcases h i with ⟨hn, off', heq⟩ | ⟨hy, hcmd, hargs⟩
  · exact .inl ⟨hn, off, by rw [hoff, heq]⟩
  · exact .inr ⟨hy, by rw [hoff]; exact hcmd, by rw [hoff]; exact hargs⟩

/-- A step that drops an instruction. -/
theorem Visited.drop (h : Visited f key drops seen g) (hcmd : (g.inst o.2).cmd ≠ .nop)
    (hk : key (f.inst o.2) = some k) (hf : f.first key seen k = some d) (hdr : drops d o) :
    Visited f key drops (seen ++ [o]) (g.setInst o.2 (g.inst o.2).cleared) := by
  intro i
  rw [dropped_append, Function.inst_setInst hcmd]
  by_cases hi : o.2 = i
  · subst hi
    rw [if_pos rfl]
    exact .inr ⟨.inr ⟨rfl, k, d, hk, hf, hdr⟩, rfl, rfl⟩
  · rw [if_neg hi]
    simpa [hi] using h i

/-- An instruction with a key that is still there has it in the first function too. -/
theorem Visited.key_eq (h : Visited f key drops seen g) (hnop : ∀ x, x.cmd = .nop → key x = none)
    (hoff : ∀ x o, key { x with offset := o } = key x) (hk : key (g.inst i) = some k) :
    key (f.inst i) = some k ∧ ¬ Dropped f key drops seen i := by
  rcases h i with ⟨hn, off, heq⟩ | ⟨-, hcmd, -⟩
  · rw [heq, hoff] at hk
    exact ⟨hk, hn⟩
  · simp [hnop _ hcmd] at hk

/-- An instruction that has lost its key was dropped. -/
theorem Visited.dropped_of_none (h : Visited f key drops seen g)
    (hoff : ∀ x o, key { x with offset := o } = key x) (hk : key (g.inst i) = none)
    (hk' : key (f.inst i) = some k) : Dropped f key drops seen i := by
  rcases h i with ⟨-, off, heq⟩ | ⟨hy, -⟩
  · rw [heq, hoff, hk'] at hk
    cases hk
  · exact hy

theorem Dropped.first (h : Dropped f key drops seen i) (hk : key (f.inst i) = some k) :
    ∃ d, f.first key seen k = some d := by
  obtain ⟨pre, b, post, k', d, rfl, hk', hd, -⟩ := h
  rw [hk] at hk'
  cases hk'
  exact ⟨d, first_mono _ hd⟩

end Pass

/-! ### The two loops -/

theorem guardKey_nop (x : Inst) (h : x.cmd = .nop) : x.guardKey = none := by
  simp [Inst.guardKey, h]

theorem boundsKey_nop (x : Inst) (h : x.cmd = .nop) : x.boundsKey = none := by
  simp [Inst.boundsKey, h]

theorem guardKey_offset (x : Inst) (o : Int32) :
    ({ x with offset := o } : Inst).guardKey = x.guardKey := rfl

theorem boundsKey_offset (x : Inst) (o : Int32) :
    ({ x with offset := o } : Inst).boundsKey = x.boundsKey := rfl

/-- What holds after a part of the layout. -/
structure GuardsVisited (f : Function) (drops : ℕ × ℕ → ℕ × ℕ → Prop) (seen : List (ℕ × ℕ))
    (s : GuardState) : Prop where
  entry : s.function.entryBlock = f.entryBlock
  visited : Visited f Inst.guardKey drops seen s.function
  /-- `activeGuards` has the first instruction of each key. -/
  active : ∀ k, s.activeGuards.lookup k = (f.first Inst.guardKey seen k).map Prod.snd
  offset : ∀ k d, f.first Inst.guardKey seen k = some d →
    (s.function.inst d.2).offset = Int32.ofNat d.1

/-- What holds after a part of the layout. -/
structure BoundsVisited (f : Function) (seen : List (ℕ × ℕ)) (s : BoundsState) : Prop where
  visited : Visited f Inst.boundsKey (fun _ _ => True) seen s.function
  /-- `activeBounds` has the keys. -/
  active : ∀ k, k ∈ s.activeBounds ↔ ∃ d, f.first Inst.boundsKey seen k = some d

theorem BoundsVisited.visit {f : Function} {seen : List (ℕ × ℕ)} {s : BoundsState}
    (h : BoundsVisited f seen s) (o : ℕ × ℕ) :
    BoundsVisited f (seen ++ [o]) (visitBounds s o) := by
  have hsame : ∀ i, ∃ off, s.function.inst i = { s.function.inst i with offset := off } :=
    fun i => ⟨_, rfl⟩
  cases hk : (s.function.inst o.2).boundsKey with
  | none =>
    have hd : ∀ k, (f.inst o.2).boundsKey = some k →
        Dropped f Inst.boundsKey (fun _ _ => True) seen o.2 :=
      fun k hk' => h.visited.dropped_of_none boundsKey_offset hk hk'
    simp only [visitBounds, hk]
    refine ⟨h.visited.keep hsame fun k _ hk' _ _ => hd k hk', fun k => ?_⟩
    rw [h.active, first_append_of_some fun k hk' => (hd k hk').first hk']
  | some k =>
    obtain ⟨hkf, -⟩ := h.visited.key_eq boundsKey_nop boundsKey_offset hk
    have hcmd : (s.function.inst o.2).cmd ≠ .nop := fun hn => by
      simp [boundsKey_nop _ hn] at hk
    by_cases hact : k ∈ s.activeBounds
    · obtain ⟨d, hd⟩ := (h.active k).1 hact
      simp only [visitBounds, hk, hact, if_true]
      refine ⟨h.visited.drop hcmd hkf hd trivial, fun k' => ?_⟩
      rw [h.active, first_append_of_some fun k' hk' => ?_]
      rw [hkf] at hk'
      cases hk'
      exact ⟨d, hd⟩
    · have hnone : f.first Inst.boundsKey seen k = none := by
        by_contra hne
        exact hact ((h.active k).2 (Option.ne_none_iff_exists'.1 hne))
      simp only [visitBounds, hk, hact, if_false]
      refine ⟨h.visited.keep hsame fun k' d hk' hd _ => ?_, fun k' => ?_⟩
      · rw [hkf] at hk'
        cases hk'
        simp [hnone] at hd
      · rw [List.mem_cons, h.active, first_append_of_none hkf hnone]
        by_cases hkk : k' = k <;> simp [hkk]

/-- What the loop of `runRedundantGuardElimination` asks before it drops a guard. -/
def loopDrops (f : Function) (fuel : ℕ) (idoms : List (Option ℕ)) (d o : ℕ × ℕ) : Prop :=
  isDominating fuel idoms f.entryBlock (Int32.ofNat d.1).toUInt32.toNat o.1 = some true ∨ d.2 < o.2

section Loop

variable {f : Function} {fuel : ℕ} {idoms : List (Option ℕ)} {seen : List (ℕ × ℕ)}
  {s s' : GuardState} {o d : ℕ × ℕ} {k : UInt64}

/-- A guard with the key of an earlier one. -/
theorem GuardsVisited.again (h : GuardsVisited f (loopDrops f fuel idoms) seen s)
    (hk : (s.function.inst o.2).guardKey = some k) (hd : f.first Inst.guardKey seen k = some d)
    (hs : visitGuard fuel idoms s o = some s') :
    GuardsVisited f (loopDrops f fuel idoms) (seen ++ [o]) s' := by
  obtain ⟨hkf, -⟩ := h.visited.key_eq guardKey_nop guardKey_offset hk
  have hcmd : (s.function.inst o.2).cmd ≠ .nop := fun hn => by
    simp [guardKey_nop _ hn] at hk
  have hfirst : ∀ k', f.first Inst.guardKey (seen ++ [o]) k' = f.first Inst.guardKey seen k' := by
    intro k'
    refine first_append_of_some fun k' hk' => ?_
    rw [hkf] at hk'
    cases hk'
    exact ⟨d, hd⟩
  simp only [visitGuard, hk, h.active, hd, Option.map_some, h.offset k d hd, h.entry,
    Option.map_eq_some_iff] at hs
  obtain ⟨dominating, hdom, rfl⟩ := hs
  split_ifs with hdrop
  · refine ⟨h.entry, h.visited.drop hcmd hkf hd ?_, fun k' => by rw [hfirst, h.active],
      fun k' d' hd' => ?_⟩
    · rw [loopDrops, hdom]
      simpa using hdrop
    · rw [hfirst] at hd'
      rw [Function.inst_setInst hcmd]
      split_ifs with heq
      · rw [← h.offset k' d' hd', ← heq]
        rfl
      · exact h.offset k' d' hd'
  · refine ⟨h.entry, h.visited.keep (fun i => ⟨_, rfl⟩) fun k' d' hk' hd' hdr => ?_,
      fun k' => by rw [hfirst, h.active], fun k' d' => by rw [hfirst]; exact h.offset k' d'⟩
    rw [hkf] at hk'
    cases hk'
    rw [hd] at hd'
    cases hd'
    rw [loopDrops, hdom] at hdr
    exact absurd (by simpa using hdr) hdrop

/-- The first guard with its key. -/
theorem GuardsVisited.remember (h : GuardsVisited f (loopDrops f fuel idoms) seen s)
    (hk : (s.function.inst o.2).guardKey = some k) (hd : f.first Inst.guardKey seen k = none)
    (hs : visitGuard fuel idoms s o = some s') :
    GuardsVisited f (loopDrops f fuel idoms) (seen ++ [o]) s' := by
  obtain ⟨hkf, -⟩ := h.visited.key_eq guardKey_nop guardKey_offset hk
  have hcmd : (s.function.inst o.2).cmd ≠ .nop := fun hn => by
    simp [guardKey_nop _ hn] at hk
  simp only [visitGuard, hk, h.active, hd, Option.map_none, Option.some.injEq] at hs
  subst hs
  refine ⟨h.entry, h.visited.keep (fun i => ?_) fun k' d' hk' hd' _ => ?_, fun k' => ?_,
    fun k' d' hd' => ?_⟩
  · rw [Function.inst_setInst hcmd]
    split_ifs with heq
    · subst heq
      exact ⟨_, rfl⟩
    · exact ⟨_, rfl⟩
  · rw [hkf] at hk'
    cases hk'
    simp [hd] at hd'
  · rw [first_append_of_none hkf hd, List.lookup_cons]
    by_cases hkk : k' = k
    · simp [hkk]
    · have : (k' == k) = false := by simpa using hkk
      simp [this, hkk, h.active]
  · rw [first_append_of_none hkf hd] at hd'
    rw [Function.inst_setInst hcmd]
    by_cases hkk : k' = k
    · rw [if_pos hkk] at hd'
      cases hd'
      rw [if_pos rfl]
    · rw [if_neg hkk] at hd'
      -- an instruction remembered for another key is not the one at hand
      have hne : o.2 ≠ d'.2 := by
        intro heq
        have := List.find?_some hd'
        simp only [decide_eq_true_eq] at this
        rw [← heq, hkf] at this
        exact hkk (Option.some.inj this).symm
      rw [if_neg hne]
      exact h.offset k' d' hd'

theorem GuardsVisited.visit (h : GuardsVisited f (loopDrops f fuel idoms) seen s)
    (hs : visitGuard fuel idoms s o = some s') :
    GuardsVisited f (loopDrops f fuel idoms) (seen ++ [o]) s' := by
  cases hk : (s.function.inst o.2).guardKey with
  | none =>
    simp only [visitGuard, hk, Option.some.injEq] at hs
    subst hs
    have hd := fun k hk' => h.visited.dropped_of_none (k := k) guardKey_offset hk hk'
    have hfirst : ∀ k, f.first Inst.guardKey (seen ++ [o]) k = f.first Inst.guardKey seen k :=
      fun k => first_append_of_some fun k hk' => (hd k hk').first hk'
    exact ⟨h.entry, h.visited.keep (fun i => ⟨_, rfl⟩) fun k _ hk' _ _ => hd k hk',
      fun k => by rw [hfirst, h.active], fun k d => by rw [hfirst]; exact h.offset k d⟩
  | some k =>
    cases hd : f.first Inst.guardKey seen k with
    | some d => exact h.again hk hd hs
    | none => exact h.remember hk hd hs

end Loop

theorem zipIdx_map_zipIdx {α β : Type*} (l : List α) (g : α × ℕ → β) :
    (l.zipIdx.map g).zipIdx = l.zipIdx.map fun x => (g x, x.2) := by
  apply List.ext_getElem?
  intro n
  cases h : l[n]? <;> simp [h]

theorem layout_computeControlFlow (f : Function) : (computeControlFlow f).layout = f.layout := by
  simp only [Function.layout, computeControlFlow]
  rw [zipIdx_map_zipIdx, List.flatMap_map]

theorem runRedundantGuardElimination_visited {fuel : ℕ} {f f' : Function}
    (h : runRedundantGuardElimination fuel f = some f') :
    ∃ idoms, computeDominance fuel (computeControlFlow f) = some idoms ∧
      Visited f Inst.guardKey (loopDrops f fuel idoms) f.layout f' := by
  simp only [runRedundantGuardElimination, Option.bind_eq_some_iff, Option.map_eq_some_iff,
    layout_computeControlFlow] at h
  obtain ⟨idoms, hidoms, s, hs, rfl⟩ := h
  refine ⟨idoms, hidoms, ?_⟩
  have hrun : ∀ (rest seen : List (ℕ × ℕ)) (t : GuardState),
      GuardsVisited f (loopDrops f fuel idoms) seen t →
      rest.foldlM (visitGuard fuel idoms) t = some s →
        GuardsVisited f (loopDrops f fuel idoms) (seen ++ rest) s := by
    intro rest
    induction rest with
    | nil =>
      intro seen t ht hs
      cases hs
      simpa using ht
    | cons o rest ih =>
      intro seen t ht hs
      simp only [List.foldlM_cons, Option.bind_eq_bind, Option.bind_eq_some_iff] at hs
      obtain ⟨u, hu, hs⟩ := hs
      simpa using ih (seen ++ [o]) u (ht.visit hu) hs
  refine (hrun f.layout [] _ ⟨rfl, fun i => .inl ⟨?_, _, rfl⟩, fun k => rfl, ?_⟩ hs).visited
  · rintro ⟨pre, b, post, k, d, heq, -⟩
    simp at heq
  · rintro k d hd
    cases hd

theorem runBoundsCheckElimination_visited (f : Function) :
    Visited f Inst.boundsKey (fun _ _ => True) f.layout (runBoundsCheckElimination f) := by
  have hrun : ∀ (rest seen : List (ℕ × ℕ)) (t : BoundsState), BoundsVisited f seen t →
      BoundsVisited f (seen ++ rest) (rest.foldl visitBounds t) := by
    intro rest
    induction rest with
    | nil =>
      intro seen t ht
      simpa using ht
    | cons o rest ih =>
      intro seen t ht
      simpa using ih (seen ++ [o]) _ (ht.visit o)
  refine (hrun f.layout [] { function := f } ⟨fun i => .inl ⟨?_, _, rfl⟩, fun k => ?_⟩).visited
  · rintro ⟨pre, b, post, k, d, heq, -⟩
    simp at heq
  · simp [Function.first]

/-! ### The guards that are dropped -/

section Implied

variable {f f' : Function} {key : Inst → Option UInt64} {drops : ℕ × ℕ → ℕ × ℕ → Prop}

theorem Inst.isGuard.ne_nop {x : Inst} (h : x.isGuard) : x.cmd ≠ .nop := by
  rintro hn
  simp [Inst.isGuard, hn] at h

theorem Visited.dropsImplied (h : Visited f key drops f.layout f') (hc : Covered f key drops) :
    DropsImplied f f' := by
  intro i before hg hnop hr
  rcases h i with ⟨-, off, heq⟩ | ⟨⟨pre, b, post, k, d, heq, hk, hd, hdr⟩, -, -⟩
  · rw [heq] at hnop
    exact absurd hnop hg.ne_nop
  · obtain ⟨-, hsame, hmem⟩ := hc pre (b, i) post k d heq hk hd hdr before hr
    refine ⟨d.2, hmem, ?_⟩
    rcases h d.2 with ⟨-, off, heq'⟩ | ⟨⟨pre', b', post', k', d', heq', hk', hd', hdr'⟩, -, -⟩
    · rw [heq']
      exact ⟨hsame.cmd, hsame.tested, hsame.extra⟩
    -- the first guard of a key would be dropped for itself
    · obtain ⟨before', hr'⟩ := hr.before hmem
      obtain ⟨hne, -⟩ := hc pre' (b', d.2) post' k' d' heq' hk' hd' hdr' before' hr'
      have hdk : key (f.inst d.2) = some k := by simpa using List.find?_some hd
      rw [hdk] at hk'
      cases hk'
      have h1 := first_mono ((b, i) :: post) hd
      have h2 := first_mono ((b', d.2) :: post') hd'
      rw [← heq] at h1
      rw [← heq', h1] at h2
      cases h2
      exact absurd rfl hne

theorem Visited.covered (h : Visited f key drops f.layout f')
    (hguard : ∀ x, x.isGuard ∨ key x = none)
    (hkey : ∀ x y, SameGuard x y → key y = key x)
    (hall : ∀ pre o post k d, f.layout = pre ++ o :: post → f.first key pre k = some d → drops d o)
    (hi : DropsImplied f f') : Covered f key drops := by
  intro pre o post k d heq hk hd hdr before hr
  have hdrop : Dropped f key drops f.layout o.2 := ⟨pre, o.1, post, k, d, heq, hk, hd, hdr⟩
  have hg : (f.inst o.2).isGuard := (hguard _).resolve_right (by simp [hk])
  have hnop : (f'.inst o.2).cmd = .nop := by
    rcases h o.2 with ⟨hn, -⟩ | ⟨-, hnop, -⟩
    · exact absurd hdrop hn
    · exact hnop
  obtain ⟨j, hj, hsame⟩ := hi o.2 before hg hnop hr
  rcases h j with ⟨hn, off, hjeq⟩ | ⟨-, hnopj, -⟩
  · have hsame' : SameGuard (f.inst o.2) (f.inst j) := by
      rw [hjeq] at hsame
      exact ⟨hsame.cmd, hsame.tested, hsame.extra⟩
    have hjk : key (f.inst j) = some k := by rw [hkey _ _ hsame', hk]
    obtain ⟨before', hr'⟩ := hr.before hj
    obtain ⟨b, hb⟩ := hr'.mem_layout
    obtain ⟨l, r, hl⟩ := List.append_of_mem hb
    -- a guard that is still there is the first with its key
    have hfirst : f.first key l k = none := by
      by_contra hne
      obtain ⟨d', hd'⟩ := Option.ne_none_iff_exists'.1 hne
      exact hn ⟨l, b, r, k, d', hl, hjk, hd', hall _ _ _ _ _ hl hd'⟩
    have hdj : d = (b, j) := by
      have h1 := first_mono (o :: post) hd
      have h2 : f.first key (l ++ [(b, j)]) k = some (b, j) := by
        rw [first_append, hfirst, if_pos hjk, Option.none_or]
      have h2 := first_mono r h2
      rw [← heq] at h1
      rw [List.append_assoc, List.singleton_append, ← hl, h1] at h2
      exact Option.some.inj h2
    subst hdj
    refine ⟨?_, hsame', hj⟩
    intro hji
    simp only at hji
    subst hji
    exact hn hdrop
  · rw [hsame.cmd] at hnopj
    exact absurd hnopj hg.ne_nop

end Implied

theorem guardKey_isGuard (x : Inst) : x.isGuard ∨ x.guardKey = none := by
  unfold Inst.guardKey
  split <;> simp_all [Inst.isGuard]

theorem boundsKey_isGuard (x : Inst) : x.isGuard ∨ x.boundsKey = none := by
  unfold Inst.boundsKey
  split <;> simp_all [Inst.isGuard]

theorem SameGuard.guardKey (x y : Inst) (h : SameGuard x y) : y.guardKey = x.guardKey := by
  obtain ⟨hcmd, htested, hextra⟩ := h
  unfold Inst.tested at htested
  unfold Inst.guardKey
  rw [hcmd, hextra] at *
  cases hx : x.args with
  | nil => cases hy : y.args <;> cases hc : x.cmd <;> simp_all
  | cons v vs => cases hy : y.args <;> cases hc : x.cmd <;> simp_all

theorem SameGuard.boundsKey (x y : Inst) (h : SameGuard x y) : y.boundsKey = x.boundsKey := by
  obtain ⟨hcmd, htested, -⟩ := h
  unfold Inst.boundsKey
  by_cases hc : x.cmd = .guardBounds
  · rw [Inst.tested, Inst.tested, hcmd, if_pos hc, if_pos hc] at htested
    rw [hcmd, hc]
    rcases hx : x.args with _ | ⟨v, _ | ⟨w, vs⟩⟩ <;>
      rcases hy : y.args with _ | ⟨v', _ | ⟨w', vs'⟩⟩ <;> simp_all
  · rw [hcmd]
    cases hx : x.cmd <;> simp_all

/-- Where a pass finds a guard with the key of an earlier one and drops it, the first guard with the
key is another instruction, tests the same and is on every path. -/
def GuardsCovered (f : Function) : Prop :=
  Covered f Inst.guardKey (DropsFor f) ∧ Covered f Inst.boundsKey fun _ _ => True

/-- **Dropped guards.**  In a function in which a guard with the key of an earlier one tests the
same and comes after it on every path, the passes drop only guards that another guard implies.  When
the indices go up along the blocks, these are the only such functions. -/
theorem guards_dropped_implied (fuel : ℕ) (f f' : Function)
    (h : runRedundantGuardElimination fuel f = some f') :
    (GuardsCovered f → DropsImplied f f' ∧ DropsImplied f (runBoundsCheckElimination f)) ∧
      (Ordered f → DropsImplied f f' ∧ DropsImplied f (runBoundsCheckElimination f) →
        GuardsCovered f) := by
  obtain ⟨idoms, hidoms, hv⟩ := runRedundantGuardElimination_visited h
  have hvb := runBoundsCheckElimination_visited f
  constructor
  · rintro ⟨hg, hb⟩
    refine ⟨hv.dropsImplied fun pre o post k d heq hk hd hdr => hg pre o post k d heq hk hd ?_,
      hvb.dropsImplied hb⟩
    exact hdr.imp_left fun hdom => ⟨fuel, idoms, hidoms, hdom⟩
  · rintro hord ⟨hg, hb⟩
    have hlt : ∀ pre o post k d, f.layout = pre ++ o :: post →
        f.first Inst.guardKey pre k = some d → d.2 < o.2 := by
      intro pre o post k d heq hd
      rw [Ordered, heq, List.map_append, List.pairwise_append] at hord
      exact hord.2.2 d.2 (List.mem_map_of_mem (List.mem_of_find?_eq_some hd)) o.2 (by simp)
    have hcg := hv.covered guardKey_isGuard SameGuard.guardKey
      (fun pre o post k d heq hd => .inr (hlt pre o post k d heq hd)) hg
    refine ⟨fun pre o post k d heq hk hd _ => ?_, hvb.covered boundsKey_isGuard SameGuard.boundsKey
      (fun _ _ _ _ _ _ _ => trivial) hb⟩
    exact hcg pre o post k d heq hk hd (.inr (hlt pre o post k d heq hd))

/-- A branch with a guard in one arm, and the same guard after it. -/
def guardInOneArm : Function where
  blocks := [{ instIndices := [0, 1] }, { instIndices := [2, 3] }, { instIndices := [4] },
    { instIndices := [5, 6] }]
  instructions := [{ cmd := .constBool, args := [⟨.constant, 0⟩] },
    { cmd := .branchCond, args := [⟨.inst, 0⟩, ⟨.inst, 1⟩, ⟨.inst, 2⟩] },
    { cmd := .guardNotNil, args := [⟨.blockArg, 0⟩] }, { cmd := .jump, args := [⟨.inst, 3⟩] },
    { cmd := .jump, args := [⟨.inst, 3⟩] },
    { cmd := .guardNotNil, args := [⟨.blockArg, 0⟩] }, { cmd := .ret }]

theorem guardInOneArm_dropped : ∃ f', runRedundantGuardElimination 9 guardInOneArm = some f' ∧
    (f'.inst 5).cmd = .nop ∧ ∀ j ∈ [0, 1, 4], (f'.inst j).cmd ≠ .guardNotNil := by
  decide

theorem guards_dropped_implied_oneArm : ∃ f',
    runRedundantGuardElimination 9 guardInOneArm = some f' ∧
      (GuardsCovered guardInOneArm → DropsImplied guardInOneArm f' ∧
        DropsImplied guardInOneArm (runBoundsCheckElimination guardInOneArm)) := by
  obtain ⟨f', h, -⟩ := guardInOneArm_dropped
  exact ⟨f', h, (guards_dropped_implied 9 guardInOneArm f' h).1⟩

/-- The path through the other arm has no guard. -/
theorem guard_dropped_after_join : ∃ f',
    runRedundantGuardElimination 9 guardInOneArm = some f' ∧ ¬ DropsImplied guardInOneArm f' := by
  obtain ⟨f', h, hnop, hother⟩ := guardInOneArm_dropped
  refine ⟨f', h, fun himp => ?_⟩
  have hpath : guardInOneArm.Path [0, 2] 3 :=
    .jump (.jump .entry (by decide)) (by decide)
  obtain ⟨j, hj, hsame⟩ := himp 5 [0, 1, 4] (by simp [Inst.isGuard]; decide) hnop
    ⟨[0, 2], 3, [], [6], hpath, rfl, rfl⟩
  exact hother j hj hsame.cmd

end Mir

end Jaci
