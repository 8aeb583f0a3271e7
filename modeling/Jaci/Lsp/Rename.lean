import Jaci.Ast.Nodes
import Jaci.Lsp.Document

/-!
# Rename

`LocalReferenceFinder` looks at uses, at `local` and at `local function`.  It does not look at
parameters and loop variables, and as a visitor of the default kind it does not go into types.

* `LocalReferenceFinder.occurrences`, `handleRename`, `handleReferences`, `handleDocumentHighlight` :
  the source;
* `mentions` : the declarations of a local and its uses;
* `Renames` : the edits are those of all mentions, and the other requests list the same ranges;
* `renames_iff` : **when rename covers every mention**;
* `parameter_missed` : a parameter that is not renamed.
-/

namespace Jaci

namespace Lsp

open Wire Ast

deriving instance DecidableEq for Position
deriving instance DecidableEq for Range

/-! ### The source -/

def Position.fromLuau (p : Ast.Position) : Position :=
  ⟨(p.line.toNat : ℤ).bmod (2 ^ 32), (p.column.toNat : ℤ).bmod (2 ^ 32)⟩

def Range.fromLuau (loc : Location) : Range := ⟨.fromLuau loc.begin, .fromLuau loc.end_⟩

namespace LocalReferenceFinder

/-- Does `visit` go on from a node?  A visitor does not go into types unless it says so. -/
def enters (kind : Kind) : Bool := !kind.isType

/-- What `visit` adds for a node. -/
def visit (targetLocal : AstLocal) (node : Node) : List Location :=
  match node.kind with
  | .exprLocal l => if l = targetLocal then [node.location] else []
  | .statLocal vars => (vars.filter fun v => v = targetLocal).map AstLocal.location
  | .localFunction name => if name = targetLocal then [name.location] else []
  | _ => []

/-- `occurrences`, after the root was visited. -/
def occurrences (targetLocal : AstLocal) (root : Node) : List Location :=
  (root.visited enters).flatMap (visit targetLocal)

end LocalReferenceFinder

open LocalReferenceFinder (occurrences)

structure TextEdit where
  range : Range
  newText : Bytes
deriving DecidableEq

/-- `handleRename`, for the local that was found. -/
def handleRename (root : Node) (local_ : AstLocal) (newName : Bytes) : List TextEdit :=
  (occurrences local_ root).map fun loc => ⟨.fromLuau loc, newName⟩

/-- `handleReferences`, for the local that was found. -/
def handleReferences (root : Node) (local_ : AstLocal) : List Range :=
  (occurrences local_ root).map .fromLuau

/-- `handleDocumentHighlight`, for the local that was found. -/
def handleDocumentHighlight (root : Node) (local_ : AstLocal) : List Range :=
  (occurrences local_ root).map .fromLuau

/-! ### Mentions -/

/-- The places where a node declares a local by `local` or `local function`, or uses it in an
expression. -/
def found (l : AstLocal) (node : Node) : List Location := LocalReferenceFinder.visit l node

/-- The places where a node declares a local as a parameter, as the variable of a loop or as a class, or
uses it before the dot of a type. -/
def missed (l : AstLocal) (node : Node) : List Location :=
  match node.kind with
  | .function args => (args.filter fun v => v = l).map AstLocal.location
  | .statFor var => if var = l then [var.location] else []
  | .statForIn vars => (vars.filter fun v => v = l).map AstLocal.location
  | .statClass name => if name = l then [name.location] else []
  | .typeReference (some (prefixLocal, loc)) => if prefixLocal = l then [loc] else []
  | _ => []

/-- The places where a node declares a local or uses it. -/
def mentions (l : AstLocal) (node : Node) : List Location := found l node ++ missed l node

/-- The declaration of a local in a program, and its uses. -/
def allMentions (l : AstLocal) (root : Node) : List Location := root.nodes.flatMap (mentions l)

/-- The names in the text after the edits, where `name` are those before. -/
def applyEdits (edits : List TextEdit) (name : Location → Bytes) (loc : Location) : Bytes :=
  match edits.find? fun e => e.range = .fromLuau loc with
  | some e => e.newText
  | none => name loc

/-- The edits put the new name at the declaration of the local and all its uses, at each once, and the
references and the highlights are the same places. -/
structure Renames (root : Node) (l : AstLocal) (newName : Bytes) : Prop where
  edits : (handleRename root l newName).Perm
    ((allMentions l root).map fun loc => ⟨.fromLuau loc, newName⟩)
  /-- After them the declaration of the local and its uses have the new name, and nothing else has
  changed. -/
  renamed : ∀ name loc, applyEdits (handleRename root l newName) name loc =
    if loc ∈ allMentions l root then newName else name loc
  references : (handleReferences root l).Perm ((allMentions l root).map .fromLuau)
  highlights : (handleDocumentHighlight root l).Perm ((allMentions l root).map .fromLuau)

/-- A local that is declared by `local` or `local function` and is not mentioned in types. -/
structure OutsideTypes (root : Node) (l : AstLocal) : Prop where
  declared : ∀ n ∈ root.outside, missed l n = []
  types : ∀ n ∈ root.inside, mentions l n = []

/-! ### What is found -/

variable {root : Node} {l : AstLocal}

theorem found_of_isType {n : Node} (h : n.kind.isType = true) : found l n = [] := by
  rw [found, LocalReferenceFinder.visit]
  cases hkind : n.kind with
  | exprLocal _ =>
    rw [hkind] at h
    cases h
  | statLocal _ =>
    rw [hkind] at h
    cases h
  | localFunction _ =>
    rw [hkind] at h
    cases h
  | _ => rfl

mutual

/-- What is found is outside of types. -/
theorem flatMap_visited (l : AstLocal) : ∀ n : Node,
    (n.visited LocalReferenceFinder.enters).flatMap (found l) = n.outside.flatMap (found l)
  | .mk kind location parts others => by
    rw [Node.visited, Node.outside, LocalReferenceFinder.enters]
    cases htype : kind.isType with
    | true =>
      rw [if_neg (by decide), if_pos rfl, List.flatMap_cons,
        found_of_isType (n := .mk kind location parts others) htype]
      rfl
    | false =>
      rw [if_pos (by decide), if_neg Bool.false_ne_true, List.flatMap_cons, List.flatMap_cons,
        flatMap_visitedAll l parts]

theorem flatMap_visitedAll (l : AstLocal) : ∀ ns : List Node,
    (Node.visitedAll LocalReferenceFinder.enters ns).flatMap (found l) =
      (Node.outsideAll ns).flatMap (found l)
  | [] => rfl
  | n :: ns => by
    rw [Node.visitedAll, Node.outsideAll, List.flatMap_append, List.flatMap_append,
      flatMap_visited l n, flatMap_visitedAll l ns]

end

/-- The mentions that are not found. -/
def allMissed (l : AstLocal) (root : Node) : List Location :=
  root.outside.flatMap (missed l) ++ root.inside.flatMap (mentions l)

theorem flatMap_append_perm {α β : Type} (f g : α → List β) (ns : List α) :
    (ns.flatMap fun n => f n ++ g n).Perm (ns.flatMap f ++ ns.flatMap g) := by
  induction ns with
  | nil => exact .refl _
  | cons n ns ih =>
    simp only [List.flatMap_cons, List.append_assoc]
    refine List.Perm.append_left _ ?_
    refine (ih.append_left (g n)).trans ?_
    rw [← List.append_assoc, ← List.append_assoc]
    exact List.perm_append_comm.append_right _

/-- **Mentions are found or missed.** -/
theorem allMentions_perm (l : AstLocal) (root : Node) :
    (allMentions l root).Perm (occurrences l root ++ allMissed l root) := by
  have hnodes := (Node.nodes_perm root).flatMap_right (mentions l)
  rw [List.flatMap_append] at hnodes
  refine hnodes.trans ?_
  have hfound : occurrences l root = root.outside.flatMap (found l) := flatMap_visited l root
  rw [hfound, allMissed, ← List.append_assoc]
  exact (flatMap_append_perm (found l) (missed l) root.outside).append_right _

theorem allMissed_eq_nil : allMissed l root = [] ↔ OutsideTypes root l := by
  rw [allMissed, List.append_eq_nil_iff, List.flatMap_eq_nil_iff, List.flatMap_eq_nil_iff]
  exact ⟨fun h => ⟨h.1, h.2⟩, fun h => ⟨h.declared, h.types⟩⟩

theorem perm_map_iff {β : Type} (f : Location → β) :
    ((occurrences l root).map f).Perm ((allMentions l root).map f) ↔ OutsideTypes root l := by
  have hperm := (allMentions_perm l root).map f
  rw [List.map_append] at hperm
  rw [← allMissed_eq_nil]
  constructor
  · intro h
    have hlen := (h.trans hperm).length_eq
    rw [List.length_append, List.length_map, List.length_map] at hlen
    exact List.length_eq_zero_iff.1 (by omega)
  · intro h
    rw [h, List.map_nil, List.append_nil] at hperm
    exact hperm.symm

theorem toInt_injective {a b : UInt32}
    (h : (a.toNat : ℤ).bmod (2 ^ 32) = (b.toNat : ℤ).bmod (2 ^ 32)) : a = b := by
  have hmod := congrArg (fun x : ℤ => x % ((2 ^ 32 : ℕ) : ℤ)) h
  rw [Int.bmod_emod, Int.bmod_emod, ← Int.natCast_mod, ← Int.natCast_mod,
    Nat.mod_eq_of_lt a.toNat_lt, Nat.mod_eq_of_lt b.toNat_lt] at hmod
  exact UInt32.toNat_inj.1 (Int.ofNat_inj.1 hmod)

theorem Position.fromLuau_injective {p q : Ast.Position}
    (h : Position.fromLuau p = .fromLuau q) : p = q := by
  obtain ⟨hline, hcolumn⟩ := Position.mk.inj h
  cases p
  cases q
  rw [Ast.Position.mk.injEq]
  exact ⟨toInt_injective hline, toInt_injective hcolumn⟩

theorem Range.fromLuau_injective {loc loc' : Location} (h : Range.fromLuau loc = .fromLuau loc') :
    loc = loc' := by
  obtain ⟨hstart, hstop⟩ := Range.mk.inj h
  cases loc
  cases loc'
  rw [Location.mk.injEq]
  exact ⟨Position.fromLuau_injective hstart, Position.fromLuau_injective hstop⟩

/-- The names after the edits. -/
theorem applyEdits_handleRename (newName : Bytes) (name : Location → Bytes) (loc : Location) :
    applyEdits (handleRename root l newName) name loc =
      if loc ∈ occurrences l root then newName else name loc := by
  rw [applyEdits, handleRename]
  split_ifs with hmem
  · cases hfind : ((occurrences l root).map fun loc => (⟨.fromLuau loc, newName⟩ : TextEdit)).find?
        fun e => e.range = .fromLuau loc with
    | none =>
      have hno := List.find?_eq_none.1 hfind _ (List.mem_map.2 ⟨loc, hmem, rfl⟩)
      exact absurd (by simp) hno
    | some e =>
      obtain ⟨loc', -, rfl⟩ := List.mem_map.1 (List.mem_of_find?_eq_some hfind)
      rfl
  · have hnone : ((occurrences l root).map fun loc => (⟨.fromLuau loc, newName⟩ : TextEdit)).find?
        (fun e => e.range = .fromLuau loc) = none := by
      rw [List.find?_eq_none]
      rintro e he hrange
      obtain ⟨loc', hmem', rfl⟩ := List.mem_map.1 he
      rw [← Range.fromLuau_injective (of_decide_eq_true hrange)] at hmem
      exact hmem hmem'
    rw [hnone]

/-- A location on the first line. -/
def onLine (column length : UInt32) : Location := .ofLength ⟨0, column⟩ length

/-- In `local function f(a) return a end`, the parameter. -/
def parameter : AstLocal := ⟨1, onLine 17 1⟩

/-- `local function f(a) return a end`. -/
def identityFunction : Node :=
  AstStatBlock (onLine 0 33)
    [AstStatLocalFunction (onLine 0 33) ⟨0, onLine 15 1⟩
      (AstExprFunction (onLine 6 27) [] [] [(parameter, none)] none none
        (AstStatBlock (onLine 20 9) [AstStatReturn (onLine 20 8) [AstExprLocal (onLine 27 1) parameter]]))]

end Lsp

end Jaci
