import Jaci.Compile.Folding
import Jaci.Lib.UndoLog

/-!
# Folds can be undone

A map of constants means a function, where an absent entry and `Type_Unknown` are the same.  Each
record of a fold is one logged write to this function, or none, so that the log of a whole walk takes
the maps back to where they were.

* `view_undoChanges` : `undoChanges` is the replay of a log;
* `Logs` : a part of the walk that logs what it writes;
* `fold_undo_restores` : a fold and `undoChanges` restore both maps.
-/

namespace Jaci

namespace Compile

open UndoLog

/-! ### What a map means -/

/-- The constants of a map, an absent entry being `Type_Unknown`. -/
def view {κ : Type} [DecidableEq κ] (map : Map κ) : κ → Constant :=
  fun key => (map.lookup key).getD .unknown

/-- The write that takes a change back. -/
def Change.entry (change : Change) : ℕ × Constant :=
  (change.key, if change.wasAbsent then .unknown else change.oldValue)

section View

variable {map : Map ℕ} {key : ℕ} {value : Constant} {change : Change}

theorem view_insert : view (map.insert key value) = Function.update (view map) key value := by
  ext k
  by_cases h : k = key
  · subst h
    simp [view]
  · simp [view, h]

theorem view_undoChange : view (undoChange map change) =
    Function.update (view map) change.entry.1 change.entry.2 := by
  unfold undoChange Change.entry
  by_cases habsent : change.wasAbsent = true
  · rw [if_pos habsent, if_pos habsent]
    cases hfind : map.lookup change.key with
    | some old => exact view_insert
    | none =>
      -- nothing is there, which is what the change takes it back to
      have hview : view map change.key = .unknown := by rw [view, hfind]; rfl
      rw [← hview, Function.update_eq_self]
  · rw [if_neg habsent, if_neg habsent]
    exact view_insert

/-- **Undo.**  `undoChanges` replays a log backwards. -/
theorem view_undoChanges (map : Map ℕ) (changes : List Change) :
    view (undoChanges map changes) = undo (changes.map Change.entry) (view map) := by
  rw [undoChanges, List.foldl_reverse]
  induction changes with
  | nil => rfl
  | cons change changes ih =>
    rw [List.foldr_cons, view_undoChange, ih]
    rfl

end View

/-! ### Logged writes -/

/-- A map and its log go on: what is added to the log takes the map back. -/
def Extends (map map' : Map ℕ) (log log' : Option (List Change)) : Prop :=
  ∀ changes, log = some changes → ∃ added, log' = some (changes ++ added) ∧
    Reverts (added.map Change.entry) (view map') (view map)

section Extends

variable {map map' map'' : Map ℕ} {log log' log'' : Option (List Change)}

theorem Extends.refl : Extends map map log log :=
  fun changes h => ⟨[], by rw [h, List.append_nil], Reverts.refl _⟩

theorem Extends.trans (h : Extends map map' log log') (h' : Extends map' map'' log' log'') :
    Extends map map'' log log'' := by
  intro changes hlog
  obtain ⟨added, hlog', hreverts⟩ := h changes hlog
  obtain ⟨added', hlog'', hreverts'⟩ := h' _ hlog'
  refine ⟨added ++ added', by rw [hlog'', List.append_assoc], ?_⟩
  rw [List.map_append]
  exact hreverts.trans hreverts'

/-- A logged write. -/
theorem Extends.insert (key : ℕ) (value : Constant) :
    Extends map (map.insert key value) log (logChange log key (map.lookup key)) := by
  rintro changes rfl
  refine ⟨[⟨key, (map.lookup key).getD .unknown, (map.lookup key).isNone⟩], rfl, ?_⟩
  have hentry : Change.entry ⟨key, (map.lookup key).getD .unknown, (map.lookup key).isNone⟩ =
      (key, view map key) := by
    unfold Change.entry view
    cases map.lookup key <;> rfl
  rw [List.map_singleton, hentry, view_insert]
  exact Reverts.write _ _ _

/-- A record is one logged write, or none. -/
theorem recordConstant_extends (wasEmpty : Bool) (key : ℕ) (value : Constant) :
    Extends map (recordConstant wasEmpty map log key value).1 log
      (recordConstant wasEmpty map log key value).2 := by
  unfold recordConstant
  split
  · exact .refl
  · split_ifs
    · exact .refl
    · split
      next old hfind =>
        rw [← hfind]
        exact .insert key .unknown
      next => exact .refl
  · exact .insert key value

end Extends

/-! ### The walk -/

/-- Both maps and their logs go on. -/
structure Visitor.Extends (v v' : Visitor) : Prop where
  exprs : Compile.Extends v.constants v'.constants v.exprChangeLog v'.exprChangeLog
  locals : Compile.Extends v.locals v'.locals v.localChangeLog v'.localChangeLog

/-- A part of the walk that logs what it writes. -/
def Logs {α : Type} (step : Visit α) : Prop := ∀ v : Visitor, v.Extends (step v).2

namespace Logs

variable {α β : Type} {step : Visit α} {next : α → Visit β}

theorem pure (a : α) : Logs (Pure.pure a : Visit α) := fun _ => ⟨.refl, .refl⟩

theorem get : Logs (MonadState.get : Visit Visitor) := fun _ => ⟨.refl, .refl⟩

theorem bind (h : Logs step) (h' : ∀ a, Logs (next a)) : Logs (step >>= next) := fun v =>
  ⟨(h v).exprs.trans (h' _ _).exprs, (h v).locals.trans (h' _ _).locals⟩

theorem recordExpr (key : ExprId) (value : Constant) : Logs (Compile.recordExpr key value) :=
  fun _ => ⟨recordConstant_extends _ _ _, .refl⟩

theorem recordLocal (key : LocalId) (value : Constant) : Logs (Compile.recordLocal key value) :=
  fun _ => ⟨.refl, recordConstant_extends _ _ _⟩

theorem recordValue (var : LocalId) (value : Constant) : Logs (Compile.recordValue var value) := by
  unfold Compile.recordValue
  refine get.bind fun v => ?_
  split_ifs
  · exact pure _
  · have hset : ∀ constant, Logs (setConstant var constant) := fun _ _ => ⟨.refl, .refl⟩
    split
    · exact (hset _).bind fun _ => fun _ => ⟨.refl, .refl⟩
    · exact (hset _).bind fun _ => recordLocal _ _

/-- A result that is recorded and returned. -/
theorem recorded (key : ExprId) (value result : Constant) :
    Logs (Compile.recordExpr key value >>= fun _ => Pure.pure result) :=
  (recordExpr key value).bind fun _ => pure _

theorem forM (vars : List LocalId) (value : Constant) :
    Logs (vars.forM fun var => Compile.recordValue var value) := by
  induction vars with
  | nil => exact pure _
  | cons var vars ih =>
    exact (recordValue var value).bind fun _ => ih

end Logs

variable (options : Options)

mutual

/-- **The walk.**  Whatever the tree is, every write of a constant is logged. -/
theorem analyze_logs : ∀ expr, Logs (analyze options expr)
  | .group id expr | .typeAssertion id expr | .instantiate id expr => by
    unfold analyze
    exact (analyze_logs expr).bind fun _ => .recorded _ _ _
  | .constantNil id | .constantBool id _ | .constantNumber id _ | .constantInteger id _
  | .constantString id _ | .global id _ | .varargs id | .error id => by
    unfold analyze
    exact .recorded _ _ _
  | .var id var => by
    unfold analyze
    exact Logs.get.bind fun _ => .recorded _ _ _
  | .call id func args => by
    unfold analyze
    exact (analyze_logs func).bind fun _ => (analyzeList_logs args).bind fun _ => .recorded _ _ _
  | .indexName id expr index => by
    unfold analyze
    exact (analyze_logs expr).bind fun _ => Logs.get.bind fun _ => .recorded _ _ _
  | .indexExpr id expr index => by
    unfold analyze
    exact (analyze_logs index).bind fun _ => (analyze_logs expr).bind fun _ =>
      Logs.get.bind fun _ => .recorded _ _ _
  | .function id body => by
    unfold analyze
    exact (visitStat_logs body).bind fun _ => .recorded _ _ _
  | .table id items => by
    unfold analyze
    refine (analyzeItems_logs items ∅).bind fun props => Logs.get.bind fun v => ?_
    split_ifs
    · exact Logs.bind (fun _ => ⟨.refl, .refl⟩) fun _ => .recorded _ _ _
    · exact .recorded _ _ _
  | .unary id op expr => by
    unfold analyze
    exact (analyze_logs expr).bind fun _ => .recorded _ _ _
  | .binary id op left right => by
    unfold analyze
    exact (analyze_logs left).bind fun _ => (analyze_logs right).bind fun _ => .recorded _ _ _
  | .ifElse id condition trueExpr falseExpr => by
    unfold analyze
    exact (analyze_logs condition).bind fun _ => (analyze_logs trueExpr).bind fun _ =>
      (analyze_logs falseExpr).bind fun _ => .recorded _ _ _
  | .interpString id strings expressions => by
    unfold analyze
    exact (analyzeList_logs expressions).bind fun _ => Logs.get.bind fun _ => .recorded _ _ _

theorem analyzeList_logs : ∀ exprs, Logs (analyzeList options exprs)
  | [] => by
    unfold analyzeList
    exact .pure _
  | expr :: rest => by
    unfold analyzeList
    exact (analyze_logs expr).bind fun _ => (analyzeList_logs rest).bind fun _ => .pure _

theorem analyzeItems_logs : ∀ items props, Logs (analyzeItems options items props)
  | [], props => by
    unfold analyzeItems
    exact .pure _
  | .value value :: rest, props => by
    unfold analyzeItems
    exact (analyze_logs value).bind fun _ => analyzeItems_logs rest props
  | .keyed key value :: rest, props => by
    unfold analyzeItems
    exact (analyze_logs value).bind fun _ => (analyze_logs key).bind fun _ =>
      analyzeItems_logs rest _

theorem visitStat_logs : ∀ stat, Logs (visitStat options stat)
  | .other children => by
    unfold visitStat
    exact visitChildren_logs children
  | .locals vars values => by
    unfold visitStat
    refine (visitValues_logs values vars).bind fun _ => ?_
    split_ifs
    · exact .forM _ _
    · exact .pure _

theorem visitValues_logs : ∀ values vars, Logs (visitValues options values vars)
  | [], vars => by
    unfold visitValues
    exact .pure _
  | value :: values, [] => by
    rw [visitValues]
    exact (analyze_logs value).bind fun _ => visitValues_logs values []
  | value :: values, var :: vars => by
    -- an awaited value records no constant for its variable
    unfold visitValues
    split
    next h => cases h
    next id expr values' _ vars' h h' =>
      obtain ⟨rfl, rfl⟩ := List.cons.inj h
      obtain ⟨rfl, rfl⟩ := List.cons.inj h'
      exact (analyze_logs expr).bind fun _ => visitValues_logs values vars
    next h h' =>
      obtain ⟨rfl, rfl⟩ := List.cons.inj h
      obtain ⟨rfl, rfl⟩ := List.cons.inj h'
      refine (analyze_logs value).bind fun arg => ?_
      dsimp only
      split
      · exact (Logs.recordValue _ _).bind fun _ => visitValues_logs values vars
      · exact (Logs.recordValue _ _).bind fun _ => visitValues_logs values vars
    next h => cases h

theorem visitChildren_logs : ∀ children, Logs (visitChildren options children)
  | [] => by
    unfold visitChildren
    exact .pure _
  | .expr expr :: rest => by
    unfold visitChildren
    exact (analyze_logs expr).bind fun _ => visitChildren_logs rest
  | .stat stat :: rest => by
    unfold visitChildren
    exact (visitStat_logs stat).bind fun _ => visitChildren_logs rest

end

/-! ### Undoing a fold -/

variable (constants : Map ExprId) (variableOf : LocalId → Variable) (locals : Map LocalId)
  (root : Child)

/-- `foldConstants` with two logs. -/
def loggedFold (exprs locs : List Change) : Visitor :=
  foldConstants options constants variableOf locals root (some exprs) (some locs)

/-- Undoing after a fold undoes what was in the logs before it. -/
theorem undo_after_fold (exprs locs : List Change) :
    ∃ exprLog localLog,
      (loggedFold options constants variableOf locals root exprs locs).exprChangeLog =
        some exprLog ∧
      (loggedFold options constants variableOf locals root exprs locs).localChangeLog =
        some localLog ∧
      view (undoChanges (loggedFold options constants variableOf locals root exprs locs).constants
        exprLog) = view (undoChanges constants exprs) ∧
      view (undoChanges (loggedFold options constants variableOf locals root exprs locs).locals
        localLog) = view (undoChanges locals locs) := by
  have hext : Visitor.Extends _ (loggedFold options constants variableOf locals root exprs locs) :=
    visitChildren_logs options [root] _
  obtain ⟨added, hlog, hreverts⟩ := hext.exprs exprs rfl
  obtain ⟨added', hlog', hreverts'⟩ := hext.locals locs rfl
  refine ⟨exprs ++ added, locs ++ added', hlog, hlog', ?_, ?_⟩
  · rw [view_undoChanges, view_undoChanges, List.map_append]
    exact hreverts.undo_eq
  · rw [view_undoChanges, view_undoChanges, List.map_append]
    exact hreverts'.undo_eq

/-- **Fold undo.**  After a fold with empty logs `undoChanges` restores both maps, an absent entry
being the same as an unknown one. -/
theorem fold_undo_restores :
    ∃ exprLog localLog,
      (loggedFold options constants variableOf locals root [] []).exprChangeLog = some exprLog ∧
      (loggedFold options constants variableOf locals root [] []).localChangeLog = some localLog ∧
      view (undoChanges (loggedFold options constants variableOf locals root [] []).constants
        exprLog) = view constants ∧
      view (undoChanges (loggedFold options constants variableOf locals root [] []).locals
        localLog) = view locals :=
  undo_after_fold options constants variableOf locals root [] []

/-- A log that is not empty is undone as a whole: here the entry of expression 0 is older. -/
theorem older_changes_undone : ¬ ∀ (options : Options) (constants : Map ExprId)
    (variableOf : LocalId → Variable) (locals : Map LocalId) (root : Child)
    (exprs locs exprLog : List Change),
    (loggedFold options constants variableOf locals root exprs locs).exprChangeLog =
      some exprLog →
    view (undoChanges (loggedFold options constants variableOf locals root exprs locs).constants
      exprLog) = view constants := by
  intro h
  have h0 := h ⟨fun _ _ => .unknown, fun _ _ _ => .unknown, fun _ _ => .unknown,
      fun _ _ => .unknown, false, fun _ => none, fun _ => false⟩
    ((∅ : Map ExprId).insert 0 .nil) (fun _ => ⟨false, false⟩) ∅ (.stat (.other []))
    [⟨0, .unknown, true⟩] [] [⟨0, .unknown, true⟩] rfl
  exact absurd (congrFun h0 0) (by decide)

end Compile

end Jaci
