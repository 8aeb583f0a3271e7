import Mathlib.Logic.Function.Basic

/-!
# Undo logs

A log records, for every write to a store, the value that was there before.  Replaying the log
backwards gives the store before the writes, also when a key was written several times.

* `UndoLog.undo` : the replay, from the last entry to the first;
* `UndoLog.Reverts` : a log that takes one store back to another one;
* `UndoLog.Reverts.write`, `UndoLog.Reverts.trans` : one logged write, and one log after another.
-/

namespace UndoLog

variable {κ α : Type} [DecidableEq κ]

/-- Replay a log backwards. -/
def undo (log : List (κ × α)) (store : κ → α) : κ → α :=
  log.foldr (fun change store => Function.update store change.1 change.2) store

@[simp] theorem undo_nil (store : κ → α) : undo [] store = store := rfl

@[simp] theorem undo_append (log log' : List (κ × α)) (store : κ → α) :
    undo (log ++ log') store = undo log (undo log' store) := List.foldr_append

@[simp] theorem undo_singleton (k : κ) (a : α) (store : κ → α) :
    undo [(k, a)] store = Function.update store k a := rfl

/-- The log takes the later store back to the earlier one. -/
def Reverts (log : List (κ × α)) (later earlier : κ → α) : Prop := undo log later = earlier

namespace Reverts

variable {log log' : List (κ × α)} {s t u : κ → α}

theorem refl (s : κ → α) : Reverts [] s s := undo_nil s

/-- A write is taken back by the value that was there. -/
theorem write (s : κ → α) (k : κ) (a : α) :
    Reverts [(k, s k)] (Function.update s k a) s := by
  rw [Reverts, undo_singleton, Function.update_idem, Function.update_eq_self]

/-- Logs of writes in a row are replayed in the other order. -/
theorem trans (h : Reverts log t s) (h' : Reverts log' u t) : Reverts (log ++ log') u s := by
  rw [Reverts, undo_append, h', h]

/-- Undoing a longer log, the earlier part is undone where it ended. -/
theorem undo_eq (h : Reverts log' t s) : undo (log ++ log') t = undo log s := by
  rw [undo_append, h]

end Reverts

end UndoLog
