import Mathlib.Data.List.Infix

/-!
# Rcc.Lib.Journal

A value with a change log. A *savepoint* is the length of the log; rolling back to a savepoint
undoes the changes logged since. What a change overwrote is kept whole, so that a rollback
restores exactly what the value was when the log had that length.

* `Journal.change` — a logged change;
* `Journal.rollback` — undo the changes beyond a savepoint;
* `Journal.Extends` — `j'` continues `j`: no rollback has gone below the savepoint of `j`;
* `Journal.Extends.rollback_eq` — then rolling `j'` back to that savepoint gives `j`.
-/

/-- A value, and what it was before each logged change, newest first. -/
structure Journal (σ : Type) where
  now : σ
  past : List σ

namespace Journal

open List

variable {σ : Type} {j j' : Journal σ}

def change (f : σ → σ) (j : Journal σ) : Journal σ := ⟨f j.now, j.now :: j.past⟩

def savepoint (j : Journal σ) : Nat := j.past.length

/-- The loop of a rollback, on the value and the log. -/
def undo (s : Nat) (now : σ) : List σ → Journal σ
  | [] => ⟨now, []⟩
  | old :: past => if s ≤ past.length then undo s old past else ⟨now, old :: past⟩

def rollback (s : Nat) (j : Journal σ) : Journal σ := undo s j.now j.past

@[simp] theorem now_change (f : σ → σ) (j : Journal σ) : (j.change f).now = f j.now := rfl

/-- Every value the journal has had, newest first. -/
def history (j : Journal σ) : List σ := j.now :: j.past

theorem history_injective (h : j.history = j'.history) : j = j' := by
  cases j
  cases j'
  simpa [history] using h

theorem length_history (j : Journal σ) : j.history.length = j.savepoint + 1 := rfl

theorem history_undo (s : Nat) (now : σ) (past : List σ) :
    (undo s now past).history = (now :: past).drop (past.length - s) := by
  induction past generalizing now with
  | nil => simp [undo, history]
  | cons old past ih =>
    unfold undo
    split_ifs with hle
    · rw [ih, length_cons, Nat.succ_sub hle, drop_succ_cons]
    · rw [length_cons, Nat.sub_eq_zero_of_le (by omega)]
      rfl

theorem history_rollback (s : Nat) (j : Journal σ) :
    (j.rollback s).history = j.history.drop (j.savepoint - s) := history_undo s j.now j.past

/-- Nothing is undone if nothing was logged since the savepoint. -/
theorem rollback_of_le {s : Nat} (h : j.savepoint ≤ s) : j.rollback s = j := by
  refine history_injective ?_
  rw [history_rollback, Nat.sub_eq_zero_of_le h, drop_zero]

/-! ### Continuations -/

/-- `j'` comes from `j` by changes and by rollbacks that stop at or above the savepoint of
`j`. -/
def Extends (j j' : Journal σ) : Prop := j.history <:+ j'.history

theorem Extends.refl (j : Journal σ) : j.Extends j := suffix_refl _

theorem Extends.trans {j'' : Journal σ} (h : j.Extends j') (h' : j'.Extends j'') :
    j.Extends j'' := List.IsSuffix.trans h h'

theorem Extends.change (h : j.Extends j') (f : σ → σ) :
    j.Extends (j'.change f) := List.IsSuffix.trans h (suffix_cons _ _)

theorem Extends.savepoint_le (h : j.Extends j') :
    j.savepoint ≤ j'.savepoint := Nat.le_of_succ_le_succ (List.IsSuffix.length_le h)

theorem Extends.rollback (h : j.Extends j') {s : Nat} (hs : j.savepoint ≤ s) :
    j.Extends (j'.rollback s) := by
  unfold Extends
  rw [history_rollback]
  have hle := h.savepoint_le
  refine suffix_of_suffix_length_le h (drop_suffix _ _) ?_
  rw [length_drop, length_history, length_history]
  omega

/-- **Rolling back restores.** -/
theorem Extends.rollback_eq (h : j.Extends j') : j'.rollback j.savepoint = j := by
  have hext : j.Extends (j'.rollback j.savepoint) := h.rollback (Nat.le_refl _)
  have hle := h.savepoint_le
  refine (history_injective (List.IsSuffix.eq_of_length hext ?_)).symm
  rw [history_rollback, length_drop, length_history, length_history]
  omega

end Journal
