import Mathlib.Order.Basic

/-!
# Rcc.Lib.Memo

A field that remembers the result of a computation. Some values of the field stand for "not
computed yet" (`unset`).

* `ask` — the field, or the result of the computation if there is none in the field;
* `Fresh` — the field does not remember anything else than `value`.
-/

namespace Memo

variable {α : Type} (unset : α → Prop) {memo value : α}

def Fresh (memo value : α) : Prop := unset memo ∨ memo = value

variable [DecidablePred unset]

def ask (memo value : α) : α := if unset memo then value else memo

/-- A memo that is not stale answers with the value. -/
theorem ask_eq (h : Fresh unset memo value) : ask unset memo value = value := by
  rcases h with h | rfl
  · exact if_pos h
  · exact ite_self _

theorem fresh_ask (h : Fresh unset memo value) : Fresh unset (ask unset memo value) value :=
  Or.inr (ask_eq unset h)

end Memo
