import Mathlib.Tactic

/-!
# Rcc.Lib.Except

How a computation that may throw comes to its result.
-/

namespace Except

open List

variable {ε α β : Type} {x : Except ε α} {f : α → Except ε β} {b : β} {a : α}

theorem bind_eq_ok : x >>= f = .ok b ↔ ∃ a, x = .ok a ∧ f a = .ok b := by
  cases x with
  | error e => exact ⟨nofun, fun ⟨_, h, _⟩ => nomatch h⟩
  | ok a => exact ⟨fun h => ⟨a, rfl, h⟩, fun ⟨_, h, h'⟩ => Except.ok.inj h ▸ h'⟩

theorem map_eq_ok {g : α → β} : g <$> x = .ok b ↔ ∃ a, x = .ok a ∧ g a = b := by
  cases x with
  | error e => exact ⟨nofun, fun ⟨_, h, _⟩ => nomatch h⟩
  | ok a => exact ⟨fun h => ⟨a, rfl, Except.ok.inj h⟩, fun ⟨_, h, h'⟩ => by
    cases h
    exact congrArg Except.ok h'⟩

theorem pure_eq_ok {b : α} : (pure a : Except ε α) = .ok b ↔ a = b :=
  ⟨Except.ok.inj, congrArg Except.ok⟩

theorem mapError_eq_ok {ε' : Type} {g : ε → ε'} : x.mapError g = .ok a ↔ x = .ok a := by
  cases x with
  | error e => exact ⟨nofun, nofun⟩
  | ok b => exact ⟨fun h => congrArg _ (Except.ok.inj h), fun h => congrArg _ (Except.ok.inj h)⟩

theorem throw_ne_ok {e : ε} : (throw e : Except ε α) ≠ .ok a := nofun

theorem ok_bind : (.ok a : Except ε α) >>= f = f a := rfl

theorem ite_throw_eq_ok {p : Prop} [Decidable p] {e : ε} :
    (if p then throw e else x) = .ok a ↔ ¬p ∧ x = .ok a := by
  by_cases hp : p <;> simp [hp]

theorem ite_error_eq_ok {p : Prop} [Decidable p] {e : ε} :
    (if p then .error e else x) = .ok a ↔ ¬p ∧ x = .ok a := ite_throw_eq_ok

/-- A loop over the indices of a list whose iterations give its elements. -/
theorem mapM_range_eq {f : Nat → Except ε β} {l : List β}
    (h : ∀ i b, l[i]? = some b → f i = .ok b) : (List.range l.length).mapM f = .ok l := by
  induction l using List.reverseRecOn with
  | nil => rfl
  | append_singleton l b ih =>
    have hl : (List.range l.length).mapM f = .ok l := ih fun i b hb => by
      refine h i b ?_
      rw [List.getElem?_append_left (List.getElem?_eq_some_iff.mp hb).1, hb]
    have hb : f l.length = .ok b := h l.length b (by simp)
    rw [length_append, length_singleton, range_succ, mapM_append, hl]
    simp only [mapM_cons, hb]
    rfl

end Except
