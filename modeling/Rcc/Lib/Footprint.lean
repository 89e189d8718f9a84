import Mathlib

/-!
# Rcc.Lib.Footprint

Computations on a store that give a reply: which cells they read, which they write, and when the
order of two of them does not matter.
-/

variable {κ α ρ ρ' : Type}

/-- A computation on a store. -/
abbrev StoreOp (κ α ρ : Type) := (κ → α) → ρ × (κ → α)

/-- Outside `writes` nothing changes, and what happens depends on `reads` alone. -/
structure Footprint (f : StoreOp κ α ρ) (reads writes : Set κ) : Prop where
  frame : ∀ s, ∀ k ∉ writes, (f s).2 k = s k
  reply : ∀ s s', (∀ k ∈ reads, s k = s' k) → (f s).1 = (f s').1
  effect : ∀ s s', (∀ k ∈ reads, s k = s' k) → ∀ k ∈ writes, (f s).2 k = (f s').2 k

namespace Footprint

variable {f : StoreOp κ α ρ} {g : StoreOp κ α ρ'} {r w r' w' : Set κ}

/-- What another computation does not touch is read alike before and after it. -/
theorem agree (hg : Footprint g r' w') (h : Disjoint w' r) (s : κ → α) : ∀ k ∈ r, (g s).2 k = s k :=
  fun k hk => hg.frame s k fun hw => Set.disjoint_left.mp h hw hk

/-- Computations that do not write what the other reads or writes give the same replies and the
same store in either order. -/
theorem commute (hf : Footprint f r w) (hg : Footprint g r' w') (h₁ : Disjoint w r')
    (h₂ : Disjoint w' r) (h : Disjoint w w') (s : κ → α) :
    (f (g s).2).1 = (f s).1 ∧ (g (f s).2).1 = (g s).1 ∧ (g (f s).2).2 = (f (g s).2).2 := by
  refine ⟨hf.reply _ _ (hg.agree h₂ s), hg.reply _ _ (hf.agree h₁ s), funext fun k => ?_⟩
  by_cases hw : k ∈ w
  · have hw' : k ∉ w' := Set.disjoint_left.mp h hw
    rw [hg.frame _ k hw', hf.effect _ _ (hg.agree h₂ s) k hw]
  · rw [hf.frame _ k hw]
    by_cases hw' : k ∈ w'
    · exact hg.effect _ _ (hf.agree h₁ s) k hw'
    · rw [hg.frame _ k hw', hg.frame _ k hw', hf.frame _ k hw]

end Footprint
