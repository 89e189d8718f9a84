import Mathlib.Data.Finset.Basic
import Mathlib.Data.List.Nodup
import Mathlib.Tactic

/-!
# Rcc.Lib.Window

Windows of a circular list: the `k` members from some position on, round the end of the list.

* `window_succ`: a window is its first member and the shorter window behind it;
* `window_rotate`: a window moves on by one position if its first member goes out and the member
  behind its last one comes in.
-/

namespace Window

variable {α : Type} {l : List α} {start k : Nat} {x : α}

/-- Two positions of a window no longer than the list hold different members. -/
theorem offset_eq_zero (hl : l.Nodup) {j : Nat} (hj : j < l.length)
    (hx : l[start % l.length]? = some x) (hx' : l[(start + j) % l.length]? = some x) : j = 0 := by
  have hpos : 0 < l.length := by omega
  have hmod := (List.getElem?_inj (Nat.mod_lt (start + j) hpos) hl).mp (hx'.trans hx.symm)
  have hdvd : l.length ∣ j := by
    rw [← Nat.modEq_zero_iff_dvd]
    exact Nat.ModEq.add_left_cancel' start (by simpa [Nat.ModEq] using hmod)
  exact Nat.eq_zero_of_dvd_of_lt hdvd hj

variable [DecidableEq α]

/-- The `k` members from position `start` on. -/
def window (l : List α) (start k : Nat) : Finset α :=
  ((List.range k).filterMap fun j => l[(start + j) % l.length]?).toFinset

theorem mem_window : x ∈ window l start k ↔ ∃ j < k, l[(start + j) % l.length]? = some x := by
  simp [window]

/-- Positions count up to the length of the list. -/
theorem window_mod : window l (start % l.length) k = window l start k := by
  ext x
  simp [mem_window]

theorem window_succ (hx : l[start % l.length]? = some x) :
    window l start (k + 1) = insert x (window l (start + 1) k) := by
  ext y
  rw [Finset.mem_insert, mem_window, mem_window]
  constructor
  · rintro ⟨j, hj, hy⟩
    cases j with
    | zero => exact .inl (Option.some.inj (hy.symm.trans hx))
    | succ j => exact .inr ⟨j, by omega, by rwa [show start + 1 + j = start + (j + 1) by omega]⟩
  · rintro (rfl | ⟨j, hj, hy⟩)
    · exact ⟨0, by omega, hx⟩
    · exact ⟨j + 1, by omega, by rwa [show start + (j + 1) = start + 1 + j by omega]⟩

/-- **One position on.** -/
theorem window_rotate (hl : l.Nodup) (hk : 0 < k) (hkl : k ≤ l.length) {leaving entering : α}
    (hout : l[start % l.length]? = some leaving)
    (hin : l[(start + k) % l.length]? = some entering) :
    insert entering ((window l start k).erase leaving) = window l (start + 1) k := by
  ext x
  rw [Finset.mem_insert, Finset.mem_erase, mem_window, mem_window]
  constructor
  · rintro (rfl | ⟨hne, j, hj, hx⟩)
    · exact ⟨k - 1, by omega, by rwa [show start + 1 + (k - 1) = start + k by omega]⟩
    · obtain ⟨j, rfl⟩ : ∃ j', j = j' + 1 := by
        refine ⟨j - 1, ?_⟩
        rcases Nat.eq_zero_or_pos j with rfl | hpos
        · exact absurd (Option.some.inj (hx.symm.trans hout)) hne
        · omega
      exact ⟨j, by omega, by rwa [show start + 1 + j = start + (j + 1) by omega]⟩
  · rintro ⟨j, hj, hx⟩
    rw [show start + 1 + j = start + (j + 1) by omega] at hx
    rcases Nat.lt_or_ge (j + 1) k with hlt | hge
    · refine .inr ⟨?_, j + 1, hlt, hx⟩
      rintro rfl
      have := offset_eq_zero hl (by omega) hout hx
      omega
    · rw [show j + 1 = k by omega] at hx
      exact .inl (Option.some.inj (hx.symm.trans hin))

end Window
