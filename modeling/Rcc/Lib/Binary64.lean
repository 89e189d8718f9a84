import Mathlib.Data.Int.Log
import Mathlib.Data.Rat.Floor
import Mathlib.Tactic

/-!
# Rcc.Lib.Binary64

Rounding to the nearest double, ties to even, on the rationals: numbers of 53 significant bits and
any exponent. Signed zeros, infinities and subnormal numbers are not represented.

* `round_mono` — rounding keeps the order, so a comparison of rounded values speaks for the exact
  ones;
* `round_natCast`, `foldl_round_add` — whole numbers up to `2 ^ 53` are doubles, and so are their
  sums.
-/

namespace Binary64

open List

/-! ## The nearest integer -/

variable {a b : ℚ}

variable (q : ℚ)

/-- The nearest integer, the even one of two. -/
def roundEven : ℤ :=
  if q - ⌊q⌋ < 1 / 2 then ⌊q⌋
  else if 1 / 2 < q - ⌊q⌋ then ⌊q⌋ + 1
  else if ⌊q⌋ % 2 = 0 then ⌊q⌋
  else ⌊q⌋ + 1

theorem floor_le_roundEven : ⌊q⌋ ≤ roundEven q := by
  unfold roundEven
  split_ifs <;> omega

theorem roundEven_le_floor_add_one : roundEven q ≤ ⌊q⌋ + 1 := by
  unfold roundEven
  split_ifs <;> omega

theorem roundEven_mono (h : a ≤ b) : roundEven a ≤ roundEven b := by
  rcases lt_or_eq_of_le (Int.floor_mono h) with hlt | heq
  · calc roundEven a ≤ ⌊a⌋ + 1 := roundEven_le_floor_add_one a
      _ ≤ ⌊b⌋ := hlt
      _ ≤ roundEven b := floor_le_roundEven b
  · -- on the same side of the same integers, only the fractions are compared
    have hfract : a - ⌊a⌋ ≤ b - ⌊a⌋ := by linarith
    unfold roundEven
    rw [← heq]
    split_ifs <;> first | omega | (exfalso; linarith)

theorem roundEven_intCast (n : ℤ) : roundEven n = n := by
  simp [roundEven]

/-! ## Rounding -/

/-- The unit in the last place of a double as large as `q`. -/
def ulp : ℚ := 2 ^ (Int.log 2 q - 52)

def roundPos : ℚ := roundEven (q / ulp q) * ulp q

/-- The double nearest to `q`. -/
def round : ℚ := if q < 0 then -roundPos (-q) else if q = 0 then 0 else roundPos q

theorem ulp_pos : 0 < ulp q := by
  unfold ulp
  positivity

theorem pow_mul_ulp (k : ℕ) : (2 ^ k : ℚ) * ulp q = 2 ^ (Int.log 2 q + k - 52) := by
  rw [ulp, ← zpow_natCast, ← zpow_add₀ (by norm_num)]
  congr 1
  ring

/-- Rounding does not leave the power of two below. -/
theorem zpow_log_le_roundPos {q : ℚ} (hq : 0 < q) : (2 : ℚ) ^ Int.log 2 q ≤ roundPos q := by
  have hlow : ((2 ^ 52 : ℤ) : ℚ) ≤ q / ulp q := by
    rw [le_div_iff₀ (ulp_pos q), Int.cast_pow, Int.cast_ofNat, pow_mul_ulp,
      show Int.log 2 q + (52 : ℕ) - 52 = Int.log 2 q by simp]
    exact_mod_cast Int.zpow_log_le_self one_lt_two hq
  have hround := roundEven_mono hlow
  rw [roundEven_intCast] at hround
  calc (2 : ℚ) ^ Int.log 2 q = 2 ^ 52 * ulp q := by rw [pow_mul_ulp]; simp
    _ ≤ roundEven (q / ulp q) * ulp q := by
        refine mul_le_mul_of_nonneg_right ?_ (ulp_pos q).le
        exact_mod_cast hround

/-- Nor the one above. -/
theorem roundPos_le_zpow_log_succ : roundPos q ≤ (2 : ℚ) ^ (Int.log 2 q + 1) := by
  have hhigh : q / ulp q ≤ ((2 ^ 53 : ℤ) : ℚ) := by
    rw [div_le_iff₀ (ulp_pos q), Int.cast_pow, Int.cast_ofNat, pow_mul_ulp,
      show Int.log 2 q + (53 : ℕ) - 52 = Int.log 2 q + 1 by push_cast; ring]
    exact_mod_cast (Int.lt_zpow_succ_log_self one_lt_two q).le
  have hround := roundEven_mono hhigh
  rw [roundEven_intCast] at hround
  calc (roundEven (q / ulp q) : ℚ) * ulp q ≤ 2 ^ 53 * ulp q := by
        refine mul_le_mul_of_nonneg_right ?_ (ulp_pos q).le
        exact_mod_cast hround
    _ = 2 ^ (Int.log 2 q + 1) := by
        rw [pow_mul_ulp]
        congr 1
        push_cast
        ring

theorem roundPos_mono (ha : 0 < a) (h : a ≤ b) : roundPos a ≤ roundPos b := by
  rcases lt_or_eq_of_le (Int.log_mono_right ha h : Int.log 2 a ≤ Int.log 2 b) with hlt | heq
  · calc roundPos a ≤ (2 : ℚ) ^ (Int.log 2 a + 1) := roundPos_le_zpow_log_succ a
      _ ≤ 2 ^ Int.log 2 b := zpow_le_zpow_right₀ (by norm_num) hlt
      _ ≤ roundPos b := zpow_log_le_roundPos (ha.trans_le h)
  · have hulp : ulp a = ulp b := by rw [ulp, ulp, heq]
    rw [roundPos, roundPos, hulp]
    refine mul_le_mul_of_nonneg_right ?_ (ulp_pos b).le
    exact_mod_cast roundEven_mono (div_le_div_of_nonneg_right h (ulp_pos b).le)

/-- Rounding keeps the order of numbers that are not negative. -/
theorem round_mono (ha : 0 ≤ a) (h : a ≤ b) : round a ≤ round b := by
  rw [round, round, if_neg ha.not_gt, if_neg (ha.trans h).not_gt]
  rcases ha.eq_or_lt with rfl | hpos
  · rw [if_pos rfl]
    split_ifs with hb
    · exact le_rfl
    · exact le_trans (by positivity) (zpow_log_le_roundPos (lt_of_le_of_ne h (Ne.symm hb)))
  · rw [if_neg hpos.ne', if_neg (hpos.trans_le h).ne']
    exact roundPos_mono hpos h

/-- A comparison that holds of the doubles holds of the numbers they stand for. -/
theorem lt_of_round_lt_round (hb : 0 ≤ b) (h : round a < round b) : a < b := by
  by_contra hle
  exact absurd (round_mono hb (not_lt.mp hle)) h.not_ge

/-- Whole numbers up to `2 ^ 53` are doubles. -/
theorem round_natCast {n : ℕ} (hn : n ≤ 2 ^ 53) : round n = n := by
  rcases Nat.eq_zero_or_pos n with rfl | hpos
  · simp [round]
  have hposq : (0 : ℚ) < n := by exact_mod_cast hpos
  rw [round, if_neg hposq.not_gt, if_neg hposq.ne']
  obtain ⟨k, hk⟩ : ∃ k : ℤ, (n : ℚ) / ulp n = k := by
    rw [ulp, Int.log_natCast]
    rcases hn.lt_or_eq with hlt | rfl
    · -- the last bit of the number is above the last bit of its double
      have hlog : Nat.log 2 n ≤ 52 := by
        have := Nat.log_lt_of_lt_pow hpos.ne' hlt
        omega
      refine ⟨n * 2 ^ (52 - Nat.log 2 n), ?_⟩
      rw [show (Nat.log 2 n : ℤ) - 52 = -((52 - Nat.log 2 n : ℕ) : ℤ) by omega, zpow_neg,
        zpow_natCast, div_inv_eq_mul]
      push_cast
      rfl
    · refine ⟨2 ^ 52, ?_⟩
      rw [Nat.log_pow one_lt_two]
      norm_num
  rw [roundPos, hk, roundEven_intCast, ← hk, div_mul_cancel₀ _ (ulp_pos _).ne']

theorem foldl_round_add {ι : Type} (f : ι → ℚ) (w : ι → ℕ) (l : List ι) (hf : ∀ i ∈ l, f i = w i)
    (t : ℕ) (hsum : t + (l.map w).sum ≤ 2 ^ 53) :
    l.foldl (fun t i => round (t + f i)) (t : ℚ) = (t + (l.map w).sum : ℕ) := by
  induction l generalizing t with
  | nil => simp
  | cons i l ih =>
    rw [map_cons, sum_cons] at hsum
    have hstep : round ((t : ℚ) + f i) = (t + w i : ℕ) := by
      rw [hf i mem_cons_self, ← Nat.cast_add]
      exact round_natCast (by omega)
    rw [foldl_cons, hstep, ih (fun j hj => hf j (mem_cons_of_mem _ hj)) _ (by omega),
      map_cons, sum_cons, add_assoc]

end Binary64
