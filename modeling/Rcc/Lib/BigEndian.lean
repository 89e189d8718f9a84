import Mathlib.Data.Nat.Digits.Lemmas
import Mathlib.Tactic

/-!
# Rcc.Lib.BigEndian

Numbers as big-endian byte strings.

* `encode` — the shortest byte string of a number, `bytesRequired` its length;
* `decode` — the number a byte string stands for, whatever its leading zeros;
* `decode_encode`, `encode_decode` — they are inverse to each other but for leading zeros;
* `fixed` — the byte string of a given length.
-/

namespace BigEndian

open List

/-- The shifts by eight bits until nothing is left. -/
def bytesRequired (n : Nat) : Nat := (Nat.digits 256 n).length

def encode (n : Nat) : List UInt8 := ((Nat.digits 256 n).map UInt8.ofNat).reverse

/-- Byte by byte, `(n << 8) | b`. -/
def decode (bs : List UInt8) : Nat := bs.foldl (fun n b => 256 * n + b.toNat) 0

/-- There is a word of 32 bytes. -/
instance neZero_word : NeZero (2 ^ 256) := ⟨pow_ne_zero 256 two_ne_zero⟩

variable {n k : Nat} {bs : List UInt8}

@[simp] theorem encode_zero : encode 0 = [] := by simp [encode]

@[simp] theorem decode_nil : decode [] = 0 := rfl

@[simp] theorem decode_concat (b : UInt8) : decode (bs ++ [b]) = 256 * decode bs + b.toNat := by
  simp [decode]

@[simp] theorem decode_singleton (b : UInt8) : decode [b] = b.toNat := by simp [decode]

@[simp] theorem length_encode (n : Nat) : (encode n).length = bytesRequired n := by
  simp [encode, bytesRequired]

theorem bytesRequired_le_iff : bytesRequired n ≤ k ↔ n < 256 ^ k :=
  Nat.digits_length_le_iff (by norm_num) n

theorem bytesRequired_pos (hn : n ≠ 0) : 0 < bytesRequired n := by
  by_contra hzero
  have := bytesRequired_le_iff.mp (Nat.le_of_not_lt hzero)
  omega

theorem bytesRequired_succ (hn : n ≠ 0) : bytesRequired n = bytesRequired (n / 256) + 1 := by
  rw [bytesRequired, Nat.digits_def' (by norm_num) (by omega)]
  rfl

/-- The last byte is the remainder, the others are the quotient. -/
theorem encode_eq_concat (hn : n ≠ 0) : encode n = encode (n / 256) ++ [UInt8.ofNat n] := by
  have hmod : UInt8.ofNat (n % 256) = UInt8.ofNat n := by
    apply UInt8.toNat_inj.mp
    simp
  rw [encode, Nat.digits_def' (by norm_num) (by omega), map_cons, reverse_cons, hmod]
  rfl

theorem encode_of_lt (hn : n ≠ 0) (hlt : n < 256) : encode n = [UInt8.ofNat n] := by
  rw [encode_eq_concat hn, Nat.div_eq_of_lt hlt, encode_zero, nil_append]

/-! ### There and back -/

@[simp] theorem decode_encode (n : Nat) : decode (encode n) = n := by
  induction n using Nat.strong_induction_on with
  | h n ih =>
    rcases Nat.eq_zero_or_pos n with rfl | hpos
    · simp
    · rw [encode_eq_concat (by omega), decode_concat, ih (n / 256) (by omega), UInt8.toNat_ofNat']
      omega

theorem decode_lt (bs : List UInt8) : decode bs < 256 ^ bs.length := by
  induction bs using List.reverseRecOn with
  | nil => simp
  | append_singleton bs b ih =>
    have hb := b.toNat_lt
    rw [decode_concat, length_append, length_singleton]
    omega

/-- A byte string without a leading zero is the shortest one of its number. -/
theorem encode_decode (hbs : bs.head? ≠ some 0) : encode (decode bs) = bs := by
  induction bs using List.reverseRecOn with
  | nil => simp
  | append_singleton bs b ih =>
    have hinit : encode (decode bs) = bs := by
      refine ih fun hzero => hbs ?_
      rw [List.head?_append, hzero]
      rfl
    have hb := b.toNat_lt
    have hne : 256 * decode bs + b.toNat ≠ 0 := by
      intro hzero
      have hd : decode bs = 0 := by omega
      rw [hd] at hinit
      obtain rfl := hinit
      have : b = 0 := UInt8.toNat_inj.mp (by simpa using hzero)
      exact hbs (by simp [this])
    rw [decode_concat, encode_eq_concat hne,
      show (256 * decode bs + b.toNat) / 256 = decode bs by omega]
    congr 2
    apply UInt8.toNat_inj.mp
    rw [UInt8.toNat_ofNat']
    omega

/-- No leading zero. -/
theorem head?_encode_ne (n : Nat) : (encode n).head? ≠ some 0 := by
  induction n using Nat.strong_induction_on with
  | h n ih =>
    rcases Nat.eq_zero_or_pos n with rfl | hpos
    · simp
    · rw [encode_eq_concat (by omega), List.head?_append]
      cases hhead : (encode (n / 256)).head? with
      | some b => exact fun hzero => ih (n / 256) (by omega) (hhead.trans hzero)
      | none =>
        have hnil := List.head?_eq_none_iff.mp hhead
        have hdiv : n / 256 = 0 := by rw [← decode_encode (n / 256), hnil, decode_nil]
        intro hzero
        have hn : (UInt8.ofNat n).toNat = 0 := by
          rw [Option.some.inj hzero]
          rfl
        rw [UInt8.toNat_ofNat'] at hn
        omega

/-! ### Fixed length -/

/-- From the last byte to the first, as many as there is room for. -/
def fixed : Nat → Nat → List UInt8
  | 0, _ => []
  | k + 1, n => fixed k (n / 256) ++ [UInt8.ofNat n]

@[simp] theorem length_fixed (k n : Nat) : (fixed k n).length = k := by
  induction k generalizing n with
  | zero => rfl
  | succ k ih => simp [fixed, ih]

theorem decode_fixed (h : n < 256 ^ k) : decode (fixed k n) = n := by
  induction k generalizing n with
  | zero =>
    obtain rfl : n = 0 := by simpa using h
    rfl
  | succ k ih =>
    have hdiv : n / 256 < 256 ^ k := by
      omega
    rw [fixed, decode_concat, ih hdiv, UInt8.toNat_ofNat']
    omega

end BigEndian
