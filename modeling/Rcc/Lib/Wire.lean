import Mathlib.Data.Nat.Bitwise
import Rcc.Lib.Layout

/-!
# Rcc.Lib.Wire

Reading a byte string piece by piece, with the offset kept in a 32-bit counter.

* `bigEndian`, `number` — numbers of a fixed size;
* `Reader`, `take`, `many` — functions that read at the offset and move it; `none` is a read
  beyond the end of the buffer;
* `Reads` — a reader that, where some bytes stand, returns a value and goes behind them. It is
  closed under sequencing (`Reads.bind`) and repetition (`reads_many`), so that a decoder is proved
  along the encoder;
* `bitmap`, `getBit` — flags packed into bytes, the first one in the highest bit.
-/

namespace Wire

open List

/-! ### Numbers -/

/-- The low `size` bytes of a number, the highest first. -/
def bigEndian : Nat → Nat → List Char
  | 0, _ => []
  | size + 1, n => bigEndian size (n / 256) ++ [Char.ofNat (n % 256)]

def number (bs : List Char) : Nat := bs.foldl (fun n b => 256 * n + b.toNat) 0

theorem toNat_ofNat {n : Nat} (h : n < 256) : (Char.ofNat n).toNat = n := by
  have hvalid : n.isValidChar := Or.inl (by omega)
  rw [Char.ofNat, dif_pos hvalid]
  rfl

@[simp] theorem length_bigEndian (size n : Nat) : (bigEndian size n).length = size := by
  induction size generalizing n with
  | zero => rfl
  | succ size ih => rw [bigEndian, length_append, ih, length_singleton]

theorem number_bigEndian {size n : Nat} (h : n < 256 ^ size) : number (bigEndian size n) = n := by
  induction size generalizing n with
  | zero =>
    have : n = 0 := by omega
    subst this
    rfl
  | succ size ih =>
    have hdiv : n / 256 < 256 ^ size := by
      omega
    have hinit := ih hdiv
    rw [number] at hinit ⊢
    rw [bigEndian, foldl_append, foldl_cons, foldl_nil, toNat_ofNat (Nat.mod_lt _ (by omega))]
    omega

/-! ### Readers -/

/-- A function of the buffer and the offset. -/
abbrev Reader (α : Type) : Type := ReaderT (List Char) (StateT Nat Option) α

variable (size : Nat)

/-- The next `size` bytes. -/
def take : Reader (List Char) := fun buffer offset =>
  if offset + size ≤ buffer.length then
    some (Layout.slice buffer offset size, (offset + size) % 2 ^ 32)
  else none

def many {α : Type} (r : Reader α) : Nat → Reader (List α)
  | 0 => pure []
  | n + 1 => do
    let a ← r
    let as ← many r n
    pure (a :: as)

variable {α β : Type} {r : Reader α}

/-- Where the bytes `bs` stand, the reader returns `a` and goes behind them. -/
def Reads (r : Reader α) (bs : List Char) (a : α) : Prop :=
  ∀ before after : List Char, (before ++ bs ++ after).length < 2 ^ 32 →
    r (before ++ bs ++ after) before.length = some (a, (before ++ bs).length)

theorem reads_pure (a : α) : Reads (pure a) [] a := fun before _ _ => by
  rw [append_nil]
  rfl

theorem reads_take (bs : List Char) : Reads (take bs.length) bs bs := by
  intro before after hlen
  have hslice : Layout.slice (before ++ bs ++ after) before.length bs.length = bs := by
    rw [append_assoc]
    exact (Layout.slice_append_right before (bs ++ after) 0 bs.length).trans
      (Layout.slice_isPrefix bs after)
  simp only [length_append] at hlen
  rw [take, if_pos (by simp), hslice, Nat.mod_eq_of_lt (by omega), length_append]

theorem Reads.bind {bs bs' : List Char} {a : α} {f : α → Reader β} {b : β} (h : Reads r bs a)
    (h' : Reads (f a) bs' b) : Reads (r >>= f) (bs ++ bs') b := by
  intro before after hlen
  have hfirst := h before (bs' ++ after) (by simpa [Nat.add_assoc] using hlen)
  have hsecond := h' (before ++ bs) after (by simpa [Nat.add_assoc] using hlen)
  have heq : before ++ (bs ++ bs') ++ after = before ++ bs ++ (bs' ++ after) := by simp
  have heq' : before ++ bs ++ (bs' ++ after) = before ++ bs ++ bs' ++ after := by simp
  show (r (before ++ (bs ++ bs') ++ after) before.length).bind _ = _
  rw [heq, hfirst]
  show f a _ _ = _
  rw [heq', hsecond, ← append_assoc]

theorem Reads.bind_pure {bs : List Char} {a : α} (h : Reads r bs a) (f : α → β) :
    Reads (r >>= fun a => pure (f a)) bs (f a) := by
  have hboth : Reads (r >>= fun a => pure (f a)) (bs ++ []) (f a) := h.bind (reads_pure (f a))
  rwa [append_nil] at hboth

/-- As many times as there are things written one after another. -/
theorem reads_many {γ : Type} {encode : γ → List Char} {value : γ → α} {l : List γ}
    (h : ∀ x ∈ l, Reads r (encode x) (value x)) :
    Reads (many r l.length) (l.flatMap encode) (l.map value) := by
  induction l with
  | nil => exact reads_pure []
  | cons x l ih =>
    have hx := h x mem_cons_self
    have hl := ih fun y hy => h y (mem_cons_of_mem _ hy)
    exact hx.bind (hl.bind_pure _)

theorem length_le_length_flatMap {γ : Type} {encode : γ → List Char} {l : List γ}
    (h : ∀ x ∈ l, encode x ≠ []) : l.length ≤ (l.flatMap encode).length := by
  induction l with
  | nil => simp
  | cons x l ih =>
    have hx := length_pos_iff.mpr (h x mem_cons_self)
    have hl := ih fun y hy => h y (mem_cons_of_mem _ hy)
    rw [flatMap_cons, length_append, length_cons]
    omega

/-! ### Flags -/

variable {flags : List Nat}

/-- `flags[i / 8] |= 1 << (7 - i % 8)`. -/
def setBit (flags : List Nat) (i : Nat) : List Nat := flags.modify (i / 8) (· ||| 1 <<< (7 - i % 8))

/-- `(flags[i / 8] >> (7 - i % 8)) & 1`. -/
def getBit (flags : List Nat) (i : Nat) : Bool := (flags.getD (i / 8) 0).testBit (7 - i % 8)

/-- Set the bits from the `i`-th on. -/
def setBits (flags : List Nat) (i : Nat) : List Bool → List Nat
  | [] => flags
  | b :: bs => setBits (if b then setBit flags i else flags) (i + 1) bs

variable (bits : List Bool)

/-- Zero bytes with the given bits set. -/
def bitmap : List Nat := setBits (List.replicate size 0) 0 bits

theorem getBit_setBit {i : Nat} (h : i / 8 < flags.length) (j : Nat) :
    getBit (setBit flags i) j = (decide (i = j) || getBit flags j) := by
  rw [getBit, getBit, setBit, getD_eq_getElem?_getD, getD_eq_getElem?_getD, List.getElem?_modify]
  by_cases hbyte : i / 8 = j / 8
  · have hget : flags[j / 8]? = some (flags[i / 8]) := by
      rw [← hbyte, List.getElem?_eq_getElem h]
    have hbit : 7 - i % 8 = 7 - j % 8 ↔ i = j := by omega
    rw [hget]
    simp [hbyte, Nat.one_shiftLeft, Nat.testBit_two_pow, hbit, Bool.or_comm]
  · have hne : i ≠ j := fun hij => hbyte (by rw [hij])
    simp [hbyte, hne]

@[simp] theorem length_setBit (flags : List Nat) (i : Nat) :
    (setBit flags i).length = flags.length := by simp [setBit]

theorem length_setBits (flags : List Nat) (i : Nat) (bits : List Bool) :
    (setBits flags i bits).length = flags.length := by
  induction bits generalizing flags i with
  | nil => rfl
  | cons b bits ih =>
    rw [setBits, ih]
    cases b <;> simp

theorem getBit_setBits {i : Nat} {bits : List Bool} (h : i + bits.length ≤ 8 * flags.length)
    (j : Nat) :
    getBit (setBits flags i bits) j =
      (getBit flags j || (decide (i ≤ j) && bits.getD (j - i) false)) := by
  induction bits generalizing flags i with
  | nil => simp [setBits]
  | cons b bits ih =>
    rw [length_cons] at h
    rw [setBits, ih (by cases b <;> simp <;> omega)]
    have hhead : getBit (if b then setBit flags i else flags) j =
        (getBit flags j || (decide (i = j) && b)) := by
      cases b with
      | false => simp
      | true => simp [getBit_setBit (show i / 8 < flags.length by omega), Bool.or_comm]
    rw [hhead]
    rcases Nat.lt_trichotomy i j with hlt | rfl | hgt
    · obtain ⟨k, hk⟩ : ∃ k, j - i = k + 1 := ⟨j - i - 1, by omega⟩
      have hk' : j - (i + 1) = k := by omega
      simp [hk, hk', show i ≠ j by omega, show i + 1 ≤ j by omega, show i ≤ j by omega]
    · simp
    · simp [show i ≠ j by omega, show ¬ i + 1 ≤ j by omega, show ¬ i ≤ j by omega]

/-- **The bits are read back.** -/
theorem getBit_bitmap {size : Nat} {bits : List Bool} (h : bits.length ≤ 8 * size) (j : Nat) :
    getBit (bitmap size bits) j = bits.getD j false := by
  have hzero : getBit (List.replicate size 0) j = false := by
    rw [getBit, getD_eq_getElem?_getD, List.getElem?_replicate]
    split <;> simp
  rw [bitmap, getBit_setBits (by simpa using h), hzero]
  simp

@[simp] theorem length_bitmap : (bitmap size bits).length = size := by
  rw [bitmap, length_setBits, length_replicate]

theorem setBits_lt (h : ∀ f ∈ flags, f < 256) (i : Nat) (bits : List Bool) :
    ∀ f ∈ setBits flags i bits, f < 256 := by
  induction bits generalizing flags i with
  | nil => exact h
  | cons b bits ih =>
    refine ih ?_ (i + 1)
    cases b with
    | false => exact h
    | true =>
      intro f hf
      obtain ⟨k, hk⟩ := mem_iff_getElem?.mp hf
      rw [if_pos rfl, setBit, List.getElem?_modify] at hk
      obtain ⟨g, hg, rfl⟩ := Option.map_eq_some_iff.mp hk
      have hgl := h g (mem_of_getElem? hg)
      split
      · have hbit : 1 <<< (7 - i % 8) < 2 ^ 8 := by
          rw [Nat.one_shiftLeft]
          exact Nat.pow_lt_pow_right (by omega) (by omega)
        exact Nat.or_lt_two_pow (n := 8) hgl hbit
      · exact hgl

theorem bitmap_lt : ∀ f ∈ bitmap size bits, f < 256 :=
  setBits_lt (fun f hf => by rw [eq_of_mem_replicate hf]; omega) 0 bits

end Wire
