import Rcc.Block.TxsParallelParser

/-!
# Rcc.Block.ParserInput

What `TxsParallelParser::decode` does with bytes that nobody has encoded.

The count is read before there is a check of the length, and the sum in the check of the count has
32 bits. So a few inputs lead outside (`decode_inside_iff`): those of one to three bytes, and those
with one of the two counts at which the sum wraps around, for which the table of offsets begins
nowhere in particular and the vector is resized to some four thousand million elements.
-/

namespace Rcc.Block

open List Layout

variable {bytes : Bytes}

def txNum (bytes : Bytes) : Nat := readWord (slice bytes 0 4)

def objectStart (bytes : Bytes) : Nat := 4 * ((txNum bytes + 2) % offsetRange)

/-- The number in the table of offsets. -/
def offsetAt (bytes : Bytes) (i : Nat) : Nat := readWord (slice (bytes.drop 4) (4 * i) 4)

/-- Iteration `i` of the loop is run. -/
def Iterates (bytes : Bytes) (i : Nat) : Prop :=
  objectStart bytes < bytes.length ∧ (txNum bytes + 1) % offsetRange ≠ 0 ∧ i < txNum bytes

/-- What is read, by its position and its size. The iterations run in parallel, so that one that
throws need not keep any other from its reads. -/
inductive Reads (bytes : Bytes) : Nat → Nat → Prop
  | count : bytes ≠ [] → Reads bytes 0 4
  | offset {i : Nat} : Iterates bytes i → Reads bytes (4 + 4 * i) 4
  | next {i : Nat} : Iterates bytes i → Reads bytes (4 + 4 * (i + 1)) 4
  /-- `txBytes.cropped(offset, size)`, which is empty if it does not fit -/
  | object {i size : Nat} : Iterates bytes i →
      size = (offsetAt bytes (i + 1) + (offsetRange - offsetAt bytes i)) % offsetRange →
      offsetAt bytes i + size ≤ (bytes.drop (objectStart bytes)).length →
      Reads bytes (objectStart bytes + offsetAt bytes i) size

/-- The argument of `_txs->resize`, where it is reached. -/
def allocated (bytes : Bytes) : Nat :=
  if bytes = [] ∨ bytes.length ≤ objectStart bytes then 0 else txNum bytes

/-- All reads are inside of the input, and there are not more elements than bytes. -/
def Inside (bytes : Bytes) : Prop :=
  (∀ position size, Reads bytes position size → position + size ≤ bytes.length) ∧
    allocated bytes ≤ bytes.length

/-- There is a count, and the sum does not wrap around; or it does, and nothing comes of it. -/
def Countable (bytes : Bytes) : Prop :=
  4 ≤ bytes.length ∧ (txNum bytes + 2 < offsetRange ∨
    txNum bytes + 2 = offsetRange ∧ 4 * offsetRange ≤ bytes.length ∨
    txNum bytes + 1 = offsetRange ∧ (bytes.length = 4 ∨ txNum bytes ≤ bytes.length))

theorem readWord_lt (bytes : Bytes) : readWord bytes < offsetRange := by
  unfold readWord
  split
  · rename_i a b c d
    have ha := a.toNat_lt
    have hb := b.toNat_lt
    have hc := c.toNat_lt
    have hd := d.toNat_lt
    change _ < 4294967296
    omega
  · decide

/-- The two counts at which the sum wraps around. -/
theorem objectStart_cases (bytes : Bytes) :
    txNum bytes + 2 < offsetRange ∧ objectStart bytes = 4 * (txNum bytes + 2) ∨
    txNum bytes + 2 = offsetRange ∧ objectStart bytes = 0 ∨
    txNum bytes + 1 = offsetRange ∧ objectStart bytes = 4 := by
  have hlt : txNum bytes < 4294967296 := readWord_lt _
  simp only [objectStart, offsetRange]
  omega

theorem iterates_iff {i : Nat} : Iterates bytes i ↔
    objectStart bytes < bytes.length ∧ txNum bytes + 1 ≠ offsetRange ∧ i < txNum bytes := by
  have hlt : txNum bytes < 4294967296 := readWord_lt _
  simp only [Iterates, offsetRange]
  omega

/-- **What is read is inside of the input**, and the vector gets no more elements than the input has
bytes, exactly if there are no bytes, or a count that does not wrap around or does no harm. -/
theorem decode_inside_iff (bytes : Bytes) : Inside bytes ↔ bytes = [] ∨ Countable bytes := by
  by_cases hnil : bytes = []
  · subst hnil
    refine iff_of_true ⟨fun position size hread => ?_, Nat.le_refl _⟩ (.inl rfl)
    cases hread with
    | count hne => exact absurd rfl hne
    | offset hi | next hi | object hi => exact absurd hi.1 (Nat.not_lt_zero _)
  have hpos := length_pos_iff.mpr hnil
  simp only [Inside, allocated, hnil, false_or]
  constructor
  · intro ⟨hreads, halloc⟩
    refine ⟨hreads 0 4 (.count hnil), ?_⟩
    rcases objectStart_cases bytes with ⟨hnum, -⟩ | ⟨hnum, hstart⟩ | ⟨hnum, hstart⟩
    · exact .inl hnum
    · -- the last iteration reads the end of the table
      have hlast : Iterates bytes (txNum bytes - 1) :=
        iterates_iff.mpr ⟨hstart ▸ hpos, by omega, by change _ = 4294967296 at hnum; omega⟩
      have hnext := hreads _ _ (.next hlast)
      exact .inr (.inl ⟨hnum, by omega⟩)
    · refine .inr (.inr ⟨hnum, ?_⟩)
      by_cases hfour : bytes.length ≤ 4
      · exact .inl (hfour.antisymm (hreads 0 4 (.count hnil)))
      · rw [hstart, if_neg hfour] at halloc
        exact .inr halloc
  · intro ⟨hfour, hnum⟩
    have htable : ∀ i, Iterates bytes i → 4 * (i + 3) ≤ bytes.length := by
      intro i hi
      obtain ⟨hstart, hne, hlt⟩ := iterates_iff.mp hi
      have := objectStart_cases bytes
      omega
    refine ⟨fun position size hread => ?_, ?_⟩
    · cases hread with
      | count => exact hfour
      | offset hi | next hi =>
        have := htable _ hi
        omega
      | object hi _ hfits =>
        rw [length_drop] at hfits
        have := hi.1
        omega
    · have := objectStart_cases bytes
      split <;> omega

/-- Five bytes, and a count at which the sum wraps around. -/
theorem wrapped_count_outside :
    let bytes : Bytes := [254, 255, 255, 255, 0]
    Reads bytes 4 4 ∧ allocated bytes = 4294967294 ∧ ¬Inside bytes := by
  intro bytes
  have hread : Reads bytes 4 4 := .offset (i := 0) (by simp only [Iterates]; decide)
  exact ⟨hread, by decide, fun h => absurd (h.1 4 4 hread) (by decide)⟩

end Rcc.Block
