import Mathlib.Data.List.Basic
import Mathlib.Tactic

/-!
# Rcc.Lib.Layout

Byte strings laid out one after another, and tables of 32-bit words that say where they begin.

* `slice` — the bytes from an offset on;
* `slice_flatten` — the offsets that lead back to the parts of a concatenation;
* `exists_whole_parts` — what a cut leaves of a concatenation: whole parts and a torn one;
* `word`, `readWord`, `read_words` — a table of words, read by index;
* `write`, `tile`, `foldl_write_tile` — parts copied into a buffer, in any order;
* `EndsBefore`, `eq_of_endsBefore` — a part of unknown length, found by what follows it.
-/

namespace Layout

open List

variable {α : Type} {parts : List (List α)} {i : Nat} {part : List α}

def slice (l : List α) (offset size : Nat) : List α := (l.drop offset).take size

theorem slice_append_right (l₁ l₂ : List α) (offset size : Nat) :
    slice (l₁ ++ l₂) (l₁.length + offset) size = slice l₂ offset size := by
  rw [slice, slice, drop_append, drop_eq_nil_of_le (Nat.le_add_right _ _),
    nil_append, Nat.add_sub_cancel_left]

theorem slice_isPrefix (l₁ l₂ : List α) : slice (l₁ ++ l₂) 0 l₁.length = l₁ := by
  rw [slice, drop_zero, take_left]

/-- Where the `i`-th part of a concatenation begins. -/
def start (parts : List (List α)) (i : Nat) : Nat := ((parts.take i).map List.length).sum

@[simp] theorem start_zero (parts : List (List α)) : start parts 0 = 0 := rfl

@[simp] theorem start_cons_succ (part : List α) (parts : List (List α)) (i : Nat) :
    start (part :: parts) (i + 1) = part.length + start parts i := rfl

theorem start_succ (h : parts[i]? = some part) :
    start parts (i + 1) = start parts i + part.length := by
  rw [start, take_add_one, h, map_append]
  simp [start]

theorem start_add_length_le (h : parts[i]? = some part) :
    start parts i + part.length ≤ parts.flatten.length := by
  rw [← start_succ h, length_flatten]
  exact ((take_sublist _ _).map _).sum_le_sum (by simp)

theorem slice_flatten (h : parts[i]? = some part) :
    slice parts.flatten (start parts i) part.length = part := by
  induction parts generalizing i with
  | nil => simp at h
  | cons head parts ih =>
    cases i with
    | zero =>
      obtain rfl : head = part := by simpa using h
      exact slice_isPrefix head parts.flatten
    | succ i =>
      rw [flatten_cons, start_cons_succ, slice_append_right]
      exact ih h

/-- What a cut may leave of the next part: nothing, or less than all of it. -/
def Torn (next : Option (List α)) (torn : List α) : Prop :=
  torn = [] ∨ ∃ part, next = some part ∧ torn <+: part ∧ torn.length < part.length

/-- A concatenation that is cut consists of whole parts and of what is left of the next. -/
theorem exists_whole_parts (hparts : ∀ part ∈ parts, part ≠ []) (size : Nat) :
    ∃ m torn, parts.flatten.take size = (parts.take m).flatten ++ torn ∧ Torn parts[m]? torn ∧
      ∀ i ≤ parts.length, start parts i ≤ size ↔ i ≤ m := by
  induction parts generalizing size with
  | nil => exact ⟨0, [], by simp, .inl rfl, fun i hi => by simp at hi; simp [hi]⟩
  | cons part parts ih =>
    by_cases hsize : size < part.length
    · refine ⟨0, part.take size, ?_, .inr ⟨part, rfl, take_prefix _ _, ?_⟩, ?_⟩
      · rw [flatten_cons, take_append_of_le_length (Nat.le_of_lt hsize)]
        rfl
      · rw [length_take]
        omega
      · intro i _
        cases i with
        | zero => simp
        | succ i =>
          rw [start_cons_succ]
          omega
    · obtain ⟨m, torn, htake, htorn, hstart⟩ :=
        ih (fun p hp => hparts p (mem_cons_of_mem _ hp)) (size - part.length)
      refine ⟨m + 1, torn, ?_, htorn, ?_⟩
      · rw [flatten_cons, take_append, take_of_length_le (Nat.le_of_not_lt hsize), htake,
          take_succ_cons, flatten_cons, append_assoc]
      · intro i hi
        cases i with
        | zero => simp
        | succ i =>
          have hi' := hstart i (Nat.le_of_succ_le_succ hi)
          rw [start_cons_succ]
          omega

/-! ### Words -/

/-- A 32-bit word, least significant byte first. -/
def word (n : Nat) : List UInt8 :=
  [UInt8.ofNat n, UInt8.ofNat (n / 256), UInt8.ofNat (n / 65536), UInt8.ofNat (n / 16777216)]

def readWord : List UInt8 → Nat
  | [a, b, c, d] => a.toNat + 256 * b.toNat + 65536 * c.toNat + 16777216 * d.toNat
  | _ => 0

@[simp] theorem length_word (n : Nat) : (word n).length = 4 := rfl

theorem readWord_word {n : Nat} (h : n < 4294967296) : readWord (word n) = n := by
  simp only [word, readWord, UInt8.toNat_ofNat']
  omega

theorem length_words (ns : List Nat) : (ns.flatMap word).length = 4 * ns.length := by
  induction ns with
  | nil => rfl
  | cons n ns ih =>
    rw [flatMap_cons, length_append, length_word, length_cons]
    omega

/-- The table is read by index, whatever stands behind it. -/
theorem read_words {ns : List Nat} {n : Nat} (h : ns[i]? = some n) (hlt : n < 4294967296)
    (rest : List UInt8) : readWord (slice (ns.flatMap word ++ rest) (4 * i) 4) = n := by
  induction ns generalizing i with
  | nil => simp at h
  | cons m ns ih =>
    rw [flatMap_cons, append_assoc]
    cases i with
    | zero =>
      obtain rfl : m = n := by simpa using h
      rw [show 4 * 0 = 0 from rfl, ← length_word m, slice_isPrefix, readWord_word hlt]
    | succ i =>
      exact ih h

/-! ### Writing -/

variable {buffer : List α}

/-- `memcpy` of a part into a buffer. -/
def write (buffer : List α) (offset : Nat) (part : List α) : List α :=
  buffer.take offset ++ part ++ buffer.drop (offset + part.length)

theorem write_end (buffer part : List α) : write buffer buffer.length part = buffer ++ part := by
  rw [write, take_length, drop_eq_nil_of_le (Nat.le_add_right _ _), append_nil]

/-- The places of parts that follow each other, from `offset` on. -/
def tile (offset : Nat) : List (List α) → List (Nat × List α)
  | [] => []
  | part :: parts => (offset, part) :: tile (offset + part.length) parts

theorem tile_append (offset : Nat) (parts parts' : List (List α)) :
    tile offset (parts ++ parts') =
      tile offset parts ++ tile (offset + parts.flatten.length) parts' := by
  induction parts generalizing offset with
  | nil => simp [tile]
  | cons part parts ih =>
    simp only [cons_append, tile, ih, flatten_cons, length_append, Nat.add_assoc]

theorem length_write {offset : Nat} (h : offset + part.length ≤ buffer.length) :
    (write buffer offset part).length = buffer.length := by
  simp only [write, length_append, length_take, length_drop]
  omega

theorem getElem?_write {offset : Nat} (h : offset + part.length ≤ buffer.length) (j : Nat) :
    (write buffer offset part)[j]? =
      if offset ≤ j ∧ j < offset + part.length then part[j - offset]? else buffer[j]? := by
  have htake : (buffer.take offset).length = offset := by
    rw [length_take]
    omega
  rw [write, append_assoc]
  by_cases hlt : j < offset
  · rw [List.getElem?_append_left (by omega), List.getElem?_take_of_lt hlt, if_neg (by omega)]
  · rw [List.getElem?_append_right (by omega), htake]
    by_cases hin : j < offset + part.length
    · rw [List.getElem?_append_left (by omega), if_pos (by omega)]
    · rw [List.getElem?_append_right (by omega), List.getElem?_drop, if_neg (by omega)]
      congr 1
      omega

/-- Parts of `target`, written in any order and however often: where one has been written the
buffer is the target. -/
theorem getElem?_foldl_write {target : List α} {ws : List (Nat × List α)}
    (hws : ∀ w ∈ ws, w.1 + w.2.length ≤ target.length ∧ slice target w.1 w.2.length = w.2)
    (hlen : buffer.length = target.length) {j : Nat}
    (hj : (∃ w ∈ ws, w.1 ≤ j ∧ j < w.1 + w.2.length) ∨ buffer[j]? = target[j]?) :
    (ws.foldl (fun b w => write b w.1 w.2) buffer)[j]? = target[j]? := by
  induction ws generalizing buffer with
  | nil => exact hj.resolve_left fun h => by simp at h
  | cons w ws ih =>
    obtain ⟨hfit, hslice⟩ := hws w mem_cons_self
    have hfit' : w.1 + w.2.length ≤ buffer.length := hlen ▸ hfit
    refine ih (fun w' hw' => hws w' (mem_cons_of_mem _ hw'))
      ((length_write hfit').trans hlen) ?_
    by_cases hrest : ∃ w' ∈ ws, w'.1 ≤ j ∧ j < w'.1 + w'.2.length
    · exact .inl hrest
    · right
      rw [getElem?_write hfit']
      by_cases hin : w.1 ≤ j ∧ j < w.1 + w.2.length
      · rw [if_pos hin, ← hslice, slice, List.getElem?_take_of_lt (by omega), List.getElem?_drop]
        congr 1
        omega
      · rw [if_neg hin]
        refine hj.resolve_left ?_
        rintro ⟨w', hw', hin'⟩
        rcases mem_cons.mp hw' with rfl | hw'
        · exact hin hin'
        · exact hrest ⟨w', hw', hin'⟩

theorem mem_tile (before : List α) (after : List α) {w : Nat × List α}
    (hw : w ∈ tile before.length parts) :
    w.1 + w.2.length ≤ (before ++ parts.flatten ++ after).length ∧
      slice (before ++ parts.flatten ++ after) w.1 w.2.length = w.2 := by
  induction parts generalizing before with
  | nil => cases hw
  | cons part parts ih =>
    rcases mem_cons.mp hw with rfl | hw
    · rw [flatten_cons, append_assoc, append_assoc]
      refine ⟨by simp only [length_append]; omega, ?_⟩
      exact (slice_append_right before (part ++ (parts.flatten ++ after)) 0 part.length).trans
        (slice_isPrefix part _)
    · have := ih (before ++ part) (by rwa [length_append])
      rwa [append_assoc before part, ← flatten_cons] at this

theorem tile_covers (parts : List (List α)) (offset j : Nat) (h : offset ≤ j)
    (hj : j < offset + parts.flatten.length) :
    ∃ w ∈ tile offset parts, w.1 ≤ j ∧ j < w.1 + w.2.length := by
  induction parts generalizing offset with
  | nil => simp at hj; omega
  | cons part parts ih =>
    by_cases hin : j < offset + part.length
    · exact ⟨(offset, part), mem_cons_self, h, hin⟩
    · rw [flatten_cons, length_append] at hj
      obtain ⟨w, hw, hwj⟩ := ih (offset + part.length) (by omega) (by omega)
      exact ⟨w, mem_cons_of_mem _ hw, hwj⟩

/-- **The parts of a string, copied into a buffer of its length in any order, make the string.** -/
theorem foldl_write_tile {ws : List (Nat × List α)} (hws : ws.Perm (tile 0 parts))
    (hlen : buffer.length = parts.flatten.length) :
    ws.foldl (fun b w => write b w.1 w.2) buffer = parts.flatten := by
  have hparts : ∀ w ∈ ws, w.1 + w.2.length ≤ parts.flatten.length ∧
      slice parts.flatten w.1 w.2.length = w.2 := by
    intro w hw
    have := mem_tile [] [] (hws.mem_iff.mp hw)
    rwa [nil_append, append_nil] at this
  refine ext_getElem? fun j => getElem?_foldl_write hparts hlen ?_
  by_cases hj : j < parts.flatten.length
  · obtain ⟨w, hw, hwj⟩ := tile_covers parts 0 j (Nat.zero_le j) (by omega)
    exact .inl ⟨w, hws.mem_iff.mpr hw, hwj⟩
  · right
    rw [List.getElem?_eq_none (by omega), List.getElem?_eq_none (by omega)]

/-! ### Parts that end where the next one is found -/

variable {part' rest rest' : List α}

/-- In a part followed by `next`, `mark` is found nowhere before the end of the part. -/
def EndsBefore (mark next part : List α) : Prop :=
  ∀ i < part.length, ¬ mark <+: (part ++ next).drop i

instance [DecidableEq α] (mark next part : List α) : Decidable (EndsBefore mark next part) :=
  inferInstanceAs (Decidable (∀ i < part.length, ¬ mark <+: (part ++ next).drop i))

theorem EndsBefore.length_le {mark next : List α} (h : EndsBefore mark next part)
    (hmark : mark.length ≤ next.length)
    (heq : part ++ next ++ rest = part' ++ mark ++ rest') : part.length ≤ part'.length := by
  by_contra hlt
  rw [Nat.not_le] at hlt
  have hlen : part'.length ≤ (part ++ next).length := by
    rw [length_append]
    omega
  -- the shorter part would show `mark` inside the longer one
  have hdrop : (part ++ next).drop part'.length ++ rest = mark ++ rest' := by
    rw [← drop_append_of_le_length hlen, heq, append_assoc, drop_left]
  have hprefix : mark <+: mark ++ rest' := prefix_append _ _
  refine h part'.length hlt (prefix_of_prefix_length_le hprefix (hdrop ▸ prefix_append _ _) ?_)
  simp only [length_drop, length_append]
  omega

/-- **A part that ends before the next one is known from the string.** -/
theorem eq_of_endsBefore {next : List α} (h : EndsBefore next next part)
    (h' : EndsBefore next next part') (heq : part ++ next ++ rest = part' ++ next ++ rest') :
    part = part' ∧ rest = rest' := by
  have hlen := Nat.le_antisymm (h.length_le le_rfl heq) (h'.length_le le_rfl heq.symm)
  obtain ⟨hhead, hrest⟩ := append_inj heq (by simp [hlen])
  exact ⟨append_cancel_right hhead, hrest⟩

/-- A part behind which `a` stands and then, unless the string ends there, `next`. -/
theorem EndsBefore.length_le_of_end {next : List α} {a a' : α}
    (h : EndsBefore (a' :: next) (a :: next) part) (hrest : rest = [] ∨ next <+: rest)
    (hrest' : rest' = [] ∨ next <+: rest') (heq : part ++ a :: rest = part' ++ a' :: rest') :
    part.length ≤ part'.length := by
  rcases hrest' with rfl | ⟨rest', rfl⟩
  · have hlen := congrArg length heq
    simp only [length_append, length_cons, length_nil] at hlen
    omega
  rcases hrest with rfl | ⟨rest, rfl⟩
  · have happend : part ++ a :: next ++ [] = part' ++ a' :: next ++ (rest' ++ next) := by
      simpa using congrArg (· ++ next) heq
    exact h.length_le (by simp) happend
  · have happend : part ++ a :: next ++ rest = part' ++ a' :: next ++ rest' := by
      simpa using heq
    exact h.length_le (by simp) happend

end Layout
