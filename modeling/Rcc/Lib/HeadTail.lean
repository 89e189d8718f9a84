import Mathlib.Data.List.Basic
import Mathlib.Tactic

/-!
# Rcc.Lib.HeadTail

Records whose parts are laid out as heads and tails: a part that is kept in place stands in the
head, of any other the head has a word that says where in the tail it stands.

* `Holds` — a block stands in the data at an offset;
* `heads`, `tails` — the two halves of a record;
* `Located`, `located` — a record put anywhere into the data leads to all of its parts.
-/

namespace HeadTail

open List

variable {α : Type}

/-- The block stands in the data at the offset. -/
def Holds (data : List α) (offset : Nat) (block : List α) : Prop :=
  ∃ before after, data = before ++ (block ++ after) ∧ before.length = offset

variable {data block block' : List α} {offset : Nat}

theorem holds_self (data : List α) : Holds data 0 data := ⟨[], [], by simp, rfl⟩

theorem Holds.left (h : Holds data offset (block ++ block')) : Holds data offset block := by
  obtain ⟨before, after, rfl, rfl⟩ := h
  exact ⟨before, block' ++ after, by simp, rfl⟩

theorem Holds.right (h : Holds data offset (block ++ block')) :
    Holds data (offset + block.length) block' := by
  obtain ⟨before, after, rfl, rfl⟩ := h
  exact ⟨before ++ block, after, by simp, by simp⟩

theorem Holds.le (h : Holds data offset block) : offset + block.length ≤ data.length := by
  obtain ⟨before, after, rfl, rfl⟩ := h
  simp only [length_append]
  omega

theorem Holds.take_drop (h : Holds data offset block) :
    (data.drop offset).take block.length = block := by
  obtain ⟨before, after, rfl, rfl⟩ := h
  rw [drop_left, take_left]

/-! ### Records -/

section Records

variable (word : Nat → List α)

/-- The heads of the parts, with `offset` for the tail of the first that has one. A part is marked
if it goes to the tail. -/
def heads : Nat → List (Bool × List α) → List α
  | _, [] => []
  | offset, (true, out) :: parts => word offset ++ heads (offset + out.length) parts
  | offset, (false, out) :: parts => out ++ heads offset parts

def tails : List (Bool × List α) → List α
  | [] => []
  | (true, out) :: parts => out ++ tails parts
  | (false, _) :: parts => tails parts

/-- The parts are found from their heads, which stand from `head` on; words count from `base`. -/
def Located (data : List α) (base : Nat) : Nat → Nat → List (Bool × List α) → Prop
  | _, _, [] => True
  | head, offset, (true, out) :: parts =>
    Holds data head (word offset) ∧ Holds data (base + offset) out ∧
      Located data base (head + (word offset).length) (offset + out.length) parts
  | head, offset, (false, out) :: parts =>
    Holds data head out ∧ Located data base (head + out.length) offset parts

/-- **Heads and tails lead to all the parts.** -/
theorem located {base head : Nat} {parts : List (Bool × List α)}
    (hheads : Holds data head (heads word offset parts))
    (htails : (∃ part ∈ parts, part.1 = true) → Holds data (base + offset) (tails parts)) :
    Located word data base head offset parts := by
  induction parts generalizing head offset with
  | nil => trivial
  | cons part parts ih =>
    obtain ⟨_ | _, out⟩ := part
    · refine ⟨hheads.left, ih hheads.right fun ⟨part, hmem, hpart⟩ => ?_⟩
      exact htails ⟨part, mem_cons_of_mem _ hmem, hpart⟩
    · have hout := htails ⟨(true, out), mem_cons_self, rfl⟩
      exact ⟨hheads.left, hout.left, ih hheads.right fun _ => Nat.add_assoc base .. ▸ hout.right⟩

/-- What a part takes in the head, with words of the given width. -/
def headSize (width : Nat) (part : Bool × List α) : Nat := if part.1 then width else part.2.length

theorem length_heads {width : Nat} (hword : ∀ n, (word n).length = width) (offset : Nat)
    (parts : List (Bool × List α)) :
    (heads word offset parts).length = (parts.map (headSize width)).sum := by
  induction parts generalizing offset with
  | nil => rfl
  | cons part parts ih => obtain ⟨_ | _, out⟩ := part <;> simp [heads, headSize, ih, hword]

theorem tails_of_in_place {parts : List (Bool × List α)} (h : ∀ part ∈ parts, part.1 = false) :
    tails parts = [] := by
  induction parts with
  | nil => rfl
  | cons part parts ih =>
    obtain ⟨marked, out⟩ := part
    obtain rfl : marked = false := h _ mem_cons_self
    exact ih fun part hpart => h part (mem_cons_of_mem _ hpart)

end Records

end HeadTail
