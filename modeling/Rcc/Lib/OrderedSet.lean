import Mathlib.Data.List.Basic
import Mathlib.Tactic

/-!
# Rcc.Lib.OrderedSet

A model of `std::set` as libstdc++ implements it, for a comparison that need not be an order.

The comparisons of an insertion are those on the way from the root to a free place, and one more
with the element before that place (`_M_get_insert_unique_pos`). So the outcome depends on the shape
of the tree, and for a comparison that is no strict order an element may be taken for a present one.
The colours and the rotations that balance the tree are left open: `Rotations` may be any change of
shape.

* `Tree.emplace_of_forall` — if every element is before the new one, it is inserted;
* `Tree.toList_insertLeaf`, `Tree.toList_remove` — insertion and removal in terms of the order of
  iteration.
-/

namespace OrderedSet

variable {α : Type}

inductive Tree (α : Type)
  | nil
  | node (left : Tree α) (value : α) (right : Tree α)

namespace Tree

/-- The elements in the order of iteration. -/
def toList : Tree α → List α
  | nil => []
  | node l v r => l.toList ++ v :: r.toList

def size (t : Tree α) : Nat := t.toList.length

section insertion
variable (comp : α → α → Bool) (k : α)

/-- A new leaf at the place the comparisons lead to. -/
def insertLeaf : Tree α → Tree α
  | nil => node nil k nil
  | node l v r => if comp k v then node l.insertLeaf v r else node l v r.insertLeaf

/-- The element before this place: the last one at which the way went to the right. -/
def before (acc : Option α) : Tree α → Option α
  | nil => acc
  | node l v r => if comp k v then before acc l else before (some v) r

/-- The element `k` becomes, and the tree. -/
def emplace (t : Tree α) : α × Tree α :=
  match before comp k none t with
  | none => (k, insertLeaf comp k t)
  | some j => if comp j k then (k, insertLeaf comp k t) else (j, t)

variable {comp k}

theorem toList_insertLeaf (t : Tree α) :
    ∃ l₁ l₂, t.toList = l₁ ++ l₂ ∧ (insertLeaf comp k t).toList = l₁ ++ k :: l₂ := by
  induction t with
  | nil => exact ⟨[], [], rfl, rfl⟩
  | node l v r ihl ihr =>
    rw [insertLeaf]
    split
    · obtain ⟨l₁, l₂, hl, hk⟩ := ihl
      exact ⟨l₁, l₂ ++ v :: r.toList, by simp [toList, hl], by simp [toList, hk]⟩
    · obtain ⟨l₁, l₂, hr, hk⟩ := ihr
      exact ⟨l.toList ++ v :: l₁, l₂, by simp [toList, hr], by simp [toList, hk]⟩

theorem mem_of_before {t : Tree α} {acc : Option α} {j : α} (h : before comp k acc t = some j) :
    acc = some j ∨ j ∈ t.toList := by
  induction t generalizing acc with
  | nil => exact Or.inl h
  | node l v r ihl ihr =>
    rw [before] at h
    split at h
    · exact (ihl h).imp_right fun hj => by simp [toList, hj]
    · rcases ihr h with hv | hj
      · exact Or.inr (by simp [toList, Option.some.inj hv])
      · exact Or.inr (by simp [toList, hj])

/-- An element that no element is behind is inserted, whatever the shape of the tree. -/
theorem emplace_of_forall {t : Tree α} (h : ∀ v ∈ t.toList, comp v k = true) :
    emplace comp k t = (k, insertLeaf comp k t) := by
  rw [emplace]
  split
  · rfl
  · rename_i j hj
    rcases mem_of_before hj with hnone | hmem
    · cases hnone
    · rw [if_pos (h j hmem)]

end insertion

section removal

/-- The elements of `r` behind those of the other tree. -/
def join (r : Tree α) : Tree α → Tree α
  | nil => r
  | node l v r' => node l v (join r r')

def remove (p : α → Bool) : Tree α → Tree α
  | nil => nil
  | node l v r => if p v then join (r.remove p) (l.remove p) else node (l.remove p) v (r.remove p)

theorem toList_join (r t : Tree α) : (join r t).toList = t.toList ++ r.toList := by
  induction t with
  | nil => rfl
  | node l v r' _ ih => simp [join, toList, ih]

theorem toList_remove (p : α → Bool) (t : Tree α) :
    (t.remove p).toList = t.toList.filter (fun v => !p v) := by
  induction t with
  | nil => rfl
  | node l v r ihl ihr =>
    rw [remove]
    split_ifs with hp
    · simp [toList_join, toList, ihl, ihr, hp]
    · simp [toList, ihl, ihr, hp]

end removal

end Tree

/-- Rotations change the shape of a tree and not the order of its elements. -/
structure Rotations (α : Type) where
  apply : Tree α → Tree α
  toList_apply : ∀ t, (apply t).toList = t.toList

end OrderedSet
