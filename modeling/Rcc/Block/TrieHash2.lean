import Rcc.Lib.HashTree
import Rcc.Block.BlockHeader

/-!
# Rcc.Block.TrieHash2

The Merkle tree of `libdevcore/TrieHash2`, sixteen children to a node.

* `getHash256` — the root;
* `TrieHash2.getMerkleProof` — the map from the nodes to their children.

The iterations of a parallel loop write to slots of their own, except for those that push into the
map under a lock; the order in which they do is a `Schedule`. The strings of the map are byte
strings in hexadecimal; they are the byte strings here.
-/

/-- An order for the iterations of a parallel loop. -/
structure Schedule (α : Type) where
  run : List α → List α
  perm : ∀ l, (run l).Perm l

namespace Rcc.Block

open List HashTree

/-- `MAX_CHILD_COUNT` -/
abbrev maxChildCount : Nat := 16

/-- The value of a node: the hash of its children in a row. -/
def nodeHash (c : Crypto) (children : List (List UInt8)) : List UInt8 := c.Hash children.flatten

/-- The loop of `getHash256`, which each time leaves fewer nodes, and the root above the last. -/
def hashLoop (c : Crypto) : Nat → List (List UInt8) → List UInt8
  | 0, l => c.Hash (l.headD [])
  | fuel + 1, l =>
    if 1 < l.length then hashLoop c fuel (up maxChildCount (nodeHash c) l)
    else c.Hash (l.headD [])

def getHash256 (c : Crypto) (bytesCaches : List (List UInt8)) : List UInt8 :=
  if bytesCaches.isEmpty then c.Hash [] else hashLoop c bytesCaches.length bytesCaches

/-- A map from nodes to their children. -/
abbrev Parent2ChildListMap := List (List UInt8 × List (List UInt8))

/-- `(*_parent2ChildList)[parentNode].emplace_back(child)` -/
def emplaceBack (m : Parent2ChildListMap) (parentNode child : List UInt8) : Parent2ChildListMap :=
  if parentNode ∈ m.map Prod.fst then
    m.map fun e => if e.1 = parentNode then (e.1, e.2 ++ [child]) else e
  else m ++ [(parentNode, [child])]

/-- What one iteration does to the map. -/
def pushChildren (m : Parent2ChildListMap) (e : List UInt8 × List (List UInt8)) :
    Parent2ChildListMap := e.2.foldl (fun m child => emplaceBack m e.1 child) m

/-- The loop of `getMerkleProof`: what its iterations push. -/
def proofLoop (c : Crypto) : Nat → List (List UInt8) → Parent2ChildListMap
  | 0, l => [(c.Hash (l.headD []), [l.headD []])]
  | fuel + 1, l =>
    if 1 < l.length then
      (groups maxChildCount l).map (fun g => (nodeHash c g, g)) ++
        proofLoop c fuel (up maxChildCount (nodeHash c) l)
    else [(c.Hash (l.headD []), [l.headD []])]

/-- `dev::getMerkleProof` -/
def TrieHash2.getMerkleProof (c : Crypto) (order : Schedule (List UInt8 × List (List UInt8)))
    (bytesCaches : List (List UInt8)) : Parent2ChildListMap :=
  if bytesCaches.isEmpty then []
  else (order.run (proofLoop c bytesCaches.length bytesCaches)).foldl pushChildren []

/-! ## The loops and the tree -/

section
variable (c : Crypto) {l : List (List UInt8)}

/-- The levels of the tree below the root, minus one. -/
def treeHeight (l : List (List UInt8)) : Nat := height maxChildCount (nodeHash c) l.length l

/-- The nodes of the tree with their children. -/
def treeEntries (l : List (List UInt8)) : Parent2ChildListMap :=
  entries maxChildCount (nodeHash c) (treeHeight c l) l

variable {c}

theorem groups_of_length_one (hl : l.length = 1) : groups maxChildCount l = [[l.headD []]] := by
  obtain ⟨x, rfl⟩ := length_eq_one_iff.mp hl
  exact groups_singleton (by decide) x

theorem up_of_length_one (hl : l.length = 1) :
    up maxChildCount (nodeHash c) l = [c.Hash (l.headD [])] := by
  rw [up, groups_of_length_one hl, map_singleton, nodeHash, flatten_singleton]

/-- The next level is shorter. -/
theorem length_up (hne : l ≠ []) (hlt : 1 < l.length) :
    (up maxChildCount (nodeHash c) l).length < l.length ∧
      0 < (up maxChildCount (nodeHash c) l).length :=
  ⟨length_up_lt (by decide) hlt, length_up_pos (by decide) hne⟩

theorem hashLoop_eq {fuel : Nat} (hne : l ≠ []) (hfuel : l.length ≤ fuel + 1) :
    (level maxChildCount (nodeHash c) (height maxChildCount (nodeHash c) fuel l + 1) l)[0]? =
        some (hashLoop c fuel l) := by
  have hpos := length_pos_iff.mpr hne
  induction fuel generalizing l with
  | zero =>
    rw [height, level, level, up_of_length_one (by omega)]
    rfl
  | succ fuel ih =>
    rw [height, hashLoop]
    split_ifs with hlt
    · obtain ⟨hup, hup'⟩ := length_up (c := c) hne hlt
      rw [level_succ]
      exact ih (length_pos_iff.mp hup') (by omega) hup'
    · rw [level, level, up_of_length_one (by omega)]
      rfl

theorem proofLoop_eq {fuel : Nat} (hne : l ≠ []) (hfuel : l.length ≤ fuel + 1) :
    proofLoop c fuel l = entries maxChildCount (nodeHash c)
      (height maxChildCount (nodeHash c) fuel l) l := by
  have hpos := length_pos_iff.mpr hne
  have hlast : ∀ {m : List (List UInt8)}, m.length = 1 → [(c.Hash (m.headD []), [m.headD []])]
      = entries maxChildCount (nodeHash c) 0 m := by
    intro m hm
    simp [entries, level, groups_of_length_one hm, nodeHash]
  induction fuel generalizing l with
  | zero => exact hlast (by omega)
  | succ fuel ih =>
    rw [height, proofLoop]
    split_ifs with hlt
    · obtain ⟨hup, hup'⟩ := length_up (c := c) hne hlt
      rw [ih (length_pos_iff.mp hup') (by omega) hup', entries_succ]
    · exact hlast (by omega)

theorem proofLoop_eq_treeEntries (hne : l ≠ []) : proofLoop c l.length l = treeEntries c l :=
  proofLoop_eq hne (by omega)

/-- `getHash256` is the root. -/
theorem getHash256_eq (hne : l ≠ []) :
    (level maxChildCount (nodeHash c) (treeHeight c l + 1) l)[0]?
      = some (getHash256 c l) := by
  rw [getHash256, if_neg (by simpa using hne)]
  exact hashLoop_eq hne (by omega)

end

end Rcc.Block
