import Mathlib.Data.List.Nodup
import Mathlib.Data.List.Perm.Basic
import Mathlib.Tactic

/-!
# Rcc.Lib.UnorderedMap

A model of `std::unordered_map` as libstdc++ implements it. The table is one singly linked
list of nodes, and iteration follows that list, so the list *is* the iteration order. A new
node goes to the front of its bucket's run of nodes, or to the front of the whole list when
its bucket is empty; assigning to a present key leaves the node where it is. Crossing the
load factor of one rehashes: the list is walked once and every node is inserted afresh.

The distinctness of the keys is carried by the structure, so that `find?`, membership and
`size` agree without side conditions.
-/

/-- `std::hash`: the number a key's bucket is computed from. -/
class StdHash (κ : Type) where
  hash : κ → Nat

/-- The nodes of the table in iteration order, and the number of buckets. -/
structure UnorderedMap (κ α : Type) where
  nodes : List (κ × α)
  bucketCount : Nat
  nodup : (nodes.map Prod.fst).Nodup

namespace UnorderedMap

open List

variable {κ α : Type}

/-! ### The node list -/

section NodeList

variable [StdHash κ] (n : Nat)

/-- The bucket of a key in a table of `n` buckets. -/
def bucket (k : κ) : Nat := StdHash.hash k % n

/-- Put `e` in front of the first node of its bucket. -/
def insertInBucket (n : Nat) (e : κ × α) : List (κ × α) → List (κ × α)
  | [] => [e]
  | p :: l => if bucket n p.1 = bucket n e.1 then e :: p :: l else p :: insertInBucket n e l

/-- `_M_insert_bucket_begin`: a node of an empty bucket becomes the head of the list. -/
def insertBucketBegin (e : κ × α) (l : List (κ × α)) : List (κ × α) :=
  if l.any (fun p => bucket n p.1 == bucket n e.1) then insertInBucket n e l else e :: l

/-- `_M_rehash_aux`: walk the old list and insert every node into `n` fresh buckets. -/
def rehash (l : List (κ × α)) : List (κ × α) :=
  l.foldl (fun acc e => insertBucketBegin n e acc) []

theorem insertInBucket_perm (e : κ × α) (l : List (κ × α)) :
    (insertInBucket n e l).Perm (e :: l) := by
  induction l with
  | nil => exact List.Perm.refl _
  | cons p l ih =>
    unfold insertInBucket
    split
    · exact List.Perm.refl _
    · exact (ih.cons p).trans (List.Perm.swap e p l)

theorem insertBucketBegin_perm (e : κ × α) (l : List (κ × α)) :
    (insertBucketBegin n e l).Perm (e :: l) := by
  unfold insertBucketBegin
  split
  · exact insertInBucket_perm n e l
  · exact List.Perm.refl _

theorem rehash_foldl_perm (l acc : List (κ × α)) :
    (l.foldl (fun acc e => insertBucketBegin n e acc) acc).Perm (l ++ acc) := by
  induction l generalizing acc with
  | nil => exact List.Perm.refl _
  | cons e l ih =>
    refine (ih _).trans (((insertBucketBegin_perm n e acc).append_left l).trans ?_)
    exact perm_middle

theorem rehash_perm (l : List (κ × α)) : (rehash n l).Perm l := by
  have h := rehash_foldl_perm n l []
  rwa [append_nil] at h

end NodeList

/-! ### Growth policy -/

/-- The bucket counts of `_Prime_rehash_policy` in the order a growing table takes them. -/
def primeList : List Nat :=
  [13, 29, 59, 127, 257, 541, 1109, 2357, 5087, 10273, 20753, 42043, 85229, 172933, 351061,
    712697, 1447153, 2938679, 5967347, 12117689, 24607243, 49969847, 101473717, 206062531,
    418451333, 849749479, 1725587117, 3504151727]

/-- `_M_need_rehash` for one new element: the first insertion starts at 13 buckets, later the
count at least doubles once the elements outnumber the buckets. -/
def nextBucketCount (bucketCount size : Nat) : Nat :=
  if bucketCount = 1 then 13
  else if size + 1 ≤ bucketCount then bucketCount
  else (primeList.find? (2 * bucketCount ≤ ·)).getD bucketCount

/-! ### The container's operations -/

variable {m : UnorderedMap κ α}

/-- A fresh container: one bucket, no node. -/
def empty : UnorderedMap κ α := ⟨[], 1, nodup_nil⟩

instance : EmptyCollection (UnorderedMap κ α) := ⟨empty⟩

instance : Inhabited (UnorderedMap κ α) := ⟨empty⟩

def size (m : UnorderedMap κ α) : Nat := m.nodes.length

def keys (m : UnorderedMap κ α) : List κ := m.nodes.map Prod.fst

@[simp] theorem nodes_empty : (∅ : UnorderedMap κ α).nodes = [] := rfl

@[simp] theorem keys_empty : (∅ : UnorderedMap κ α).keys = [] := rfl

theorem length_keys (m : UnorderedMap κ α) : m.keys.length = m.size := length_map _

theorem mem_keys_of_mem {p : κ × α} (h : p ∈ m.nodes) : p.1 ∈ m.keys := mem_map.mpr ⟨p, h, rfl⟩

variable [DecidableEq κ]

/-- `find` / `at`. -/
def find? (m : UnorderedMap κ α) (k : κ) : Option α :=
  (m.nodes.find? (fun p => p.1 = k)).map Prod.snd

/-- `count(k) != 0`. -/
def contains (m : UnorderedMap κ α) (k : κ) : Bool := (m.find? k).isSome

/-- Overwrite the value of a present key. -/
def assignNodes (k : κ) (v : α) (l : List (κ × α)) : List (κ × α) :=
  l.map (fun p => if p.1 = k then (k, v) else p)

theorem assignNodes_keys (k : κ) (v : α) (l : List (κ × α)) :
    (assignNodes k v l).map Prod.fst = l.map Prod.fst := by
  induction l with
  | nil => rfl
  | cons p l ih =>
    simp only [assignNodes, map_cons] at ih ⊢
    rw [ih]
    split
    · rename_i h; rw [h]
    · rfl

theorem find?_eq_some_iff (m : UnorderedMap κ α) (k : κ) (v : α) :
    m.find? k = some v ↔ (k, v) ∈ m.nodes := by
  obtain ⟨l, n, hnd⟩ := m
  simp only [find?]
  induction l with
  | nil => simp
  | cons p l ih =>
    simp only [map_cons, nodup_cons] at hnd
    by_cases hp : p.1 = k
    · rw [List.find?_cons_of_pos (by simp [hp])]
      simp only [Option.map_some, Option.some.injEq, mem_cons]
      constructor
      · intro h
        exact .inl (Prod.ext hp.symm h.symm)
      · rintro (h | h)
        · rw [← h]
        · exact absurd (mem_map.mpr ⟨_, h, hp.symm⟩) hnd.1
    · rw [List.find?_cons_of_neg (by simp [hp]), ih hnd.2, mem_cons]
      constructor
      · exact .inr
      · rintro (h | h)
        · exact absurd (congrArg Prod.fst h).symm hp
        · exact h

theorem find?_eq_none_iff (m : UnorderedMap κ α) (k : κ) : m.find? k = none ↔ k ∉ m.keys := by
  rw [keys, mem_map, ← not_iff_not, not_not, ← Ne, Option.ne_none_iff_exists']
  constructor
  · rintro ⟨v, hv⟩
    exact ⟨(k, v), (find?_eq_some_iff m k v).mp hv, rfl⟩
  · rintro ⟨p, hp, rfl⟩
    exact ⟨p.2, (find?_eq_some_iff m p.1 p.2).mpr hp⟩

/-- A container is determined by its lookups and by the order of its keys. -/
theorem nodes_eq_of_keys_eq {m₁ m₂ : UnorderedMap κ α} (hkeys : m₁.keys = m₂.keys)
    (hfind : ∀ k, m₁.find? k = m₂.find? k) : m₁.nodes = m₂.nodes := by
  have hmap (m : UnorderedMap κ α) : m.nodes.map (fun p => (p.1, m.find? p.1)) =
      m.nodes.map (fun p => (p.1, some p.2)) := by
    refine map_congr_left fun p hp => ?_
    rw [(find?_eq_some_iff m p.1 p.2).mpr hp]
  have hpair (m : UnorderedMap κ α) : m.nodes.map (fun p => (p.1, some p.2)) =
      m.keys.map (fun k => (k, m.find? k)) := by
    rw [← hmap m, keys, map_map]
    rfl
  have hinj : Function.Injective (fun p : κ × α => (p.1, some p.2)) := by
    rintro ⟨a, b⟩ ⟨a', b'⟩ h
    simpa using h
  refine map_injective_iff.mpr hinj ?_
  rw [hpair m₁, hpair m₂, hkeys]
  exact map_congr_left fun k _ => by rw [hfind k]

/-- `m[k] = v`. -/
def set [StdHash κ] (m : UnorderedMap κ α) (k : κ) (v : α) : UnorderedMap κ α :=
  if h : k ∈ m.keys then
    ⟨assignNodes k v m.nodes, m.bucketCount, by rw [assignNodes_keys]; exact m.nodup⟩
  else
    let n := nextBucketCount m.bucketCount m.size
    let old := if n = m.bucketCount then m.nodes else rehash n m.nodes
    ⟨insertBucketBegin n (k, v) old, n, by
      have hold : old.Perm m.nodes := by
        simp only [old]
        split
        · exact List.Perm.refl _
        · exact rehash_perm n m.nodes
      have hperm : (insertBucketBegin n (k, v) old).Perm ((k, v) :: m.nodes) :=
        (insertBucketBegin_perm n (k, v) old).trans (hold.cons _)
      rw [(hperm.map Prod.fst).nodup_iff, map_cons, nodup_cons]
      exact ⟨h, m.nodup⟩⟩

/-- `erase(k)`. -/
def erase (m : UnorderedMap κ α) (k : κ) : UnorderedMap κ α :=
  ⟨m.nodes.filter (fun p => p.1 ≠ k), m.bucketCount, m.nodup.sublist (filter_sublist.map Prod.fst)⟩

/-- A loop that erases the nodes `p` rejects; the others keep their order. -/
def filter (p : κ × α → Bool) (m : UnorderedMap κ α) : UnorderedMap κ α :=
  ⟨m.nodes.filter p, m.bucketCount, m.nodup.sublist (filter_sublist.map Prod.fst)⟩

/-- A loop that changes every value in place. -/
def mapValues {β : Type} (f : α → β) (m : UnorderedMap κ α) : UnorderedMap κ β :=
  ⟨m.nodes.map fun p => (p.1, f p.2), m.bucketCount, by
    rw [map_map]
    exact m.nodup⟩

/-! ### What the operations do to lookups and sizes -/

@[simp] theorem find?_empty (k : κ) : (∅ : UnorderedMap κ α).find? k = none := rfl

section Set

variable [StdHash κ] {k : κ}

theorem set_nodes_of_mem (h : k ∈ m.keys) (v : α) :
    (m.set k v).nodes = assignNodes k v m.nodes := by
  unfold set
  rw [dif_pos h]

theorem set_nodes_of_not_mem (h : k ∉ m.keys) (v : α) :
    (m.set k v).nodes.Perm ((k, v) :: m.nodes) := by
  unfold set
  rw [dif_neg h]
  refine (insertBucketBegin_perm _ _ _).trans (List.Perm.cons _ ?_)
  split
  · exact List.Perm.refl _
  · exact rehash_perm _ m.nodes

theorem mem_set_nodes {v : α} {p : κ × α} :
    p ∈ (m.set k v).nodes ↔ p = (k, v) ∨ p.1 ≠ k ∧ p ∈ m.nodes := by
  by_cases h : k ∈ m.keys
  · rw [set_nodes_of_mem h, assignNodes, mem_map]
    constructor
    · rintro ⟨q, hq, rfl⟩
      by_cases hqk : q.1 = k
      · rw [if_pos hqk]; exact .inl rfl
      · rw [if_neg hqk]; exact .inr ⟨hqk, hq⟩
    · rintro (rfl | ⟨hpk, hp⟩)
      · obtain ⟨q, hq, hqk⟩ := mem_map.mp h
        exact ⟨q, hq, by rw [if_pos hqk]⟩
      · exact ⟨p, hp, by rw [if_neg hpk]⟩
  · rw [(set_nodes_of_not_mem h v).mem_iff, mem_cons]
    refine or_congr_right ⟨fun hp => ⟨?_, hp⟩, And.right⟩
    rintro rfl
    exact h (mem_map.mpr ⟨p, hp, rfl⟩)

theorem find?_set (m : UnorderedMap κ α) (k k' : κ) (v : α) :
    (m.set k v).find? k' = if k' = k then some v else m.find? k' := by
  apply Option.ext
  intro w
  rw [find?_eq_some_iff, mem_set_nodes]
  by_cases hk : k' = k
  · subst hk
    simp [eq_comm]
  · simp [hk, find?_eq_some_iff]

theorem keys_set_of_mem (h : k ∈ m.keys) (v : α) : (m.set k v).keys = m.keys := by
  rw [keys, set_nodes_of_mem h, assignNodes_keys, keys]

theorem size_set (m : UnorderedMap κ α) (k : κ) (v : α) :
    (m.set k v).size = if k ∈ m.keys then m.size else m.size + 1 := by
  split_ifs with h
  · rw [size, set_nodes_of_mem h, assignNodes, length_map, size]
  · rw [size, (set_nodes_of_not_mem h v).length_eq, length_cons, size]

end Set

theorem mem_erase_nodes {k : κ} {p : κ × α} : p ∈ (m.erase k).nodes ↔ p.1 ≠ k ∧ p ∈ m.nodes := by
  rw [erase, mem_filter, and_comm, decide_eq_true_iff]

theorem find?_erase (m : UnorderedMap κ α) (k k' : κ) :
    (m.erase k).find? k' = if k' = k then none else m.find? k' := by
  apply Option.ext
  intro w
  rw [find?_eq_some_iff, mem_erase_nodes]
  by_cases hk : k' = k
  · simp [hk]
  · simp [find?_eq_some_iff]

theorem find?_of_filter {p : κ × α → Bool} {k : κ} {v : α} (h : (m.filter p).find? k = some v) :
    m.find? k = some v ∧ p (k, v) = true := by
  rw [find?_eq_some_iff, filter, mem_filter] at h
  exact ⟨(find?_eq_some_iff m k v).mpr h.1, h.2⟩

theorem find?_mapValues {β : Type} (m : UnorderedMap κ α) (f : α → β) (k : κ) :
    (m.mapValues f).find? k = (m.find? k).map f := by
  simp only [find?, mapValues, List.find?_map, Option.map_map]
  rfl

end UnorderedMap
