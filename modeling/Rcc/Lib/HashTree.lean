import Mathlib.Data.List.TakeWhile
import Mathlib.Logic.Relation
import Mathlib.Tactic

/-!
# Rcc.Lib.HashTree

Trees whose nodes are values computed from the values below them, `arity` at a time.

The tree over a list of leaves is given by its levels: `level 0` are the leaves, and each node of
`level (t + 1)` combines `arity` nodes of `level t` (the last one may have fewer). A path to a
node above is the list of the siblings to the left and to the right, level by level.

* `Distinct` — no value stands at two places of the tree; `distinct_of_heads` derives it from what
  the combination does to the first child;
* `walk` — up through a map from children to parents and one from parents to children;
* `walk_root` — if the maps hold the edges of a tree of distinct values, the walk ends at the root
  and its path leads there.
-/

namespace HashTree

open List

variable {V : Type} (arity : Nat) (combine : List V → V)

/-- The children of the nodes above. -/
def groups (l : List V) : List (List V) :=
  (List.range ((l.length + arity - 1) / arity)).map fun i =>
    (List.range arity).filterMap fun j => l[i * arity + j]?

/-- The nodes above. -/
def up (l : List V) : List V := (groups arity l).map combine

def level : Nat → List V → List V
  | 0, l => l
  | t + 1, l => up arity combine (level t l)

/-- The levels it takes to come to one node, `fuel` at most. -/
def height : Nat → List V → Nat
  | 0, _ => 0
  | fuel + 1, l => if 1 < l.length then height fuel (up arity combine l) + 1 else 0

/-- The nodes above the levels up to `h`, with their children. -/
def entries (h : Nat) (l : List V) : List (V × List V) :=
  (List.range (h + 1)).flatMap fun t =>
    (groups arity (level arity combine t l)).map fun g => (combine g, g)

/-- From a node along a path. -/
def climb (v : V) (path : List (List V × List V)) : V :=
  path.foldl (fun v siblings => combine (siblings.1 ++ v :: siblings.2)) v

/-! ## Groups -/

section groups

variable {arity} {l : List V} {i : Nat} {g : List V}

theorem filterMap_range_getElem? (l : List V) (n : Nat) :
    (List.range n).filterMap (fun j => l[j]?) = l.take n := by
  induction n with
  | zero => simp
  | succ n ih =>
    rw [range_succ, filterMap_append, ih, take_add_one]
    cases hn : l[n]? <;> simp [hn]

theorem lt_groups_iff (harity : 0 < arity) :
    i < (l.length + arity - 1) / arity ↔ i * arity < l.length := by
  rw [Nat.lt_iff_add_one_le, Nat.le_div_iff_mul_le harity, add_one_mul]
  omega

theorem length_groups : (groups arity l).length = (l.length + arity - 1) / arity := by
  simp [groups]

section

variable (harity : 0 < arity)
include harity

theorem groups_getElem? (hi : i * arity < l.length) :
    (groups arity l)[i]? = some ((l.drop (i * arity)).take arity) := by
  have hlt : i < (l.length + arity - 1) / arity := (lt_groups_iff harity).mpr hi
  simp only [groups, List.getElem?_map, List.getElem?_range hlt, Option.map_some]
  rw [← filterMap_range_getElem?]
  simp only [List.getElem?_drop]

theorem groups_getElem?_some (hg : (groups arity l)[i]? = some g) :
    i * arity < l.length ∧ g = (l.drop (i * arity)).take arity := by
  obtain ⟨hlt, -⟩ := List.getElem?_eq_some_iff.mp hg
  rw [length_groups, lt_groups_iff harity] at hlt
  rw [groups_getElem? harity hlt] at hg
  exact ⟨hlt, (Option.some.inj hg).symm⟩

theorem groups_singleton (v : V) : groups arity [v] = [[v]] := by
  have hcount : (1 + arity - 1) / arity = 1 := by
    rw [Nat.add_sub_cancel_left, Nat.div_self harity]
  have htake : [v].take arity = [v] := take_of_length_le harity
  simp only [groups, length_singleton, hcount, range_one, map_singleton, zero_mul,
    zero_add, filterMap_range_getElem?, htake]

theorem group_ne_nil (hg : (groups arity l)[i]? = some g) : g ≠ [] := by
  obtain ⟨hlt, rfl⟩ := groups_getElem?_some harity hg
  rw [← length_pos_iff, length_take, length_drop]
  omega

theorem head?_group (hg : (groups arity l)[i]? = some g) : g.head? = l[i * arity]? := by
  obtain ⟨-, rfl⟩ := groups_getElem?_some harity hg
  rw [List.head?_take, if_neg harity.ne', List.head?_drop]

theorem mem_group {v : V} (hv : l[i]? = some v) :
    ∃ g, (groups arity l)[i / arity]? = some g ∧ v ∈ g := by
  obtain ⟨hi, -⟩ := List.getElem?_eq_some_iff.mp hv
  have hdiv : i / arity * arity ≤ i := Nat.div_mul_le_self i arity
  refine ⟨_, groups_getElem? harity (by omega), mem_iff_getElem?.mpr ⟨i % arity, ?_⟩⟩
  rw [List.getElem?_take_of_lt (Nat.mod_lt i harity), List.getElem?_drop, Nat.div_add_mod' i arity,
    hv]

/-- A child of a group is one of the nodes with the group's number. -/
theorem getElem?_of_mem_group {v : V} (hg : (groups arity l)[i]? = some g) (hv : v ∈ g) :
    ∃ j, l[j]? = some v ∧ j / arity = i := by
  obtain ⟨-, rfl⟩ := groups_getElem?_some harity hg
  obtain ⟨j, hj⟩ := mem_iff_getElem?.mp hv
  obtain ⟨hlt, -⟩ := List.getElem?_eq_some_iff.mp hj
  have hj' : j < arity := (length_take_le _ _).trans_lt' hlt
  rw [List.getElem?_take_of_lt hj', List.getElem?_drop] at hj
  refine ⟨i * arity + j, hj, ?_⟩
  rw [mul_comm, Nat.mul_add_div harity, Nat.div_eq_of_lt hj', add_zero]

end

end groups

/-! ## Levels -/

section levels

variable {arity combine} {l : List V} {t : Nat}

theorem length_up (l : List V) : (up arity combine l).length = (l.length + arity - 1) / arity := by
  rw [up, length_map, length_groups]

theorem up_getElem? {i : Nat} {p : V} (hp : (up arity combine l)[i]? = some p) :
    ∃ g, (groups arity l)[i]? = some g ∧ combine g = p := by
  rw [up, List.getElem?_map] at hp
  exact Option.map_eq_some_iff.mp hp

theorem level_succ (t : Nat) (l : List V) :
    level arity combine (t + 1) l = level arity combine t (up arity combine l) := by
  induction t with
  | zero => rfl
  | succ t ih => rw [level, ih, level]

theorem length_up_lt (harity : 2 ≤ arity) (hl : 1 < l.length) :
    (up arity combine l).length < l.length := by
  have hmul : l.length + arity ≤ l.length * arity := by nlinarith
  rw [length_up, Nat.div_lt_iff_lt_mul (by omega)]
  omega

theorem length_up_pos (harity : 0 < arity) (hl : l ≠ []) : 0 < (up arity combine l).length := by
  have := length_pos_iff.mpr hl
  rw [length_up, Nat.div_pos_iff]
  omega

theorem height_le (fuel : Nat) (l : List V) : height arity combine fuel l ≤ fuel := by
  induction fuel generalizing l with
  | zero => exact le_rfl
  | succ fuel ih =>
    rw [height]
    split
    · exact Nat.succ_le_succ (ih _)
    · exact Nat.zero_le _

/-- With enough fuel one node is left. -/
theorem length_level_height (harity : 2 ≤ arity) {fuel : Nat} (hl : l ≠ [])
    (hfuel : l.length ≤ fuel + 1) :
    (level arity combine (height arity combine fuel l) l).length = 1 := by
  induction fuel generalizing l with
  | zero =>
    have := length_pos_iff.mpr hl
    rw [height, level]
    omega
  | succ fuel ih =>
    have hpos := length_pos_iff.mpr hl
    rw [height]
    split_ifs with hlt
    · have hup : (up arity combine l).length < l.length := length_up_lt harity hlt
      rw [level_succ]
      exact ih (length_pos_iff.mp (length_up_pos (by omega) hl)) (by omega)
    · rw [level]
      omega

theorem length_level_succ_height (harity : 2 ≤ arity) {fuel : Nat} (hl : l ≠ [])
    (hfuel : l.length ≤ fuel + 1) :
    (level arity combine (height arity combine fuel l + 1) l).length = 1 := by
  rw [level, length_up, length_level_height harity hl hfuel, Nat.add_sub_cancel_left,
    Nat.div_self (by omega)]

theorem entries_succ (h : Nat) (l : List V) :
    entries arity combine (h + 1) l = (groups arity l).map (fun g => (combine g, g)) ++
        entries arity combine h (up arity combine l) := by
  rw [entries, range_succ_eq_map (n := h + 1), flatMap_cons, flatMap_map]
  simp only [level_succ]
  rfl

theorem mem_entries {h : Nat} {p : V} {g : List V} :
    (p, g) ∈ entries arity combine h l ↔
      ∃ t ≤ h, ∃ i : Nat, (groups arity (level arity combine t l))[i]? = some g ∧
        combine g = p := by
  simp only [entries, mem_flatMap, mem_range, mem_map, Prod.mk.injEq, Nat.lt_succ_iff]
  constructor
  · rintro ⟨t, ht, g', hg', rfl, rfl⟩
    obtain ⟨i, hi⟩ := mem_iff_getElem?.mp hg'
    exact ⟨t, ht, i, hi, rfl⟩
  · rintro ⟨t, ht, i, hi, rfl⟩
    exact ⟨t, ht, g, mem_of_getElem? hi, rfl, rfl⟩

/-- A node above stands at the number of its group. -/
theorem level_succ_getElem? {i : Nat} {g : List V}
    (hg : (groups arity (level arity combine t l))[i]? = some g) :
    (level arity combine (t + 1) l)[i]? = some (combine g) := by
  rw [level, up, List.getElem?_map, hg, Option.map_some]

theorem last_child (harity : 0 < arity) {v : V} (hv : (level arity combine t l).getLast? = some v) :
    ∃ g, ∃ i : Nat, (groups arity (level arity combine t l))[i]? = some g ∧ v ∈ g ∧
      (level arity combine (t + 1) l).getLast? = some (combine g) := by
  rw [List.getLast?_eq_getElem?] at hv
  obtain ⟨g, hg, hmem⟩ := mem_group harity hv
  refine ⟨g, _, hg, hmem, ?_⟩
  obtain ⟨hlt, -⟩ := List.getElem?_eq_some_iff.mp hv
  have hlast : (level arity combine (t + 1) l).length - 1
      = ((level arity combine t l).length - 1) / arity := by
    rw [level, length_up, show (level arity combine t l).length + arity - 1
      = (level arity combine t l).length - 1 + arity by omega, Nat.add_div_right _ harity]
    rfl
  rw [List.getLast?_eq_getElem?, hlast]
  exact level_succ_getElem? hg

/-- From a value to one it is computed from, in the levels up to `h + 1`. -/
def Edge (arity : Nat) (combine : List V → V) (h : Nat) (l : List V) (child parent : V) : Prop :=
  ∃ g, (parent, g) ∈ entries arity combine h l ∧ child ∈ g

/-- From the last node of a level there is a path to the last node of each level above. -/
theorem last_path (harity : 0 < arity) {h d : Nat} {v : V} (ht : t + d ≤ h)
    (hv : (level arity combine t l).getLast? = some v) :
    ∃ w, (level arity combine (t + d + 1) l).getLast? = some w ∧
      Relation.TransGen (Edge arity combine h l) v w := by
  induction d with
  | zero =>
    obtain ⟨g, i, hg, hmem, hlast⟩ := last_child harity hv
    exact ⟨_, hlast, .single ⟨g, mem_entries.mpr ⟨t, ht, i, hg, rfl⟩, hmem⟩⟩
  | succ d ih =>
    obtain ⟨w, hw, hpath⟩ := ih (by omega)
    obtain ⟨g, i, hg, hmem, hlast⟩ := last_child harity hw
    exact ⟨_, hlast, hpath.tail ⟨g, mem_entries.mpr ⟨t + d + 1, ht, i, hg, rfl⟩, hmem⟩⟩

end levels

/-! ## Distinct values -/

section distinct

variable {arity combine} {l : List V} {h : Nat}

/-- No value stands at two places of the levels up to `h + 1`. -/
def Distinct (arity : Nat) (combine : List V → V) (h : Nat) (l : List V) : Prop :=
  ∀ s ≤ h + 1, ∀ t ≤ h + 1, ∀ (i j : Nat) (v : V), (level arity combine s l)[i]? = some v →
    (level arity combine t l)[j]? = some v → s = t ∧ i = j

/-- If the value of a node determines its first child, and no leaf is the value of a node or of
another leaf, all values are distinct. -/
theorem distinct_of_heads (harity : 0 < arity)
    (hleaves : ∀ (i j : Nat) (v : V), l[i]? = some v → l[j]? = some v → i = j)
    (hleaf : ∀ t ≤ h, ∀ (i : Nat) (v : V), (level arity combine (t + 1) l)[i]? = some v → v ∉ l)
    (hheads : ∀ e ∈ entries arity combine h l, ∀ e' ∈ entries arity combine h l,
      e.1 = e'.1 → e.2.head? = e'.2.head?) : Distinct arity combine h l := by
  intro s
  induction s with
  | zero =>
    intro _ t ht i j v hv hv'
    cases t with
    | zero => exact ⟨rfl, hleaves i j v hv hv'⟩
    | succ t => exact absurd (mem_of_getElem? hv) (hleaf t (by omega) j v hv')
  | succ s ih =>
    intro hs t ht i j v hv hv'
    cases t with
    | zero => exact absurd (mem_of_getElem? hv') (hleaf s (by omega) i v hv)
    | succ t =>
      obtain ⟨g, hg, hgv⟩ := up_getElem? hv
      obtain ⟨g', hg', hgv'⟩ := up_getElem? hv'
      have hhead := hheads (v, g) (mem_entries.mpr ⟨s, by omega, i, hg, hgv⟩) (v, g')
        (mem_entries.mpr ⟨t, by omega, j, hg', hgv'⟩) rfl
      rw [head?_group harity hg, head?_group harity hg'] at hhead
      -- the first children are equal, so they stand at the same place
      obtain ⟨hlt, -⟩ := groups_getElem?_some harity hg
      have hfirst := List.getElem?_eq_getElem hlt
      obtain ⟨hst, hij⟩ := ih (by omega) t (by omega) _ _ _ hfirst (hhead ▸ hfirst)
      exact ⟨by omega, Nat.eq_of_mul_eq_mul_right harity hij⟩

/-- The nodes above the leaves are listed once each. -/
theorem nodup_keys (hd : Distinct arity combine h l) :
    ((entries arity combine h l).map Prod.fst).Nodup := by
  have hkeys : (entries arity combine h l).map Prod.fst
      = (List.range (h + 1)).flatMap fun t => level arity combine (t + 1) l := by
    rw [entries, map_flatMap]
    simp only [map_map]
    rfl
  rw [hkeys, nodup_flatMap]
  refine ⟨fun t ht => ?_, ?_⟩
  · rw [mem_range] at ht
    refine nodup_iff_getElem?_ne_getElem?.mpr fun i j hij hj heq => ?_
    have hi := List.getElem?_eq_getElem hj
    have := (hd (t + 1) (by omega) (t + 1) (by omega) i j _ (heq.trans hi) hi).2
    omega
  · refine List.Pairwise.imp_of_mem (fun {s t} hs ht hne => ?_) nodup_range
    rw [mem_range] at hs ht
    refine fun v hv hv' => hne ?_
    obtain ⟨i, hi⟩ := mem_iff_getElem?.mp hv
    obtain ⟨j, hj⟩ := mem_iff_getElem?.mp hv'
    have := (hd (s + 1) (by omega) (t + 1) (by omega) i j v hi hj).1
    omega

end distinct

/-! ## The walk -/

section walk

variable [DecidableEq V]

/-- From a node to its parent as long as there is one, at most `fuel` times. -/
def walk (children : V → Option (List V)) (parent : V → Option V) :
    Nat → V → Option (List (List V × List V))
  | 0, _ => none
  | fuel + 1, v =>
    match parent v with
    | none => some []
    | some p =>
      match children p with
      | none => some []
      | some g =>
        if v ∈ g then
          (walk children parent fuel p).map ((g.takeWhile (· ≠ v), (g.dropWhile (· ≠ v)).tail) :: ·)
        else some []

theorem takeWhile_append_tail {g : List V} {v : V} (hv : v ∈ g) :
    g.takeWhile (· ≠ v) ++ v :: (g.dropWhile (· ≠ v)).tail = g := by
  have hne : g.dropWhile (· ≠ v) ≠ [] := by
    intro hnil
    simpa using dropWhile_eq_nil_iff.1 hnil v hv
  have hhead : (g.dropWhile (· ≠ v)).head hne = v := by
    have := head_dropWhile_not (p := fun a => decide (a ≠ v)) (l := g) hne
    simpa using this
  conv_rhs => rw [← takeWhile_append_dropWhile (p := fun a => decide (a ≠ v)) (l := g),
    ← cons_head_tail hne, hhead]

variable {arity combine} {l : List V} {h : Nat} {children : V → Option (List V)}
  {parent : V → Option V}

/-- **The walk leads to the root.** -/
theorem walk_root (harity : 0 < arity) (hd : Distinct arity combine h l)
    (htop : (level arity combine (h + 1) l).length = 1)
    (hchildren : ∀ p g, (p, g) ∈ entries arity combine h l → children p = some g)
    (hparent : ∀ v p, parent v = some p → ∃ g, (p, g) ∈ entries arity combine h l ∧ v ∈ g)
    (hnone : ∀ e ∈ entries arity combine h l, ∀ v ∈ e.2, parent v ≠ none)
    {t : Nat} (ht : t ≤ h + 1) {i fuel : Nat} {v : V}
    (hv : (level arity combine t l)[i]? = some v) (hfuel : h + 2 ≤ fuel + t) :
    ∃ path, walk children parent fuel v = some path ∧
      (level arity combine (h + 1) l)[0]? = some (climb combine v path) := by
  induction fuel generalizing t i v with
  | zero => omega
  | succ fuel ih =>
    rcases Nat.lt_or_ge h t with htop' | hle
    · -- the root has no parent
      obtain rfl : t = h + 1 := by omega
      have hroot : parent v = none := by
        by_contra hsome
        obtain ⟨p, hp⟩ := Option.ne_none_iff_exists'.mp hsome
        obtain ⟨g, hg, hvg⟩ := hparent v p hp
        obtain ⟨s, hs, k, hk, -⟩ := mem_entries.mp hg
        obtain ⟨j, hj, -⟩ := getElem?_of_mem_group harity hk hvg
        have := (hd s (by omega) (h + 1) le_rfl j i v hj hv).1
        omega
      refine ⟨[], by simp [walk, hroot], ?_⟩
      obtain ⟨hi, -⟩ := List.getElem?_eq_some_iff.mp hv
      obtain rfl : i = 0 := by omega
      exact hv
    · obtain ⟨g, hg, hvg⟩ := mem_group harity hv
      obtain ⟨p, hp⟩ := Option.ne_none_iff_exists'.mp
        (hnone (combine g, g) (mem_entries.mpr ⟨t, hle, _, hg, rfl⟩) v hvg)
      -- the parent in the map is the one above
      obtain ⟨g', hg', hvg'⟩ := hparent v p hp
      obtain ⟨s, hs, k, hk, rfl⟩ := mem_entries.mp hg'
      obtain ⟨j, hj, hjk⟩ := getElem?_of_mem_group harity hk hvg'
      obtain ⟨rfl, rfl⟩ := hd s (by omega) t ht j i v hj hv
      rw [hjk] at hg
      obtain rfl := Option.some.inj (hg.symm.trans hk)
      obtain ⟨path, hpath, hclimb⟩ := ih (t := s + 1) (by omega)
        (level_succ_getElem? hg) (by omega)
      refine ⟨(g.takeWhile (· ≠ v), (g.dropWhile (· ≠ v)).tail) :: path, ?_, ?_⟩
      · simp only [walk, hp, hchildren _ _ hg', hvg, if_true, hpath, Option.map_some]
      · rw [climb, foldl_cons, takeWhile_append_tail hvg]
        exact hclimb

end walk

end HashTree
