import Rcc.Tree.Broadcast
import Rcc.Tree.SyncTopology

/-!
# Rcc.Tree.BlockStatus

Whom the news of a block reaches along the trees of `SyncTreeTopology`.

A consensus node tells all other consensus nodes, and the first level of its own tree. An observer
tells its children and its parent. A consensus node that stands in a tree passes nothing on there,
unless it is the root of that tree and stands in its first level. So an observer is reached only if
it hangs, through observers, on the first level, on the root in the first level, or on the last node
of the slot, which is told by the wrong parent of the next slot and by consensus nodes that have no
slot. `everyone_reached_iff` says that these are all the ways.
-/

namespace Rcc.Tree

open List SyncTreeTopology

open LevelOrder

/-- A group of nodes that know each other. The order of the lists does not matter here; in the
source they are sorted. -/
structure Group (NodeID : Type) where
  treeWidth : Nat
  nodeList : List NodeID
  consensusNodes : List NodeID
  /-- What each node reads in front of its node list. -/
  inFront : NodeID → NodeID
  width_pos : 1 ≤ treeWidth
  nodup : nodeList.Nodup
  nodup_consensus : consensusNodes.Nodup
  subset : consensusNodes ⊆ nodeList
  inFront_not_mem : ∀ u, inFront u ∉ nodeList

namespace Group

variable {NodeID : Type} [DecidableEq NodeID] (G : Group NodeID)

def topology (u : NodeID) : SyncTreeTopology NodeID :=
  updateAllNodeInfo
    { treeWidth := G.treeWidth, nodeId := u, inFront := G.inFront u }
    G.consensusNodes G.nodeList

/-- With all nodes connected, `u` sends to `v`. -/
def Sends (u v : NodeID) : Prop :=
  v ∈ (G.topology u).selectNodesForBlockSync (G.nodeList.toFinset.erase u)

def Reaches : NodeID → NodeID → Prop := Relation.ReflTransGen G.Sends

/-! ## Places in the trees -/

def slotSize : Nat := (G.nodeList.length + G.consensusNodes.length - 1) / G.consensusNodes.length

/-- The index of the parent in the tree; 0 is the root. -/
def rank (x : Nat) : Nat := x % G.slotSize / G.treeWidth

/-- The place of the parent. -/
def up (x : Nat) : Option Nat :=
  if G.rank x = 0 then none else some (x / G.slotSize * G.slotSize + (G.rank x - 1))

/-- An observer stands at the place. -/
def Observer (x : Nat) : Prop := ∃ u, G.nodeList[x]? = some u ∧ u ∉ G.consensusNodes

/-- From `x` up to `t` there are only observers. -/
inductive Climb : Nat → Nat → Prop where
  | refl {x : Nat} (hx : G.Observer x) : Climb x x
  | step {x p t : Nat} (hx : G.Observer x) (hp : G.up x = some p) (h : Climb p t) : Climb x t

/-- In the first level, or below the root of the tree if this stands in the first level. -/
def Hung (t : Nat) : Prop :=
  G.up t = none ∨ ∃ p, G.up t = some p ∧ G.up p = none ∧
    G.nodeList[p]? = G.consensusNodes[p / G.slotSize]?

/-- The last place of a slot, if in the first level of the next slot there is an observer, or if
there is no next slot but a consensus node without one. -/
def Rescued (z : Nat) : Prop :=
  G.Observer z ∧
    ((∃ y, G.Observer y ∧ G.rank y = 0 ∧ z + 1 = y / G.slotSize * G.slotSize) ∨
      z + 1 = G.nodeList.length ∧ G.nodeList.length ≤ G.slotSize * (G.consensusNodes.length - 1))

/-- The observer hangs, through observers, on a place that is told. -/
def Anchored (x : Nat) : Prop := ∃ t, G.Climb x t ∧ (G.Hung t ∨ ∃ z, G.Rescued z ∧ G.Climb z t)

/-! ## Numbers -/

section Numbers

variable {G} {u v : NodeID} {x t : Nat}

theorem place_div {s j k : Nat} (hj : j < k) : (s * k + j) / k = s := by
  rw [Nat.mul_comm, Nat.mul_add_div (by omega), Nat.div_eq_of_lt hj, Nat.add_zero]

theorem place_mod {s j k : Nat} (hj : j < k) : (s * k + j) % k = j := by
  rw [Nat.mul_comm, Nat.mul_add_mod, Nat.mod_eq_of_lt hj]

omit [DecidableEq NodeID]

theorem length_consensus_le : G.consensusNodes.length ≤ G.nodeList.length :=
  (G.nodup_consensus.subperm G.subset).length_le

theorem place_lt (hx : G.nodeList[x]? = some u) : x < G.nodeList.length :=
  (List.getElem?_eq_some_iff.mp hx).1

theorem place_unique {y : Nat} (hx : G.nodeList[x]? = some u) (hy : G.nodeList[y]? = some u) :
    y = x := (List.getElem?_inj (place_lt hy) G.nodup).mp (hy.trans hx.symm)

/-- Its own place is the only one a node does not send to. -/
theorem ne_iff_place_ne (hx : G.nodeList[x]? = some u) {y : Nat} (hy : G.nodeList[y]? = some v) :
    v ≠ u ↔ y ≠ x := by
  rw [not_iff_not]
  refine ⟨fun h => place_unique hx (h ▸ hy), ?_⟩
  rintro rfl
  exact Option.some.inj (hy.symm.trans hx)

theorem up_eq_none_iff : G.up x = none ↔ G.rank x = 0 := by
  rw [up]
  split <;> simp_all

theorem Climb.trans {y : Nat} (h : G.Climb x y) (h' : G.Climb y t) : G.Climb x t := by
  induction h with
  | refl _ => exact h'
  | step hx hp _ ih => exact .step hx hp (ih h')

theorem Climb.observer_right (h : G.Climb x t) : G.Observer t := by
  induction h with
  | refl hx => exact hx
  | step _ _ _ ih => exact ih

theorem Climb.observer_left (h : G.Climb x t) : G.Observer x := by
  cases h with
  | refl hx => exact hx
  | step hx _ _ => exact hx

variable (hne : G.consensusNodes ≠ [])

include hne

theorem slotSize_pos : 0 < G.slotSize := by
  have hpos := length_pos_of_ne_nil hne
  have hle := length_consensus_le (G := G)
  exact Nat.div_pos (by omega) hpos

theorem length_le_slots : G.nodeList.length ≤ G.slotSize * G.consensusNodes.length := by
  have hpos := length_pos_of_ne_nil hne
  have := Nat.lt_div_mul_add (a := G.nodeList.length + G.consensusNodes.length - 1) hpos
  rw [slotSize]
  omega

/-- Every place belongs to the slot of a consensus node. -/
theorem slot_lt (hx : x < G.nodeList.length) : x / G.slotSize < G.consensusNodes.length := by
  refine Nat.div_lt_of_lt_mul (lt_of_lt_of_le hx ?_)
  exact length_le_slots hne

theorem rank_lt (x : Nat) : G.rank x ≤ x % G.slotSize ∧ x % G.slotSize < G.slotSize :=
  ⟨Nat.div_le_self _ _, Nat.mod_lt _ (slotSize_pos hne)⟩

/-- The parent stands in the same slot, further to the front. -/
theorem up_eq_some {p : Nat} (h : G.up x = some p) :
    p < x ∧ p / G.slotSize = x / G.slotSize ∧ p % G.slotSize + 1 = G.rank x := by
  have hrank := rank_lt hne x
  rw [up] at h
  split at h
  · cases h
  · cases h
    have hj : G.rank x - 1 < G.slotSize := by omega
    rw [place_div hj, place_mod hj]
    have := Nat.div_add_mod' x G.slotSize
    omega

theorem up_eq_some_iff {p : Nat} : G.up x = some p ↔
    p / G.slotSize = x / G.slotSize ∧ p % G.slotSize + 1 = G.rank x := by
  refine ⟨fun h => (up_eq_some hne h).2, fun ⟨hslot, hrank⟩ => ?_⟩
  rw [up, if_neg (by omega), ← hrank, ← hslot, Nat.add_sub_cancel, Nat.div_add_mod']

/-- Below the place `x` the children of the first level are those the source takes for the children
of the index that it passes over. -/
theorem up_eq_self_iff {y c : Nat} (hy : y / G.slotSize = c) :
    (∃ p, G.up y = some p ∧ p = x ∧ G.up p = none) ↔
      G.rank y = x + 1 - c * G.slotSize ∧ 0 < x + 1 - c * G.slotSize ∧
        parent G.treeWidth (x + 1 - c * G.slotSize) = 0 := by
  have hplace := Nat.div_add_mod' x G.slotSize
  have hrank := rank_lt hne y
  have hslot : 0 < x + 1 - c * G.slotSize → x + 1 - c * G.slotSize ≤ G.slotSize →
      x / G.slotSize = c := by
    rw [Nat.div_eq_iff (by omega)]
    omega
  have hroot : x / G.slotSize = c → x + 1 - c * G.slotSize = x % G.slotSize + 1 := by
    rintro rfl
    omega
  simp only [up_eq_some_iff hne, up_eq_none_iff, hy]
  constructor
  · rintro ⟨_, ⟨hc, hx⟩, rfl, hup⟩
    rw [hroot hc, ← hx]
    exact ⟨rfl, by omega, hup⟩
  · rintro ⟨hx, hpos, hup⟩
    have hc := hslot hpos (by omega)
    rw [hroot hc] at hx hup
    exact ⟨x, ⟨hc, hx.symm⟩, rfl, hup⟩

end Numbers

/-! ## What the nodes know -/

section Knowledge

variable {G} {u v : NodeID} {x : Nat}

/-- Where the slot of a node begins: its own if it is a consensus node, otherwise the one it stands
in. -/
def start (G : Group NodeID) (u : NodeID) (x : Nat) : Nat :=
  if u ∈ G.consensusNodes then
    min (G.slotSize * G.consensusNodes.idxOf u) (G.nodeList.length - 1)
  else x / G.slotSize * G.slotSize

theorem getNodeIndexByNodeId_of_getElem? {nodes : List NodeID} (hnodup : nodes.Nodup)
    (hx : nodes[x]? = some u) : getNodeIndexByNodeId nodes u = x := by
  have hmem := mem_of_getElem? hx
  have hlt : nodes.idxOf u < nodes.length := idxOf_lt_length_of_mem hmem
  have := (List.getElem?_inj hlt hnodup).mp ((List.getElem?_idxOf hmem).trans hx.symm)
  rw [getNodeIndexByNodeId, if_pos hmem, this]

theorem start_lt (hx : G.nodeList[x]? = some u) : G.start u x < G.nodeList.length := by
  have hlt := place_lt hx
  rw [start]
  split
  · omega
  · have := Nat.div_mul_le_self x G.slotSize
    omega

theorem start_eq (hx : G.nodeList[x]? = some u) :
    let startIndex : Int :=
      if getNodeIndexByNodeId G.consensusNodes u ≥ 0 then
        G.slotSize * getNodeIndexByNodeId G.consensusNodes u
      else (x : Int).tdiv G.slotSize * G.slotSize
    (if startIndex > G.nodeList.length - 1 then (G.nodeList.length : Int) - 1 else startIndex) =
      G.start u x := by
  have hlt := place_lt hx
  by_cases hu : u ∈ G.consensusNodes
  · simp only [getNodeIndexByNodeId, start, if_pos hu, Int.natCast_nonneg, ge_iff_le, if_true]
    split <;> omega
  · have hfloor := Nat.div_mul_le_self x G.slotSize
    simp only [getNodeIndexByNodeId, start, if_neg hu, ge_iff_le, Int.reduceNeg, Int.reduceLE,
      if_false]
    rw [Int.tdiv_eq_ediv_of_nonneg (by omega), ← Int.natCast_ediv, ← Nat.cast_mul,
      if_neg (by omega)]

variable (hne : G.consensusNodes ≠ [])

include hne

section

variable (hx : G.nodeList[x]? = some u)
include hx

theorem topology_eq :
    G.topology u =
      { treeWidth := G.treeWidth, nodeId := u, currentConsensusNodes := G.consensusNodes,
        nodeNum := G.nodeList.length, consIndex := getNodeIndexByNodeId G.consensusNodes u,
        endIndex := (min G.slotSize (G.nodeList.length - G.start u x) : Nat),
        startIndex := G.start u x, nodeList := G.nodeList, nodeIndex := x,
        inFront := G.inFront u } := by
  have hlt := place_lt hx
  have hpos := length_pos_of_ne_nil hne
  have hnodes : G.nodeList.length ≠ 0 := by omega
  have hdiv : ((G.nodeList.length : Int) + G.consensusNodes.length - 1).tdiv
      G.consensusNodes.length = G.slotSize := by
    rw [Int.tdiv_eq_ediv_of_nonneg (by omega), slotSize]
    push_cast [Nat.cast_sub (by omega : 1 ≤ G.nodeList.length + G.consensusNodes.length)]
    rfl
  rw [topology, updateAllNodeInfo, if_neg (fun h => hne h.2), updateStartAndEndIndex]
  dsimp only
  rw [if_neg (by omega), if_neg hnodes, if_neg]
  · have hstart := start_lt hx
    simp only [hdiv, getNodeIndexByNodeId_of_getElem? G.nodup hx, start_eq hx]
    congr 2
    split <;> omega
  · simp [locatedInGroup, getNodeIndexByNodeId_of_getElem? G.nodup hx]

theorem topology_fields :
    (G.topology u).treeWidth = G.treeWidth ∧ (G.topology u).nodeIndex = x ∧
      (G.topology u).startIndex = G.start u x ∧
      (G.topology u).currentConsensusNodes = G.consensusNodes ∧
      (G.topology u).locatedInGroup = true ∧
      ((G.topology u).consIndex ≥ 0 ↔ u ∈ G.consensusNodes) := by
  rw [topology_eq hne hx]
  refine ⟨rfl, rfl, rfl, rfl, by simp [locatedInGroup], ?_⟩
  by_cases hu : u ∈ G.consensusNodes <;> simp [getNodeIndexByNodeId, hu]

theorem node_eq {e : Nat} (hpos : 1 ≤ e + G.start u x) (hle : e + G.start u x ≤ G.nodeList.length) :
    (G.topology u).node ((G.start u x : Int) - 1) e = G.nodeList[e + G.start u x - 1]? := by
  have hmod : ((e : Int) + (G.start u x - 1)).tmod G.nodeList.length =
      (e + G.start u x - 1 : Nat) := by
    rw [Int.tmod_eq_of_lt (by omega) (by omega)]
    omega
  simp only [node, topology_eq hne hx, TreeTopology.getSelectedNodeIndex, getNodeIDByIndex, hmod]
  rw [if_neg (by omega), if_neg (by omega), Int.toNat_natCast]

/-- In front of the first slot no peer is found. -/
theorem node_front (hstart : G.start u x = 0) :
    ∃ v, (G.topology u).node ((G.start u x : Int) - 1) 0 = some v ∧
      v ∉ G.nodeList.toFinset.erase u := by
  have hlt := place_lt hx
  have hnode : (G.topology u).node ((G.start u x : Int) - 1) 0 =
      if (-1 : Int).tmod G.nodeList.length < 0 then some (G.inFront u) else G.nodeList[0]? := by
    simp only [node, topology_eq hne hx, TreeTopology.getSelectedNodeIndex,
      getNodeIDByIndex, hstart]
    rcases Nat.lt_or_ge 1 G.nodeList.length with h | h
    · have hmod : (-1 : Int).tmod G.nodeList.length = -1 := by
        rw [Int.neg_tmod, Int.tmod_eq_of_lt (by omega) (by omega)]
      simp [hmod]
      omega
    · obtain hone : G.nodeList.length = 1 := by omega
      simp [hone]
  rw [hnode]
  split_ifs with hmod
  · exact ⟨_, rfl, fun hmem => G.inFront_not_mem u (by simpa using Finset.mem_of_mem_erase hmem)⟩
  · obtain rfl : x = 0 := by
      by_contra hx0
      rw [Int.neg_tmod, Int.tmod_eq_of_lt (by omega) (by omega)] at hmod
      omega
    exact ⟨u, hx, Finset.notMem_erase _ _⟩

/-- The children a node selects, from an index of its tree on: places of its slot, with its own
place passed over. -/
theorem mem_children (p dead : Nat) (hdead : ∀ e, p < e → (e + G.start u x ≠ x + 1 ↔ e ≠ dead)) :
    v ∈ recursiveSelectChildNodes (G.topology u).treeWidth (G.topology u).endIndex
        ((G.topology u).node ((G.topology u).startIndex - 1)) (G.nodeList.toFinset.erase u) p 0 ↔
      ∃ y, G.nodeList[y]? = some v ∧ (G.start u x ≤ y ∧ y < G.start u x + G.slotSize) ∧
        y + 1 - G.start u x ≠ dead ∧ (parent G.treeWidth (y + 1 - G.start u x) = p ∨
          parent G.treeWidth (y + 1 - G.start u x) = dead ∧ 0 < dead ∧
            parent G.treeWidth dead = p) := by
  have hstart := start_lt hx
  have hlast : ∀ {e}, e ≤ min G.slotSize (G.nodeList.length - G.start u x) →
      e + G.start u x ≤ G.nodeList.length := fun h => by omega
  obtain ⟨hwidth, -, hfrom, -⟩ := topology_fields hne hx
  have hend : (G.topology u).endIndex =
      (min G.slotSize (G.nodeList.length - G.start u x) : Nat) := by
    rw [topology_eq hne hx]
  rw [hwidth, hend, hfrom]
  have hsome : ∀ e ≤ min G.slotSize (G.nodeList.length - G.start u x),
      ((G.topology u).node ((G.start u x : Int) - 1) e).isSome := by
    intro e he
    rcases Nat.eq_zero_or_pos (e + G.start u x) with hzero | hpos
    · obtain ⟨v, hv, _⟩ := node_front hne hx (by omega)
      rw [(by omega : e = 0), hv]
      rfl
    · have := hlast he
      rw [node_eq hne hx hpos this, List.getElem?_eq_getElem (by omega)]
      rfl
  have hlive : ∀ e, p < e → e ≤ min G.slotSize (G.nodeList.length - G.start u x) →
      (((G.topology u).node ((G.start u x : Int) - 1) e).any
        (· ∈ G.nodeList.toFinset.erase u) = true ↔ e ≠ dead) := by
    intro e he hle
    have hle' := hlast hle
    have hlt : e + G.start u x - 1 < G.nodeList.length := by omega
    rw [← hdead e he, node_eq hne hx (by omega) hle', List.getElem?_eq_getElem hlt]
    have hself : G.nodeList[e + G.start u x - 1] = u ↔ e + G.start u x = x + 1 := by
      rw [← Option.some_inj, ← List.getElem?_eq_getElem hlt, ← hx, List.getElem?_inj hlt G.nodup]
      omega
    simp [hself]
  rw [recursiveSelectChildNodes_eq hsome, mem_filterMap]
  constructor
  · rintro ⟨e, he, hv⟩
    obtain ⟨hpos, hle, hne', hparent⟩ := (mem_firstLive_of_one_dead G.width_pos hlive).mp he
    rw [node_eq hne hx (by omega) (hlast hle)] at hv
    refine ⟨_, hv, by omega, ?_⟩
    rw [(by omega : e + G.start u x - 1 + 1 - G.start u x = e)]
    exact ⟨hne', hparent⟩
  · rintro ⟨y, hv, hslot, hself, hparent⟩
    have hlt := place_lt hv
    refine ⟨y + 1 - G.start u x, (mem_firstLive_of_one_dead G.width_pos hlive).mpr
      ⟨by omega, by omega, hself, hparent⟩, ?_⟩
    rw [node_eq hne hx (by omega) (by omega), ← hv]
    congr 1
    omega

/-- The same for a node whose slot is a whole one. -/
theorem mem_children_slot {s : Nat} (hstart : G.start u x = s * G.slotSize) (p dead : Nat)
    (hdead : ∀ e, p < e → (e + G.start u x ≠ x + 1 ↔ e ≠ dead)) :
    v ∈ recursiveSelectChildNodes (G.topology u).treeWidth (G.topology u).endIndex
        ((G.topology u).node ((G.topology u).startIndex - 1)) (G.nodeList.toFinset.erase u) p 0 ↔
      ∃ y, G.nodeList[y]? = some v ∧ y / G.slotSize = s ∧ y % G.slotSize + 1 ≠ dead ∧
        (G.rank y = p ∨ G.rank y = dead ∧ 0 < dead ∧ parent G.treeWidth dead = p) := by
  rw [mem_children hne hx p dead hdead, hstart]
  refine exists_congr fun y => and_congr_right fun _ => ?_
  have hslot : s * G.slotSize ≤ y ∧ y < s * G.slotSize + G.slotSize ↔ y / G.slotSize = s := by
    rw [Nat.div_eq_iff (slotSize_pos hne)]
    have := slotSize_pos hne
    omega
  rw [hslot]
  refine and_congr_right ?_
  rintro rfl
  have hplace := Nat.div_add_mod' y G.slotSize
  rw [(by omega : y + 1 - y / G.slotSize * G.slotSize = y % G.slotSize + 1)]
  rfl

end

end Knowledge

/-! ## What the nodes send -/

section Sending

variable {G} {u v : NodeID} {x : Nat} (hne : G.consensusNodes ≠ [])

include hne

/-- The parent an observer selects: for the first level this is the last node of the slot before,
since the source takes the root of the tree for a place of the list. -/
theorem mem_parents (hx : G.nodeList[x]? = some u) (hu : u ∉ G.consensusNodes) :
    v ∈ selectParentNodes (G.topology u).treeWidth
        ((G.topology u).node ((G.topology u).startIndex - 1)) (G.nodeList.toFinset.erase u)
        ((G.topology u).nodeIndex + 1 - (G.topology u).startIndex) false ↔
      ∃ y, G.nodeList[y]? = some v ∧
        (G.up x = some y ∨ G.rank x = 0 ∧ y + 1 = x / G.slotSize * G.slotSize) := by
  have hlt := place_lt hx
  have hrank := rank_lt hne x
  have hplace := Nat.div_add_mod' x G.slotSize
  have hstart : G.start u x = x / G.slotSize * G.slotSize := by rw [start, if_neg hu]
  obtain ⟨hwidth, hindex, hfrom, -⟩ := topology_fields hne hx
  have hparent : ((x : Int) + 1 - G.start u x - 1).tdiv G.treeWidth = G.rank x := by
    have hmod : (x : Int) + 1 - G.start u x - 1 = (x % G.slotSize : Nat) := by
      omega
    rw [hmod, Int.tdiv_eq_ediv_of_nonneg (by omega), rank, Int.natCast_ediv]
  rw [hwidth, hindex, hfrom, selectParentNodes, hparent, if_neg (by omega),
    if_pos (by omega), Int.toNat_natCast, selectParentsFrom]
  rcases Nat.eq_zero_or_pos (G.rank x + G.start u x) with hzero | hpos
  · -- in the first level of the first slot there is no parent
    obtain ⟨w, hw, hwpeer⟩ := node_front hne hx (by omega)
    have hrank0 : G.rank x = 0 := by omega
    have hnone : (some w).filter (· ∈ G.nodeList.toFinset.erase u) = none := by
      rw [Option.filter_some, decide_eq_false hwpeer, if_neg (by simp)]
    rw [hrank0, hw, hnone]
    refine iff_of_false (by simp) ?_
    rintro ⟨y, _, hup | ⟨_, hy⟩⟩
    · rw [up_eq_none_iff.mpr hrank0] at hup
      cases hup
    · omega
  · have hle : G.rank x + G.start u x ≤ G.nodeList.length := by omega
    have hlt' : G.rank x + G.start u x - 1 < G.nodeList.length := by omega
    have hself : G.nodeList[G.rank x + G.start u x - 1] ≠ u := by
      intro h
      have := place_unique hx ((List.getElem?_eq_getElem hlt').trans (congrArg some h))
      omega
    have hmem : G.nodeList[G.rank x + G.start u x - 1] ∈ G.nodeList.toFinset.erase u := by
      simp [hself]
    rw [node_eq hne hx hpos hle, List.getElem?_eq_getElem hlt', Option.filter_some,
      decide_eq_true hmem, if_pos rfl]
    have hy : ∀ y, (G.up x = some y ∨ G.rank x = 0 ∧ y + 1 = x / G.slotSize * G.slotSize) ↔
        y = G.rank x + G.start u x - 1 := by
      rw [up, hstart]
      split
      · simp only [reduceCtorEq, false_or]
        omega
      · simp only [Option.some.injEq]
        omega
    simp only [hy, exists_eq_right, List.getElem?_eq_getElem hlt', Option.some.injEq]
    simp [eq_comm]

theorem sends_observer (hx : G.nodeList[x]? = some u) (hu : u ∉ G.consensusNodes) :
    G.Sends u v ↔ ∃ y, G.nodeList[y]? = some v ∧ (G.up y = some x ∨ G.up x = some y ∨
      G.rank x = 0 ∧ y + 1 = x / G.slotSize * G.slotSize) := by
  have hplace := Nat.div_add_mod' x G.slotSize
  have hstart : G.start u x = x / G.slotSize * G.slotSize := by rw [start, if_neg hu]
  obtain ⟨-, hindex, hfrom, -, hlocated, hcons⟩ := topology_fields hne hx
  have hroot : ((G.topology u).nodeIndex + 1 - (G.topology u).startIndex).toNat =
      x % G.slotSize + 1 := by
    omega
  have hchildren := mem_children_slot hne hx (v := v) hstart (x % G.slotSize + 1) 0
    (by intro e he; omega)
  rw [Sends, selectNodesForBlockSync, hlocated]
  simp only [Bool.not_true, Bool.false_eq_true, if_false, if_neg (mt hcons.mp hu)]
  rw [mem_append, mem_parents hne hx hu, hroot, hchildren, or_comm, ← exists_or]
  refine exists_congr fun y => ?_
  rw [← and_or_left, up_eq_some_iff hne (x := y), eq_comm (a := x / _), eq_comm (b := G.rank y)]
  simp

/-- A consensus node tells the other consensus nodes, the first level of its slot, and the children
of its own place if that is in the first level. Without a slot it tells the last node of all. -/
theorem sends_consensus {c : Nat} (hx : G.nodeList[x]? = some u)
    (hc : G.consensusNodes[c]? = some u) :
    G.Sends u v ↔ (v ∈ G.consensusNodes ∧ v ≠ u) ∨ ∃ y, G.nodeList[y]? = some v ∧ v ≠ u ∧
      if G.slotSize * c < G.nodeList.length then
        y / G.slotSize = c ∧ (G.up y = none ∨ ∃ p, G.up y = some p ∧ G.nodeList[p]? = some u ∧
          G.up p = none)
      else y + 1 = G.nodeList.length := by
  have hu := mem_of_getElem? hc
  have hcidx : G.consensusNodes.idxOf u = c := by
    have := getNodeIndexByNodeId_of_getElem? G.nodup_consensus hc
    rw [getNodeIndexByNodeId, if_pos hu] at this
    omega
  have hstart : G.start u x = min (G.slotSize * c) (G.nodeList.length - 1) := by
    rw [start, if_pos hu, hcidx]
  obtain ⟨-, -, -, hnodes, hlocated, hcons⟩ := topology_fields hne hx
  have hpeers : v ∈ G.consensusNodes.filter (· ∈ G.nodeList.toFinset.erase u) ↔
      v ∈ G.consensusNodes ∧ v ≠ u := by
    simp only [mem_filter, Finset.mem_erase, mem_toFinset, decide_eq_true_eq]
    exact ⟨fun h => ⟨h.1, h.2.1⟩, fun h => ⟨h.1, h.2, G.subset h.1⟩⟩
  rw [Sends, selectNodesForBlockSync, hlocated]
  simp only [Bool.not_true, Bool.false_eq_true, if_false, if_pos (hcons.mpr hu)]
  rw [mem_append, hnodes, hpeers]
  refine or_congr Iff.rfl ?_
  by_cases hclamp : G.slotSize * c < G.nodeList.length
  · have hslot : G.start u x = c * G.slotSize := by
      rw [hstart, Nat.mul_comm c]
      omega
    rw [mem_children_slot hne hx hslot 0 (x + 1 - c * G.slotSize) (by intro e he; omega)]
    refine exists_congr fun y => and_congr_right fun hy => ?_
    have hplace := Nat.div_add_mod' y G.slotSize
    have hat : ∀ p, G.nodeList[p]? = some u ↔ p = x :=
      fun p => ⟨fun hp => place_unique hx hp, fun hp => hp ▸ hx⟩
    rw [if_pos hclamp, ne_iff_place_ne hx hy, and_left_comm (b := y / _ = c)]
    refine and_congr_right fun hyc => and_congr ?_ (or_congr up_eq_none_iff.symm ?_)
    · rw [hyc] at hplace
      omega
    · simp only [hat]
      exact (up_eq_self_iff hne hyc).symm
  · have hslot := slotSize_pos hne
    have hlast : G.start u x = G.nodeList.length - 1 := by omega
    rw [mem_children hne hx 0 (x + 1 - G.start u x) (by intro e he; omega), hlast]
    refine exists_congr fun y => and_congr_right fun hy => ?_
    have hylt := place_lt hy
    rw [if_neg hclamp, ne_iff_place_ne hx hy]
    constructor
    · omega
    · rintro ⟨hyx, hy⟩
      rw [(by omega : y + 1 - (G.nodeList.length - 1) = 1)]
      exact ⟨by omega, by omega, .inl (by simp [parent])⟩

end Sending

/-! ## Who is reached -/

section Reaching

variable {G} {x t : Nat} (hne : G.consensusNodes ≠ []) {u v : NodeID}

include hne

/-- Observers pass the news on along the tree, in both directions. -/
theorem Climb.reaches (h : G.Climb x t) (hu : G.nodeList[x]? = some u)
    (hv : G.nodeList[t]? = some v) : G.Reaches u v ∧ G.Reaches v u := by
  induction h generalizing u with
  | refl _ =>
    obtain rfl : u = v := Option.some.inj (hu.symm.trans hv)
    exact ⟨.refl, .refl⟩
  | step hx hp hclimb ih =>
    obtain ⟨u', hu', hobs⟩ := hx
    obtain rfl : u' = u := Option.some.inj (hu'.symm.trans hu)
    obtain ⟨w, hw, hwobs⟩ := hclimb.observer_left
    obtain ⟨hup, hdown⟩ := ih hw hv
    have hsend : G.Sends u' w := (sends_observer hne hu hobs).mpr ⟨_, hw, .inr (.inl hp)⟩
    have hback : G.Sends w u' := (sends_observer hne hw hwobs).mpr ⟨_, hu, .inl hp⟩
    exact ⟨.head hsend hup, hdown.tail hback⟩

section

variable (hu : u ∈ G.consensusNodes)
include hu

theorem reaches_consensus (hv : v ∈ G.consensusNodes) : G.Reaches u v := by
  by_cases huv : v = u
  · exact huv ▸ .refl
  · obtain ⟨x, hx⟩ := mem_iff_getElem?.mp (G.subset hu)
    obtain ⟨c, hc⟩ := mem_iff_getElem?.mp hu
    exact .single ((sends_consensus hne hx hc).mpr (.inl ⟨hv, huv⟩))

theorem reaches_hung (hv : G.nodeList[t]? = some v) (hobs : v ∉ G.consensusNodes) (h : G.Hung t) :
    G.Reaches u v := by
  have htlt := place_lt hv
  have hslot := slot_lt hne htlt
  have hroot := List.getElem?_eq_getElem hslot
  have hmem := mem_of_getElem? hroot
  obtain ⟨x, hx⟩ := mem_iff_getElem?.mp (G.subset hmem)
  have hplace := Nat.div_mul_le_self t G.slotSize
  rw [Nat.mul_comm] at hplace
  refine (reaches_consensus hne hu hmem).tail ((sends_consensus hne hx hroot).mpr
    (.inr ⟨t, hv, fun h => hobs (h ▸ hmem), ?_⟩))
  rw [if_pos (by omega)]
  refine ⟨rfl, h.imp_right fun ⟨p, hp, hpup, hpnode⟩ => ⟨p, hp, ?_, hpup⟩⟩
  rw [hpnode, (up_eq_some hne hp).2.1, hroot]

theorem reaches_rescued {z : Nat} (hv : G.nodeList[z]? = some v) (h : G.Rescued z) :
    G.Reaches u v := by
  obtain ⟨⟨v', hv', hobs⟩, ⟨y, ⟨w, hw, hwobs⟩, hrank, hz⟩ | ⟨hz, hclamp⟩⟩ := h
  · refine (reaches_hung hne hu hw hwobs (.inl (up_eq_none_iff.mpr hrank))).tail ?_
    exact (sends_observer hne hw hwobs).mpr ⟨z, hv, .inr (.inr ⟨hrank, hz⟩)⟩
  · obtain rfl : v' = v := Option.some.inj (hv'.symm.trans hv)
    have hpos := length_pos_of_ne_nil hne
    have hlast : G.consensusNodes.length - 1 < G.consensusNodes.length := by omega
    have hroot := List.getElem?_eq_getElem hlast
    have hmem := mem_of_getElem? hroot
    obtain ⟨x, hx⟩ := mem_iff_getElem?.mp (G.subset hmem)
    refine (reaches_consensus hne hu hmem).tail ((sends_consensus hne hx hroot).mpr
      (.inr ⟨z, hv, fun h => hobs (h ▸ hmem), ?_⟩))
    rwa [if_neg (by omega)]

theorem reaches_anchored (hv : G.nodeList[x]? = some v) (h : G.Anchored x) : G.Reaches u v := by
  obtain ⟨t, hclimb, hanchor⟩ := h
  obtain ⟨w, hw, hwobs⟩ := hclimb.observer_right
  have hdown := (hclimb.reaches hne hv hw).2
  rcases hanchor with hhung | ⟨z, hz, hclimb'⟩
  · exact (reaches_hung hne hu hw hwobs hhung).trans hdown
  · obtain ⟨w', hw', _⟩ := hz.1
    exact ((reaches_rescued hne hu hw' hz).trans (hclimb'.reaches hne hw' hw).1).trans hdown

theorem anchored_of_consensus (h : G.Sends u v) (hobs : v ∉ G.consensusNodes) :
    ∃ y, G.nodeList[y]? = some v ∧ G.Anchored y := by
  obtain ⟨x, hx⟩ := mem_iff_getElem?.mp (G.subset hu)
  obtain ⟨c, hc⟩ := mem_iff_getElem?.mp hu
  have hclt := List.getElem?_eq_some_iff.mp hc |>.1
  rcases (sends_consensus hne hx hc).mp h with ⟨hv, _⟩ | ⟨y, hy, _, hplace⟩
  · exact absurd hv hobs
  have hyobs : G.Observer y := ⟨v, hy, hobs⟩
  split_ifs at hplace with hclamp
  · obtain ⟨hslot, hup⟩ := hplace
    refine ⟨y, hy, y, .refl hyobs, .inl (hup.imp_right fun ⟨p, hp, hpnode, hpup⟩ => ?_)⟩
    refine ⟨p, hp, hpup, ?_⟩
    rw [(up_eq_some hne hp).2.1, hslot, hpnode, hc]
  · refine ⟨y, hy, y, .refl hyobs, .inr ⟨y, ⟨hyobs, .inr ⟨hplace, ?_⟩⟩, .refl hyobs⟩⟩
    exact (Nat.le_of_not_lt hclamp).trans (Nat.mul_le_mul_left _ (by omega))

end

theorem anchored_of_observer (hx : G.nodeList[x]? = some u) (hu : u ∉ G.consensusNodes)
    (hanchored : G.Anchored x) (h : G.Sends u v) (hobs : v ∉ G.consensusNodes) :
    ∃ y, G.nodeList[y]? = some v ∧ G.Anchored y := by
  obtain ⟨t, hclimb, hanchor⟩ := hanchored
  have hxobs : G.Observer x := ⟨u, hx, hu⟩
  obtain ⟨y, hy, hdown | hup | ⟨hrank, hfront⟩⟩ := (sends_observer hne hx hu).mp h
  · exact ⟨y, hy, t, .step ⟨v, hy, hobs⟩ hdown hclimb, hanchor⟩
  · have hyobs : G.Observer y := ⟨v, hy, hobs⟩
    cases hclimb with
    | step _ hp hclimb =>
      obtain rfl := Option.some.inj (hup.symm.trans hp)
      exact ⟨y, hy, t, hclimb, hanchor⟩
    | refl _ =>
      rcases hanchor with (hnone | ⟨p, hp, _, hpnode⟩) | ⟨z, hz, hclimb'⟩
      · rw [hup] at hnone
        cases hnone
      · -- the parent of a hung observer is in the tree as its root
        obtain rfl := Option.some.inj (hup.symm.trans hp)
        exact absurd (mem_of_getElem? (hpnode.symm.trans hy)) hobs
      · exact ⟨y, hy, y, .refl hyobs, .inr ⟨z, hz, hclimb'.trans (.step hxobs hup (.refl hyobs))⟩⟩
  · have hyobs : G.Observer y := ⟨v, hy, hobs⟩
    exact ⟨y, hy, y, .refl hyobs, .inr ⟨y, ⟨hyobs, .inl ⟨x, hxobs, hrank, hfront⟩⟩, .refl hyobs⟩⟩

/-- Along every path from a consensus node. -/
theorem anchored_of_reaches (hu : u ∈ G.consensusNodes) (h : G.Reaches u v) :
    v ∈ G.consensusNodes ∨ ∃ y, G.nodeList[y]? = some v ∧ G.Anchored y := by
  induction h with
  | refl => exact .inl hu
  | @tail b v _ hsend ih =>
    by_cases hobs : v ∈ G.consensusNodes
    · exact .inl hobs
    · right
      by_cases hb : b ∈ G.consensusNodes
      · exact anchored_of_consensus hne hb hsend hobs
      · obtain ⟨x, hx, hanchored⟩ := ih.resolve_left hb
        exact anchored_of_observer hne hx hb hanchored hsend hobs

end Reaching

/-- **Every node is reached from every consensus node exactly if every observer is anchored.** -/
theorem everyone_reached_iff :
    (∀ u ∈ G.consensusNodes, ∀ v ∈ G.nodeList, G.Reaches u v) ↔
      G.consensusNodes = [] ∨ ∀ x, G.Observer x → G.Anchored x := by
  by_cases hne : G.consensusNodes = []
  · simp [hne]
  rw [or_iff_right hne]
  constructor
  · rintro h x ⟨v, hv, hobs⟩
    obtain ⟨u, hu⟩ := exists_mem_of_ne_nil _ hne
    have hreach := h u hu v (mem_of_getElem? hv)
    obtain ⟨y, hy, hanchored⟩ := (anchored_of_reaches hne hu hreach).resolve_left hobs
    obtain rfl := place_unique hv hy
    exact hanchored
  · intro h u hu v hv
    by_cases hobs : v ∈ G.consensusNodes
    · exact reaches_consensus hne hu hobs
    · obtain ⟨x, hx⟩ := mem_iff_getElem?.mp hv
      exact reaches_anchored hne hu hx (h x ⟨v, hx, hobs⟩)

/-- Three nodes in a chain, the one in the middle the only consensus node. -/
def chain : Group Nat where
  treeWidth := 1
  nodeList := [0, 1, 2]
  consensusNodes := [1]
  inFront := fun _ => 9
  width_pos := by decide
  nodup := by decide
  nodup_consensus := by decide
  subset := by decide
  inFront_not_mem := fun _ => by decide

/-- The consensus node does not pass on what would come to it along its own tree. -/
theorem chain_end_not_reached : 1 ∈ chain.consensusNodes ∧ 2 ∈ chain.nodeList ∧
    ¬ chain.Reaches 1 2 := by
  -- the two nodes at the front tell only each other
  have hsends : ∀ b ∈ [0, 1], ∀ v, chain.Sends b v → v ∈ [0, 1] := by
    intro b hb v h
    rw [Sends, topology, updateAllNodeInfo, updateStartAndEndIndex, selectNodesForBlockSync] at h
    fin_cases hb <;>
      simp [chain, locatedInGroup, getNodeIndexByNodeId, recursiveSelectChildNodes, node,
        selectParentNodes, selectParentsFrom, getNodeIDByIndex,
        TreeTopology.getSelectedNodeIndex] at h ⊢ <;>
      omega
  have hreach : ∀ v, chain.Reaches 1 v → v ∈ [0, 1] := by
    intro v h
    induction h with
    | refl => decide
    | tail _ hsend ih => exact hsends _ ih _ hsend
  exact ⟨by decide, by decide, fun h => absurd (hreach 2 h) (by decide)⟩

end Group

end Rcc.Tree
