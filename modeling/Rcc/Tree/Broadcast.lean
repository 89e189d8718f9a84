import Rcc.Tree.Topology

/-!
# Rcc.Tree.Broadcast

A message that is forwarded along the tree of `TreeTopology` reaches every live consensus node,
once.

The node at index `e` of the tree is the consensus node `e + r`, counted around from the root `r`.
A live node selects the live nodes below it with no live node between (`LevelOrder.firstLive`), and
each live node other than the root is below exactly one live node in this sense.
-/

namespace Rcc.Tree

open List TreeTopology

open LevelOrder

variable {NodeID : Type} [DecidableEq NodeID]

/-- The recursion of the source is the traversal of the tree. -/
theorem recursiveSelectChildNodes_eq {treeWidth last : Nat} {node : Nat → Option NodeID}
    (hnode : ∀ e ≤ last, (node e).isSome) (peers : Finset NodeID) (parentIndex i : Nat) :
    recursiveSelectChildNodes treeWidth last node peers parentIndex i =
      (firstLive treeWidth (fun e => (node e).any (· ∈ peers)) last parentIndex i).filterMap
        node := by
  induction parentIndex, i using firstLive.induct treeWidth last with
  | case1 p i h ih ih' =>
    obtain ⟨id, hid⟩ := Option.isSome_iff_exists.mp (hnode _ h.2)
    have hle : ¬ (child treeWidth p i : Int) > last := by
      omega
    -- behind the last node nothing is found
    have hnext : (if (child treeWidth p i : Int) = last then []
        else recursiveSelectChildNodes treeWidth last node peers p (i + 1)) =
        (firstLive treeWidth (fun e => (node e).any (· ∈ peers)) last p (i + 1)).filterMap
          node := by
      split_ifs with hlast
      · rw [firstLive, if_neg, filterMap_nil]
        rintro ⟨_, hchild⟩
        rw [child] at hlast hchild
        omega
      · exact ih'
    have hbelow : (if (child treeWidth p i : Int) < last then
        recursiveSelectChildNodes treeWidth last node peers (child treeWidth p i) 0 else []) =
        (firstLive treeWidth (fun e => (node e).any (· ∈ peers)) last (child treeWidth p i)
          0).filterMap node := by
      split
      · exact ih
      · rw [firstLive, if_neg, filterMap_nil]
        rintro ⟨hwidth, hchild⟩
        have := @lt_child treeWidth (child treeWidth p i) 0 hwidth
        omega
    rw [recursiveSelectChildNodes, if_pos h.1, firstLive, if_pos h, filterMap_append, ← hnext]
    simp only [child] at hle hid hbelow ⊢
    simp only [if_neg hle, hid]
    by_cases hmem : id ∈ peers
    · simp [hmem, hid]
    · simp only [hmem, if_false, Option.any_some, decide_false, Bool.false_eq_true]
      exact congrArg (· ++ _) hbelow
  | case2 p i h =>
    rw [recursiveSelectChildNodes, firstLive, if_neg h, filterMap_nil]
    by_cases hi : i < treeWidth
    · rw [if_pos hi]
      have hlast : ¬ child treeWidth p i ≤ last := fun hle => h ⟨hi, hle⟩
      rw [child] at hlast
      exact if_pos (by omega)
    · exact if_neg hi

/-! ## Indices of the tree -/

/-- The node a consensus node has before anything is sent. -/
def topologyOf (treeWidth : Nat) (nodes : List NodeID) (u : NodeID) : TreeTopology NodeID :=
  updateConsensusNodeInfo { treeWidth := treeWidth, nodeId := u } nodes

/-- The node at an index of the tree with root `r`. -/
def nodeAt (nodes : List NodeID) (r e : Nat) : Option NodeID := nodes[(e + r) % nodes.length]?

section Indices

omit [DecidableEq NodeID]

variable {nodes : List NodeID} {r : Nat} {u : NodeID}

theorem exists_at (h : nodes ≠ []) (r e : Nat) : ∃ u, nodeAt nodes r e = some u :=
  ⟨_, List.getElem?_eq_getElem (Nat.mod_lt _ (length_pos_of_ne_nil h))⟩

theorem nodeAt_inj (hnodup : nodes.Nodup) {e e' : Nat} (he : e < nodes.length)
    (he' : e' < nodes.length) (hu : nodeAt nodes r e = some u) (hu' : nodeAt nodes r e' = some u) :
    e = e' := by
  have hlt : (e + r) % nodes.length < nodes.length := Nat.mod_lt _ (by omega)
  have hmod : (e + r) % nodes.length = (e' + r) % nodes.length :=
    (List.getElem?_inj hlt hnodup).mp (hu.trans hu'.symm)
  have hcancel : e ≡ e' [MOD nodes.length] := Nat.ModEq.add_right_cancel' r hmod
  rwa [Nat.ModEq, Nat.mod_eq_of_lt he, Nat.mod_eq_of_lt he'] at hcancel

theorem nodeAt_back {c : Nat} (hc : c < nodes.length) :
    nodeAt nodes r ((c + nodes.length - r % nodes.length) % nodes.length) = nodes[c]? := by
  have hr := Nat.mod_lt r (by omega : 0 < nodes.length)
  have hsum : c + nodes.length - r % nodes.length + r =
      c + nodes.length * (r / nodes.length + 1) := by
    have := Nat.div_add_mod r nodes.length
    rw [Nat.mul_add]
    omega
  rw [nodeAt, Nat.mod_add_mod, hsum, Nat.add_mul_mod_self_left, Nat.mod_eq_of_lt hc]

theorem exists_nodeAt (hu : u ∈ nodes) : ∃ e < nodes.length, nodeAt nodes r e = some u := by
  obtain ⟨c, hc, rfl⟩ := mem_iff_getElem.mp hu
  exact ⟨_, Nat.mod_lt _ (by omega), (nodeAt_back hc).trans (List.getElem?_eq_getElem hc)⟩

theorem mem_of_nodeAt {e : Nat} (hu : nodeAt nodes r e = some u) : u ∈ nodes := mem_of_getElem? hu

theorem root_at_zero (hroot : nodes[r % nodes.length]? = some u) :
    nodes ≠ [] ∧ nodeAt nodes r 0 = some u := by
  refine ⟨ne_nil_of_mem (mem_of_getElem? hroot), ?_⟩
  rw [nodeAt, Nat.zero_add, hroot]

theorem nodeAt_zero (hr : nodes[r]? = some u) : nodeAt nodes r 0 = some u := by
  rw [nodeAt, Nat.zero_add, Nat.mod_eq_of_lt (List.getElem?_eq_some_iff.mp hr).1, hr]

theorem pos_of_ne_root {k : Nat} {v : NodeID} (hu : nodeAt nodes r 0 = some u)
    (hv : nodeAt nodes r k = some v) (hne : v ≠ u) : 0 < k := by
  rcases Nat.eq_zero_or_pos k with rfl | hpos
  · exact absurd (Option.some.inj (hv.symm.trans hu)) hne
  · exact hpos

end Indices

/-! ## Selection -/

/-- The message is sent from one node to another: by the root, or by a node that has been sent it
and does not send it back. -/
inductive Sent (treeWidth : Nat) (nodes : List NodeID) (live : Finset NodeID) (r : Nat)
    (root : NodeID) : NodeID → NodeID → Prop where
  | start {v : NodeID}
      (hv : v ∈ (topologyOf treeWidth nodes root).selectNodes (live.erase root) r true) :
      Sent treeWidth nodes live r root root v
  | forward {fromPeer u v : NodeID} (h : Sent treeWidth nodes live r root fromPeer u)
      (hv : v ∈ push4nl (topologyOf treeWidth nodes u) (live.erase u) r fromPeer) :
      Sent treeWidth nodes live r root u v

section Selection

variable {treeWidth : Nat} {nodes : List NodeID} {r e k : Nat} {u v root : NodeID}
  {live : Finset NodeID}

theorem topologyOf_eq (hne : nodes ≠ []) (u : NodeID) :
    topologyOf treeWidth nodes u =
      { treeWidth := treeWidth, nodeId := u, currentConsensusNodes := nodes,
        nodeNum := nodes.length, consIndex := getNodeIndexByNodeId nodes u,
        endIndex := (nodes.length : Int) - 1, startIndex := 0 } := by
  rw [topologyOf, updateConsensusNodeInfo, if_neg (Ne.symm hne)]
  rfl

/-- The nodes of the source are found around the ring. -/
theorem getNodeIDByIndex_eq (hne : nodes ≠ []) (u : NodeID) (e : Nat) :
    (topologyOf treeWidth nodes u).getNodeIDByIndex
      ((topologyOf treeWidth nodes u).getSelectedNodeIndex e r) = nodeAt nodes r e := by
  have hlt : (e + r) % nodes.length < nodes.length := Nat.mod_lt _ (length_pos_of_ne_nil hne)
  have hmod : ((e : Int) + r).tmod nodes.length = ((e + r) % nodes.length : Nat) := by
    rfl
  simp only [topologyOf_eq hne, getNodeIDByIndex, getSelectedNodeIndex, hmod]
  rw [if_neg (by omega), Int.toNat_natCast, nodeAt]

/-- A consensus node starts from its own index of the tree. -/
theorem getNodeIndex_eq (hnodup : nodes.Nodup) (he : e < nodes.length)
    (hu : nodeAt nodes r e = some u) : (topologyOf treeWidth nodes u).getNodeIndex r = e := by
  have hmem : u ∈ nodes := mem_of_nodeAt hu
  have hne : nodes ≠ [] := ne_nil_of_mem hmem
  have hc : nodes.idxOf u < nodes.length := idxOf_lt_length_of_mem hmem
  have hget : nodes[nodes.idxOf u]? = some u := List.getElem?_idxOf hmem
  simp only [topologyOf_eq hne, getNodeIndex, getNodeIndexByNodeId, if_pos hmem]
  split_ifs with hge
  · have hat : nodeAt nodes r (nodes.idxOf u - r) = some u := by
      rw [nodeAt, Nat.sub_add_cancel (by omega), Nat.mod_eq_of_lt hc, hget]
    have := nodeAt_inj hnodup he (by omega) hu hat
    omega
  · have hat := (nodeAt_back (r := r) hc).trans hget
    have hr := Nat.mod_lt r (by omega : 0 < nodes.length)
    have hpos := nodeAt_inj hnodup he (Nat.mod_lt _ (by omega)) hu hat
    rw [hpos, Int.tmod_eq_emod_of_nonneg (by omega : (0 : Int) ≤ r),
      Int.tmod_eq_emod_of_nonneg (by omega)]
    push_cast [Nat.cast_sub (by omega : r % nodes.length ≤ nodes.idxOf u + nodes.length)]
    rfl

/-- Whom a node forwards a message with root `r` to, if the nodes of `live` are there. -/
def forwards (treeWidth : Nat) (nodes : List NodeID) (live : Finset NodeID) (r : Nat) (u : NodeID) :
    List NodeID := (topologyOf treeWidth nodes u).selectNodes (live.erase u) r false

def liveAt (nodes : List NodeID) (live : Finset NodeID) (r e : Nat) : Bool :=
  (nodeAt nodes r e).any (· ∈ live)

/-- The live nodes below an index with no live node between. -/
def selected (treeWidth : Nat) (nodes : List NodeID) (live : Finset NodeID) (r e : Nat) :
    List NodeID :=
  (firstLive treeWidth (liveAt nodes live r) (nodes.length - 1) e 0).filterMap (nodeAt nodes r)

theorem liveAt_of_nodeAt (hu : nodeAt nodes r e = some u) :
    liveAt nodes live r e = true ↔ u ∈ live := by
  simp [liveAt, hu]

theorem forwards_of_not_mem (hne : nodes ≠ []) (hu : u ∉ nodes) :
    forwards treeWidth nodes live r u = [] := by
  simp [forwards, topologyOf_eq hne, selectNodes, getNodeIndexByNodeId, hu]

/-- What is selected below an index, if the peers are the live nodes as far as it is looked. -/
theorem selectChildNodes_eq (hne : nodes ≠ []) {peers : Finset NodeID}
    (hpeers : ∀ k, e < k → k ≤ nodes.length - 1 →
      (nodeAt nodes r k).any (· ∈ peers) = liveAt nodes live r k) (u : NodeID) :
    (topologyOf treeWidth nodes u).selectChildNodes e peers r =
      selected treeWidth nodes live r e := by
  have hend : (topologyOf treeWidth nodes u).endIndex = (nodes.length - 1 : Nat) := by
    have := length_pos_of_ne_nil hne
    rw [topologyOf_eq hne]
    show (nodes.length : Int) - 1 = _
    omega
  have hwidth : (topologyOf treeWidth nodes u).treeWidth = treeWidth := by rw [topologyOf_eq hne]
  rw [selectChildNodes, hend, hwidth]
  simp only [getNodeIDByIndex_eq hne]
  rw [recursiveSelectChildNodes_eq fun k _ => Option.isSome_iff_exists.mpr (exists_at hne r k),
    firstLive_congr hpeers, selected]

theorem selectNodes_eq (hnodup : nodes.Nodup) (he : e < nodes.length)
    (hu : nodeAt nodes r e = some u) (isTheStartNode : Bool) :
    (topologyOf treeWidth nodes u).selectNodes (live.erase u) r isTheStartNode =
      selected treeWidth nodes live r e := by
  have hmem : u ∈ nodes := mem_of_nodeAt hu
  have hne : nodes ≠ [] := ne_nil_of_mem hmem
  have hcons : ¬ (topologyOf treeWidth nodes u).consIndex < 0 := by
    simp [topologyOf_eq hne, getNodeIndexByNodeId, hmem]
  rw [selectNodes, if_neg hcons, getNodeIndex_eq hnodup he hu, Int.toNat_natCast]
  -- behind its own index a node does not come across itself
  refine selectChildNodes_eq hne (fun k hk hlast => ?_) u
  obtain ⟨v, hv⟩ := exists_at hne r k
  have hvu : v ≠ u := by
    rintro rfl
    have := nodeAt_inj hnodup he (by omega) hu hv
    omega
  simp [liveAt, hv, hvu]

variable (hwidth : 0 < treeWidth) (hnodup : nodes.Nodup)
include hwidth hnodup

/-- They are the live nodes below with no live node between, -/
theorem mem_selected (hk : k < nodes.length) (hv : nodeAt nodes r k = some v) :
    v ∈ selected treeWidth nodes live r e ↔
      v ∈ live ∧ Below treeWidth (liveAt nodes live r) e k := by
  rw [selected, mem_filterMap]
  constructor
  · rintro ⟨k', hk', hv'⟩
    obtain ⟨hlast, hlive, hbelow⟩ := (mem_firstLive_zero hwidth).mp hk'
    obtain rfl := nodeAt_inj hnodup (by omega) hk hv' hv
    exact ⟨(liveAt_of_nodeAt hv).mp hlive, hbelow⟩
  · rintro ⟨hlive, hbelow⟩
    exact ⟨k, (mem_firstLive_zero hwidth).mpr
      ⟨by omega, (liveAt_of_nodeAt hv).mpr hlive, hbelow⟩, hv⟩

/-- each once. -/
theorem nodup_selected (hne : nodes ≠ []) (live : Finset NodeID) (e : Nat) :
    (selected treeWidth nodes live r e).Nodup := by
  have hpos := length_pos_of_ne_nil hne
  have hlast : ∀ k ∈ firstLive treeWidth (liveAt nodes live r) (nodes.length - 1) e 0,
      k < nodes.length := fun k hk => by
    have := ((mem_firstLive_zero hwidth).mp hk).1
    omega
  refine pairwise_filterMap.mpr
    ((nodup_firstLive hwidth _ _ _).imp_of_mem fun hk hk' hkk' v hv v' hv' heq => hkk' ?_)
  exact nodeAt_inj hnodup (hlast _ hk) (hlast _ hk') hv (heq ▸ hv')

/-- A node forwards to the live nodes that are below it with no live node between. -/
theorem mem_forwards (he : e < nodes.length) (hk : k < nodes.length)
    (hu : nodeAt nodes r e = some u) (hv : nodeAt nodes r k = some v) :
    v ∈ forwards treeWidth nodes live r u ↔
      v ∈ live ∧ Below treeWidth (liveAt nodes live r) e k := by
  rw [forwards, selectNodes_eq hnodup he hu, mem_selected hwidth hnodup hk hv]

theorem nodup_forwards (hne : nodes ≠ []) (live : Finset NodeID) (u : NodeID) :
    (forwards treeWidth nodes live r u).Nodup := by
  by_cases hmem : u ∈ nodes
  · obtain ⟨e, he, hu⟩ := exists_nodeAt (r := r) hmem
    rw [forwards, selectNodes_eq hnodup he hu]
    exact nodup_selected hwidth hnodup hne live e
  · rw [forwards_of_not_mem hne hmem]
    exact nodup_nil

theorem mem_forwards_imp (hne : nodes ≠ []) (h : v ∈ forwards treeWidth nodes live r u) :
    ∃ e k, e < nodes.length ∧ k < nodes.length ∧ nodeAt nodes r e = some u ∧
      nodeAt nodes r k = some v ∧ v ∈ live ∧ Below treeWidth (liveAt nodes live r) e k := by
  have hu : u ∈ nodes := by
    by_contra hu
    rw [forwards_of_not_mem hne hu] at h
    cases h
  obtain ⟨e, he, hu⟩ := exists_nodeAt (r := r) hu
  have hv : v ∈ nodes := by
    rw [forwards, selectNodes_eq hnodup he hu, selected, mem_filterMap] at h
    obtain ⟨k, _, hv⟩ := h
    exact mem_of_nodeAt hv
  obtain ⟨k, hk, hv⟩ := exists_nodeAt (r := r) hv
  exact ⟨e, k, he, hk, hu, hv, (mem_forwards hwidth hnodup he hk hu hv).mp h⟩

/-! ## The message -/

variable (hroot : nodes[r % nodes.length]? = some root) (hlive : root ∈ live)
include hroot hlive

/-- A live node but the root is below a live one that forwards to it. -/
theorem exists_forwarder (hk : k < nodes.length) (hpos : 0 < k)
    (hv : nodeAt nodes r k = some v) (hvlive : v ∈ live) :
    ∃ p u, liveAt nodes live r p = true ∧ LevelOrder.Below treeWidth (liveAt nodes live r) p k ∧
      nodeAt nodes r p = some u ∧ u ∈ live ∧ v ∈ forwards treeWidth nodes live r u := by
  obtain ⟨hne, hzero⟩ := root_at_zero hroot
  have hrootlive : liveAt nodes live r 0 = true := (liveAt_of_nodeAt hzero).mpr hlive
  obtain ⟨p, hp, hbelow⟩ := @exists_below treeWidth k _ hrootlive hpos
  have hpk := hbelow.lt
  obtain ⟨u, hu⟩ := exists_at hne r p
  exact ⟨p, u, hp, hbelow, hu, (liveAt_of_nodeAt hu).mp hp,
    (Tree.mem_forwards hwidth hnodup (by omega) hk hu hv).mpr ⟨hvlive, hbelow⟩⟩

theorem Sent.mem_forwards (h : Sent treeWidth nodes live r root u v) :
    u ∈ live ∧ v ∈ forwards treeWidth nodes live r u := by
  obtain ⟨hne, hzero⟩ := root_at_zero hroot
  induction h with
  | start hv =>
    have hpos : 0 < nodes.length := length_pos_of_ne_nil hne
    rw [selectNodes_eq hnodup hpos hzero] at hv
    rw [forwards, selectNodes_eq hnodup hpos hzero]
    exact ⟨hlive, hv⟩
  | forward _ hv ih =>
    obtain ⟨_, _, _, _, _, _, hu, _⟩ := mem_forwards_imp hwidth hnodup hne ih.2
    exact ⟨hu, mem_of_mem_filter hv⟩

/-- Every live node but the root is selected by one live node. -/
theorem existsUnique_selector (hv : v ∈ nodes) (hvlive : v ∈ live) (hvroot : v ≠ root) :
    ∃! u, u ∈ live ∧ v ∈ forwards treeWidth nodes live r u := by
  obtain ⟨hne, hzero⟩ := root_at_zero hroot
  obtain ⟨k, hk, hv⟩ := exists_nodeAt (r := r) hv
  have hpos := pos_of_ne_root hzero hv hvroot
  obtain ⟨p, u, hp, hbelow, hu, hulive, hforward⟩ :=
    exists_forwarder hwidth hnodup hroot hlive hk hpos hv hvlive
  refine ⟨u, ⟨hulive, hforward⟩, ?_⟩
  rintro u' ⟨hu'live, hmem⟩
  obtain ⟨p', k', hp', hk', hu', hv', _, hbelow'⟩ := mem_forwards_imp hwidth hnodup hne hmem
  obtain rfl := nodeAt_inj hnodup hk hk' hv hv'
  obtain rfl := hbelow.unique hbelow' hp ((liveAt_of_nodeAt hu').mpr hu'live)
  exact Option.some.inj (hu'.symm.trans hu)

/-- Every live node but the root is sent the message. -/
theorem exists_sent (hk : k < nodes.length) (hpos : 0 < k)
    (hv : nodeAt nodes r k = some v) (hvlive : v ∈ live) :
    ∃ u, Sent treeWidth nodes live r root u v := by
  obtain ⟨hne, hzero⟩ := root_at_zero hroot
  induction k using Nat.strong_induction_on generalizing v with
  | h k ih =>
    obtain ⟨p, u, _, hbelow, hu, hulive, hmem⟩ :=
      exists_forwarder hwidth hnodup hroot hlive hk hpos hv hvlive
    have hpk := hbelow.lt
    rcases Nat.eq_zero_or_pos p with rfl | hppos
    · obtain rfl : u = root := Option.some.inj (hu.symm.trans hzero)
      refine ⟨u, .start ?_⟩
      rw [forwards, selectNodes_eq hnodup (by omega) hu] at hmem
      rwa [selectNodes_eq hnodup (by omega) hu]
    · obtain ⟨x, hx⟩ := ih p hpk (by omega) hppos hu hulive
      refine ⟨u, .forward hx (mem_filter.mpr ⟨hmem, ?_⟩)⟩
      -- the node it came from is further up
      obtain ⟨e, p', he, hp', hxe, hu', _, hbelow'⟩ := mem_forwards_imp hwidth hnodup hne
        (hx.mem_forwards hwidth hnodup hroot hlive).2
      obtain rfl := nodeAt_inj hnodup (by omega) hp' hu hu'
      have hep := hbelow'.lt
      rw [decide_eq_true_eq]
      rintro rfl
      have := nodeAt_inj hnodup hk he hv hxe
      omega

end Selection

/-- **The message reaches every live consensus node, and is sent to each of them once.** Nodes that
are not live or no consensus nodes are sent nothing, and the root is not sent its own message. -/
theorem broadcast_reaches_once (treeWidth : Nat) (nodes : List NodeID) (live : Finset NodeID)
    (r : Nat) (root : NodeID) (hwidth : 1 ≤ treeWidth) (hnodup : nodes.Nodup)
    (hroot : nodes[r % nodes.length]? = some root) (hlive : root ∈ live) :
    (∀ v ∈ nodes, v ∈ live → v ≠ root → (∃! u, u ∈ live ∧ v ∈ forwards treeWidth nodes live r u) ∧
      ∃! u, Sent treeWidth nodes live r root u v) ∧
    (∀ u v, Sent treeWidth nodes live r root u v → v ∈ nodes ∧ v ∈ live ∧ v ≠ root) ∧
    ∀ u, (forwards treeWidth nodes live r u).Nodup := by
  obtain ⟨hne, hzero⟩ := root_at_zero hroot
  refine ⟨fun v hv hvlive hvroot => ?_, fun u v h => ?_, nodup_forwards hwidth hnodup hne live⟩
  · have hselector := existsUnique_selector hwidth hnodup hroot hlive hv hvlive hvroot
    refine ⟨hselector, ?_⟩
    obtain ⟨k, hk, hat⟩ := exists_nodeAt (r := r) hv
    have hpos := pos_of_ne_root hzero hat hvroot
    obtain ⟨u, hu⟩ := exists_sent hwidth hnodup hroot hlive hk hpos hat hvlive
    refine ⟨u, hu, fun u' hu' => hselector.unique ?_ ?_⟩
    · exact hu'.mem_forwards hwidth hnodup hroot hlive
    · exact hu.mem_forwards hwidth hnodup hroot hlive
  · obtain ⟨e, k, he, hk, hu, hv, hvlive, hbelow⟩ := mem_forwards_imp hwidth hnodup hne
      (h.mem_forwards hwidth hnodup hroot hlive).2
    refine ⟨mem_of_nodeAt hv, hvlive, ?_⟩
    rintro rfl
    obtain rfl := nodeAt_inj hnodup hk (by omega) hv hzero
    exact absurd hbelow.desc.1 (by omega)

/-- Of four nodes with root 2, node 3 is down: its child in the tree is sent the message by the
root. -/
theorem four_nodes_reached :
    (∀ v ∈ [0, 1, 2, 3], v ∈ ({0, 1, 2} : Finset Nat) → v ≠ 2 →
      (∃! u, u ∈ ({0, 1, 2} : Finset Nat) ∧ v ∈ forwards 1 [0, 1, 2, 3] {0, 1, 2} 2 u) ∧
      ∃! u, Sent 1 [0, 1, 2, 3] {0, 1, 2} 2 2 u v) ∧ (∀ u v, Sent 1 [0, 1, 2, 3] {0, 1, 2} 2 2 u v →
      v ∈ [0, 1, 2, 3] ∧ v ∈ ({0, 1, 2} : Finset Nat) ∧ v ≠ 2) ∧
    ∀ u, (forwards 1 [0, 1, 2, 3] {0, 1, 2} 2 u).Nodup :=
  broadcast_reaches_once 1 [0, 1, 2, 3] {0, 1, 2} 2 2 (by decide) (by decide) rfl (by decide)

end Rcc.Tree
