import Rcc.Lib.LevelOrder
import Mathlib.Data.Finset.Basic

/-!
# Rcc.Tree.Topology

`libdevcore/TreeTopology.cpp`: whom a node forwards a message to, in a tree of the consensus nodes
that is rotated so that its root is the node the message starts from.
-/

namespace Rcc.Tree

variable {NodeID : Type} [DecidableEq NodeID]

/-- The first index of the node, or -1. -/
def getNodeIndexByNodeId (findSet : List NodeID) (nodeId : NodeID) : Int :=
  if nodeId ∈ findSet then findSet.idxOf nodeId else -1

/-- The loop of `recursiveSelectChildNodes` from the `i`-th child on. What is virtual in the class
is a parameter: `node` finds the node for an index of the tree (`getSelectedNodeIndex` and
`getNodeIDByIndex`). -/
def recursiveSelectChildNodes (treeWidth : Nat) (endIndex : Int) (node : Nat → Option NodeID)
    (peers : Finset NodeID) (parentIndex i : Nat) : List NodeID :=
  if i < treeWidth then
    let expectedIndex := parentIndex * treeWidth + i + 1
    if (expectedIndex : Int) > endIndex then []
    else
      match node expectedIndex with
      | none => recursiveSelectChildNodes treeWidth endIndex node peers parentIndex (i + 1)
      | some selectedNode =>
        -- the child node exists in the peers, or the grand children are selected
        (if selectedNode ∈ peers then [selectedNode]
          else if (expectedIndex : Int) < endIndex then
            recursiveSelectChildNodes treeWidth endIndex node peers expectedIndex 0
          else []) ++
        -- the last node
        (if (expectedIndex : Int) = endIndex then []
          else recursiveSelectChildNodes treeWidth endIndex node peers parentIndex (i + 1))
  else []
termination_by (endIndex.toNat - parentIndex, treeWidth - i)
decreasing_by
  · exact Prod.Lex.right _ (by omega)
  · have := Nat.le_mul_of_pos_right parentIndex (by omega : 0 < treeWidth)
    exact Prod.Lex.left _ _ (by omega)
  · exact Prod.Lex.right _ (by omega)

/-- The loop of `TreeTopology::selectParentNodes`. -/
def selectParentsFrom (treeWidth : Nat) (node : Nat → Option NodeID) (peers : Finset NodeID)
    (selectAll : Bool) (parentIndex : Nat) : List NodeID :=
  let found := (node parentIndex).filter (· ∈ peers)
  found.toList ++
    if found.isSome && !selectAll then []
    else if parentIndex = 0 then []
    else selectParentsFrom treeWidth node peers selectAll ((parentIndex - 1) / treeWidth)
termination_by parentIndex
decreasing_by
  have := Nat.div_le_self (parentIndex - 1) treeWidth
  omega

/-- `TreeTopology::selectParentNodes`. -/
def selectParentNodes (treeWidth : Nat) (node : Nat → Option NodeID) (peers : Finset NodeID)
    (nodeIndex : Int) (selectAll : Bool) : List NodeID :=
  let parentIndex := (nodeIndex - 1).tdiv treeWidth
  -- the parent is the node itself
  if parentIndex = nodeIndex then []
  else if parentIndex ≥ 0 then
    selectParentsFrom treeWidth node peers selectAll parentIndex.toNat
  else []

/-- The members of `TreeTopology`. -/
structure TreeTopology (NodeID : Type) where
  treeWidth : Nat
  nodeId : NodeID
  currentConsensusNodes : List NodeID := []
  nodeNum : Int := 0
  consIndex : Int := 0
  endIndex : Int := 0
  startIndex : Int := 0

namespace TreeTopology

variable (t : TreeTopology NodeID)

def updateStartAndEndIndex : TreeTopology NodeID :=
  { t with
    startIndex := 0
    endIndex := (t.currentConsensusNodes.length : Int) - 1
    nodeNum := t.currentConsensusNodes.length }

def updateConsensusNodeInfo (consensusNodes : List NodeID) : TreeTopology NodeID :=
  if t.currentConsensusNodes = consensusNodes then t
  else
    updateStartAndEndIndex
      { t with
        currentConsensusNodes := consensusNodes
        consIndex := getNodeIndexByNodeId consensusNodes t.nodeId }

def getNodeIDByIndex (nodeIndex : Int) : Option NodeID :=
  if nodeIndex ≥ t.currentConsensusNodes.length then none
  else t.currentConsensusNodes[nodeIndex.toNat]?

def getSelectedNodeIndex (selectedIndex offset : Int) : Int :=
  (selectedIndex + offset).tmod t.nodeNum

def getNodeIndex (consIndex : Int) : Int :=
  if t.consIndex ≥ consIndex then t.consIndex - consIndex
  else (t.consIndex + t.nodeNum - consIndex.tmod t.nodeNum).tmod t.nodeNum

/-- `recursiveSelectChildNodes` of this class. -/
def selectChildNodes (parentIndex : Nat) (peers : Finset NodeID) (startIndex : Int) : List NodeID :=
  recursiveSelectChildNodes t.treeWidth t.endIndex
    (fun expectedIndex => t.getNodeIDByIndex (t.getSelectedNodeIndex expectedIndex startIndex))
    peers parentIndex 0

def selectNodes (peers : Finset NodeID) (consIndex : Nat) (isTheStartNode : Bool) : List NodeID :=
  if t.consIndex < 0 then
    if !isTheStartNode then []
    else
      match t.getNodeIDByIndex consIndex with
      | some selectedNode =>
        if selectedNode ∈ peers then [selectedNode]
        else t.selectChildNodes consIndex peers consIndex
      | none => t.selectChildNodes consIndex peers consIndex
  else t.selectChildNodes (t.getNodeIndex consIndex).toNat peers consIndex

end TreeTopology

/-- Whom `DownloadingTxsQueue::push4nl` sends the transactions on to. -/
def push4nl (treeRouter : TreeTopology NodeID) (peers : Finset NodeID) (consIndex : Nat)
    (fromPeer : NodeID) : List NodeID :=
  (treeRouter.selectNodes peers consIndex false).filter (· ≠ fromPeer)

end Rcc.Tree
