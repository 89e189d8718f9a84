import Rcc.Tree.Topology

/-!
# Rcc.Tree.SyncTopology

`libsync/SyncTreeTopology.cpp`: whom a node tells about its newest block.

The list of all nodes is cut into slots, one for each consensus node, and each slot is a tree below
its consensus node. The consensus nodes are in the list too, so they stand in the trees as well.
-/

namespace Rcc.Tree

variable {NodeID : Type} [DecidableEq NodeID]

/-- The members of `SyncTreeTopology`. Here `nodeNum` counts the node list. -/
structure SyncTreeTopology (NodeID : Type) extends TreeTopology NodeID where
  nodeList : List NodeID := []
  nodeIndex : Int := 0
  /-- What is read in front of the node list, at index -1. -/
  inFront : NodeID

namespace SyncTreeTopology

variable (t : SyncTreeTopology NodeID)

def locatedInGroup : Bool := t.consIndex ≠ -1 || t.nodeIndex ≠ -1

def updateStartAndEndIndex : SyncTreeTopology NodeID :=
  if t.currentConsensusNodes.length = 0 then t
  else if t.nodeList.length = 0 then t
  else if !t.locatedInGroup then t
  else
    let consensusNodeSize : Int := t.currentConsensusNodes.length
    let slotSize := (t.nodeNum + consensusNodeSize - 1).tdiv consensusNodeSize
    let startIndex :=
      if t.consIndex ≥ 0 then slotSize * t.consIndex
      else t.nodeIndex.tdiv slotSize * slotSize
    let startIndex := if startIndex > t.nodeNum - 1 then t.nodeNum - 1 else startIndex
    let endIndex := startIndex + slotSize - 1
    let endIndex := if endIndex > t.nodeNum - 1 then t.nodeNum - 1 else endIndex
    { t with startIndex := startIndex, endIndex := endIndex - startIndex + 1 }

def updateAllNodeInfo (consensusNodes nodeList : List NodeID) : SyncTreeTopology NodeID :=
  if nodeList = t.nodeList ∧ consensusNodes = t.currentConsensusNodes then t
  else
    updateStartAndEndIndex
      { t with
        nodeNum := nodeList.length
        nodeList := nodeList
        currentConsensusNodes := consensusNodes
        consIndex := getNodeIndexByNodeId consensusNodes t.nodeId
        nodeIndex := getNodeIndexByNodeId nodeList t.nodeId }

def getNodeIDByIndex (nodeIndex : Int) : Option NodeID :=
  if nodeIndex ≥ t.nodeNum then none
  else if nodeIndex < 0 then some t.inFront
  else t.nodeList[nodeIndex.toNat]?

/-- The node for an index of the tree. -/
def node (startIndex : Int) (index : Nat) : Option NodeID :=
  t.getNodeIDByIndex (t.getSelectedNodeIndex index startIndex)

def selectNodesForBlockSync (peers : Finset NodeID) : List NodeID :=
  if !t.locatedInGroup then []
  else
    let offset := t.startIndex - 1
    let nodeIndex := t.nodeIndex + 1 - t.startIndex
    if t.consIndex ≥ 0 then
      -- all other consensus nodes, and the children
      t.currentConsensusNodes.filter (· ∈ peers) ++
        recursiveSelectChildNodes t.treeWidth t.endIndex (t.node offset) peers 0 0
    else
      selectParentNodes t.treeWidth (t.node offset) peers nodeIndex false ++
        recursiveSelectChildNodes t.treeWidth t.endIndex (t.node offset) peers nodeIndex.toNat 0

end SyncTreeTopology

end Rcc.Tree
