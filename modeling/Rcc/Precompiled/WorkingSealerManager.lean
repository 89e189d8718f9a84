import Rcc.Precompiled.Common

/-!
# Rcc.Precompiled.WorkingSealerManager

`libprecompiled/WorkingSealerManagerImpl.cpp`: the transaction that rotates the working sealers of
an rPBFT group.

A node is a sealer of the block through its row of `SYS_CONSENSUS`, of type `sealer` (pending) or
`wSealer` (working), once the row's `enable_num` has been reached. `rotateWorkingSealer` moves
nodes between the two types; what it writes comes into force with the next block.

The constructor of `WorkingSealerManagerImpl` leaves `m_configuredEpochSealersSize` alone, so the
value it starts from is an argument of `Manager.new`. Reading past the end of a `std::vector` and
dividing by zero are `Fault`s. Rows are written under the hex of the node id, one row a node; that
is `ConsTable`.
-/

namespace Rcc.Precompiled

open Storage (Address)

/-! ## The two system tables -/

/-- `h512`. -/
abbrev NodeId := Nat

/-- The values of the column `NODE_TYPE`. -/
inductive NodeType where
  | sealer
  | observer
  | wSealer
  deriving DecidableEq

/-- A row of `SYS_CONSENSUS`. -/
structure NodeRow where
  nodeId : NodeId
  type : NodeType
  enableNum : Int
  deriving DecidableEq

/-- The rows of `SYS_CONSENSUS` under `PRI_KEY`, in the order `select` gives them. -/
structure ConsTable where
  rows : List NodeRow
  nodup : (rows.map NodeRow.nodeId).Nodup

/-- A row of `SYS_CONFIG`. -/
structure ConfigRow where
  key : String
  value : String
  enableNum : Int
  deriving DecidableEq

def INTERNAL_SYSTEM_KEY_NOTIFY_ROTATE : String := "notify_rotate"
def SYSTEM_KEY_RPBFT_EPOCH_SEALER_NUM : String := "rpbft_epoch_sealer_num"
def SYSTEM_KEY_RPBFT_EPOCH_BLOCK_NUM : String := "rpbft_epoch_block_num"

/-- `getNodeListByType`. `enable_num` is cast to `int`; where that throws, the exception is caught
and the nodes found so far are returned. -/
def getNodeListByType (blockNumber : Int) (type : NodeType) : List NodeRow → List NodeId
  | [] => []
  | row :: rows =>
    if row.type = type then
      if -2 ^ 31 ≤ row.enableNum ∧ row.enableNum < 2 ^ 31 then
        if row.enableNum ≤ blockNumber then
          row.nodeId :: getNodeListByType blockNumber type rows
        else getNodeListByType blockNumber type rows
      else []
    else getNodeListByType blockNumber type rows

/-- `getSysteConfigByKey`, on the table as on the storage. -/
def getSysteConfigByKey (config : List ConfigRow) (key : String) (num : Int) : String × Int :=
  match config.filter (·.key = key) with
  | [row] => if row.enableNum ≤ num then (row.value, row.enableNum) else ("", -1)
  | _ => ("", -1)

/-- The part of the `ExecutiveContext` a rotation reads and writes. -/
structure Context where
  /-- `blockInfo().number` -/
  number : Int
  /-- `blockInfo().hash`: the hash of the parent block -/
  hash : Nat
  consensus : ConsTable
  sysConfig : List ConfigRow
  /-- the rows of `SYS_CONFIG` in `stateStorage()`, as of the last block -/
  stateStorage : List ConfigRow

/-! ## The VRF library -/

/-- What the rotation calls outside this repository: `libffi_vrf` and the hash function. -/
structure Crypto where
  /-- `curve25519_vrf_is_valid_pubkey(..) == 0` -/
  isValidPubkey : String → Bool
  /-- `curve25519_vrf_verify(publicKey, input, proof) == 0` -/
  verify : String → String → String → Bool
  /-- `curve25519_vrf_proof_to_hash` -/
  proofToHash : String → String
  /-- `u256(crypto::Hash(..))` -/
  hash : String → Nat
  toAddress : NodeId → Address

structure VRFInfo where
  vrfProof : String
  vrfPublicKey : String
  vrfInput : String

/-! ## The manager -/

/-- `WorkingSealerManagerImpl`, without the tables it keeps open. -/
structure Manager where
  origin : Address
  vrfInfo : Option VRFInfo
  pendingSealerList : List NodeId := []
  workingSealerList : List NodeId := []
  configuredEpochSealersSize : Int
  sealerListObtained : Bool := false
  notifyNextLeaderRotateSetted : Bool := false

/-- The constructor and `createVRFInfo`. `uninit` is what stands in the memory of
`m_configuredEpochSealersSize`, which has no initialiser. -/
def Manager.new (origin : Address) (vrfInfo : Option VRFInfo) (uninit : Int) : Manager where
  origin := origin
  vrfInfo := vrfInfo
  configuredEpochSealersSize := uninit

namespace Context

variable (ctx : Context)

/-- The nodes of a type whose rows are in force. -/
def nodes (type : NodeType) : List NodeId := getNodeListByType ctx.number type ctx.consensus.rows

/-- The sealers of the block: pending, then working. -/
def sealers : List NodeId := ctx.nodes .sealer ++ ctx.nodes .wSealer

/-- `setSystemConfigByKey`. -/
def setSystemConfigByKey (key value : String) (enableNumber : Int) : Context :=
  let row : ConfigRow := ⟨key, value, enableNumber⟩
  if (ctx.sysConfig.filter (·.key = key)).length = 0 then
    { ctx with sysConfig := ctx.sysConfig ++ [row] }
  else { ctx with sysConfig := ctx.sysConfig.map fun r => if r.key = key then row else r }

/-- The flag `notify_rotate`, as `shouldRotate` reads it. -/
def notifyRotate : Except Fault Bool :=
  let notifyRotateFlagInfo :=
    getSysteConfigByKey ctx.sysConfig INTERNAL_SYSTEM_KEY_NOTIFY_ROTATE ctx.number
  if notifyRotateFlagInfo.1 ≠ "" then (castInt64 notifyRotateFlagInfo.1).map (· != 0)
  else .ok false

/-- The configured `epoch_sealer_num` of the block. -/
def epochSealerNum : Except Fault Int :=
  castInt64 (getSysteConfigByKey ctx.sysConfig SYSTEM_KEY_RPBFT_EPOCH_SEALER_NUM ctx.number).1

end Context

namespace Manager

variable (m : Manager)

def getSealerList (ctx : Context) : Manager :=
  if m.sealerListObtained then m
  else
    { m with
      pendingSealerList := ctx.nodes .sealer
      workingSealerList := ctx.nodes .wSealer
      sealerListObtained := true }

/-- `m_pendingSealerList->size() + m_workingSealerList->size()`. -/
def sealersNum : Int := m.pendingSealerList.length + m.workingSealerList.length

/-- `shouldRotate`, with the members it leaves behind. -/
def shouldRotate (ctx : Context) : Except Fault (Bool × Manager) := do
  let notify ← ctx.notifyRotate
  let m := { m with notifyNextLeaderRotateSetted := notify }
  if notify then return (true, m)
  else
    let epochSealersInfo :=
      getSysteConfigByKey ctx.sysConfig SYSTEM_KEY_RPBFT_EPOCH_SEALER_NUM ctx.number
    let size ← castInt64 epochSealersInfo.1
    let m := { m with configuredEpochSealersSize := size }
    if epochSealersInfo.2 = ctx.number then return (true, m)
    else
      let m := m.getSealerList ctx
      if (m.workingSealerList.length : Int) < min size m.sealersNum then return (true, m)
      else
        -- this one is read from the storage, not from the table
        let epochBlockInfo :=
          getSysteConfigByKey ctx.stateStorage SYSTEM_KEY_RPBFT_EPOCH_BLOCK_NUM ctx.number
        let epochBlockNum ← castInt64 epochBlockInfo.1
        if epochBlockNum = 0 then throw .divisionByZero
        else return ((ctx.number - epochBlockInfo.2).tmod epochBlockNum = 0, m)

def checkPermission (crypto : Crypto) (origin : Address) (allowed : List NodeId) :
    Except Fault Unit :=
  if allowed.any (crypto.toAddress · = origin) then .ok ()
  else .error (.precompiledException
    ("Permission denied, must be among the working sealer list! origin:" ++ hexPrefixed origin))

def checkVRFInfos (crypto : Crypto) (m : Manager) (ctx : Context) :
    Except Fault (Manager × VRFInfo) :=
  match m.vrfInfo with
  | none => .error (.precompiledException ("No VRFProof provided! sender:" ++ hexPrefixed m.origin))
  | some info =>
    if fixedHash 32 info.vrfInput ≠ ctx.hash then
      .error (.precompiledException
        ("Invalid VRFInput, must be the parentHash! sender:" ++ hexPrefixed m.origin))
    else if !crypto.isValidPubkey info.vrfPublicKey then
      .error (.precompiledException ("Invalid VRF Public Key ! sender:" ++ hexPrefixed m.origin
        ++ ", publicKey:" ++ info.vrfPublicKey))
    else if !crypto.verify info.vrfPublicKey info.vrfInput info.vrfProof then
      .error (.precompiledException ("Verify VRF proof failed! sender:" ++ hexPrefixed m.origin))
    else
      let m := m.getSealerList ctx
      if m.workingSealerList.length > 0 then
        (checkPermission crypto m.origin m.workingSealerList).map fun _ => (m, info)
      else .ok (m, info)

def tryToResetNotifyNextLeaderFlag (ctx : Context) : Context :=
  if m.notifyNextLeaderRotateSetted then
    ctx.setSystemConfigByKey INTERNAL_SYSTEM_KEY_NOTIFY_ROTATE "0" (ctx.number + 1)
  else ctx

/-- `NodeRotatingInfo`. -/
structure NodeRotatingInfo where
  removedWorkingSealerNum : Int
  insertedWorkingSealerNum : Int

def calNodeRotatingInfo : NodeRotatingInfo :=
  let sealersNum := m.sealersNum
  let epochSize := min m.configuredEpochSealersSize sealersNum
  let workingSealersNum : Int := m.workingSealerList.length
  if workingSealersNum > epochSize then ⟨workingSealersNum - epochSize, 0⟩
  else if workingSealersNum < epochSize then ⟨0, epochSize - workingSealersNum⟩
  else if sealersNum = workingSealersNum then ⟨0, 0⟩
  else ⟨1, 1⟩

/-- The shuffle of `selectNodesFromList`, from index `i` down. -/
def shuffle (crypto : Crypto) : Nat → Nat → Array NodeId → Array NodeId
  | 0, _, nodeList => nodeList
  | i + 1, proofHashValue, nodeList =>
    let selectedIdx := proofHashValue % (i + 2)
    shuffle crypto i (crypto.hash (toString selectedIdx))
      (nodeList.swapIfInBounds (i + 1) selectedIdx)

/-- `selectNodesFromList`. -/
def selectNodesFromList (crypto : Crypto) (proofHash : Nat) (nodeList : List NodeId)
    (selectedNode : Int) : Except Fault (List NodeId) :=
  let sorted := (nodeList.insertionSort (· ≤ ·)).toArray
  let shuffled := shuffle crypto (sorted.size - 1) proofHash sorted
  if selectedNode ≤ shuffled.size then .ok (shuffled.toList.take selectedNode.toNat)
  else .error .outOfRange

end Manager

/-! ## Writing the rows -/

/-- What `update` does to a row under the condition on its node id. -/
def NodeRow.retype (node : NodeId) (type : NodeType) (enableNum : Int) (row : NodeRow) : NodeRow :=
  if row.nodeId = node then { row with type, enableNum } else row

@[simp] theorem NodeRow.nodeId_retype (node : NodeId) (type : NodeType) (n : Int) (row : NodeRow) :
    (row.retype node type n).nodeId = row.nodeId := by
  rw [retype]
  split <;> rfl

/-- A table whose rows have been rewritten, each under its own node id. -/
def ConsTable.mapRows (t : ConsTable) (f : NodeRow → NodeRow)
    (hf : ∀ row, (f row).nodeId = row.nodeId) : ConsTable where
  rows := t.rows.map f
  nodup := by
    rw [List.map_map, show NodeRow.nodeId ∘ f = NodeRow.nodeId from funext hf]
    exact t.nodup

def NodeType.toString : NodeType → String
  | .sealer => "sealer"
  | .observer => "observer"
  | .wSealer => "wSealer"

namespace Context

/-- `UpdateNodeType`. The update does not check access, so its count is not negative. -/
def updateNodeType (ctx : Context) (node : NodeId) (type : NodeType) : Except Fault Context :=
  if node ∈ ctx.consensus.rows.map NodeRow.nodeId then
    .ok { ctx with
      consensus := ctx.consensus.mapRows (NodeRow.retype node type (ctx.number + 1)) (by simp) }
  else .error (.precompiledException ("update " ++ toHex 64 node ++ " type to " ++ type.toString
    ++ " failed for no corresponding node record was found"))

/-- The loop of `rotateWorkingSealer` over the nodes it selected. An exception leaves the updates
before it in the table. -/
def updateNodeTypes (type : NodeType) : List NodeId → Context → Except (Fault × Context) Context
  | [], ctx => .ok ctx
  | node :: nodes, ctx =>
    match ctx.updateNodeType node type with
    | .ok ctx' => updateNodeTypes type nodes ctx'
    | .error e => .error (e, ctx)

end Context

namespace Manager

/-- One of the two halves of the rotation: select `count` nodes of a list and retype them. -/
def rotateInto (crypto : Crypto) (proofHash : Nat) (nodeList : List NodeId) (count : Int)
    (type : NodeType) (ctx : Context) : Except (Fault × Context) Context :=
  if count > 0 then
    match selectNodesFromList crypto proofHash nodeList count with
    | .ok nodes => ctx.updateNodeTypes type nodes
    | .error e => .error (e, ctx)
  else .ok ctx

/-- The rest of `rotateWorkingSealer` once the transaction has passed its checks. -/
def rotate (crypto : Crypto) (m : Manager) (info : VRFInfo) (ctx : Context) :
    Except (Fault × Context) Context := do
  let ctx := m.tryToResetNotifyNextLeaderFlag ctx
  if m.sealersNum ≤ 1 ∨
      m.configuredEpochSealersSize = m.sealersNum ∧ m.pendingSealerList.length = 0 then
    return ctx
  else
    let nodeRotatingInfo := m.calNodeRotatingInfo
    let proofHash := fixedHash 32 (crypto.proofToHash info.vrfProof)
    let ctx ← rotateInto crypto proofHash m.workingSealerList
      nodeRotatingInfo.removedWorkingSealerNum .sealer ctx
    rotateInto crypto proofHash m.pendingSealerList
      nodeRotatingInfo.insertedWorkingSealerNum .wSealer ctx

/-- `rotateWorkingSealer`: whether it decided to rotate and the context it leaves, or what it
throws and the context at that point. -/
def rotateWorkingSealer (crypto : Crypto) (m : Manager) (ctx : Context) :
    Except (Fault × Context) (Bool × Context) :=
  match m.shouldRotate ctx with
  | .error e => .error (e, ctx)
  | .ok (false, _) => .ok (false, ctx)
  | .ok (true, m) =>
    match m.checkVRFInfos crypto ctx with
    | .error e => .error
        (e, ctx.setSystemConfigByKey INTERNAL_SYSTEM_KEY_NOTIFY_ROTATE "1" (ctx.number + 1))
    | .ok (m, info) => (m.rotate crypto info ctx).map ((true, ·))

end Manager

end Rcc.Precompiled
