import Rcc.Pbft.Node4nl

/-!
# Rcc.Pbft.Sealer4nl

The sealer of a node (`Sealer`, `PBFTSealer`) with the transaction pool it loads from and the
engine it hands its blocks to.

One pass of `doWork` takes notice of a newly committed block, fills the sealing block from the
pool and, once there are enough transactions or the time is up, takes them out of the pool and
has the engine propose them. From then on the sealing block counts as sealed, and nothing more
is sealed until somebody resets it: the sealer itself on a new block, or the engine's view
change. What neither of them decides is passed in (`SealEnv`, `LeaderEnv`).
-/

namespace Rcc.Pbft

open List

variable {H Id Sg : Type}

/-- `Sealing`: the block under construction, and the hashes `topTransactions` is to avoid. -/
structure Sealing (H Id Sg : Type) where
  block : Block H Id Sg
  transactionSet : List H

/-- What `getLeader` reads besides the highest block and the sealer list. -/
structure LeaderEnv where
  cfgErr : Bool
  leaderFailed : Bool
  view : Int
deriving DecidableEq

/-- What the environment decides during one pass of `doWork`. -/
structure SealEnv where
  engine : Env
  leader : LeaderEnv
  startConsensus : Bool
  blockSyncing : Bool
  /-- The leader mode has a committed proposal for the next height. -/
  committedPrepare : Bool
  maxBlockCanSeal : Nat
  maxBlockTransactions : Nat
  poolLimit : Nat
  /-- The nonces of the blocks that `TransactionNonceCheck` remembers. -/
  nonceCache : List Nat
  emptyBlockGenTime : Nat
  minBlockGenTime : Nat
  /-- The time since the last consensus, when transactions are loaded. -/
  loadTime : Nat
  /-- The same a little later, when they are counted. -/
  checkTime : Nat
  omitEmptyBlock : Bool
  timestamp : Nat
deriving DecidableEq

/-- A node with its sealer. -/
structure SealerNode (H Id Sg : Type) where
  node : Node H Id Sg
  sealing : Sealing H Id Sg
  /-- `m_syncBlock`: a block was committed since the last pass. -/
  syncBlock : Bool
  /-- `m_highestBlock`, the block reported last. -/
  highestBlock : BlockHeader H Id
  /-- No part of the program: every transaction `doWork` has taken out of the pool so far. -/
  removed : List (Transaction H)

/-- A packet off the network. -/
inductive Packet (H Id Sg : Type) where
  | prepare (req : PrepareReq4nl H Id Sg)
  | sign (req : PBFTMsg H Sg)
  | commit (req : PBFTMsg H Sg)

def Packet.event (env : Env) : Packet H Id Sg → Event H Id Sg
  | .prepare req => .prepare req env
  | .sign req => .sign req env
  | .commit req => .commit req env

inductive SealerEvent (H Id Sg : Type) where
  /-- A verified transaction is imported into the pool. -/
  | imported (t : Transaction H)
  | received (p : Packet H Id Sg) (env : Env)
  | doWork (w : SealEnv)
  /-- `checkTimeout` has fired and calls `m_onViewChange`. -/
  | viewChange (v : LeaderEnv)
  /-- `notifySealing` calls `m_onNotifyNextLeaderReset`. -/
  | nextLeader (filter : List H)

/-! ### The pool -/

/-- `TxPool::insert`: a known hash is refused; the object remembers what it is filed under. -/
def insertTransaction [DecidableEq H] (t : Transaction H) (pool : List (Transaction H)) :
    List (Transaction H) :=
  if pool.any fun u => u.hash = t.hash then pool
  else pool ++ [{ t with originalHash := some t.hash }]

/-- The loop of `TxPool::topTransactions`: the transactions picked and the hashes to avoid
from now on. The block limit is not checked (`isBlockLimitOk` holds of everything), so that
the list of invalid transactions stays empty. -/
def topTransactions [DecidableEq H] (nonceCache : List Nat) :
    Nat → List (Transaction H) → List H → List (Transaction H) × List H
  | _, [], avoid => ([], avoid)
  | limit, t :: queue, avoid =>
    if limit = 0 then ([], avoid)
    else if t.nonce ∈ nonceCache ∨ t.hash ∈ avoid then
      topTransactions nonceCache limit queue avoid
    else
      let (txs, avoid) := topTransactions nonceCache (limit - 1) queue (t.hash :: avoid)
      (t :: txs, avoid)

theorem topTransactions_subset [DecidableEq H] (nonceCache : List Nat) (limit : Nat)
    (queue : List (Transaction H)) (avoid : List H) :
    (topTransactions nonceCache limit queue avoid).1 ⊆ queue := by
  induction queue generalizing limit avoid with
  | nil => simp [topTransactions]
  | cons t queue ih =>
    unfold topTransactions
    split
    · simp
    · split
      · exact subset_cons_of_subset t (ih limit avoid)
      · exact cons_subset_cons t (ih (limit - 1) (t.hash :: avoid))

theorem length_topTransactions_le [DecidableEq H] (nonceCache : List Nat) (limit : Nat)
    (queue : List (Transaction H)) (avoid : List H) :
    (topTransactions nonceCache limit queue avoid).1.length ≤ limit := by
  induction queue generalizing limit avoid with
  | nil => simp [topTransactions]
  | cons t queue ih =>
    unfold topTransactions
    split
    · simp
    · split
      · exact ih limit avoid
      · have hle := ih (limit - 1) (t.hash :: avoid)
        simp only [length_cons]
        omega

/-! ### The sealing block -/

/-- `Block::resetCurrentBlock`. A parent that nobody sealed leaves the header as it was. -/
def Block.resetCurrentBlock (c : Crypto H Id Sg) (parent : BlockHeader H Id) (b : Block H Id Sg) :
    Block H Id Sg :=
  let header := if parent.sealer ≠ invalid256 then b.header.populateFromParent c parent
    else b.header
  { header := { header with sealer := invalid256 }
    transactions := []
    sigList := [] }

namespace SealerNode

variable [DecidableEq Id]

/-- The sealing block's `getTransactionSize()`. -/
def sealingSize (s : SealerNode H Id Sg) : Nat := s.sealing.block.transactions.length

/-- `m_blockChain->number()`. -/
def number (s : SealerNode H Id Sg) : Int := s.node.engine.highest.header.number

/-- `PBFTEngine::getLeader`. It has no answer once a merged block has been reported, since
that block bears no sealer. -/
def getLeader (v : LeaderEnv) (s : SealerNode H Id Sg) : Bool × Nat :=
  let n := nodeNum s.node.engine.sealerList
  if v.cfgErr ∨ v.leaderFailed ∨ s.highestBlock.sealer = invalid256 ∨ n = 0 then
    (false, maxIdx)
  else (true, ((v.view + s.highestBlock.number).tmod n % 65536).toNat)

/-- `PBFTSealer::shouldHandleBlock`. -/
def shouldHandleBlock (v : LeaderEnv) (s : SealerNode H Id Sg) : Bool :=
  s.sealing.block.header.number = s.number + 1 ∧
    s.getLeader v = (true, s.node.engine.nodeIdx)

variable (c : Crypto H Id Sg)

/-- `Sealer::resetSealingBlock`, for the current or for the next leader. -/
def resetSealingBlock (filter : List H) (nextLeader : Bool)
    (s : SealerNode H Id Sg) : SealerNode H Id Sg :=
  let block := if nextLeader then
      -- the default header of the source bears no sealer either
      let b := s.sealing.block.resetCurrentBlock c
        (BlockHeader.clear s.node.engine.highest.header.stateRoot)
      { b with header := { b.header with number := s.number + 2 } }
    else s.sealing.block.resetCurrentBlock c s.node.engine.highest.header
  { s with sealing := { block := block, transactionSet := filter } }

/-- `PBFTSealer::shouldResetSealing`. -/
def shouldResetSealing (v : LeaderEnv) (s : SealerNode H Id Sg) : Bool :=
  if s.sealing.block.isSealed ∧ s.shouldHandleBlock v then false
  else
    (s.sealing.block.isSealed ∨ s.sealing.block.header.number ≤ s.number) ∧
      (s.getLeader v).2 = s.node.engine.nodeIdx

/-- `PBFTSealer::resetBlockForViewChange`. -/
def resetBlockForViewChange (v : LeaderEnv) (s : SealerNode H Id Sg) :
    SealerNode H Id Sg :=
  if s.sealing.block.isSealed ∧ s.shouldHandleBlock v then s
  else s.resetSealingBlock c [] false

/-- `PBFTEngine::reportBlock` for the highest block: what it does to `m_highestBlock`. -/
def reportBlock (s : SealerNode H Id Sg) : SealerNode H Id Sg :=
  let header := s.node.engine.highest.header
  if s.number = 0 ∨ s.highestBlock.number < header.number then
    { s with highestBlock := header }
  else s

/-- `Sealer::reportNewBlock`. -/
def reportNewBlock (v : LeaderEnv) (s : SealerNode H Id Sg) :
    SealerNode H Id Sg :=
  if s.syncBlock then
    let s := { s with syncBlock := false }.reportBlock
    if s.shouldResetSealing v then s.resetSealingBlock c [] false else s
  else s

/-! ### One pass of `doWork` -/

/-- `Sealer::shouldSeal`, `PBFTSealer::shouldSeal` and `PBFTEngine::shouldSeal`. -/
def shouldSeal (w : SealEnv) (s : SealerNode H Id Sg) : Bool :=
  !s.sealing.block.isSealed && w.startConsensus && s.node.engine.nodeIdx != maxIdx &&
    !w.blockSyncing && !w.leader.cfgErr && !w.committedPrepare

/-- `PBFTSealer::reachBlockIntervalTime`, `since` the last consensus. -/
def reachBlockIntervalTime (w : SealEnv) (since : Nat) (s : SealerNode H Id Sg) : Bool :=
  w.emptyBlockGenTime ≤ since ∨ 0 < s.sealingSize ∧ w.minBlockGenTime ≤ since

/-- The share of a block that one packing node may fill. -/
def maxTxsPerBlock (w : SealEnv) (s : SealerNode H Id Sg) : Nat :=
  w.maxBlockCanSeal / s.node.engine.globalSealingNodes

variable [DecidableEq H] (w : SealEnv)

/-- `Sealer::loadTransactions`. -/
def loadTransactions (transToFetch : Nat) (s : SealerNode H Id Sg) :
    SealerNode H Id Sg :=
  let (txs, avoid) := topTransactions w.nonceCache (min w.poolLimit transToFetch)
    s.node.engine.txPool s.sealing.transactionSet
  { s with
    sealing :=
      { block := { s.sealing.block with transactions := s.sealing.block.transactions ++ txs }
        transactionSet := avoid } }

variable (s : SealerNode H Id Sg)

/-- The loading part of `doWork`. -/
def fill : SealerNode H Id Sg :=
  if s.sealingSize < s.maxTxsPerBlock w ∧ s.node.engine.txPool ≠ [] ∧
      s.reachBlockIntervalTime w w.loadTime = false then
    s.loadTransactions w (s.maxTxsPerBlock w - s.sealingSize)
  else s

omit [DecidableEq Id] in
theorem sealingSize_fill_le :
    (s.fill w).sealingSize ≤ max s.sealingSize (s.maxTxsPerBlock w) := by
  unfold fill
  split_ifs with hload
  · have hlen := length_topTransactions_le w.nonceCache
      (min w.poolLimit (s.maxTxsPerBlock w - s.sealingSize)) s.node.engine.txPool
      s.sealing.transactionSet
    simp only [sealingSize, loadTransactions, length_append] at hload hlen ⊢
    omega
  · exact Nat.le_max_left _ _

omit [DecidableEq Id] in
@[simp] theorem fill_node : (s.fill w).node = s.node := by
  unfold fill
  split <;> rfl

/-- `Sealer::checkTxsEnough4nl`. -/
def checkTxsEnough4nl : Bool :=
  !s.node.engine.notifyNextLeaderSeal &&
    (decide (s.maxTxsPerBlock w ≤ s.sealingSize) || s.reachBlockIntervalTime w w.checkTime)

/-- `m_txPool->dropBlockTrans(m_sealing.block)`, with a note of what is removed. -/
def dropBlockTrans : SealerNode H Id Sg :=
  let keys := s.sealing.block.transactions.map Transaction.originalHash
  { s with
    node := { s.node with engine := s.node.engine.dropHandledTransactions s.sealing.block }
    removed := s.removed ++ s.node.engine.txPool.filter fun t => keys.contains (some t.hash) }

variable [DecidableEq Sg] [StdHash H] [StdHash Sg]

/-- The engine has handled an event; a commit is announced to the sealer (`onBlockChanged`). -/
def afterEvent (s : SealerNode H Id Sg) (n : Node H Id Sg) : SealerNode H Id Sg :=
  { s with
    node := n
    syncBlock := s.syncBlock || decide (s.node.engine.chain.length < n.engine.chain.length) }

/-- `PBFTSealer::handleBlock`. The engine works on a copy: `Block` has no move assignment, so
that the sealing block keeps its transactions, and is sealed from now on. -/
def handleBlock (c : Crypto H Id Sg) (w : SealEnv) (s : SealerNode H Id Sg) :
    Option (SealerNode H Id Sg) :=
  if w.maxBlockTransactions < s.sealingSize then some (s.resetSealingBlock c [] false)
  else
    let txs := s.sealing.block.transactions
    let block := s.node.engine.setBlock c txs w.timestamp
    (s.node.step c (.sealed txs w.timestamp w.engine)).map fun n =>
      let s := { s.afterEvent n with sealing := { s.sealing with block := block } }
      if block.transactions.length = 0 ∧ w.omitEmptyBlock then s.resetSealingBlock c [] false
      else s

/-- `Sealer::doWork`. -/
def doWork (c : Crypto H Id Sg) (w : SealEnv) (s : SealerNode H Id Sg) :
    Option (SealerNode H Id Sg) :=
  let s := s.reportNewBlock c w.leader
  if s.shouldSeal w then
    let s := s.fill w
    if s.checkTxsEnough4nl w = false then some s
    else if s.sealingSize ≠ 0 then s.dropBlockTrans.handleBlock c w
    else some s
  else some s

/-- One step of a node with its sealer. -/
def step (c : Crypto H Id Sg) (s : SealerNode H Id Sg) (ev : SealerEvent H Id Sg) :
    Option (SealerNode H Id Sg) :=
  match ev with
  | .imported t =>
    let e := s.node.engine
    some { s with
      node := { s.node with engine := { e with txPool := insertTransaction t e.txPool } } }
  | .received p env => (s.node.step c (p.event env)).map s.afterEvent
  | .doWork w => s.doWork c w
  | .viewChange v => some (s.resetBlockForViewChange c v)
  | .nextLeader filter => some (s.resetSealingBlock c filter true)

/-- A node at process start: `Sealer::start` resets the sealing block and reports the highest
block. -/
def init (c : Crypto H Id Sg) (sealers : List Id) (key : Id) (genesis : Block H Id Sg)
    (chain : List (Block H Id Sg)) : SealerNode H Id Sg :=
  let engine := Engine.init sealers key genesis chain
  let header := engine.highest.header
  { node := ⟨engine, []⟩
    sealing :=
      { block := Block.resetCurrentBlock c header ⟨BlockHeader.clear header.stateRoot, [], []⟩
        transactionSet := [] }
    syncBlock := false
    highestBlock := header
    removed := [] }

end SealerNode

end Rcc.Pbft
