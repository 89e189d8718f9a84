import Mathlib.Data.Finset.Basic
import Mathlib.Data.List.Sort
import Mathlib.Tactic
import Rcc.Lib.Run

/-!
# Rcc.Rpbft.Engine

The rotating committee of rPBFT: `RotatingPBFTEngine` and what it inherits from
`ConsensusEngineBase`, as far as the committee, the fault bound and the leader are concerned.

* `Chain` — what a node reads from the chain at a height: the sealers and the two parameters of
  the rotation;
* `Engine.resetConfig` — the incremental maintenance of the committee;
* `Node` — a node whose chain grows block by block, and whose engine is told of it now and then.

An index of a node is an `IDXTYPE`, sixteen bits wide; the counters are `int64_t`, `-1` where
nothing has been set.
-/

namespace Rcc.Rpbft

/-! ## The chain -/

/-- The configuration in force after each block. -/
structure Chain (I : Type) where
  sealerList : Nat → List I
  /-- `rpbft_epoch_sealer_num` -/
  epochSealerNum : Nat → Nat
  /-- `rpbft_epoch_block_num` -/
  epochBlockNum : Nat → Nat
  /-- the height from which `rpbft_epoch_block_num` has its value -/
  enableNumber : Nat → Nat
  /-- the table of sealers has one row for a node -/
  nodup : ∀ h, (sealerList h).Nodup
  -- `SystemConfigPrecompiled::checkValueValid`
  epochSealerNum_pos : ∀ h, 0 < epochSealerNum h
  epochBlockNum_pos : ∀ h, 0 < epochBlockNum h
  /-- a value set in a block is in force from the next block on -/
  enableNumber_le : ∀ h, enableNumber h ≤ h + 1

/-- Nodes are told apart by their order. -/
scoped instance lawfulBEq_node {I : Type} [LinearOrder I] : LawfulBEq I := instLawfulBEq

/-- `IDXTYPE` -/
def idxType (i : Int) : Int := i % 65536

/-! ## The engine -/

/-- The members of the engine that the committee depends on. -/
structure Engine (I : Type) where
  self : I
  /-- the number of `m_highestBlock` -/
  highest : Nat := 0
  sealerList : List I
  sealerListUpdated : Bool := true
  lastSealerListUpdateNumber : Nat
  nodeNum : Int := 0
  f : Int := 0
  cfgErr : Bool := false
  epochSize : Int := -1
  rotatingInterval : Int := -1
  startNodeIdx : Int := -1
  rotatingRound : Int := 0
  sealersNum : Int := 0
  locatedInConsensusNodes : Bool := true
  chosedConsensusNodes : Finset I := ∅
  rotatingIntervalEnableNumber : Int := -1
  rotatingIntervalUpdated : Bool := false

variable {I : Type} [LinearOrder I] [Inhabited I]

/-- The sealers in the order of their indices. -/
def Chain.sortedSealers (chain : Chain I) (h : Nat) : List I :=
  (chain.sealerList h).insertionSort (· ≤ ·)

namespace Engine

/-- The constructor, with the sealer list of the configuration, at height `number`. -/
def construct (self : I) (sealerList : List I) (number : Nat) : Engine I where
  self := self
  sealerList := sealerList.insertionSort (· ≤ ·)
  lastSealerListUpdateNumber := number

variable (chain : Chain I) (number : Nat) (e : Engine I)

/-- `ConsensusEngineBase::updateConsensusNodeList` -/
def updateConsensusNodeList : Engine I :=
  if chain.sortedSealers number ≠ e.sealerList then
    { e with
      sealerList := chain.sortedSealers number
      sealerListUpdated := true
      lastSealerListUpdateNumber := number }
  else if number ≠ e.lastSealerListUpdateNumber then
    { e with sealerListUpdated := false }
  else e

/-- `ConsensusEngineBase::resetConfig`; without a sealer it throws `EmptySealers`. -/
def baseResetConfig : Option (Engine I) :=
  let e := e.updateConsensusNodeList chain number
  if e.sealerList.length < 1 then none
  else
    let nodeNum := idxType e.sealerList.length
    some
      { e with
        nodeNum := nodeNum
        f := idxType ((nodeNum - 1).tdiv 3)
        cfgErr := decide (e.self ∉ e.sealerList) }

/-- The answer says whether the interval or its enable number is new. -/
def updateRotatingInterval : Bool × Engine I :=
  let rotatingInterval : Int := chain.epochBlockNum number
  let enableNumber : Int := chain.enableNumber number
  if rotatingInterval = e.rotatingInterval ∧ enableNumber = e.rotatingIntervalEnableNumber then
    (false, e)
  else
    (true, { e with
        rotatingInterval := rotatingInterval
        rotatingIntervalEnableNumber := enableNumber })

/-- The rounds since the interval was enabled; C++ division rounds towards zero. -/
def roundsSince : Int := (number - e.rotatingIntervalEnableNumber).tdiv e.rotatingInterval

/-- The beginning of `resetConfig`: a new interval starts a new count of rounds. -/
def refreshInterval : Engine I :=
  let (updated, e) := e.updateRotatingInterval chain number
  { e with
    rotatingIntervalUpdated := updated
    rotatingRound := if updated then e.roundsSince number else e.rotatingRound }

def setEpochSealerNum (epochSize : Int) (e : Engine I) : Engine I :=
  { e with epochSize := if epochSize > e.sealersNum then e.sealersNum else epochSize }

/-- The answer says whether the epoch size has changed. -/
def updateEpochSize : Bool × Engine I :=
  let epoch : Int := chain.epochSealerNum number
  if epoch = e.epochSize then (false, e)
  else
    let e' := e.setEpochSealerNum epoch
    (decide (e.epochSize ≠ e'.epochSize), e')

/-- The loop of `resetChosedConsensusNodes`, `k` rounds of it from index `idx` on. The read
`m_sealerList[idx]` is unchecked: `none` if it is out of bounds. -/
def gather (sealerList : List I) (sealersNum : Int) : Nat → Int → Finset I → Option (Finset I)
  | 0, _, chosed => some chosed
  | k + 1, idx, chosed =>
    if 0 ≤ idx then
      sealerList[idx.toNat]?.bind fun nodeId =>
        gather sealerList sealersNum k ((idx + 1).tmod sealersNum) (insert nodeId chosed)
    else none

/-- The part of `resetChosedConsensusNodes` that builds the committee anew. -/
def rebuild : Option (Engine I) :=
  let rotatingRound := if e.startNodeIdx = -1 then e.roundsSince number else e.rotatingRound
  let startNodeIdx := rotatingRound.tmod e.sealersNum
  (gather e.sealerList e.sealersNum e.epochSize.toNat startNodeIdx ∅).map fun chosed =>
    { e with rotatingRound, startNodeIdx, chosedConsensusNodes := chosed }

def resetChosedConsensusNodes : Option (Engine I) :=
  let sealersNum : Int := if e.sealerListUpdated then e.sealerList.length else e.sealersNum
  let (epochUpdated, e) := { e with sealersNum }.updateEpochSize chain number
  if !epochUpdated && !e.sealerListUpdated && !e.rotatingIntervalUpdated then some e
  else if e.rotatingInterval = -1 ∨ e.epochSize = -1 then some e
  else e.rebuild number

/-- `NodeID()` if there is no sealer of this index; a negative index is a huge `size_t`. -/
def getNodeIDByIndex (index : Int) : I :=
  if 0 ≤ index then e.sealerList.getD index.toNat default else default

/-- The rotation by one node: the first node of the committee leaves, the sealer behind the last
one enters. -/
def rotate : Engine I :=
  let chosedOutIdx := e.rotatingRound.tmod e.sealersNum
  let rotatingRound := e.rotatingRound + 1
  let startNodeIdx := rotatingRound.tmod e.sealersNum
  let epochSize := min e.epochSize e.sealersNum
  let chosedInNodeIdx := idxType ((startNodeIdx + epochSize - 1).tmod e.sealersNum)
  { e with
    rotatingRound, startNodeIdx
    chosedConsensusNodes :=
      insert (e.getNodeIDByIndex chosedInNodeIdx)
        (e.chosedConsensusNodes.erase (e.getNodeIDByIndex chosedOutIdx)) }

def chooseConsensusNodes : Engine I :=
  if e.rotatingInterval = -1 ∨ e.epochSize = -1 then e
  else
    let consensusRound :=
      number - e.rotatingIntervalEnableNumber - e.rotatingRound * e.rotatingInterval
    if consensusRound < e.rotatingInterval then e else e.rotate

def resetLocatedInConsensusNodes : Engine I :=
  { e with locatedInConsensusNodes := decide (e.self ∈ e.chosedConsensusNodes) }

/-- `RotatingPBFTEngine::resetConfig`, the head of the chain being block `number`. -/
def resetConfig : Option (Engine I) := do
  let e ← e.baseResetConfig chain number
  let e ← (e.refreshInterval chain number).resetChosedConsensusNodes chain number
  let f := idxType (min ((e.epochSize - 1).tdiv 3) ((e.sealersNum - 1).tdiv 3))
  some ({ e with f }.chooseConsensusNodes number).resetLocatedInConsensusNodes

/-- The size of a quorum. -/
def minValidNodes : Int := idxType (min e.epochSize e.sealersNum - e.f)

def selectLeader (view : Nat) (e : Engine I) : Int :=
  let index := ((view : Int) + e.highest).tmod e.epochSize
  idxType ((e.startNodeIdx + index).tmod e.sealersNum)

/-- `failed` stands for `m_leaderFailed` or an invalid sealer of the highest block. -/
def getLeader (view : Nat) (failed : Bool) (e : Engine I) : Bool × Int :=
  if !e.locatedInConsensusNodes then (false, 65535)
  else if e.cfgErr || failed || e.nodeNum = 0 then (false, 65535)
  else (true, e.selectLeader view)

/-- `PBFTEngine::reportBlockWithoutLock`, called with the head of the chain. -/
def reportBlock : Option (Engine I) :=
  if number = 0 ∨ e.highest < number then
    { e with highest := number }.resetConfig chain number
  else some e

end Engine

/-! ## A node -/

/-- The height of a node's chain and its engine. -/
structure Node (I : Type) where
  number : Nat
  engine : Engine I

inductive Event
  /-- a block is committed, by the engine or by the synchronisation -/
  | commitBlock
  /-- `PBFTEngine::checkBlock` resets the configuration before it looks at a block -/
  | checkBlock
  /-- `Sealer::reportNewBlock`: only the head of the chain is reported -/
  | reportNewBlock
  deriving DecidableEq

namespace Node

/-- A node that starts at height `number`: the engine is constructed, and
`PBFTSealer::initConsensusEngine` resets its configuration. -/
def boot (chain : Chain I) (self : I) (sealerList : List I) (number : Nat) : Option (Node I) :=
  ((Engine.construct self sealerList number).resetConfig chain number).map (Node.mk number)

def step (chain : Chain I) (n : Node I) : Event → Option (Node I)
  | .commitBlock => some { n with number := n.number + 1 }
  | .checkBlock => (n.engine.resetConfig chain n.number).map (Node.mk n.number)
  | .reportNewBlock => (n.engine.reportBlock chain n.number).map (Node.mk n.number)

/-- The latest block of the node's chain has been reported to the engine. -/
def UpToDate (n : Node I) : Prop := n.engine.highest = n.number

end Node

end Rcc.Rpbft
