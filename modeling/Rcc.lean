import Rcc.Pbft.Authenticity
import Rcc.Pbft.Schedule
import Rcc.Pbft.Network4nl
import Rcc.Pbft.CheckBlock
import Rcc.Pbft.ViewChange
import Rcc.Pbft.Retention
import Rcc.Raft.Replication
import Rcc.Rpbft.Committee
import Rcc.Dag.Parallel
import Rcc.Block.MerkleProof
import Rcc.Chain.Commit
import Rcc.Storage.StateHash
import Rcc.Storage.BinLogRecovery
import Rcc.Precompiled.Rotation
import Rcc.Precompiled.Majority
import Rcc.Tree.BlockStatus
import Rcc.Channel.FrameSafety
import Rcc.P2p.Reencode
import Rcc.Network.Session
import Rcc.Evm.Gas
import Rcc.Evm.Nested
import Rcc.Event.FilterManager
import Rcc.FlowLimit.RateLimiter
import Rcc.Mpt.OverlayDB
import Rcc.Precompiled.ContractLifeCycle
import Rcc.Storage.CachedCommit
import Rcc.Storage.FlushedBlocks
import Rcc.Sync.DownloadBlocks
import Rcc.Sync.RspBlockReq
import Rcc.Tree.Observer
import Rcc.Sync.FullQueue
import Rcc.Dag.Totality
import Rcc.Block.MissedTxs
import Rcc.Block.ParserInput
import Rcc.Pool.Effects
import Rcc.Chain.BlockCache
import Rcc.Pbft.Forward
import Rcc.Precompiled.Consensus
