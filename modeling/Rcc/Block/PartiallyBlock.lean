import Rcc.Block.TxsParallelParser

/-!
# Rcc.Block.PartiallyBlock

Proposals that carry the hashes of their transactions only: `PartiallyBlock`,
`TxPool::initPartiallyBlock` and the parts of `PartiallyPBFTReqCache` that fetch and fill in
what a follower does not have.

A message is what is written into its RLP list; `Rlp` is a codec of such lists. A null pointer
in a vector of transactions is `none`.
-/

namespace Rcc.Block

/-- A codec of the lists of one kind of message. -/
structure Rlp (M : Type) where
  encode : M → Bytes
  decode : Bytes → Option M

/-- Hashes, headers and codecs. -/
structure Env (Tx Header Hash : Type) where
  txHash : Tx → Hash
  txHash_injective : Function.Injective txHash
  codec : Codec Tx
  headerHash : Header → Hash
  number : Header → Int
  /-- `BlockHeader::verify` does not throw. -/
  verify : Header → Bool
  proposal : Rlp (Header × List Hash × Hash)
  missedInfo : Rlp (Int × Hash × List (Hash × Nat))
  response : Rlp (Int × Hash × Bytes)

/-- Every message is read back. This is an assumption: the RLP of the source refuses some of the
lists it writes, such as those with a number between 128 and 255. -/
structure Env.ReadsBack {Tx Header Hash : Type} (env : Env Tx Header Hash) : Prop where
  proposal : ∀ msg, env.proposal.decode (env.proposal.encode msg) = some msg
  missedInfo : ∀ msg, env.missedInfo.decode (env.missedInfo.encode msg) = some msg
  response : ∀ msg, env.response.decode (env.response.encode msg) = some msg

inductive BlockError
  | badRlp
  | invalidHeader
  | nullTransaction
  /-- `ErrorBlockHash` -/
  | blockHash
  /-- `InvalidNumber` -/
  | blockNumber
  /-- `InvalidTransaction`, for the number of transactions. -/
  | transactionCount
  /-- `InvalidTransaction`, for a hash. -/
  | transactionHash
  | invalidBlockFormat (e : ParserError)
  /-- A vector is read behind its end. -/
  | outOfBounds
  | assertion
deriving DecidableEq, Repr

structure PartiallyBlock (Tx Header Hash : Type) where
  header : Header
  transactions : List (Option Tx)
  txsHash : List Hash
  /-- The hash and the position of every transaction that the pool did not have. -/
  missedTxs : List (Hash × Nat)
  missedTransactions : List Tx
deriving DecidableEq, Repr

variable {Tx Header Hash : Type}

namespace PartiallyBlock

variable (env : Env Tx Header Hash)

/-- The hash of the transaction in a slot. -/
def slotHash : Option Tx → Except BlockError Hash
  | some tx => .ok (env.txHash tx)
  | none => .error .nullTransaction

variable (block : PartiallyBlock Tx Header Hash)

def calTxsHashBytes :
    Except BlockError (PartiallyBlock Tx Header Hash) := do
  let txsHash ← block.transactions.mapM (slotHash env)
  return { block with txsHash }

/-- The proposal, and what the call leaves of the block. -/
def encodeProposal :
    Except BlockError (Bytes × PartiallyBlock Tx Header Hash) := do
  if env.verify block.header then
    let block ← block.calTxsHashBytes env
    return (env.proposal.encode (block.header, block.txsHash, env.headerHash block.header), block)
  else throw .invalidHeader

variable [DecidableEq Hash] (env : Env Tx Header Hash)

/-- A new block that decodes a proposal. -/
def decodeProposal (blockBytes : Bytes) :
    Except BlockError (PartiallyBlock Tx Header Hash) :=
  match env.proposal.decode blockBytes with
  | none => .error .badRlp
  | some (header, txsHash, blockHash) =>
    if blockHash ≠ env.headerHash header then .error .blockHash
    else .ok ⟨header, List.replicate txsHash.length none, txsHash, [], []⟩

variable (block : PartiallyBlock Tx Header Hash)

def checkBasic
    (blockNumber : Int) (blockHash expectedHash : Hash) : Option BlockError :=
  if blockNumber ≠ env.number block.header then some .blockNumber
  else if blockHash ≠ expectedHash then some .blockHash
  else none

/-- The loop of `fillBlock`, from `index` on; what it has written stays when it throws. -/
def fillLoop (env : Env Tx Header Hash) (missedTxs : List (Hash × Nat)) :
    Nat → List Tx → List (Option Tx) → List (Option Tx) × Option BlockError
  | _, [], transactions => (transactions, none)
  | index, tx :: txs, transactions =>
    match missedTxs[index]? with
    | none => (transactions, some .outOfBounds)
    | some (hash, position) =>
      if env.txHash tx ≠ hash then (transactions, some .transactionHash)
      else fillLoop env missedTxs (index + 1) txs (transactions.set position (some tx))

/-- The block after the call, and what it throws. -/
def fillBlock (txsData : Bytes) :
    PartiallyBlock Tx Header Hash × Option BlockError :=
  let cleared := { block with missedTransactions := [] }
  match env.response.decode txsData with
  | none => (cleared, some .badRlp)
  | some (blockNumber, blockHash, txsBytes) =>
    match block.checkBasic env blockNumber blockHash (env.headerHash block.header) with
    | some e => (cleared, some e)
    | none =>
      match decode env.codec [] txsBytes with
      | .error e => (cleared, some (.invalidBlockFormat e))
      | .ok missedTransactions =>
        if missedTransactions.length ≠ block.missedTxs.length then
          ({ block with missedTransactions }, some .transactionCount)
        else
          let (transactions, e) :=
            fillLoop env block.missedTxs 0 missedTransactions block.transactions
          ({ block with missedTransactions, transactions }, e)

def encodeMissedInfo :
    Except BlockError Bytes :=
  if block.missedTxs.length > 0 then
    .ok (env.missedInfo.encode
      (env.number block.header, env.headerHash block.header, block.missedTxs))
  else .error .assertion

/-- The transaction that a follower asks for. -/
def requested
    (txsInfo : Hash × Nat) : Except BlockError Tx :=
  match block.transactions[txsInfo.2]? with
  | none => .error .outOfBounds
  | some none => .error .nullTransaction
  | some (some tx) => if env.txHash tx ≠ txsInfo.1 then .error .transactionHash else .ok tx

def encodeMissedTxs
    (missedTxs : List (Hash × Nat)) (expectedHash : Hash) : Except BlockError Bytes := do
  let missedTransactions ← missedTxs.mapM (block.requested env)
  return env.response.encode
    (env.number block.header, expectedHash, encode env.codec missedTransactions)

def fetchMissedTxs
    (missInfo : Bytes) (expectedHash : Hash) : Except BlockError Bytes :=
  match env.missedInfo.decode missInfo with
  | none => .error .badRlp
  | some (blockNumber, blockHash, missedTxs) =>
    -- The hash of the block may have changed since it was proposed.
    match block.checkBasic env blockNumber blockHash expectedHash with
    | some e => .error e
    | none => block.encodeMissedTxs env missedTxs expectedHash

end PartiallyBlock

variable [DecidableEq Hash]

/-! ### The pool -/

variable (env : Env Tx Header Hash)

/-- The transaction of the pool with a hash. -/
def poolFind (pool : List Tx) (hash : Hash) : Option Tx :=
  pool.find? fun tx => env.txHash tx = hash

/-- The loop of `initPartiallyBlock`, from `index` on. -/
def initLoop (env : Env Tx Header Hash) (pool : List Tx) :
    Nat → List Hash → List (Option Tx) → List (Hash × Nat) →
      List (Option Tx) × List (Hash × Nat)
  | _, [], transactions, missedTxs => (transactions, missedTxs)
  | index, hash :: txsHash, transactions, missedTxs =>
    match poolFind env pool hash with
    | some tx => initLoop env pool (index + 1) txsHash (transactions.set index (some tx)) missedTxs
    | none => initLoop env pool (index + 1) txsHash transactions (missedTxs ++ [(hash, index)])

def initPartiallyBlock (pool : List Tx)
    (block : PartiallyBlock Tx Header Hash) : Bool × PartiallyBlock Tx Header Hash :=
  let (transactions, missedTxs) :=
    initLoop env pool 0 block.txsHash block.transactions block.missedTxs
  (missedTxs.length = 0, { block with transactions, missedTxs })

/-! ### The cache of requests -/

/-- What is read of a `PrepareReq`. -/
structure Prepare (Tx Header Hash : Type) where
  pBlock : Option (PartiallyBlock Tx Header Hash)
  blockHash : Hash

structure ReqCache (Tx Header Hash : Type) where
  preRawPrepare : Option (Prepare Tx Header Hash)
  rawPrepareCache : Prepare Tx Header Hash
  partiallyRawPrepare : Option (Prepare Tx Header Hash)
  partiallyFuturePrepare : Option (Prepare Tx Header Hash)
  /-- The requests that were handed on to the cache of future requests. -/
  futurePrepares : List (Prepare Tx Header Hash)

namespace ReqCache

variable (cache : ReqCache Tx Header Hash)

/-- The block that answers a request, and the hash under which it was proposed. -/
def serving : Option (PartiallyBlock Tx Header Hash × Hash) :=
  match cache.preRawPrepare with
  | some ⟨some block, blockHash⟩ => some (block, blockHash)
  | _ => cache.rawPrepareCache.pBlock.map fun block => (block, cache.rawPrepareCache.blockHash)

/-- The answer; `none` where the source returns `false`. -/
def fetchMissedTxs (env : Env Tx Header Hash) (cache : ReqCache Tx Header Hash) (missInfo : Bytes) :
    Except BlockError (Option Bytes) :=
  match cache.serving with
  | none => .ok none
  | some (block, expectedHash) => do return some (← block.fetchMissedTxs env missInfo expectedHash)

/-- `fillBlock` of a cached request: the request after it, and what is returned or thrown. -/
def fillPrepare (prepare : Option (Prepare Tx Header Hash))
    (txsData : Bytes) : Option (Prepare Tx Header Hash) × Except BlockError Bool :=
  match prepare with
  | some ⟨some block, blockHash⟩ =>
    let (block, e) := block.fillBlock env txsData
    (some ⟨some block, blockHash⟩, e.elim (.ok true) .error)
  | prepare => (prepare, .ok false)

def fillBlock (txsData : Bytes) :
    ReqCache Tx Header Hash × Except BlockError Bool :=
  let (prepare, ret) := fillPrepare env cache.partiallyRawPrepare txsData
  ({ cache with partiallyRawPrepare := prepare }, ret)

def fillFutureBlock (txsData : Bytes) :
    ReqCache Tx Header Hash × Except BlockError Bool :=
  match fillPrepare env cache.partiallyFuturePrepare txsData with
  | (some prepare, .ok true) =>
    ({ cache with
      partiallyFuturePrepare := none
      futurePrepares := cache.futurePrepares ++ [prepare] }, .ok true)
  | (prepare, ret) => ({ cache with partiallyFuturePrepare := prepare }, ret)

end ReqCache

end Rcc.Block
