import Rcc.Lib.OrderedSet
import Rcc.Pool.NonceCheck

/-!
# Rcc.Pool.TxPool

The transaction pool, `TxPool`. Its queue is a `std::set` of shared pointers, compared by the import
times of the transactions they point to, and `m_txsHash` has an iterator into the queue for each
hash.

Transactions are objects on a heap: `import` writes the import time of its argument before it is
known whether the pool has it, and a transaction that is in the queue may be imported again. An
iterator is the number of its node; following one that is in no node is undefined, and the functions
that would do it return `none`.
-/

namespace Rcc.Pool

open OrderedSet (Rotations)

/-- A hash, as a number. -/
abbrev H256 := Nat

abbrev Ptr := Nat

abbrev Iterator := Nat

abbrev TransactionQueue := OrderedSet.Tree (Iterator × Ptr)

def Invalid256 : Nat := 2 ^ 256 - 1

/-! ## Transactions -/

/-- What the pool reads of a transaction. -/
structure Transaction where
  /-- `none`: the transaction has no signature, and `hash()` throws. -/
  hash : Option H256
  nonce : NonceKeyType
  blockLimit : Nat := 0
  /-- `sender()` recovers a sender and does not throw. -/
  recoverable : Bool := true
  chainId : Nat := 1
  groupId : Nat := 1
  dataSize : Nat := 0
  rlpBufferSize : Nat := 0
  extraDataSize : Nat := 0
  importTime : Nat := 0
  originalHash : H256 := 0

namespace Transaction

variable (tx : Transaction)

def capacity : Int := tx.dataSize + tx.rlpBufferSize + tx.extraDataSize

def setImportTime (t : Nat) : Transaction := { tx with importTime := t }

def setOriginalHash (h : H256) : Transaction := { tx with originalHash := h }

/-- The last four bytes of the nonce, modulo the number of nodes. -/
def canBePacked (nodeCount nodeIdx : Nat) : Bool := tx.nonce % 2 ^ 32 % nodeCount = nodeIdx

end Transaction

inductive ImportResult
  | Success
  | AlreadyInChain
  | AlreadyKnown
  | Malformed
  | TransactionNonceCheckFail
  | TxPoolNonceCheckFail
  | TransactionPoolIsFull
  | InvalidChainId
  | InvalidGroupId
  | BlockLimitCheckFailed
  | NotBelongToTheGroup
  | TransactionRefused
  | OverGroupMemoryLimit
  deriving DecidableEq

inductive IfDropped
  | Ignore | Retry
  deriving DecidableEq

/-! ## The pool -/

structure PoolConfig where
  limit : Nat := 102400
  maxMemoryLimit : Int := 512 * 1024 * 1024
  /-- The versions since RC2 compare the chain id. -/
  checkChainId : Bool := true
  chainId : Nat := 1
  groupId : Nat := 1

structure TxPool where
  heap : Ptr → Transaction
  chain : Chain
  txNonceCheck : TransactionNonceCheck
  /-- The cache of `m_txpoolNonceChecker`. -/
  txpoolNonces : Finset NonceKeyType := ∅
  txsQueue : TransactionQueue := .nil
  /-- The number of the next node. -/
  nextNode : Iterator := 0
  txsHash : AList fun _ : H256 => Iterator := ∅
  txsHashFilter : Finset H256 := ∅
  dropped : Finset H256 := ∅
  invalidTxs : AList fun _ : H256 => NonceKeyType := ∅
  usedMemorySize : Int := 0

namespace TxPool

/-- `transactionCompare` -/
def transactionCompare (heap : Ptr → Transaction) (first second : Iterator × Ptr) : Bool :=
  (heap first.2).importTime ≤ (heap second.2).importTime

section
variable (cfg : PoolConfig) (rot : Rotations (Iterator × Ptr)) (s : TxPool)

/-! ### Import -/

/-- The check of the pool's own nonces reports a duplicate and lets it pass. -/
def txPoolNonceCheck (nonce : NonceKeyType) : Bool × TxPool :=
  (true, { s with txpoolNonces := (isNonceOk s.txpoolNonces nonce true).2 })

def checkChainId (tx : Transaction) : Bool := !cfg.checkChainId || cfg.chainId = tx.chainId

/-- The comparison of the group ids has no effect. -/
def checkGroupId (_tx : Transaction) : Bool := true

/-- The last checks of `verify`, after that of the pool's nonces. -/
def verifyIds (nonceOk : Bool) (tx : Transaction) : ImportResult × TxPool :=
  if !nonceOk then (.TxPoolNonceCheckFail, s)
  else if !checkChainId cfg tx then (.InvalidChainId, s)
  else if !checkGroupId tx then (.InvalidGroupId, s)
  else (.Success, s)

/-- `verify` for a transaction with a hash. -/
def verify (tx : Transaction) (txHash : H256) (dropPolicy : IfDropped) : ImportResult × TxPool :=
  if txHash ∈ s.txsHash then (.AlreadyKnown, s)
  else if txHash ∈ s.dropped ∧ dropPolicy = .Ignore then (.AlreadyInChain, s)
  else if tx.nonce = Invalid256 ∨ !(isNonceOk s.txNonceCheck.cache tx.nonce false).1 then
    (.TransactionNonceCheckFail, s)
  else if !s.txNonceCheck.isBlockLimitOk tx.blockLimit then (.BlockLimitCheckFailed, s)
  else if !tx.recoverable then (.Malformed, s)
  else
    -- the nonce goes into the pool's nonces before the last checks
    let r := s.txPoolNonceCheck tx.nonce
    r.2.verifyIds cfg r.1 tx

variable (p : Ptr) (txHash : H256)

/-- `insert` for a transaction with a hash: whether it is new. -/
def insert : Bool × TxPool :=
  if txHash ∈ s.txsHash then (false, s)
  else
    let (e, queue) := s.txsQueue.emplace (transactionCompare s.heap) (s.nextNode, p)
    (true, { s with
      txsQueue := rot.apply queue
      nextNode := s.nextNode + 1
      txsHash := s.txsHash.insert txHash e.1
      heap := Function.update s.heap p ((s.heap p).setOriginalHash txHash) })

/-- What `import` does with a transaction that has been verified. -/
def insertVerified : TxPool :=
  let r := s.insert rot p txHash
  let s := r.2
  let s :=
    if r.1 then
      { s with
        txpoolNonces := Insert.insert (s.heap p).nonce s.txpoolNonces
        usedMemorySize := s.usedMemorySize + (s.heap p).capacity }
    else s
  { s with txsHashFilter := Insert.insert txHash s.txsHashFilter }

/-- The last part of `import`: `verify` and `insert`. -/
def verifyAndInsert : ImportResult × TxPool :=
  let r := s.verify cfg (s.heap p) txHash .Ignore
  (r.1, if r.1 = .Success then r.2.insertVerified rot p txHash else r.2)

def setImportTime (now : Nat) : TxPool :=
  { s with heap := Function.update s.heap p ((s.heap p).setImportTime now) }

/-- `import` after the import time has been set; `none` is an exception. -/
def importTimed : Option ImportResult × TxPool :=
  if s.usedMemorySize + (s.heap p).capacity > cfg.maxMemoryLimit then
    (some .OverGroupMemoryLimit, s)
  else if s.txsQueue.size ≥ cfg.limit then (some .TransactionPoolIsFull, s)
  else
    match (s.heap p).hash with
    | none => (none, s)
    | some txHash => (s.verifyAndInsert cfg rot p txHash).map some id

/-- `import` at the time `now`. -/
def importTx (now : Nat) : Option ImportResult × TxPool :=
  (s.setImportTime p now).importTimed cfg rot p

/-- The task of `submit`: `sealerOrObserver` and `synced` are what `isSealerOrObserver` and the
handler for the sync status say. -/
def submit (now : Nat) (sealerOrObserver synced : Bool) : Option ImportResult × TxPool :=
  if !sealerOrObserver then (some .NotBelongToTheGroup, s)
  else if !synced then (some .TransactionRefused, s)
  else s.importTx cfg rot p now

/-! ### Removal -/

/-- The node of an iterator. -/
def node? (it : Iterator) : Option (Iterator × Ptr) := s.txsQueue.toList.find? (·.1 = it)

def removeTrans : Option TxPool :=
  match s.txsHash.lookup txHash with
  | none => some s
  | some it =>
    (s.node? it).map fun e =>
      { s with
        txsQueue := rot.apply (s.txsQueue.remove (·.1 = it))
        txsHash := s.txsHash.erase txHash
        usedMemorySize := s.usedMemorySize - (s.heap e.2).capacity }

def drop : Option TxPool :=
  if txHash ∈ s.txsHash then
    let dropped := if s.dropped.card < cfg.limit then Insert.insert txHash s.dropped else ∅
    removeTrans rot { s with dropped } txHash
  else some s

/-- A round of the loop of `dropTransactions`. -/
def dropTransaction : Option TxPool :=
  let txHash := (s.heap p).originalHash
  (s.removeTrans rot txHash).map fun s => { s with invalidTxs := s.invalidTxs.erase txHash }

variable (block : List Ptr)

def dropTransactions : Option TxPool := block.foldlM (dropTransaction rot) s

def dropBlockTrans : Option TxPool :=
  let s := { s with txNonceCheck := s.txNonceCheck.updateCache s.chain false }
  (s.dropTransactions rot block).map fun s =>
    { s with txpoolNonces := delCache s.txpoolNonces (block.map fun p => (s.heap p).nonce) }

def dropBlockTxsFilter : TxPool :=
  let hashes := block.map fun p => (s.heap p).originalHash
  { s with txsHashFilter := hashes.foldl Finset.erase s.txsHashFilter }

/-- A round of the loop of `removeInvalidTxs` over the queue. -/
def removeInvalidTx : Option TxPool :=
  (s.removeTrans rot txHash).map fun s => { s with dropped := Insert.insert txHash s.dropped }

/-- The filter of hashes is searched for the nonces. -/
def removeInvalidTxs : Option TxPool :=
  let nonces := s.invalidTxs.entries.map Sigma.snd
  (s.invalidTxs.keys.foldlM (removeInvalidTx rot) s).map fun s =>
    { s with
      txpoolNonces := nonces.foldl (fun cache nonce => delCache cache [nonce]) s.txpoolNonces
      txsHashFilter := nonces.foldl Finset.erase s.txsHashFilter
      invalidTxs := ∅ }

/-! ### Reading -/

/-- A round of the loop over the queue: the invalid transactions, what is to be avoided, and the
transactions taken. -/
structure TopState where
  invalidTxs : AList fun _ : H256 => NonceKeyType
  avoid : Finset H256
  ret : List Ptr := []

def topLoop (limit : Nat) (packable : Transaction → Bool) (updateAvoid : Bool) :
    TopState → List (Iterator × Ptr) → TopState
  | t, [] => t
  | t, e :: queue =>
    let tx := s.heap e.2
    let txHash := tx.hash.getD 0
    if limit ≤ t.ret.length then t
    else if txHash ∈ t.invalidTxs then topLoop limit packable updateAvoid t queue
    else if !(isNonceOk s.txNonceCheck.cache tx.nonce false).1 then
      topLoop limit packable updateAvoid t queue
    else if !s.txNonceCheck.isBlockLimitOk tx.blockLimit then
      -- `std::map::insert` keeps what is there
      let invalidTxs :=
        if tx.originalHash ∈ t.invalidTxs then t.invalidTxs
        else t.invalidTxs.insert tx.originalHash tx.nonce
      topLoop limit packable updateAvoid { t with invalidTxs } queue
    else if !packable tx then topLoop limit packable updateAvoid t queue
    else if txHash ∈ t.avoid then topLoop limit packable updateAvoid t queue
    else
      topLoop limit packable updateAvoid
        { t with
          ret := t.ret ++ [e.2]
          avoid := if updateAvoid then Insert.insert txHash t.avoid else t.avoid } queue

def top (limit : Nat) (packable : Transaction → Bool) (avoid : Finset H256) (updateAvoid : Bool) :
    TopState × TxPool :=
  let t := s.topLoop (min cfg.limit limit) packable updateAvoid ⟨s.invalidTxs, avoid, []⟩
    s.txsQueue.toList
  (t, { s with invalidTxs := t.invalidTxs })

def topTransactions (limit : Nat) (avoid : Finset H256) (updateAvoid : Bool) : TopState × TxPool :=
  s.top cfg limit (fun _ => true) avoid updateAvoid

def topTransactions4nl (limit nodeSize nodeIdx : Nat) (avoid : Finset H256) (updateAvoid : Bool) :
    TopState × TxPool := s.top cfg limit (·.canBePacked nodeSize nodeIdx) avoid updateAvoid

end

end TxPool

/-! ## Runs -/

/-- The calls, with the tasks they leave to the worker threads as calls of their own. -/
inductive PoolEvent
  | importTx (p : Ptr) (now : Nat) (rot : Rotations (Iterator × Ptr))
  | submit (p : Ptr) (now : Nat) (rot : Rotations (Iterator × Ptr))
      (sealerOrObserver synced : Bool)
  | drop (txHash : H256) (rot : Rotations (Iterator × Ptr))
  | dropBlockTrans (block : List Ptr) (rot : Rotations (Iterator × Ptr))
  | dropBlockTxsFilter (block : List Ptr)
  | removeInvalidTxs (rot : Rotations (Iterator × Ptr))
  | topTransactions (limit : Nat) (avoid : Finset H256) (updateAvoid : Bool)
  | topTransactions4nl (limit nodeSize nodeIdx : Nat) (avoid : Finset H256) (updateAvoid : Bool)
  /-- The block chain commits a block with these nonces. -/
  | commit (nonces : List NonceKeyType)

def poolStep (cfg : PoolConfig) (s : TxPool) : PoolEvent → Option TxPool
  | .importTx p now rot => some (s.importTx cfg rot p now).2
  | .submit p now rot sealerOrObserver synced =>
    some (s.submit cfg rot p now sealerOrObserver synced).2
  | .drop txHash rot => s.drop cfg rot txHash
  | .dropBlockTrans block rot => s.dropBlockTrans rot block
  | .dropBlockTxsFilter block => some (s.dropBlockTxsFilter block)
  | .removeInvalidTxs rot => s.removeInvalidTxs rot
  | .topTransactions limit avoid updateAvoid =>
    some (s.topTransactions cfg limit avoid updateAvoid).2
  | .topTransactions4nl limit nodeSize nodeIdx avoid updateAvoid =>
    some (s.topTransactions4nl cfg limit nodeSize nodeIdx avoid updateAvoid).2
  | .commit nonces => some { s with chain := s.chain ++ [nonces] }

end Rcc.Pool
