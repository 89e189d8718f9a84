import Rcc.Block.HeaderHash
import Rcc.Block.TrieHash2
import Rcc.Block.TxsParallelParser

/-!
# Rcc.Block.FullBlock

The class `Block` of `libethcore` with the class `TransactionReceipt`, as of the versions from
`RC2_VERSION` on.

A block remembers the bytes of its transactions and of its receipts (`m_txsCache`,
`m_tReceiptsCache`), from which it is encoded, and with them the two roots (`m_transRootCache`,
`m_receiptRootCache`); an empty byte string stands for "to be computed". A receipt remembers its
own bytes and their hash.

A block owns its lists: what another holder of a `shared_ptr` does to them is no operation of the
block. A decode that throws leaves a block that no run goes on with.
-/

namespace Rcc.Block

open Rcc.Rlp (Error rlp listOf rlpBytes)

/-! ## Receipts -/

structure LogEntry where
  address : List UInt8
  topics : List (List UInt8)
  data : List UInt8
  deriving DecidableEq

/-- The fields of a receipt. -/
structure ReceiptFields where
  status : Nat := 0
  stateRoot : List UInt8 := noHash
  gasUsed : Nat := 0
  contractAddress : List UInt8 := List.replicate 20 0
  bloom : List UInt8 := List.replicate 256 0
  outputBytes : List UInt8 := []
  log : List LogEntry := []
  deriving DecidableEq

def LogEntry.tree (l : LogEntry) : Rlp.Value :=
  .list [.hash l.address, .list (l.topics.map .hash), .bytes l.data]

/-- `streamRLP`, and so `encode` and `rlp`. -/
def ReceiptFields.encode (r : ReceiptFields) : List UInt8 :=
  rlp (.list [.hash r.stateRoot, .int r.gasUsed, .hash r.contractAddress, .hash r.bloom,
    .int r.status, .bytes r.outputBytes, .list (r.log.map LogEntry.tree)])

/-- A receipt: the fields, `m_receipt` and `m_hash`. -/
structure TransactionReceipt where
  fields : ReceiptFields := {}
  receipt : List UInt8 := []
  hash : List UInt8 := []
  deriving DecidableEq

namespace TransactionReceipt

def askReceipt (r : TransactionReceipt) : List UInt8 := Memo.ask (· = []) r.receipt r.fields.encode

def askHash (c : Crypto) (r : TransactionReceipt) : List UInt8 :=
  Memo.ask (· = []) r.hash (c.Hash r.askReceipt)

/-- What `receipt()` and `hash()` leave behind. -/
def remember (c : Crypto) (r : TransactionReceipt) : TransactionReceipt :=
  { r with receipt := r.askReceipt, hash := r.askHash c }

def setStateRoot (stateRoot : List UInt8) (r : TransactionReceipt) : TransactionReceipt :=
  { r with fields := { r.fields with stateRoot } }

def setGasUsed (gas : Nat) (r : TransactionReceipt) : TransactionReceipt :=
  { r with fields := { r.fields with gasUsed := gas } }

end TransactionReceipt

variable (d : List UInt8)

/-- `LogEntry(RLP const&)` -/
def decodeLogEntry : Except Error LogEntry := do
  let (item, k) ← Rlp.index d 0 {}
  let address ← Rlp.toHash 20 item .strict
  let (item, k) ← Rlp.index d 1 k
  let topics ← Rlp.toVector (Rlp.toHash 32) item laissezFaire
  let (item, _) ← Rlp.index d 2 k
  let data ← Rlp.toBytes item laissezFaire
  return { address, topics, data }

/-- `TransactionReceipt::decode` into a new receipt. -/
def decodeReceipt : Except Error ReceiptFields := do
  if !Rlp.isList d then throw .badCast
  let (item, k) ← Rlp.index d 0 {}
  let stateRoot ← Rlp.toHash 32 item .strict
  let (item, k) ← Rlp.index d 1 k
  let gasUsed ← Rlp.toInt .u256 item .strict
  let (item, k) ← Rlp.index d 2 k
  let contractAddress ← Rlp.toHash 20 item .strict
  let (item, k) ← Rlp.index d 3 k
  let bloom ← Rlp.toHash 256 item .strict
  let (item, k) ← Rlp.index d 4 k
  let status ← Rlp.toInt .uint32 item .strict
  let (item, k) ← Rlp.index d 5 k
  let outputBytes ← if Rlp.isData item then Rlp.toBytes item laissezFaire else pure []
  let (item, _) ← Rlp.index d 6 k
  let log ← Rlp.forEach decodeLogEntry item
  return { status, stateRoot, gasUsed, contractAddress, bloom, outputBytes, log }

/-! ## Blocks -/

/-- The versions that differ in the roots. -/
inductive Version
  | rc2 | v220
  deriving DecidableEq

/-- What a block is computed with. -/
structure BlockEnv (Tx : Type) where
  crypto : Crypto
  codec : Codec Tx
  version : Version

/-- The class `Block`. -/
structure FullBlock (Tx : Type) where
  header : BlockHeader := {}
  transactions : List Tx := []
  /-- a slot that has been made by `resizeTransactionReceipt` holds a null pointer -/
  receipts : List (Option TransactionReceipt) := []
  sigList : List (Nat × List UInt8) := []
  txsCache : List UInt8 := []
  tReceiptsCache : List UInt8 := []
  transRootCache : List UInt8 := noHash
  receiptRootCache : List UInt8 := noHash

inductive BlockFault
  | header (error : HeaderError)
  | parser (error : ParserError)
  | errorBlockHash
  | invalidNumber
  | tooMuchGasUsed
  | nullReceipt
  deriving DecidableEq

variable {Tx : Type} (env : BlockEnv Tx)

/-- `RLP(i)` and a hash: the leaves of the Merkle trees. -/
def withIndex (hashes : List (List UInt8)) : List (List UInt8) :=
  hashes.mapIdx fun i hash => rlp (.int i) ++ hash

/-- The bytes of a list of transactions and their root. -/
def txsBytes (txs : List Tx) : List UInt8 := encode env.codec txs

def txsRoot (txs : List Tx) : List UInt8 :=
  match env.version with
  | .rc2 => env.crypto.Hash (txsBytes env txs)
  | .v220 =>
    getHash256 env.crypto (withIndex (txs.map fun tx => env.crypto.Hash (env.codec.rlp tx)))

/-- The bytes of a list of receipts, given those of each, and their root, given their hashes. -/
def receiptsBytes (receipts : List (List UInt8)) : List UInt8 := listOf receipts

def receiptsRoot (receipts hashes : List (List UInt8)) : List UInt8 :=
  match env.version with
  | .rc2 => env.crypto.Hash (receiptsBytes receipts)
  | .v220 => getHash256 env.crypto (withIndex hashes)

namespace FullBlock

/-- Up to the bytes and the root: `calTransactionRootRC2`, `calTransactionRootV2_2_0`. -/
def calTransactionRoot (update : Bool) (b : FullBlock Tx) : FullBlock Tx :=
  let b :=
    if b.txsCache = [] then
      { b with txsCache := txsBytes env b.transactions,
               transRootCache := txsRoot env b.transactions }
    else b
  if update then { b with header := Setter.apply b.header (.setTransactionsRoot b.transRootCache) }
  else b

variable (b : FullBlock Tx)

/-- All the receipts, none of them null. -/
def allReceipts : Except BlockFault (List TransactionReceipt) :=
  match b.receipts.mapM id with
  | some rs => .ok rs
  | none => .error .nullReceipt

/-- What `calReceiptRootRC2` and `getReceiptAndHash` use the receipts for: their bytes and hashes,
and what they are afterwards. -/
def useReceipts (rs : List TransactionReceipt) :
    List (List UInt8) × List (List UInt8) × List TransactionReceipt :=
  match env.version with
  | .rc2 => (rs.map (·.fields.encode), [], rs)
  | .v220 => (rs.map (·.askReceipt), rs.map (·.askHash env.crypto), rs.map (·.remember env.crypto))

/-- `calReceiptRootRC2`, `calReceiptRootV2_2_0` -/
def calReceiptRoot (update : Bool) (b : FullBlock Tx) : Except BlockFault (FullBlock Tx) := do
  let b ←
    if b.tReceiptsCache = [] then do
      let rs ← b.allReceipts
      let (bytes, hashes, rs) := useReceipts env rs
      pure { b with receipts := rs.map some, tReceiptsCache := receiptsBytes bytes,
                    receiptRootCache := receiptsRoot env bytes hashes }
    else pure b
  return if update then
    { b with header := Setter.apply b.header (.setReceiptsRoot b.receiptRootCache) }
  else b

/-- `BlockHeader::verify` with its default arguments. -/
def verify (f : Fields) : Except BlockFault Unit :=
  if 2 ^ 63 - 1 ≤ f.number ∨ f.number < 0 then throw .invalidNumber
  else if f.gasLimit < f.gasUsed then throw .tooMuchGasUsed
  else pure ()

def sigTree (sig : Nat × List UInt8) : Rlp.Value := .list [.int sig.1, .bytes sig.2]

/-- The five items of a block. -/
def frame (header txs hash : List UInt8) (sigList : List (Nat × List UInt8))
    (receipts : List UInt8) : List UInt8 :=
  listOf [header, rlpBytes txs, rlpBytes hash, rlp (.list (sigList.map sigTree)), receipts]

/-- `encode`: the bytes and the block, which has its caches filled. -/
def encode : Except BlockFault (List UInt8 × FullBlock Tx) := do
  verify b.header.fields
  let b := b.calTransactionRoot env false
  let b ← b.calReceiptRoot env false
  return (frame (b.header.fields.encode env.crypto) b.txsCache (b.header.askHash env.crypto)
    b.sigList b.tReceiptsCache, { b with header := b.header.remember env.crypto })

/-! ### Decoding -/

/-- `RLP::toPair<u256, bytes>` -/
def toSig (s : Rlp.Strictness) : Except Error (Nat × List UInt8) := do
  if !Rlp.isList d then throw .badCast
  if (← Rlp.itemCount d) ≠ 2 then s.fail .badCast (0, [])
  else do
    let (item, k) ← Rlp.index d 0 {}
    let first ← Rlp.toInt .u256 item s
    let (item, _) ← Rlp.index d 1 k
    return (first, ← Rlp.toBytes item s)

/-- The transactions of a block in their format. -/
def txsItem (bytes : List UInt8) : Except HeaderError (List UInt8) := do
  let (root, _) ← extractBlock bytes
  let items ← ofRlp (Rlp.indexAll root [0, 1] {})
  ofRlp (Rlp.toBytes (items.getD 1 []) laissezFaire)

/-- `resize` and `decode` of each. -/
def decodeReceipts : Except Error (List ReceiptFields) := do
  let count ← Rlp.itemCount d
  let items ← Rlp.indexAll d (List.range count) {}
  items.mapM decodeReceipt

/-- An exception of `libdevcore`. -/
def ofRlp {α : Type} : Except Error α → Except BlockFault α := Except.mapError (.header ∘ .rlp)

/-- `m_blockHeader.populate(block_rlp[0])` -/
def decodeHeader (item : List UInt8) : Except BlockFault BlockHeader :=
  match populate item b.header.fields with
  | (fields, none) => pure { b.header with fields }
  | (_, some e) => throw (.header (.rlp e))

def requireHash (header : BlockHeader) (hash : List UInt8) : Except BlockFault Unit :=
  if hash ≠ header.askHash env.crypto then throw .errorBlockHash else pure ()

/-- The receipts afterwards, which are new objects if they are decoded. -/
def decodeWithReceipts (root : List UInt8) (withReceipt : Bool) :
    Except BlockFault (List (Option TransactionReceipt)) :=
  if withReceipt then do
    let items ← ofRlp (Rlp.indexAll root [0, 1, 2, 3, 4] {})
    let receipts ← ofRlp (decodeReceipts (items.getD 4 []))
    return receipts.map fun fields => some { fields }
  else pure b.receipts

/-- `decodeRC2` -/
def decode (bytes : List UInt8) (withReceipt : Bool) : Except BlockFault (FullBlock Tx) := do
  let root ← (extractBlock bytes).mapError .header
  let header ← b.decodeHeader root.2
  let txsCache ← (txsItem bytes).mapError .header
  let transactions ← (Block.decode env.codec b.transactions txsCache).mapError .parser
  let items ← ofRlp (Rlp.indexAll root.1 [0, 1, 2, 3] {})
  let hash ← ofRlp (Rlp.toHash 32 (items.getD 2 []) .strict)
  requireHash env header hash
  let sigList ← ofRlp (Rlp.toVector toSig (items.getD 3 []) laissezFaire)
  let receipts ← b.decodeWithReceipts root.1 withReceipt
  return { b with header := header.remember env.crypto, transactions, receipts, sigList, txsCache }

/-! ### The other operations -/

def noteChange : FullBlock Tx := { b with txsCache := [] }

def noteReceiptChange : FullBlock Tx := { b with tReceiptsCache := [] }

/-- `populateFromParent`, for a parent that is another header. -/
def populateHeader (parent : BlockHeader) (h : BlockHeader) : BlockHeader :=
  h.assign ({ · with
    stateRoot := parent.fields.stateRoot, number := parent.fields.number + 1,
    parentHash := parent.askHash env.crypto, gasLimit := parent.fields.gasLimit, gasUsed := 0,
    sealer := invalid256 })

def resetCurrentBlock (parent : BlockHeader) (b : FullBlock Tx) : FullBlock Tx :=
  let header :=
    if parent.fields.sealer ≠ invalid256 then populateHeader env parent b.header else b.header
  { b with header := Setter.apply header (.setSealer invalid256), transactions := [],
           receipts := [], sigList := [], txsCache := [], tReceiptsCache := [] }

def setEmptyBlock (timeStamp : Nat) (b : FullBlock Tx) : FullBlock Tx :=
  let header := [Setter.setNumber 0, .setGasUsed 0, .setSealer 0, .setTimestamp timeStamp].foldl
    Setter.apply b.header
  noteReceiptChange (noteChange { b with header })

/-- The loop of `updateSequenceReceiptGas` with its `totalGas`. -/
def sequenceGas (totalGas : Nat) : List TransactionReceipt → List TransactionReceipt
  | [] => []
  | r :: rs =>
    let totalGas := (totalGas + r.fields.gasUsed) % 2 ^ 256
    r.setGasUsed totalGas :: sequenceGas totalGas rs

def updateSequenceReceiptGas : Option (FullBlock Tx) :=
  (b.receipts.mapM id).map fun rs => { b with receipts := (sequenceGas 0 rs).map some }

def setStateRootToAllReceipt (stateRoot : List UInt8) (b : FullBlock Tx) : Option (FullBlock Tx) :=
  (b.receipts.mapM id).map fun rs =>
    noteReceiptChange { b with receipts := rs.map fun r => some (r.setStateRoot stateRoot) }

/-- `resize` of the receipts. -/
def resizeTransactionReceipt (totalReceipt : Nat) (b : FullBlock Tx) : FullBlock Tx :=
  noteReceiptChange { b with
    receipts := b.receipts.take totalReceipt ++
      List.replicate (totalReceipt - b.receipts.length) none }

end FullBlock

/-- The operations of a block, with their arguments. -/
inductive BlockEvent (Tx : Type)
  | decode (bytes : List UInt8) (withReceipt : Bool)
  | encode
  | calTransactionRoot (update : Bool)
  | calReceiptRoot (update : Bool)
  | getReceiptProof
  | setTransactions (trans : List Tx)
  | appendTransaction (trans : Tx)
  | appendTransactions (transArray : List Tx)
  | setTransactionReceipts (transReceipt : List (Option TransactionReceipt))
  | appendTransactionReceipt (tran : TransactionReceipt)
  | resizeTransactionReceipt (totalReceipt : Nat)
  | setTransactionReceipt (receiptId : Nat) (tran : TransactionReceipt)
  | updateSequenceReceiptGas
  | setStateRootToAllReceipt (stateRoot : List UInt8)
  | clearAllReceipts
  | setBlockHeader (blockHeader : BlockHeader)
  | setSigList (sigList : List (Nat × List UInt8))
  | resetCurrentBlock (parent : BlockHeader)
  | setEmptyBlock (timeStamp : Nat)
  | noteChange
  /-- a setter of the header by `header()` -/
  | setHeader (setter : Setter)
  | headerHash
  /-- the copy constructor and `operator=`: the run goes on with the copy -/
  | copy

/-- What an operation makes of the block; `none` if it throws or uses a null pointer. -/
def blockStep (b : FullBlock Tx) : BlockEvent Tx → Option (FullBlock Tx)
  | .decode bytes withReceipt => (b.decode env bytes withReceipt).toOption
  | .encode => (b.encode env).toOption.map Prod.snd
  | .calTransactionRoot update => some (b.calTransactionRoot env update)
  | .calReceiptRoot update => (b.calReceiptRoot env update).toOption
  | .getReceiptProof =>
    (b.receipts.mapM id).map fun rs =>
      { b with receipts := rs.map fun r => some (r.remember env.crypto) }
  | .setTransactions txs => some { b with transactions := txs }.noteChange
  | .appendTransaction tx => some { b with transactions := b.transactions ++ [tx] }.noteChange
  | .appendTransactions transArray =>
    some { b with transactions := b.transactions ++ transArray }.noteChange
  | .setTransactionReceipts transReceipt =>
    some { b with receipts := transReceipt }.noteReceiptChange
  | .appendTransactionReceipt tran =>
    some { b with receipts := b.receipts ++ [some tran] }.noteReceiptChange
  | .resizeTransactionReceipt totalReceipt => some (b.resizeTransactionReceipt totalReceipt)
  | .setTransactionReceipt receiptId tran =>
    if receiptId < b.receipts.length then
      some { b with receipts := b.receipts.set receiptId (some tran) }.noteReceiptChange
    else none
  | .updateSequenceReceiptGas => b.updateSequenceReceiptGas
  | .setStateRootToAllReceipt stateRoot => b.setStateRootToAllReceipt stateRoot
  | .clearAllReceipts => some { b with receipts := [] }.noteReceiptChange
  | .setBlockHeader blockHeader => some { b with header := blockHeader.remember env.crypto }
  | .setSigList sigList => some { b with sigList }
  | .resetCurrentBlock parent => some (b.resetCurrentBlock env parent)
  | .setEmptyBlock timeStamp => some (b.setEmptyBlock timeStamp)
  | .noteChange => some b.noteChange
  | .setHeader setter => some { b with header := setter.apply b.header }
  | .headerHash => some { b with header := b.header.remember env.crypto }
  | .copy => some { b with header := b.header.remember env.crypto }

end Rcc.Block
