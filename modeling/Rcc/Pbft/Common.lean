import Mathlib.Data.List.GetD
import Rcc.Lib.UnorderedMap
import Rcc.Lib.Quorum

/-!
# Rcc.Pbft.Common

The data the consensus engine works on: transactions, block headers, blocks, and the three
messages of the leaderless protocol (`PrepareReq4nl`, `SignReq4nl`, `CommitReq4nl`).

Hashing and signing are parameters (`Crypto`): the engine calls them and relies on nothing
about them that is not written as a hypothesis where it is used. Digests, node ids and
signatures are type variables, so that "hashes are injective" is a satisfiable assumption.
-/

namespace Rcc.Pbft

/-- A transaction, identified by its hash. `originalHash` is the key the pool filed this very
object under; an object decoded from the network has none. -/
structure Transaction (H : Type) where
  hash : H
  nonce : Nat
  blockLimit : Nat
  originalHash : Option H
deriving DecidableEq

structure BlockHeader (H Id : Type) where
  parentHash : H
  stateRoot : H
  transactionsRoot : H
  number : Int
  gasLimit : Nat
  gasUsed : Nat
  timestamp : Nat
  sealer : Nat
  sealerList : List Id
deriving DecidableEq

/-- `Invalid256`: the sealer of a block that nobody has sealed. -/
def invalid256 : Nat := 2 ^ 256 - 1

/-- A block with its list of (sealer index, signature) pairs. -/
structure Block (H Id Sg : Type) where
  header : BlockHeader H Id
  transactions : List (Transaction H)
  sigList : List (Nat × Sg)
deriving DecidableEq

/-- Everything the engine hashes: headers, the ordered transaction hashes under a transaction
root, and the message fields besides the block hash. -/
inductive Preimage (H Id : Type) where
  | header (h : BlockHeader H Id)
  | transactions (hashes : List H)
  | fields (height view : Int) (idx timestamp : Nat)
deriving DecidableEq

/-- The cryptographic primitives. A key pair is named by its public key. -/
structure Crypto (H Id Sg : Type) where
  hash : Preimage H Id → H
  sign : Id → H → Sg
  verify : Id → Sg → H → Bool

/-- What the signature scheme promises: a signature verifies for its signer, and for nobody
else (verification recovers the one public key that a signature and a digest determine). -/
structure Crypto.Lawful {H Id Sg : Type} (c : Crypto H Id Sg) : Prop where
  verify_sign : ∀ id h, c.verify id (c.sign id h) h = true
  verify_unique : ∀ id id' sg h, c.verify id sg h = true → c.verify id' sg h = true → id = id'

variable {H Id Sg : Type}

/-! ### Headers and blocks -/

variable (c : Crypto H Id Sg)

/-- `BlockHeader::hash`. -/
def BlockHeader.digest (h : BlockHeader H Id) : H := c.hash (.header h)

/-- `BlockHeader::populateFromParent`. -/
def BlockHeader.populateFromParent (self parent : BlockHeader H Id) :
    BlockHeader H Id :=
  { self with
    stateRoot := parent.stateRoot
    number := parent.number + 1
    parentHash := parent.digest c
    gasLimit := parent.gasLimit
    gasUsed := 0
    sealer := invalid256 }

variable (b : Block H Id Sg)

/-- The ordered hashes of a block's transactions. -/
def Block.txHashes : List H := b.transactions.map Transaction.hash

/-- `Block::calTransactionRoot`. -/
def Block.calTransactionRoot : Block H Id Sg :=
  { b with header := { b.header with transactionsRoot := c.hash (.transactions b.txHashes) } }

/-- `Block::isSealed`. -/
def Block.isSealed : Bool := b.header.sealer != invalid256

/-- `Block::decodeProposal`: the decoded transactions are fresh objects the pool does not
know; `none` stands for bytes that do not decode, where it throws. -/
def decodeProposal (wire : Option (Block H Id Sg)) : Option (Block H Id Sg) :=
  wire.map fun b =>
    { b with transactions := b.transactions.map fun t => { t with originalHash := none } }

theorem txHashes_of_decodeProposal {wire : Option (Block H Id Sg)} {b : Block H Id Sg}
    (h : decodeProposal wire = some b) :
    ∃ w, wire = some w ∧ b.header = w.header ∧ b.txHashes = w.txHashes := by
  obtain ⟨w, hw, rfl⟩ := Option.map_eq_some_iff.mp h
  exact ⟨w, hw, rfl, by simp [Block.txHashes]⟩

/-! ### Messages -/

variable {c : Crypto H Id Sg}

/-- `PBFTMsg`, which is all there is to a `SignReq4nl` and a `CommitReq4nl`. -/
structure PBFTMsg (H Sg : Type) where
  height : Int
  view : Int
  idx : Nat
  timestamp : Nat
  blockHash : H
  sig : Sg
  sig2 : Sg
deriving DecidableEq

/-- `PBFTMsg::fieldsWithoutBlock`, as hashed for `sig2`. -/
def PBFTMsg.fieldsWithoutBlock (c : Crypto H Id Sg) (m : PBFTMsg H Sg) : H :=
  c.hash (.fields m.height m.view m.idx m.timestamp)

/-- A message made and signed by the node `key`. -/
def PBFTMsg.make (c : Crypto H Id Sg) (key : Id) (height view : Int) (idx timestamp : Nat)
    (blockHash : H) : PBFTMsg H Sg where
  height := height
  view := view
  idx := idx
  timestamp := timestamp
  blockHash := blockHash
  sig := c.sign key blockHash
  sig2 := c.sign key (c.hash (.fields height view idx timestamp))

/-- Both signatures of `m` verify under `id` (the body of `checkSign`). -/
def PBFTMsg.signedBy (c : Crypto H Id Sg) (m : PBFTMsg H Sg) (id : Id) : Bool :=
  c.verify id m.sig m.blockHash && c.verify id m.sig2 (m.fieldsWithoutBlock c)

theorem PBFTMsg.signedBy_unique (hc : c.Lawful) {m : PBFTMsg H Sg} {id id' : Id}
    (h : m.signedBy c id = true) (h' : m.signedBy c id' = true) : id = id' := by
  unfold PBFTMsg.signedBy at h h'
  rw [Bool.and_eq_true] at h h'
  exact hc.verify_unique id id' m.sig m.blockHash h.1 h'.1

theorem PBFTMsg.make_signedBy (hc : c.Lawful) (key : Id) (height view : Int) (idx timestamp : Nat)
    (blockHash : H) :
    (PBFTMsg.make c key height view idx timestamp blockHash).signedBy c key = true := by
  unfold PBFTMsg.signedBy
  rw [Bool.and_eq_true]
  exact ⟨hc.verify_sign key blockHash, hc.verify_sign key _⟩

/-- `PrepareReq4nl`: the message, the encoded block it carries (as `decodeProposal` reads it)
and the in-memory block, null until the handler decodes it. -/
structure PrepareReq4nl (H Id Sg : Type) extends PBFTMsg H Sg where
  block : Option (Block H Id Sg)
  pBlock : Option (Block H Id Sg)
deriving DecidableEq

/-- `PrepareReq4nl(blockStruct, keyPair, view, idx)`. -/
def PrepareReq4nl.ofBlock (c : Crypto H Id Sg) (key : Id) (b : Block H Id Sg) (view : Int)
    (idx timestamp : Nat) : PrepareReq4nl H Id Sg :=
  { PBFTMsg.make c key b.header.number view idx timestamp (b.header.digest c) with
    block := some b
    pBlock := some b }

/-- The vote (`SignReq4nl` or `CommitReq4nl`) of `key` on a proposal. Its index is the
*proposer's*, so that a vote does not say who cast it. -/
def voteFor (c : Crypto H Id Sg) (key : Id) (timestamp : Nat) (req : PrepareReq4nl H Id Sg) :
    PBFTMsg H Sg := PBFTMsg.make c key req.height req.view req.idx timestamp req.blockHash

theorem voteFor_signedBy (hc : c.Lawful) (key : Id) (timestamp : Nat)
    (req : PrepareReq4nl H Id Sg) : (voteFor c key timestamp req).signedBy c key = true :=
  PBFTMsg.make_signedBy hc key _ _ _ _ _

/-! ### Machine integers -/

/-- `IDXTYPE` is a 16-bit index; its largest value marks a node that is no sealer. -/
def maxIdx : Nat := 65535

/-- Narrowing to `IDXTYPE`. -/
def toIdx (n : Nat) : Nat := n % 65536

/-- Narrowing of an `int64_t` to `int`. -/
def toInt32 (n : Int) : Int := n.bmod (2 ^ 32)

/-! ### Sealers -/

/-- `getSealerByIndex`; `noId` is `NodeID()`, the id that no node has. -/
def getSealerByIndex (noId : Id) (sealers : List Id) (idx : Nat) : Id := sealers.getD idx noId

/-- An index that addresses a node addresses a sealer. -/
theorem getElem?_of_getSealerByIndex {noId : Id} {sealers : List Id} {idx : Nat}
    (h : getSealerByIndex noId sealers idx ≠ noId) :
    sealers[idx]? = some (getSealerByIndex noId sealers idx) := by
  by_cases hlt : idx < sealers.length
  · rw [getSealerByIndex, List.getD_eq_getElem _ _ hlt, List.getElem?_eq_getElem hlt]
  · exact absurd (List.getD_eq_default _ _ (Nat.le_of_not_lt hlt)) h

theorem getSealerByIndex_mem {noId : Id} {sealers : List Id} {idx : Nat}
    (h : getSealerByIndex noId sealers idx ≠ noId) : getSealerByIndex noId sealers idx ∈ sealers :=
  List.mem_of_getElem? (getElem?_of_getSealerByIndex h)

/-- `m_idx`, as `resetConfig` finds it in the sealer list. -/
def indexOfSealer [DecidableEq Id] (sealers : List Id) (key : Id) : Nat :=
  if key ∈ sealers then toIdx (sealers.idxOf key) else maxIdx

/-! ### Hashing of keys -/

/-- `std::hash<int64_t>`: the conversion to `size_t`. -/
instance : StdHash Int := ⟨fun n => (n % 2 ^ 64).toNat⟩

instance : StdHash Int64 := ⟨fun n => n.toUInt64.toNat⟩

/-- `std::hash<uint16_t>`, for `IDXTYPE`. -/
instance : StdHash Nat := ⟨id⟩

end Rcc.Pbft
