import Rcc.Lib.Run
import Rcc.Pbft.ReqCache4nl

/-!
# Rcc.Pbft.Engine4nl

The leaderless part of `PBFTEngine`: the handlers of the three 4nl messages, the readiness
test of a round, and the merge that turns the proposals of a complete round into one block.

A handler is a function from the engine's state to the state after it and what it sent or
committed on the way (`Output`). `none` is the death of the process: the merge dereferences
`pBlock`, which stays null for a proposal received under the node's own index. What the
environment decides is passed in as `Env`: the clock, the view the view-change protocol has
reached, whether `executeBlock` returns or throws, and whether the database takes the block.
-/

namespace Rcc.Pbft

open List

variable {H Id Sg : Type}

/-- The state the 4nl handlers read and write. The last four fields before the chain are
process globals in the source. -/
structure Engine (H Id Sg : Type) where
  sealerList : List Id
  keyPair : Id
  reqCache : ReqCache4nl H Id Sg
  notifyNextLeaderSeal : Bool
  highestblockNumber : Int
  globalSealingNodes : Nat
  globalSealingNodesList : List Nat
  txPool : List (Transaction H)
  /-- The blocks above `genesis`, newest first. -/
  chain : List (Block H Id Sg)
  genesis : Block H Id Sg

/-- What the environment decides while one event is handled. -/
structure Env where
  utcTime : Nat
  view : Int
  executeOk : Bool
  commitOk : Bool
deriving DecidableEq

/-- One successful `checkAndSave4nl`: the round, the proposals merged in order, the block. -/
structure Saved (H Id Sg : Type) where
  round : Int
  merged : List (Int × PrepareReq4nl H Id Sg)
  block : Block H Id Sg

/-- What a handler lets the world see. -/
inductive Output (H Id Sg : Type) where
  | prepare (req : PrepareReq4nl H Id Sg)
  | sign (req : PBFTMsg H Sg)
  | commit (req : PBFTMsg H Sg)
  | saved (s : Saved H Id Sg)

/-- The rounds saved among some outputs, in order. -/
def savedOf (outputs : List (Output H Id Sg)) : List (Saved H Id Sg) :=
  outputs.filterMap fun
    | .saved s => some s
    | _ => none

@[simp] theorem savedOf_append (l l' : List (Output H Id Sg)) :
    savedOf (l ++ l') = savedOf l ++ savedOf l' := filterMap_append

@[simp] theorem mem_savedOf {l : List (Output H Id Sg)} {s : Saved H Id Sg} :
    s ∈ savedOf l ↔ .saved s ∈ l := by
  unfold savedOf
  rw [mem_filterMap]
  constructor
  · rintro ⟨o, ho, hs⟩
    cases o with
    | saved t => exact Option.some.inj hs ▸ ho
    | _ => cases hs
  · exact fun h => ⟨_, h, rfl⟩

/-! ### Configuration -/

variable (sealerList : List Id)

/-- `m_nodeNum`. -/
def nodeNum : Nat := toIdx sealerList.length

/-- `minValidNodes()`: `m_nodeNum - m_f`, with `m_f = (m_nodeNum - 1) / 3`. -/
def minValidNodes : Nat := Quorum.quorumSize (nodeNum sealerList)

namespace Engine

/-- An engine at process start: empty caches, and the initial values of the globals. -/
def init (keyPair : Id) (genesis : Block H Id Sg)
    (chain : List (Block H Id Sg)) : Engine H Id Sg where
  sealerList := sealerList
  keyPair := keyPair
  reqCache := ∅
  notifyNextLeaderSeal := false
  highestblockNumber := 0
  globalSealingNodes := 4
  globalSealingNodesList := [0, 1, 2, 3]
  txPool := []
  chain := chain
  genesis := genesis

/-- `nodeIdx()`. -/
def nodeIdx [DecidableEq Id] (e : Engine H Id Sg) : Nat := indexOfSealer e.sealerList e.keyPair

/-- The highest block of the chain. -/
def highest (e : Engine H Id Sg) : Block H Id Sg := e.chain.headD e.genesis

/-- `getSealingList`: `packNodeNum` sealers in a row, the first one picked by the round. -/
def getSealingList (sealerNum packNodeNum : Nat) (reqNum : Int) : List Nat :=
  let identifier := (toInt32 reqNum % 2 ^ 64).toNat % sealerNum
  (List.range packNodeNum).map fun i => (identifier + i) % sealerNum

/-- How many sealers pack the rounds after `reqNum`; `none` leaves the schedule alone. -/
def packNodes (reqNum : Int) : Option Nat :=
  if reqNum < 3 then none
  else if reqNum < 6 then some 2
  else if reqNum < 10 then some 3
  else some 1

/-- The schedule update of `checkAndSave4nl`. It precedes `commitBlock`, so that it stands
even when the block is not committed. -/
def updateSchedule [DecidableEq Id] (reqNum : Int) (e : Engine H Id Sg) : Engine H Id Sg :=
  match packNodes reqNum with
  | none => { e with notifyNextLeaderSeal := false }
  | some k =>
    let nodes := getSealingList e.sealerList.length k reqNum
    { e with
      globalSealingNodes := k
      globalSealingNodesList := nodes
      notifyNextLeaderSeal := !nodes.contains e.nodeIdx }

section UpdateSchedule

variable [DecidableEq Id] (reqNum : Int) (e : Engine H Id Sg)

@[simp] theorem updateSchedule_sealerList :
    (e.updateSchedule reqNum).sealerList = e.sealerList := by
  unfold updateSchedule
  split <;> rfl

@[simp] theorem updateSchedule_keyPair : (e.updateSchedule reqNum).keyPair = e.keyPair := by
  unfold updateSchedule
  split <;> rfl

@[simp] theorem updateSchedule_reqCache : (e.updateSchedule reqNum).reqCache = e.reqCache := by
  unfold updateSchedule
  split <;> rfl

@[simp] theorem updateSchedule_chain : (e.updateSchedule reqNum).chain = e.chain := by
  unfold updateSchedule
  split <;> rfl

@[simp] theorem updateSchedule_txPool : (e.updateSchedule reqNum).txPool = e.txPool := by
  unfold updateSchedule
  split <;> rfl

end UpdateSchedule

/-- `dropHandledTransactions`: removal from the pool by the key the object was filed under. -/
def dropHandledTransactions [DecidableEq H] (b : Block H Id Sg) (e : Engine H Id Sg) :
    Engine H Id Sg :=
  { e with
    txPool := e.txPool.filter fun t =>
      !(b.transactions.map Transaction.originalHash).contains (some t.hash) }

theorem dropHandledTransactions_eq [DecidableEq H] (b : Block H Id Sg) (e : Engine H Id Sg) :
    ∃ pool, pool.Sublist e.txPool ∧ e.dropHandledTransactions b = { e with txPool := pool } :=
  ⟨_, filter_sublist, rfl⟩

/-! ### Readiness of a round -/

variable [DecidableEq H] [DecidableEq Id] [DecidableEq Sg] [StdHash H] [StdHash Sg]

/-- `checkSignAndCommitOnePre4nl`. -/
def checkSignAndCommitOnePre4nl (e : Engine H Id Sg) (reqNum nodeIdx : Int) : Bool :=
  match e.reqCache.proposal? reqNum nodeIdx with
  | none => false
  | some req =>
    decide (minValidNodes e.sealerList ≤ getSizeFromCache req.blockHash e.reqCache.signCache4nl) &&
    decide (minValidNodes e.sealerList ≤ getSizeFromCache req.blockHash e.reqCache.commitCache4nl)

/-- `checkSignAndCommitAll4nl`: as many proposals as there are packing nodes, all certified. -/
def checkSignAndCommitAll4nl (e : Engine H Id Sg) (reqNum : Int) (sealingNodes : Nat) : Bool :=
  decide ((e.reqCache.round reqNum).size = sealingNodes) &&
    (e.reqCache.round reqNum).nodes.all fun p => e.checkSignAndCommitOnePre4nl reqNum p.1

omit [DecidableEq Id] [DecidableEq Sg] [StdHash H] [StdHash Sg] in
/-- What readiness of a round amounts to. -/
theorem of_checkSignAndCommitAll4nl {e : Engine H Id Sg} {r : Int} {k : Nat}
    (h : e.checkSignAndCommitAll4nl r k = true) :
    (e.reqCache.round r).size = k ∧
      ∀ p ∈ (e.reqCache.round r).nodes, e.reqCache.proposal? r p.1 = some p.2 ∧
        minValidNodes e.sealerList ≤ getSizeFromCache p.2.blockHash e.reqCache.signCache4nl ∧
        minValidNodes e.sealerList ≤
          getSizeFromCache p.2.blockHash e.reqCache.commitCache4nl := by
  unfold checkSignAndCommitAll4nl at h
  rw [Bool.and_eq_true, decide_eq_true_iff, all_eq_true] at h
  refine ⟨h.1, fun p hp => ?_⟩
  have hprop : e.reqCache.proposal? r p.1 = some p.2 :=
    (UnorderedMap.find?_eq_some_iff _ _ _).mpr hp
  have hone := h.2 p hp
  unfold checkSignAndCommitOnePre4nl at hone
  rw [hprop] at hone
  rw [Bool.and_eq_true, decide_eq_true_iff, decide_eq_true_iff] at hone
  exact ⟨hprop, hone⟩

end Engine

/-! ### The merge -/

/-- The loop of `checkAndSave4nl` over the round's proposals, with the transactions appended
so far. A null `pBlock` ends the process. -/
def appendProposals :
    List (Int × PrepareReq4nl H Id Sg) → List (Transaction H) → Option (List (Transaction H))
  | [], txs => some txs
  | p :: proposals, txs =>
    match p.2.pBlock with
    | none => none
    | some b => appendProposals proposals (txs ++ b.transactions)

/-- A merge that returns has found every block in memory. -/
theorem exists_pBlock_of_appendProposals {l : List (Int × PrepareReq4nl H Id Sg)}
    {acc txs : List (Transaction H)} (h : appendProposals l acc = some txs) :
    ∀ p ∈ l, ∃ b, p.2.pBlock = some b := by
  induction l generalizing acc with
  | nil => simp
  | cons q l ih =>
    cases hq : q.2.pBlock with
    | none => simp [appendProposals, hq] at h
    | some b =>
      simp only [appendProposals, hq] at h
      intro p hp
      rcases mem_cons.mp hp with rfl | hp
      · exact ⟨b, hq⟩
      · exact ih h p hp

/-- `BlockHeader::clear`: the header of a newly created block. All its digests are replaced
before the block is used; `d` stands for them. -/
def BlockHeader.clear (d : H) : BlockHeader H Id where
  parentHash := d
  stateRoot := d
  transactionsRoot := d
  number := 0
  gasLimit := 0
  gasUsed := 0
  timestamp := 2 ^ 64 - 1
  sealer := invalid256
  sealerList := []

/-- `bigBlockfor4nl`: a header populated from the highest block, the merged transactions and
their root. -/
def bigBlockFor4nl (c : Crypto H Id Sg) (parent : BlockHeader H Id) (txs : List (Transaction H)) :
    Block H Id Sg :=
  Block.calTransactionRoot c
    { header := (BlockHeader.clear parent.stateRoot).populateFromParent c parent
      transactions := txs
      sigList := [] }

/-- The block the merge of height `r` builds on `parent`. -/
def mergeRound (c : Crypto H Id Sg) (parent : BlockHeader H Id) (r : Int)
    (cache : ReqCache4nl H Id Sg) : Option (Block H Id Sg) :=
  (appendProposals (cache.round r).nodes []).map (bigBlockFor4nl c parent)

/-! ### Handlers -/

/-- A handler's result: the state and the outputs, or the death of the process. -/
abbrev Result (H Id Sg : Type) := Option (Engine H Id Sg × List (Output H Id Sg))

namespace Engine

variable [DecidableEq H] [DecidableEq Id] [DecidableEq Sg] [StdHash H] [StdHash Sg]

/-- The state after `commitBlock` returned `OK` for the round's block. -/
def afterCommit (reqNum : Int) (b : Block H Id Sg) (e : Engine H Id Sg) : Engine H Id Sg :=
  let e := dropHandledTransactions b
    { e with highestblockNumber := toInt32 reqNum, chain := b :: e.chain }
  { e with reqCache := e.reqCache.delCache4nl reqNum }

section AfterCommit

variable (reqNum : Int) (b : Block H Id Sg) (e : Engine H Id Sg)

omit [DecidableEq Id] [DecidableEq Sg] [StdHash H] [StdHash Sg]

@[simp] theorem afterCommit_sealerList : (e.afterCommit reqNum b).sealerList = e.sealerList := rfl

@[simp] theorem afterCommit_keyPair : (e.afterCommit reqNum b).keyPair = e.keyPair := rfl

@[simp] theorem afterCommit_reqCache :
    (e.afterCommit reqNum b).reqCache = e.reqCache.delCache4nl reqNum := rfl

end AfterCommit

variable (c : Crypto H Id Sg) (env : Env)

/-- The part of `checkAndSave4nl` behind the readiness test: merge, execute, reschedule,
commit. -/
def saveRound (reqNum : Int) (e : Engine H Id Sg) : Result H Id Sg :=
  match mergeRound c e.highest.header reqNum e.reqCache with
  | none => none
  | some block =>
    if env.executeOk = false then some (e, [])
    else if env.commitOk = false then some (e.updateSchedule reqNum, [])
    else some ((e.updateSchedule reqNum).afterCommit reqNum block,
      [.saved ⟨reqNum, (e.reqCache.round reqNum).nodes, block⟩])

/-- `checkAndSave4nl`. -/
def checkAndSave4nl (reqNum nodeIdx : Int) (e : Engine H Id Sg) : Result H Id Sg :=
  if e.checkSignAndCommitOnePre4nl reqNum nodeIdx &&
      e.checkSignAndCommitAll4nl reqNum e.globalSealingNodes then
    e.saveRound c env reqNum
  else some (e, [])

omit [DecidableEq Sg] [StdHash H] [StdHash Sg] in
/-- What a successful save has merged, and that the round was complete. -/
theorem checkAndSave4nl_saved {c : Crypto H Id Sg} {env : Env} {r i : Int} {e e' : Engine H Id Sg}
    {out : List (Output H Id Sg)} {s : Saved H Id Sg}
    (h : e.checkAndSave4nl c env r i = some (e', out)) (hs : .saved s ∈ out) :
    e.checkSignAndCommitAll4nl r e.globalSealingNodes = true ∧
      ∃ txs, appendProposals (e.reqCache.round r).nodes [] = some txs ∧
        s = ⟨r, (e.reqCache.round r).nodes, bigBlockFor4nl c e.highest.header txs⟩ := by
  unfold checkAndSave4nl at h
  split_ifs at h with hcheck
  · rw [Bool.and_eq_true] at hcheck
    refine ⟨hcheck.2, ?_⟩
    unfold saveRound at h
    split at h
    · cases h
    · rename_i block hblock
      obtain ⟨txs, htxs, rfl⟩ := Option.map_eq_some_iff.mp hblock
      split at h
      · cases h
        simp at hs
      · split at h
        · cases h
          simp at hs
        · cases h
          simp only [mem_singleton, Output.saved.injEq] at hs
          exact ⟨txs, htxs, hs⟩
  · cases h
    simp at hs

variable (req : PrepareReq4nl H Id Sg) (e : Engine H Id Sg)

/-- `broadcastCommitReq4nl`: the broadcast always succeeds, so the vote is always cached. -/
def broadcastCommitReq4nl : Engine H Id Sg × List (Output H Id Sg) :=
  let commitReq := voteFor c e.keyPair env.utcTime req
  ({ e with reqCache := e.reqCache.addCommitReq4nl e.highestblockNumber commitReq },
    [.commit commitReq])

/-- `checkAndCommit4nl`: with exactly a quorum of sign votes (or at least one, right after the
node's own vote) commit to the cached proposal and try to save its round. -/
def checkAndCommit4nl (reqNum nodeIdx : Int) (byself : Bool) (e : Engine H Id Sg) :
    Result H Id Sg :=
  match e.reqCache.proposal? reqNum nodeIdx with
  | none => some (e, [])
  | some req =>
    let signSize := getSizeFromCache req.blockHash e.reqCache.signCache4nl
    if signSize = minValidNodes e.sealerList ∨
        byself = true ∧ minValidNodes e.sealerList < signSize then
      let (e, sent) := e.broadcastCommitReq4nl c env req
      (e.checkAndSave4nl c env reqNum nodeIdx).map fun (e, out) => (e, sent ++ out)
    else some (e, [])

/-- `OnlyGenerateSignMsg4nl`: vote for the proposal, unexamined. -/
def onlyGenerateSignMsg4nl : Result H Id Sg :=
  let signReq := voteFor c e.keyPair env.utcTime req
  let e := { e with reqCache := e.reqCache.addSignReq4nl e.highestblockNumber signReq }
  (e.checkAndCommit4nl c env signReq.height signReq.idx true).map
    fun (e, out) => (e, .sign signReq :: out)

/-- `handlePrepareMsg4nl`. A proposal under another index is decoded first, and bytes that do
not decode throw before anything is changed. `isValidPrepare4nl` is never called. -/
def handlePrepareMsg4nl : Result H Id Sg :=
  let accept (req : PrepareReq4nl H Id Sg) (e : Engine H Id Sg) : Result H Id Sg :=
    { e with reqCache := e.reqCache.addPrepareReq4nl req }.onlyGenerateSignMsg4nl c env req
  if req.idx ≠ e.nodeIdx then
    match decodeProposal req.block with
    | none => some (e, [])
    | some b => accept { req with pBlock := some b } (e.dropHandledTransactions b)
  else accept req e

/-- `handleSignMsg4nl`. -/
def handleSignMsg4nl (req : PBFTMsg H Sg) (e : Engine H Id Sg) : Result H Id Sg :=
  { e with reqCache := e.reqCache.addSignReq4nl e.highestblockNumber req }.checkAndCommit4nl
    c env req.height req.idx false

/-- `handleCommitMsg4nl`. -/
def handleCommitMsg4nl (req : PBFTMsg H Sg) (e : Engine H Id Sg) : Result H Id Sg :=
  { e with reqCache := e.reqCache.addCommitReq4nl e.highestblockNumber req }.checkAndSave4nl
    c env req.height req.idx

/-- `generatePrepare` with `constructPrepareReq4nl`: an empty block is not proposed. -/
def generatePrepare (b : Block H Id Sg) (e : Engine H Id Sg) : Result H Id Sg :=
  let e := { e with notifyNextLeaderSeal := false }
  if b.transactions.length = 0 then some (e, [])
  else
    let req := PrepareReq4nl.ofBlock c e.keyPair b env.view e.nodeIdx env.utcTime
    (e.handlePrepareMsg4nl c env req).map fun (e, out) => (e, .prepare req :: out)

end Engine

end Rcc.Pbft
