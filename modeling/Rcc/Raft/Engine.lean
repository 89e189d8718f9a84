import Mathlib.Data.Finset.Card
import Mathlib.Data.UInt
import Mathlib.Tactic

/-!
# Rcc.Raft.Engine

`RaftEngine`, with the two threads that work on it: the **worker**, which runs `workLoop` and
handles the messages, and the **sealer** thread (`RaftSealer`), which calls `shouldSeal`, `commit`
and `reportBlock`. A step is what one of them does between two points at which the other may come
in: a critical section, or the code between two of them.

The clock is not modelled. A timeout may fire, and a heartbeat may be due, at any time; what the
clock alone decides (the election timeouts, the log of heartbeats) is left out. Whether a block
executes and whether the chain takes it is up to the environment, and so is block synchronisation.
The sealer list is fixed.

An `Action` is what a step leaves behind: a packet on the network, or an entry in the history that
the proofs speak of.
-/

namespace Rcc.Raft

/-! ### Nodes and blocks -/

/-- `raft::NodeIndex`. -/
abbrev NodeIndex := UInt16

/-- `RaftEngine::InvalidIndex`. -/
def invalidIndex : NodeIndex := 0xFFFF

/-- What the engine reads off a block. No two blocks have the same hash, and none has the hash
`h256()`, for which the model writes `none`. -/
structure Headers (B H : Type) where
  number : B → Int
  parentHash : B → H
  hash : B → H
  hash_injective : Function.Injective hash

/-- A block of the chain, by number and hash. -/
structure BlockRef (H : Type) where
  height : Int
  blockHash : H
deriving DecidableEq

/-! ### Messages -/

structure RaftMsg (H : Type) where
  idx : NodeIndex
  term : UInt64
  height : Int
  blockHash : H
deriving DecidableEq

structure RaftVoteReq (H : Type) extends RaftMsg H where
  candidate : NodeIndex
  lastLeaderTerm : UInt64
  lastBlockNumber : Int
deriving DecidableEq

inductive VoteRespFlag where
  | reject | leaderReject | lastTermError | outdated | firstVote | discard | granted
deriving DecidableEq

structure RaftVoteResp (H : Type) extends RaftMsg H where
  voteFlag : VoteRespFlag
  lastLeaderTerm : UInt64
deriving DecidableEq

structure RaftHeartBeat (B H : Type) extends RaftMsg H where
  leader : NodeIndex
  uncommitedBlock : Option B
  uncommitedBlockNumber : Int
deriving DecidableEq

structure RaftHeartBeatResp (H : Type) extends RaftMsg H where
  uncommitedBlockHash : Option H
deriving DecidableEq

inductive Msg (B H : Type) where
  | voteReq (req : RaftVoteReq H)
  | voteResp (resp : RaftVoteResp H)
  | heartBeat (hb : RaftHeartBeat B H)
  | heartBeatResp (resp : RaftHeartBeatResp H)
deriving DecidableEq

inductive Action (n : Nat) (B H : Type) where
  /-- To one sealer, or (`none`) to all of them. -/
  | send (dest : Option (Fin n)) (msg : Msg B H)
  /-- `setVote`, for a candidate of the present term. -/
  | vote (term : UInt64) (candidate : NodeIndex)
  /-- The block has become the uncommitted block. -/
  | hold (b : B)
  /-- The chain has taken the block. -/
  | commit (b : B)
deriving DecidableEq

/-! ### The engine -/

inductive RaftRole where
  | leader | follower | candidate
deriving DecidableEq

structure VoteState where
  vote : Nat
  unVote : Nat
  lastTermErr : Nat
  firstVote : Nat
  discardedVote : Nat
  outdated : Nat
deriving DecidableEq

def VoteState.totalVoteCount (v : VoteState) : Nat :=
  v.vote + v.unVote + v.lastTermErr + v.firstVote + v.discardedVote + v.outdated

/-- Where the worker thread is. -/
inductive Worker (n : Nat) (B : Type) where
  /-- In `workLoop`, before it looks at the role. -/
  | idle
  | leading
  /-- In `runAsCandidate`. The code counts responses; whose they were, if they granted the vote,
  is only kept for the proofs. -/
  | campaigning (votes : VoteState) (voters : List (Fin n))
  | following
  /-- `tryCommitUncommitedBlock` has decided to commit and has released the mutex. -/
  | executing
  /-- A copy of the block has been executed. -/
  | saving (b : B)
  /-- In `reportBlock`, before its first critical section. -/
  | reporting
  /-- In `reportBlock`, before its second critical section. -/
  | clearing
deriving DecidableEq

/-- Where the sealer thread is. -/
inductive SealerThread (B : Type) where
  | idle
  | reporting
  | clearing
  /-- `shouldSeal` has returned true. -/
  | granted
  /-- In `commit`, on the condition variable. -/
  | waiting (b : B)
  /-- In `commit`, behind the condition variable. -/
  | woken (b : B)
  | saving (b : B)
deriving DecidableEq

/-- `RaftEngine`, with the head of the chain it belongs to. -/
structure Engine (n : Nat) (B H : Type) where
  role : RaftRole
  term : UInt64
  lastLeaderTerm : UInt64
  firstVote : NodeIndex
  leader : NodeIndex
  /-- `m_vote`, which is never read. -/
  vote : NodeIndex
  heartbeatCount : Nat
  memberBlock : List (Fin n × BlockRef H)
  head : BlockRef H
  highest : BlockRef H
  consensusBlockNumber : Int
  uncommitted : Option B
  uncommittedNumber : Int
  commitReady : Bool
  commitFingerPrint : H → Finset NodeIndex
  worker : Worker n B
  sealer : SealerThread B

/-- `m_idx`. -/
def nodeIndex {n : Nat} (i : Fin n) : NodeIndex := UInt16.ofNat i

/-- `m_nodeNum`. -/
def nodeNum (n : Nat) : Nat := (UInt16.ofNat n).toNat

/-- `m_nodeNum - m_f`: the votes, or acknowledgements, that are enough. -/
def majority (n : Nat) : Nat := nodeNum n - (nodeNum n - 1) / 2

/-- The number of sealers and the index fit into 16 bits. -/
def Fits {n : Nat} (i : Fin n) : Prop := nodeNum n = n ∧ (nodeIndex i).toNat = i

instance {n : Nat} (i : Fin n) : Decidable (Fits i) := instDecidableAnd

theorem lt_two_mul_majority {n : Nat} {i : Fin n} (h : Fits i) : n < 2 * majority n := by
  have hpos := i.pos
  unfold majority
  rw [h.1]
  omega

theorem nodeIndex_inj {n : Nat} {i j : Fin n} (hi : Fits i) (hj : Fits j)
    (h : nodeIndex i = nodeIndex j) : i = j := Fin.ext (by rw [← hi.2, ← hj.2, h])

namespace Engine

variable {n : Nat} {B H : Type}

/-- `RaftEngine` as constructed and started on a chain, before the first `reportBlock`. -/
def start (head : BlockRef H) (noHash : H) : Engine n B H where
  role := .follower
  term := 0
  lastLeaderTerm := 0
  firstVote := invalidIndex
  leader := invalidIndex
  vote := 0
  heartbeatCount := 0
  memberBlock := []
  head := head
  highest := ⟨0, noHash⟩
  consensusBlockNumber := 0
  uncommitted := none
  uncommittedNumber := 0
  commitReady := false
  commitFingerPrint := fun _ => ∅
  worker := .idle
  sealer := .reporting

variable (e : Engine n B H)

/-- `m_waitingForCommitting`. -/
def waitingForCommitting : Bool :=
  match e.sealer with
  | .waiting _ => true
  | _ => false

/-! ### Changes of the role -/

variable (i : Fin n) (e : Engine n B H)

def switchToLeader : Engine n B H :=
  { e with leader := nodeIndex i, role := .leader }

variable (leader : NodeIndex) (e : Engine n B H)

def switchToFollower : Engine n B H :=
  let e := { e with leader := leader, role := .follower, heartbeatCount := 0 }
  if e.waitingForCommitting then
    { e with uncommitted := none, uncommittedNumber := 0, commitReady := true }
  else e

@[simp] theorem switchToFollower_role :
    (e.switchToFollower leader).role = .follower := by
  unfold switchToFollower; dsimp only; split <;> rfl

@[simp] theorem switchToFollower_term :
    (e.switchToFollower leader).term = e.term := by
  unfold switchToFollower; dsimp only; split <;> rfl

@[simp] theorem switchToFollower_worker :
    (e.switchToFollower leader).worker = e.worker := by
  unfold switchToFollower; dsimp only; split <;> rfl

/-- `resetConfig`. With a fixed sealer list the number of sealers and the index only ever differ
from the members if these have cut something off. -/
def resetConfig : Engine n B H :=
  if Fits i then e else e.switchToFollower invalidIndex

theorem resetConfig_role :
    (e.resetConfig i).role = e.role ∨ (e.resetConfig i).role = .follower := by
  unfold resetConfig; split <;> simp

/-- Who is not a follower after `resetConfig` has not been touched by it. -/
theorem resetConfig_of_role_ne {i : Fin n} {e : Engine n B H}
    (h : (e.resetConfig i).role ≠ .follower) : Fits i ∧ e.resetConfig i = e := by
  unfold resetConfig at h ⊢
  split_ifs at h with hfits
  · exact ⟨hfits, if_pos hfits⟩
  · simp at h

@[simp] theorem resetConfig_term : (e.resetConfig i).term = e.term := by
  unfold resetConfig; split <;> simp

@[simp] theorem resetConfig_worker : (e.resetConfig i).worker = e.worker := by
  unfold resetConfig; split <;> simp

def switchToCandidate : Engine n B H :=
  let e := e.resetConfig i
  { e with term := e.term + 1, leader := invalidIndex, role := .candidate }

/-- `clearFirstVoteCache`. Its test `m_firstVote != Invalid256` compares 16 bits with 256 and is
always true. -/
def clearFirstVoteCache : Engine n B H :=
  if 8 ≤ e.heartbeatCount + 1 then { e with heartbeatCount := 0, firstVote := invalidIndex }
  else { e with heartbeatCount := e.heartbeatCount + 1 }

@[simp] theorem clearFirstVoteCache_role : e.clearFirstVoteCache.role = e.role := by
  unfold clearFirstVoteCache; split <;> rfl

@[simp] theorem clearFirstVoteCache_term : e.clearFirstVoteCache.term = e.term := by
  unfold clearFirstVoteCache; split <;> rfl

@[simp] theorem clearFirstVoteCache_worker : e.clearFirstVoteCache.worker = e.worker := by
  unfold clearFirstVoteCache; split <;> rfl

/-! ### Votes -/

/-- The number of the last block, the uncommitted one included. -/
def lastBlockNumber : Int := if e.uncommitted.isSome then e.head.height + 1 else e.head.height

/-- The fields that all messages have. -/
def raftMsg : RaftMsg H :=
  ⟨nodeIndex i, e.term, e.highest.height, e.highest.blockHash⟩

def generateVoteReq : RaftVoteReq H :=
  { e.raftMsg i with
    candidate := nodeIndex i
    lastLeaderTerm := e.lastLeaderTerm
    lastBlockNumber := e.lastBlockNumber }

def voteResp (flag : VoteRespFlag) (e : Engine n B H) : RaftVoteResp H :=
  { e.raftMsg i with voteFlag := flag, lastLeaderTerm := e.lastLeaderTerm }

/-- `handleVoteRequest`; the last result tells whether the vote is granted. -/
def handleVoteRequest (i src : Fin n) (req : RaftVoteReq H) (e : Engine n B H) :
    Engine n B H × List (Action n B H) × Bool :=
  if req.term ≤ e.term ∧ e.role ≠ .leader then
    (e, [.send (some src)
      (.voteResp (e.voteResp i (if req.term = e.term then .discard else .reject)))], false)
  -- a leader only sets the flag to `LEADER_REJECT` here, and every way on sets it again
  else if req.lastLeaderTerm < e.lastLeaderTerm then
    (e, [.send (some src) (.voteResp (e.voteResp i .lastTermError))], false)
  else if req.lastBlockNumber < e.lastBlockNumber then
    (e, [.send (some src) (.voteResp (e.voteResp i .outdated))], false)
  else if e.firstVote = invalidIndex then
    ({ e with firstVote := req.candidate },
      [.send (some src) (.voteResp (e.voteResp i .firstVote))], false)
  else
    let e := { e with
      term := req.term
      leader := invalidIndex
      firstVote := req.candidate
      vote := req.candidate }
    (e, [.vote req.term req.candidate, .send (some src) (.voteResp (e.voteResp i .granted))], true)

inductive HandleVoteResult where
  | toLeader | toFollower | none
deriving DecidableEq

/-- `handleVoteResponse`. -/
def handleVoteResponse (resp : RaftVoteResp H) (votes : VoteState) (e : Engine n B H) :
    Engine n B H × VoteState × HandleVoteResult :=
  if resp.term < e.term - 1 then (e, votes, .none)
  else
    match resp.voteFlag with
    | .reject =>
      let votes := { votes with unVote := votes.unVote + 1 }
      (e, votes, if majority n ≤ votes.unVote then .toFollower else .none)
    | .leaderReject =>
      ({ e with term := resp.term, lastLeaderTerm := resp.lastLeaderTerm }, votes, .toFollower)
    | .lastTermError =>
      let votes := { votes with lastTermErr := votes.lastTermErr + 1 }
      (e, votes, if majority n ≤ votes.lastTermErr then .toFollower else .none)
    | .firstVote =>
      let votes := { votes with firstVote := votes.firstVote + 1 }
      if majority n ≤ votes.firstVote then ({ e with term := e.term - 1 }, votes, .toFollower)
      else (e, votes, .none)
    | .discard => (e, { votes with discardedVote := votes.discardedVote + 1 }, .none)
    | .outdated => (e, { votes with outdated := votes.outdated + 1 }, .none)
    | .granted =>
      let votes := { votes with vote := votes.vote + 1 }
      (e, votes, if majority n ≤ votes.vote then .toLeader else .none)

variable [DecidableEq H]

/-! ### Heartbeats -/

/-- `m_commitFingerPrint[h].insert(idx)`. -/
def acknowledge (h : H) (idx : NodeIndex) (e : Engine n B H) : Engine n B H :=
  { e with commitFingerPrint :=
      Function.update e.commitFingerPrint h (insert idx (e.commitFingerPrint h)) }

variable (hd : Headers B H) (i : Fin n)

/-- `generateHeartbeat`. -/
def generateHeartbeat (e : Engine n B H) :
    Engine n B H × RaftHeartBeat B H :=
  match e.uncommitted with
  | some b =>
    (e.acknowledge (hd.hash b) (nodeIndex i), { e.raftMsg i with
        leader := nodeIndex i
        uncommitedBlock := some b
        uncommitedBlockNumber := e.consensusBlockNumber })
  | none =>
    (e, { e.raftMsg i with
      leader := nodeIndex i
      uncommitedBlock := none
      uncommitedBlockNumber := 0 })

/-- The second half of `handleHeartbeat`; the last result tells whether to step down. The three
tests of the source set the same. -/
def heartbeatSeen (hb : RaftHeartBeat B H) (e : Engine n B H) : Engine n B H × Bool :=
  if e.lastLeaderTerm < hb.term ∨ e.term < hb.term ∨
      (e.role = .candidate ∧ e.term ≤ hb.term) then
    ({ e with term := hb.term, vote := invalidIndex }.clearFirstVoteCache, true)
  else (e.clearFirstVoteCache, false)

def heartbeatResp (hash : Option H) (e : Engine n B H) : RaftHeartBeatResp H :=
  { e.raftMsg i with uncommitedBlockHash := hash }

variable (i src : Fin n)

/-- `handleHeartbeat`. -/
def handleHeartbeat (hb : RaftHeartBeat B H) (e : Engine n B H) :
    Engine n B H × List (Action n B H) × Bool :=
  if hb.term < e.term ∧ hb.term ≤ e.lastLeaderTerm then (e, [], false)
  else
    match hb.uncommitedBlock with
    | some b =>
      if hb.uncommitedBlockNumber - 1 = e.highest.height then
        let (e', down) := heartbeatSeen hb
          { e with uncommitted := some b, uncommittedNumber := hb.uncommitedBlockNumber }
        ({ e' with lastLeaderTerm := hb.term }, [.hold b, .send (some src)
            (.heartBeatResp (e.heartbeatResp i (some (hd.hash b))))], down)
      else (e, [], false)
    | none =>
      let (e', down) := heartbeatSeen hb e
      ({ e' with lastLeaderTerm := hb.term },
        [.send (some src) (.heartBeatResp (e.heartbeatResp i none))], down)

/-! ### Commits -/

/-- A commit is due: the sealer thread does it if it waits for it, else the worker. -/
def commitDue : Engine n B H :=
  if e.waitingForCommitting then { e with commitReady := true }
  else { e with worker := .executing }

/-- `tryCommitUncommitedBlock`, up to the execution. -/
def tryCommitUncommitedBlock (idx : NodeIndex) (hash : Option H)
    (e : Engine n B H) : Engine n B H :=
  match e.uncommitted with
  | none => e
  | some b =>
    if e.uncommittedNumber = e.consensusBlockNumber then
      if hash = some (hd.hash b) then
        let e := e.acknowledge (hd.hash b) idx
        if majority n ≤ (e.commitFingerPrint (hd.hash b)).card then e.commitDue else e
      -- "I'm the only one in sealer list, commit block without any ack"
      else if hash = none then e.commitDue
      else e
    else { e with uncommitted := none, uncommittedNumber := 0 }

/-- `checkAndSave`. The chain takes the next block only; `result` is the hash of its header once
it is executed, or `none` if the chain does not take it for another reason. -/
def checkAndSave (b : B) (result : Option H) (e : Engine n B H) :
    Engine n B H × List (Action n B H) :=
  match result with
  | some h =>
    if hd.number b = e.head.height + 1 ∧ hd.parentHash b = e.head.blockHash then
      ({ e with head := ⟨hd.number b, h⟩, uncommitted := none, uncommittedNumber := 0 },
        [.commit b])
    else (e, [])
  | none => (e, [])

/-- The first critical section of `reportBlock`, for a block of the given number. -/
def reportHighest (number : Int) (e : Engine n B H) : Engine n B H × Bool :=
  if e.head.height = 0 ∨ e.highest.height < number then ({ e with highest := e.head }, true)
  else (e, false)

/-- The rest of `reportBlock`. -/
def reportClear (e : Engine n B H) : Engine n B H :=
  let fingerPrint := match e.uncommitted with
    | some b => Function.update e.commitFingerPrint (hd.hash b) ∅
    | none => e.commitFingerPrint
  { e with
    commitFingerPrint := fingerPrint
    uncommitted := none
    uncommittedNumber := 0
    consensusBlockNumber :=
      if e.consensusBlockNumber ≤ e.highest.height then e.highest.height + 1
      else e.consensusBlockNumber }.resetConfig i

/-- `shouldSeal`. -/
def shouldSeal : Bool :=
  e.role = .leader && !(e.memberBlock.any fun m => decide (e.highest.height < m.2.height)) &&
    majority n ≤ 1 + e.memberBlock.countP (fun m => m.2 = e.highest) && e.uncommitted.isNone

/-! ### The worker thread -/

/-- One turn of `workLoop`, up to the loop of the role. -/
def enter (e : Engine n B H) : Engine n B H × List (Action n B H) :=
  let e := e.resetConfig i
  match e.role with
  | .leader =>
    ({ e with firstVote := invalidIndex, lastLeaderTerm := e.term, worker := .leading }, [])
  | .follower => ({ e with worker := .following }, [])
  | .candidate =>
    let acts := [.send none (.voteReq (e.generateVoteReq i)), .vote e.term (nodeIndex i)]
    let e := { e with vote := nodeIndex i, firstVote := nodeIndex i }
    if majority n ≤ 1 then (e.switchToLeader i, acts)
    else ({ e with worker := .campaigning ⟨1, 0, 0, 0, 0, 0⟩ [] }, acts)

/-- The end of a role: back to `workLoop`. -/
def done : Engine n B H := { e with worker := .idle }

/-- The loops of the three roles end when the role is another. -/
def inRole (role : RaftRole) (e : Engine n B H) (r : Engine n B H × List (Action n B H)) :
    Engine n B H × List (Action n B H) := if e.role = role then r else (e.done, [])

/-- `checkHeartbeatTimeout` or `checkElectTimeout` returns true. -/
def timeout (e : Engine n B H) : Option (Engine n B H × List (Action n B H)) :=
  match e.worker with
  | .leading => if 1 < nodeNum n then
      some (e.inRole .leader ((e.switchToCandidate i).done, [])) else none
  | .campaigning votes _ =>
    some (e.inRole .candidate
      (if majority n ≤ votes.totalVoteCount then ((e.switchToCandidate i).done, [])
      else (({ e with term := e.term - 1 }.switchToFollower invalidIndex).done, [])))
  | .following => some (e.inRole .follower ((e.switchToCandidate i).done, []))
  | _ => none

/-- A message in `runAsLeaderImp`. -/
def recvAsLeader (e : Engine n B H) :
    Msg B H → Engine n B H × List (Action n B H)
  | .voteReq req =>
    let (e, acts, granted) := e.handleVoteRequest i src req
    if granted then ((e.switchToFollower invalidIndex).done, acts) else (e, acts)
  | .voteResp _ => (e, [])
  | .heartBeat hb =>
    let (e, acts, down) := e.handleHeartbeat hd i src hb
    if down then ((e.switchToFollower hb.leader).done, acts) else (e, acts)
  | .heartBeatResp resp =>
    if resp.term = e.term then
      ({ e with memberBlock := (src, ⟨resp.height, resp.blockHash⟩) ::
          e.memberBlock.filter (fun m => m.1 ≠ src) }.tryCommitUncommitedBlock hd resp.idx
        resp.uncommitedBlockHash, [])
    else (e, [])

/-- A message in `runAsCandidateImp`. -/
def recvAsCandidate (votes : VoteState) (voters : List (Fin n))
    (e : Engine n B H) :
    Msg B H → Engine n B H × List (Action n B H)
  | .voteReq req =>
    let (e, acts, granted) := e.handleVoteRequest i src req
    if granted then ((e.switchToFollower invalidIndex).done, acts) else (e, acts)
  | .voteResp resp =>
    match e.handleVoteResponse resp votes with
    | (e, _, .toLeader) => ((e.switchToLeader i).done, [])
    | (e, _, .toFollower) => ((e.switchToFollower invalidIndex).done, [])
    | (e, votes', .none) =>
      let voters' := if votes.vote < votes'.vote then src :: voters else voters
      ({ e with worker := .campaigning votes' voters' }, [])
  | .heartBeat hb =>
    let (e, acts, down) := e.handleHeartbeat hd i src hb
    if down then ((e.switchToFollower hb.leader).done, acts) else (e, acts)
  | .heartBeatResp _ => (e, [])

/-- A message in `runAsFollowerImp`. The test `m_leader == Invalid256` is never true. -/
def recvAsFollower (e : Engine n B H) :
    Msg B H → Engine n B H × List (Action n B H)
  | .voteReq req =>
    let (e, acts, granted) := e.handleVoteRequest i src req
    if granted then (e.done, acts) else (e, acts)
  | .heartBeat hb =>
    let (e, acts, down) := e.handleHeartbeat hd i src hb
    if down then ({ e with leader := hb.leader }, acts) else (e, acts)
  | .voteResp _ | .heartBeatResp _ => (e, [])

/-- A message is taken from the queue. -/
def recv (msg : Msg B H) (e : Engine n B H) :
    Option (Engine n B H × List (Action n B H)) :=
  match e.worker with
  | .leading => if 1 < nodeNum n then
      some (e.inRole .leader (e.recvAsLeader hd i src msg)) else none
  | .campaigning votes voters =>
    some (e.inRole .candidate (e.recvAsCandidate hd i src votes voters msg))
  | .following => some (e.inRole .follower (e.recvAsFollower hd i src msg))
  | _ => none

/-- `broadcastHeartbeat`, when it is time. -/
def beat (e : Engine n B H) :
    Option (Engine n B H × List (Action n B H)) :=
  match e.worker with
  | .leading => if 1 < nodeNum n then
      let (e', hb) := e.generateHeartbeat hd i
      some (e.inRole .leader (e'.clearFirstVoteCache, [.send none (.heartBeat hb)])) else none
  | _ => none

/-- The turn of a leader that is the only sealer. -/
def alone (e : Engine n B H) :
    Option (Engine n B H × List (Action n B H)) :=
  match e.worker with
  | .leading => if 1 < nodeNum n then none else
      some (e.inRole .leader (e.tryCommitUncommitedBlock hd (nodeIndex i) none, []))
  | _ => none

/-- What follows the decision of `tryCommitUncommitedBlock`: `checkAndExecute` and `reportBlock`,
both of whatever the uncommitted block is by then. An empty block does not pass
`checkBlockValid`. -/
def workerCommit (valid : Bool) (result : Option H)
    (e : Engine n B H) : Option (Engine n B H × List (Action n B H)) :=
  match e.worker with
  | .executing =>
    match e.uncommitted with
    | some b => some (if valid then { e with worker := .saving b }
        else { e with worker := .reporting }, [])
    | none => some ({ e with worker := .reporting }, [])
  | .saving b =>
    let (e, acts) := e.checkAndSave hd b result
    some ({ e with worker := .reporting }, acts)
  | .reporting =>
    let (e, reported) := e.reportHighest ((e.uncommitted.map hd.number).getD 0)
    some (if reported then { e with worker := .clearing } else { e with worker := .leading }, [])
  | .clearing => some ({ e.reportClear hd i with worker := .leading }, [])
  | _ => none

/-! ### The sealer thread -/

/-- `reportNewBlock`, `shouldSeal` (after which there may be too few transactions), and `commit`
from the condition variable on. -/
def sealerTurn (valid : Bool) (result : Option H)
    (e : Engine n B H) : Option (Engine n B H × List (Action n B H)) :=
  match e.sealer with
  | .idle => if e.shouldSeal then some ({ e with sealer := .granted }, []) else none
  | .reporting =>
    let (e, reported) := e.reportHighest e.head.height
    some (if reported then { e with sealer := .clearing } else { e with sealer := .idle }, [])
  | .clearing => some ({ e.reportClear hd i with sealer := .idle }, [])
  | .granted => some ({ e with sealer := .idle }, [])
  | .waiting b => if e.commitReady then
      some ({ e with
        commitReady := false
        sealer := if e.uncommitted.isSome then .woken b else .idle }, []) else none
  | .woken b => some ({ e with
      sealer := if e.role = .leader ∧ valid then .saving b else .idle }, [])
  | .saving b =>
    let (e, acts) := e.checkAndSave hd b result
    some ({ e with sealer := .idle }, acts)

/-- `commit`, up to the condition variable. -/
def sealBlock (b : B) (e : Engine n B H) : Option (Engine n B H × List (Action n B H)) :=
  match e.sealer with
  | .granted => some ({ e with
      uncommitted := some b
      uncommittedNumber := e.consensusBlockNumber
      commitReady := false
      sealer := .waiting b }, [.hold b])
  | _ => none

end Engine

/-! ### Steps -/

inductive Event (n : Nat) (B H : Type) where
  | enter
  /-- The loop of the role ends because blocks are synchronised. -/
  | leave
  | timeout
  | beat
  | alone
  | recv (src : Fin n) (msg : Msg B H)
  | workerCommit (valid : Bool) (result : Option H)
  /-- The sealer thread turns to `reportNewBlock`. -/
  | sealerReport
  | sealerTurn (valid : Bool) (result : Option H)
  | sealBlock (b : B)
  /-- Block synchronisation has added a block to the chain. -/
  | sync (blockHash : H)
deriving DecidableEq

variable {n : Nat} {B H : Type} [DecidableEq H]

/-- What an event does to the engine of sealer `i`. -/
def Engine.step (hd : Headers B H) (i : Fin n) (e : Engine n B H) :
    Event n B H → Option (Engine n B H × List (Action n B H))
  | .enter =>
    match e.worker with
    | .idle => some (e.enter i)
    | _ => none
  | .leave =>
    match e.worker with
    | .leading | .campaigning _ _ | .following => some (e.done, [])
    | _ => none
  | .timeout => e.timeout i
  | .beat => e.beat hd i
  | .alone => e.alone hd i
  | .recv src msg => e.recv hd i src msg
  | .workerCommit valid result => e.workerCommit hd i valid result
  | .sealerReport =>
    match e.sealer with
    | .idle => some ({ e with sealer := .reporting }, [])
    | _ => none
  | .sealerTurn valid result => e.sealerTurn hd i valid result
  | .sealBlock b => e.sealBlock b
  | .sync h => some ({ e with head := ⟨e.head.height + 1, h⟩ }, [])

/-- The sealers and all they have done. -/
structure Net (n : Nat) (B H : Type) where
  nodes : Fin n → Engine n B H
  history : List (Fin n × Action n B H)

namespace Net

/-- Every sealer has started, each on its own chain. -/
def start (heads : Fin n → BlockRef H) (noHash : H) : Net n B H :=
  ⟨fun i => Engine.start (heads i) noHash, []⟩

/-- The message was sent by `src`, to `i` or to all. -/
def Sent (s : Net n B H) (src i : Fin n) (msg : Msg B H) : Prop :=
  (src, Action.send none msg) ∈ s.history ∨ (src, Action.send (some i) msg) ∈ s.history

/-- The sealers after sealer `i` has made a step. -/
def advance (s : Net n B H) (i : Fin n) (e : Engine n B H) (acts : List (Action n B H)) :
    Net n B H := ⟨Function.update s.nodes i e, s.history ++ acts.map (Prod.mk i)⟩

omit [DecidableEq H] in
theorem mem_advance {s : Net n B H} {i j : Fin n} {e : Engine n B H} {acts : List (Action n B H)}
    {a : Action n B H} :
    (j, a) ∈ (s.advance i e acts).history ↔ (j, a) ∈ s.history ∨ j = i ∧ a ∈ acts := by
  simp [advance, and_comm, eq_comm]

variable [DecidableEq B]

instance (s : Net n B H) (src i : Fin n) (msg : Msg B H) : Decidable (s.Sent src i msg) :=
  instDecidableOr

/-- The event can reach the sealer: a message has been sent to it, by another sealer. It may arrive
at any time after, any number of times, or never. -/
def Possible (s : Net n B H) (i : Fin n) : Event n B H → Prop
  | .recv src msg => src ≠ i ∧ s.Sent src i msg
  | _ => True

instance (s : Net n B H) (i : Fin n) (ev : Event n B H) : Decidable (s.Possible i ev) := by
  cases ev <;> unfold Possible <;> infer_instance

def step (hd : Headers B H) (s : Net n B H) (ev : Fin n × Event n B H) : Option (Net n B H) :=
  if s.Possible ev.1 ev.2 then
    ((s.nodes ev.1).step hd ev.1 ev.2).map fun (e, acts) => s.advance ev.1 e acts
  else none

theorem step_eq_some {hd : Headers B H} {s s' : Net n B H} {ev : Fin n × Event n B H}
    (h : s.step hd ev = some s') :
    ∃ e acts, s.Possible ev.1 ev.2 ∧ (s.nodes ev.1).step hd ev.1 ev.2 = some (e, acts) ∧
      s' = s.advance ev.1 e acts := by
  unfold step at h
  split at h
  · rename_i hpossible
    obtain ⟨⟨e, acts⟩, hengine, rfl⟩ := Option.map_eq_some_iff.mp h
    exact ⟨e, acts, hpossible, hengine, rfl⟩
  · cases h

end Net

end Rcc.Raft
