import Rcc.Lib.Binary64
import Rcc.Precompiled.Common

/-!
# Rcc.Precompiled.ChainGovernance

`libprecompiled/ChainGovernancePrecompiled.cpp`: the calls by which the members of the committee
admit and dismiss members, change their weights and change the threshold.

The members are the rows of `SYS_ACCESS_TABLE` under its own name. Weights, the threshold and the
votes are rows of `_sys_committee_votes_`, under keys made of the member's address: the votes on a
member under the address, its weight under `<address>_weight`, the votes on that under
`<address>_update_weight`; and under `auth_threshold` and `update_auth_threshold`. The keys are
distinct, so the rows are kept apart here (`CommitteeTable`), and the key and the value of a vote
are the proposal it is for.

Weights and votes are added up and divided as `double`s: every operation rounds.
-/

namespace Rcc.Precompiled

open Storage (Address Version)

namespace ChainGovernance

def V2_7_0 : Version := 0x02070000

/-- `c_voteValidLimit`: for how many blocks a vote is valid. -/
def c_voteValidLimit : Int := 10000

def CODE_CURRENT_VALUE_IS_EXPECTED_VALUE : Int := -52012
def CODE_OPERATOR_CANNOT_BE_COMMITTEE_MEMBER : Int := -52004
def CODE_INVALID_THRESHOLD : Int := -52003
def CODE_INVALID_REQUEST_PERMISSION_DENIED : Int := -52002
def CODE_COMMITTEE_MEMBER_NOT_EXIST : Int := -52001
def CODE_COMMITTEE_MEMBER_EXIST : Int := -52000
def CODE_NO_AUTHORIZED : Int := -50000

/-! ## The tables -/

/-- Thresholds are hundredths. -/
scoped instance neZero_hundred : NeZero 100 := ⟨by decide⟩

scoped instance lawfulBEq_hundredth : LawfulBEq (Fin 100) := inferInstance

/-- What is voted on: the operation, its key and its value. The value of a threshold is
`to_string` of a number of hundredths below one. -/
inductive Proposal where
  | grant (user : Address)
  | revoke (user : Address)
  | weight (user : Address) (value : Int)
  | threshold (value : Fin 100)
  deriving DecidableEq

/-- The key a vote is recorded under. -/
inductive Key where
  | member (user : Address)
  | updateWeight (user : Address)
  | updateAuthThreshold
  deriving DecidableEq

def Proposal.key : Proposal → Key
  | .grant user => .member user
  | .revoke user => .member user
  | .weight user _ => .updateWeight user
  | .threshold _ => .updateAuthThreshold

/-- A row of `SYS_ACCESS_TABLE`. -/
structure AccessRow where
  address : Address
  enableNum : Int
  deriving DecidableEq

/-- A vote's row of the committee table. -/
structure Vote where
  proposal : Proposal
  origin : Address
  blockLimit : Int
  deriving DecidableEq

/-- `_sys_committee_votes_`. -/
structure CommitteeTable where
  weights : List (Address × Int)
  /-- the rows under `auth_threshold`, in hundredths -/
  thresholds : List (Fin 100)
  votes : List Vote
  deriving DecidableEq

structure State where
  /-- the rows of `SYS_ACCESS_TABLE` under its own name -/
  access : List AccessRow
  /-- the addresses that have a row under `SYS_TABLES` or `SYS_CNS` -/
  operators : List Address
  /-- the committee table, once it has been created -/
  committee : Option CommitteeTable
  deriving DecidableEq

namespace CommitteeTable

/-- What `getCommitteeTable` creates. -/
def fresh : CommitteeTable := ⟨[], [50], []⟩

variable (c : CommitteeTable)

def weight? (member : Address) : Option Int := c.weights.lookup member

/-- `recordVote`: the origin's vote under the key, in place of an earlier one; expired votes under
the key are removed. -/
def recordVote (p : Proposal) (origin : Address) (number : Int) :
    CommitteeTable :=
  let vote : Vote := ⟨p, origin, number + c_voteValidLimit⟩
  let mine (v : Vote) : Bool := v.proposal.key = p.key ∧ v.origin = origin
  let votes := if c.votes.any mine then c.votes.map fun v => if mine v then vote else v
    else c.votes ++ [vote]
  { c with votes := votes.filter fun v => ¬(v.proposal.key = p.key ∧ v.blockLimit ≤ number) }

/-- `deleteUsedVotes`. -/
def deleteUsedVotes (p : Proposal) : CommitteeTable :=
  { c with votes := c.votes.filter (·.proposal ≠ p) }

/-- The first loop of `validate`: the weight of each member, zero for everybody else, and the
total. -/
def memberWeights (c : CommitteeTable) : List AccessRow → (Address → ℚ) × ℚ →
    Except Fault ((Address → ℚ) × ℚ)
  | [], acc => .ok acc
  | row :: rows, (memberWeight, total) =>
    match c.weight? row.address with
    | none => .error .outOfRange
    | some w =>
      let weight := Binary64.round w
      c.memberWeights rows
        (Function.update memberWeight row.address weight, Binary64.round (total + weight))

/-- `totalVotes / total > threshold` on doubles; a division by zero gives an infinity or no
number. -/
def exceeds (totalVotes total threshold : ℚ) : Bool :=
  if total = 0 then 0 < totalVotes else threshold < Binary64.round (totalVotes / total)

/-- `validate`: whether the votes for `p` are enough. -/
def validate (access : List AccessRow) (p : Proposal) (blockNumber : Int) :
    Except Fault Bool :=
  let entries := access.filter (·.enableNum ≤ blockNumber)
  if entries.isEmpty then .ok true
  else do
    let (memberWeight, total) ← c.memberWeights entries (fun _ => 0, 0)
    let votes := c.votes.filter fun v => v.proposal = p ∧ blockNumber ≤ v.blockLimit
    let totalVotes := votes.foldl (fun t v => Binary64.round (t + memberWeight v.origin)) 0
    let threshold := match c.thresholds with
      | [] => 1 / 2
      | t :: _ => Binary64.round (t.val / 100)
    return exceeds totalVotes total threshold

end CommitteeTable

/-! ## The calls -/

namespace State

def members (s : State) : List Address := s.access.map AccessRow.address

def getCommitteeTable (s : State) : CommitteeTable := s.committee.getD .fresh

variable (version : Version)

/-- What a proposal that has found its majority does, and the number of rows it touches. Before
2.7.0, the votes for a threshold are looked for under a key nobody votes under. -/
def enact (currentBlockNumber : Int) (c : CommitteeTable) (s : State) :
    Proposal → Int × State
  | .grant user =>
    (1, { s with
      access := s.access ++ [⟨user, currentBlockNumber⟩]
      committee := some (({ c with weights := c.weights ++ [(user, 1)] } :
        CommitteeTable).deleteUsedVotes (.grant user)) })
  | .revoke user =>
    (s.access.countP (·.address = user), { s with
      access := s.access.filter (·.address ≠ user)
      committee := some (({ c with weights := c.weights.filter (·.1 ≠ user) } :
        CommitteeTable).deleteUsedVotes (.revoke user)) })
  | .weight user value =>
    (c.weights.countP (·.1 = user), { s with
      committee := some (({ c with
        weights := c.weights.map fun row => if row.1 = user then (user, value) else row } :
        CommitteeTable).deleteUsedVotes (.weight user value)) })
  | .threshold value =>
    let c' : CommitteeTable := { c with thresholds := c.thresholds.map fun _ => value }
    (c.thresholds.length, { s with
      committee := some (if version ≥ V2_7_0 then c'.deleteUsedVotes (.threshold value) else c') })

/-- `verifyAndRecord`. -/
def verifyAndRecord (number : Int) (p : Proposal) (origin : Address) (s : State) :
    Except Fault (Int × State) :=
  if origin ∉ s.members then .ok (CODE_INVALID_REQUEST_PERMISSION_DENIED, s)
  else do
    let c := s.getCommitteeTable.recordVote p origin number
    let currentBlockNumber := number + 1
    if ← c.validate s.access p currentBlockNumber then
      return s.enact version currentBlockNumber c p
    else return (0, { s with committee := some c })

/-- `grantCommitteeMember`. Without a committee anybody may found one; `mayWrite` is whether the
open access table lets the origin insert, which goes by its rows at the start of the block. -/
def grantCommitteeMember (number : Int) (mayWrite : Bool) (member : Address) (origin : Address)
    (s : State) : Except Fault (Int × State) :=
  if member ∈ s.operators then .ok (CODE_OPERATOR_CANNOT_BE_COMMITTEE_MEMBER, s)
  else if s.access.isEmpty then
    let c := s.getCommitteeTable
    .ok (if mayWrite then 1 else CODE_NO_AUTHORIZED, { s with
      access := if mayWrite then [⟨member, number + 1⟩] else []
      committee := some { c with weights := c.weights ++ [(member, 1)] } })
  else if member ∈ s.members then .ok (CODE_COMMITTEE_MEMBER_EXIST, s)
  else s.verifyAndRecord version number (.grant member) origin

def updateCommitteeMemberWeight (number : Int) (member : Address) (weight : Int) (origin : Address)
    (s : State) : Except Fault (Int × State) :=
  if member ∉ s.members then .ok (CODE_COMMITTEE_MEMBER_NOT_EXIST, s)
  else
    let s := { s with committee := some s.getCommitteeTable }
    if s.getCommitteeTable.weights.any fun row => row = (member, weight) then
      .ok (CODE_CURRENT_VALUE_IS_EXPECTED_VALUE, s)
    else s.verifyAndRecord version number (.weight member weight) origin

end State

inductive Op where
  | grantCommitteeMember (user : Address)
  | revokeCommitteeMember (user : Address)
  | updateCommitteeMemberWeight (user : Address) (weight : Int)
  | updateThreshold (weight : Int)
  deriving DecidableEq

theorem toNat_lt_hundred {weight : Int} (h : ¬(weight > 99 ∨ weight < 0)) : weight.toNat < 100 := by
  omega

/-- A transaction. -/
structure Call where
  origin : Address
  /-- `blockInfo().number` -/
  number : Int
  op : Op
  mayWrite : Bool := true
  deriving DecidableEq

/-- `call`. -/
def State.call (version : Version) (s : State) (tx : Call) : Except Fault (Int × State) :=
  match tx.op with
  | .grantCommitteeMember user =>
    s.grantCommitteeMember version tx.number tx.mayWrite user tx.origin
  | .revokeCommitteeMember user =>
    if user ∉ s.members then .ok (CODE_COMMITTEE_MEMBER_NOT_EXIST, s)
    else s.verifyAndRecord version tx.number (.revoke user) tx.origin
  | .updateCommitteeMemberWeight user weight =>
    if version ≥ V2_7_0 ∧ weight ≤ 0 then
      .error (.precompiledException ("updateCommitteeMemberWeight failed for invalid weight \""
        ++ toString weight ++ "\", the weight must be greater than 0"))
    else s.updateCommitteeMemberWeight version tx.number user weight tx.origin
  | .updateThreshold weight =>
    if h : weight > 99 ∨ weight < 0 then .ok (CODE_INVALID_THRESHOLD, s)
    else
      let threshold : Fin 100 := ⟨weight.toNat, toNat_lt_hundred h⟩
      let s := { s with committee := some s.getCommitteeTable }
      if threshold ∈ s.getCommitteeTable.thresholds then
        .ok (CODE_CURRENT_VALUE_IS_EXPECTED_VALUE, s)
      else s.verifyAndRecord version tx.number (.threshold threshold) tx.origin

/-- The tables after a transaction; one that throws is reverted. -/
def State.after (version : Version) (s : State) (tx : Call) : State :=
  match s.call version tx with
  | .ok (_, s') => s'
  | .error _ => s

end ChainGovernance

end Rcc.Precompiled
