import Rcc.Pbft.Common

/-!
# Rcc.Pbft.ReqCache4nl

The caches of the leaderless protocol (`PBFTReqCache`): proposals filed under (height, index),
and votes filed under the block hash they are for and, below that, under the bytes of their
signature. Assigning to a proposal slot overwrites it; a vote whose signature is already
present is ignored.

The lemmas describe every cache operation by what it does to the two lookups the engine
uses, `round`/`proposal?` and `votes`.
-/

namespace Rcc.Pbft

open UnorderedMap

variable {H Id Sg : Type}

/-- The votes of one phase: by block hash, then by signature. -/
abbrev VoteCache (H Sg : Type) := UnorderedMap H (UnorderedMap Sg (PBFTMsg H Sg))

/-- The proposals of one height: by proposer index. -/
abbrev Round (H Id Sg : Type) := UnorderedMap Int (PrepareReq4nl H Id Sg)

structure ReqCache4nl (H Id Sg : Type) where
  prepareCache4nl : UnorderedMap Int (Round H Id Sg)
  signCache4nl : VoteCache H Sg
  commitCache4nl : VoteCache H Sg

instance : EmptyCollection (ReqCache4nl H Id Sg) := ⟨⟨∅, ∅, ∅⟩⟩

/-! ### Proposals -/

namespace ReqCache4nl

/-- The proposals cached for a height. -/
def round (c : ReqCache4nl H Id Sg) (reqNum : Int) : Round H Id Sg :=
  (c.prepareCache4nl.find? reqNum).getD ∅

/-- The proposal cached under (height, index). -/
def proposal? (c : ReqCache4nl H Id Sg) (reqNum idx : Int) : Option (PrepareReq4nl H Id Sg) :=
  (c.round reqNum).find? idx

theorem proposal?_eq_some_iff {c : ReqCache4nl H Id Sg} {r i : Int} {req : PrepareReq4nl H Id Sg} :
    c.proposal? r i = some req ↔
      ∃ proposals, (r, proposals) ∈ c.prepareCache4nl.nodes ∧ (i, req) ∈ proposals.nodes := by
  unfold proposal? round
  rw [find?_eq_some_iff]
  constructor
  · intro h
    cases hr : c.prepareCache4nl.find? r with
    | none => simp [hr] at h
    | some proposals =>
      rw [hr] at h
      exact ⟨proposals, (find?_eq_some_iff _ _ _).mp hr, h⟩
  · rintro ⟨proposals, hr, hi⟩
    rw [(find?_eq_some_iff _ _ _).mpr hr]
    exact hi

variable (req : PrepareReq4nl H Id Sg)

/-- `addPrepareReq4nl`: the slot is assigned whatever it held. -/
def addPrepareReq4nl (c : ReqCache4nl H Id Sg) : ReqCache4nl H Id Sg :=
  { c with
    prepareCache4nl := c.prepareCache4nl.set req.height ((c.round req.height).set req.idx req) }

theorem round_addPrepareReq4nl (c : ReqCache4nl H Id Sg) (r : Int) :
    (c.addPrepareReq4nl req).round r =
      if r = req.height then (c.round req.height).set req.idx req else c.round r := by
  unfold addPrepareReq4nl round
  rw [find?_set]
  split <;> rfl

theorem proposal?_addPrepareReq4nl (c : ReqCache4nl H Id Sg) (r i : Int) :
    (c.addPrepareReq4nl req).proposal? r i =
      if r = req.height ∧ i = req.idx then some req else c.proposal? r i := by
  unfold proposal?
  rw [round_addPrepareReq4nl]
  by_cases hr : r = req.height
  · rw [if_pos hr, find?_set]
    by_cases hi : i = req.idx
    · rw [if_pos hi, if_pos ⟨hr, hi⟩]
    · rw [if_neg hi, if_neg (fun h => hi h.2), hr]
  · rw [if_neg hr, if_neg (fun h => hr h.1)]

end ReqCache4nl

/-! ### Votes -/

section Votes

variable [DecidableEq H] (cache : VoteCache H Sg)

/-- The votes cached for a block hash. -/
def votes (h : H) : UnorderedMap Sg (PBFTMsg H Sg) := (cache.find? h).getD ∅

/-- `getSizeFromCache`. -/
def getSizeFromCache (h : H) (cache : VoteCache H Sg) : Nat := (votes cache h).size

theorem mem_votes_foldl_erase {hashes : List H} {cache : VoteCache H Sg} {h : H}
    {e : Sg × PBFTMsg H Sg} (he : e ∈ (votes (hashes.foldl erase cache) h).nodes) :
    e ∈ (votes cache h).nodes := by
  induction hashes generalizing cache with
  | nil => exact he
  | cons a hashes ih =>
    have he' := ih he
    unfold votes at he'
    rw [find?_erase] at he'
    split at he'
    · simp at he'
    · exact he'

variable [StdHash H]

/-- `cache[h]` evaluated for its size only: an absent hash gets an empty map. -/
def touch (h : H) (cache : VoteCache H Sg) : VoteCache H Sg :=
  if cache.contains h then cache else cache.set h ∅

theorem votes_set (h h' : H) (m : UnorderedMap Sg (PBFTMsg H Sg)) :
    votes (cache.set h m) h' = if h' = h then m else votes cache h' := by
  unfold votes
  rw [find?_set]
  split <;> rfl

/-- Evaluating `cache[h].size()` changes no vote. -/
@[simp] theorem votes_touch (h h' : H) : votes (touch h cache) h' = votes cache h' := by
  unfold touch
  split_ifs with hc
  · rfl
  · rw [votes_set]
    split_ifs with heq
    · have hnone : cache.find? h = none := by simpa [contains] using hc
      rw [heq, votes, hnone]
      rfl
    · rfl

variable [DecidableEq Sg] [StdHash Sg]

/-- The insertion shared by `addSignReq4nl` and `addCommitReq4nl`. -/
def addVote (req : PBFTMsg H Sg) (cache : VoteCache H Sg) : VoteCache H Sg :=
  if (votes cache req.blockHash).contains req.sig then cache
  else cache.set req.blockHash ((votes cache req.blockHash).set req.sig req)

/-- A cached vote is an old one, or the new one under its own hash and signature. -/
theorem mem_votes_addVote {req : PBFTMsg H Sg} {cache : VoteCache H Sg} {h : H}
    {e : Sg × PBFTMsg H Sg} (he : e ∈ (votes (addVote req cache) h).nodes) :
    e ∈ (votes cache h).nodes ∨ (e = (req.sig, req) ∧ h = req.blockHash) := by
  unfold addVote at he
  split at he
  · exact .inl he
  · rw [votes_set] at he
    split_ifs at he with heq
    · rcases mem_set_nodes.mp he with rfl | ⟨-, hold⟩
      · exact .inr ⟨rfl, heq⟩
      · exact .inl (heq ▸ hold)
    · exact .inl he

end Votes

/-! ### Operations -/

namespace ReqCache4nl

variable [DecidableEq H] {c : ReqCache4nl H Id Sg} {h : H} {e : Sg × PBFTMsg H Sg}

/-- `delCache4nl`: the votes of every proposal of the height, then the proposals. -/
def delCache4nl (reqNum : Int) (c : ReqCache4nl H Id Sg) : ReqCache4nl H Id Sg :=
  match c.prepareCache4nl.find? reqNum with
  | none => c
  | some proposals =>
    let hashes := proposals.nodes.map fun p => p.2.blockHash
    { prepareCache4nl := c.prepareCache4nl.erase reqNum
      signCache4nl := hashes.foldl erase c.signCache4nl
      commitCache4nl := hashes.foldl erase c.commitCache4nl }

/-- Deleting a height empties it and leaves the other heights alone. -/
theorem round_delCache4nl (reqNum : Int) (c : ReqCache4nl H Id Sg) (r : Int) :
    (c.delCache4nl reqNum).round r = if r = reqNum then ∅ else c.round r := by
  unfold delCache4nl
  split
  · rename_i hnone
    split
    · rename_i hr
      rw [hr, round, hnone]
      rfl
    · rfl
  · unfold round
    rw [find?_erase]
    split <;> rfl

theorem proposal?_delCache4nl {r r' i : Int} {req : PrepareReq4nl H Id Sg}
    (h : (c.delCache4nl r').proposal? r i = some req) : c.proposal? r i = some req := by
  rw [proposal?, round_delCache4nl] at h
  split at h
  · cases h
  · exact h

theorem mem_signVotes_delCache4nl {reqNum : Int}
    (he : e ∈ (votes (c.delCache4nl reqNum).signCache4nl h).nodes) :
    e ∈ (votes c.signCache4nl h).nodes := by
  unfold delCache4nl at he
  split at he
  · exact he
  · exact mem_votes_foldl_erase he

theorem mem_commitVotes_delCache4nl {reqNum : Int}
    (he : e ∈ (votes (c.delCache4nl reqNum).commitCache4nl h).nodes) :
    e ∈ (votes c.commitCache4nl h).nodes := by
  unfold delCache4nl at he
  split at he
  · exact he
  · exact mem_votes_foldl_erase he

variable [DecidableEq Sg] [StdHash H] [StdHash Sg]

/-- `addSignReq4nl`: only a vote of exactly the last committed height is refused. -/
def addSignReq4nl (highestblockNumber : Int) (req : PBFTMsg H Sg) (c : ReqCache4nl H Id Sg) :
    ReqCache4nl H Id Sg :=
  if req.height = highestblockNumber then c
  else { c with signCache4nl := addVote req c.signCache4nl }

/-- `addCommitReq4nl`: a vote that is stored is also logged, and the log line reads
`m_signCache4nl[block_hash].size()`. -/
def addCommitReq4nl (highestblockNumber : Int) (req : PBFTMsg H Sg) (c : ReqCache4nl H Id Sg) :
    ReqCache4nl H Id Sg :=
  if req.height = highestblockNumber then c
  else if (votes c.commitCache4nl req.blockHash).contains req.sig then c
  else
    { c with
      commitCache4nl := addVote req c.commitCache4nl
      signCache4nl := touch req.blockHash c.signCache4nl }

section

variable (n : Int) (req : PBFTMsg H Sg) (c : ReqCache4nl H Id Sg)

@[simp] theorem round_addSignReq4nl (r : Int) : (c.addSignReq4nl n req).round r = c.round r := by
  unfold addSignReq4nl
  split <;> rfl

@[simp] theorem round_addCommitReq4nl (r : Int) :
    (c.addCommitReq4nl n req).round r = c.round r := by
  unfold addCommitReq4nl
  split
  · rfl
  · split <;> rfl

@[simp] theorem proposal?_addSignReq4nl (r i : Int) :
    (c.addSignReq4nl n req).proposal? r i = c.proposal? r i := by
  rw [proposal?, round_addSignReq4nl, proposal?]

@[simp] theorem proposal?_addCommitReq4nl (r i : Int) :
    (c.addCommitReq4nl n req).proposal? r i = c.proposal? r i := by
  rw [proposal?, round_addCommitReq4nl, proposal?]

@[simp] theorem commitCache4nl_addSignReq4nl :
    (c.addSignReq4nl n req).commitCache4nl = c.commitCache4nl := by
  unfold addSignReq4nl
  split <;> rfl

@[simp] theorem signVotes_addCommitReq4nl (h : H) :
    votes (c.addCommitReq4nl n req).signCache4nl h = votes c.signCache4nl h := by
  unfold addCommitReq4nl
  split
  · rfl
  · split
    · rfl
    · exact votes_touch _ _ _

end

theorem mem_signVotes_addSignReq4nl {n : Int} {req : PBFTMsg H Sg}
    (he : e ∈ (votes (c.addSignReq4nl n req).signCache4nl h).nodes) :
    e ∈ (votes c.signCache4nl h).nodes ∨ (e = (req.sig, req) ∧ h = req.blockHash) := by
  unfold addSignReq4nl at he
  split at he
  · exact .inl he
  · exact mem_votes_addVote he

theorem mem_commitVotes_addCommitReq4nl {n : Int} {req : PBFTMsg H Sg}
    (he : e ∈ (votes (c.addCommitReq4nl n req).commitCache4nl h).nodes) :
    e ∈ (votes c.commitCache4nl h).nodes ∨ (e = (req.sig, req) ∧ h = req.blockHash) := by
  unfold addCommitReq4nl at he
  split at he
  · exact .inl he
  · split at he
    · exact .inl he
    · exact mem_votes_addVote he

end ReqCache4nl

end Rcc.Pbft
