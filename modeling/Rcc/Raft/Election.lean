import Rcc.Lib.Quorum
import Rcc.Lib.Run
import Rcc.Raft.Engine

/-!
# Rcc.Raft.Election

**Election safety** (`leaders_of_term_unique`): no two sealers are leaders of one term.

The argument is that of Raft. A leader has the votes of a majority in its term, two majorities have
a member in common, and a sealer votes for one candidate in a term. The code secures neither of the
last two. Terms go back, so that a term comes again in which a sealer has voted; `m_vote` records
the vote, but nothing reads it. A candidate counts responses of the term before its own, and counts
a response as often as it arrives. `SafeElection` says of each step that it does none of this;
`two_leaders_of_term` is a run without it.
-/

namespace Rcc.Raft

open List Rcc.Raft.Action Net

variable {n : Nat} {B H : Type}

/-! ### What a step can do to an election -/

/-- No election rests on the action. -/
def Action.Silent : Action n B H → Prop
  | .vote _ _ => False
  | .send _ (.voteReq _) => False
  | .send _ (.voteResp resp) => resp.voteFlag ≠ .granted
  | _ => True

/-- Nobody becomes a leader or a candidate, and no vote is cast or counted. -/
structure Quiet (e e' : Engine n B H) (acts : List (Action n B H)) : Prop where
  leads : e'.role = .leader → e.role = .leader ∧ e'.term = e.term
  campaigns : ∀ votes' voters, e'.worker = .campaigning votes' voters →
    e'.term = e.term ∧ ∃ votes, e.worker = .campaigning votes voters ∧ votes'.vote = votes.vote
  silent : ∀ a ∈ acts, a.Silent

/-- The vote is granted to the request. -/
structure Grants (req : RaftVoteReq H) (src : Fin n) (e e' : Engine n B H)
    (acts : List (Action n B H)) : Prop where
  passed : e.role = .leader ∨ e.term < req.term
  role : e'.role ≠ .leader
  worker : e'.worker = .idle
  acts : ∃ resp : RaftVoteResp H, resp.term = req.term ∧
    acts = [.vote req.term req.candidate, .send (some src) (.voteResp resp)]

/-- A candidate asks for votes and votes for itself. -/
structure Stands (i : Fin n) (e e' : Engine n B H) (acts : List (Action n B H)) : Prop where
  fits : Fits i
  role : e.role = .candidate
  term : e'.term = e.term
  next : (e'.role = .leader ∧ majority n ≤ 1 ∧ e'.worker = .idle) ∨
    (e'.role = .candidate ∧ e'.worker = .campaigning ⟨1, 0, 0, 0, 0, 0⟩ [])
  acts : ∃ req : RaftVoteReq H, req.candidate = nodeIndex i ∧
    acts = [.send none (.voteReq req), .vote e.term (nodeIndex i)]

/-- A candidate counts a vote. -/
structure Counts (src : Fin n) (votes : VoteState) (voters : List (Fin n)) (e e' : Engine n B H)
    (acts : List (Action n B H)) : Prop where
  worker : e.worker = .campaigning votes voters
  term : e'.term = e.term
  next : (e'.role = .leader ∧ majority n ≤ votes.vote + 1 ∧ e'.worker = .idle) ∨
    (e'.role ≠ .leader ∧
      e'.worker = .campaigning { votes with vote := votes.vote + 1 } (src :: voters))
  acts : acts = []

/-- What an event can do to an election. -/
inductive ElectionStep (i : Fin n) (e e' : Engine n B H) (acts : List (Action n B H)) :
    Event n B H → Prop
  | quiet {ev : Event n B H} (h : Quiet e e' acts) : ElectionStep i e e' acts ev
  | grants {src : Fin n} {req : RaftVoteReq H} (h : Grants req src e e' acts) :
      ElectionStep i e e' acts (.recv src (.voteReq req))
  | stands (h : Stands i e e' acts) : ElectionStep i e e' acts .enter
  | counts {src : Fin n} {resp : RaftVoteResp H} {votes : VoteState} {voters : List (Fin n)}
      (hflag : resp.voteFlag = .granted) (h : Counts src votes voters e e' acts) :
      ElectionStep i e e' acts (.recv src (.voteResp resp))

/-- What the event does, with the state and the actions it ends with. -/
abbrev Decides (i : Fin n) (e : Engine n B H) (ev : Event n B H)
    (r : Engine n B H × List (Action n B H)) : Prop := ElectionStep i e r.1 r.2 ev

/-- The term and the campaign are left, and the role unless it is given up. -/
structure Kept (e e' : Engine n B H) : Prop where
  role : e'.role = e.role ∨ e'.role = .follower
  term : e'.term = e.term
  worker : e'.worker = e.worker

namespace Engine

variable {e e' e₁ : Engine n B H} {acts : List (Action n B H)} {i src : Fin n} {ev : Event n B H}

/-- A step that leaves the role, or gives it up, and leaves the term and the campaign. -/
theorem quiet_of_eq (hrole : e'.role = e.role ∨ e'.role = .follower) (hterm : e'.term = e.term)
    (hworker : e'.worker = e.worker ∨ ∀ votes voters, e'.worker ≠ .campaigning votes voters)
    (hacts : ∀ a ∈ acts, a.Silent) : Quiet e e' acts where
  leads hl := by
    rcases hrole with h | h
    · exact ⟨h ▸ hl, hterm⟩
    · simp [hl] at h
  campaigns votes' voters hw := by
    rcases hworker with h | h
    · exact ⟨hterm, votes', h ▸ hw, rfl⟩
    · exact absurd hw (h votes' voters)
  silent := hacts

/-- A step after which the sealer neither leads nor stands. -/
theorem quiet_of_not (hrole : e'.role ≠ .leader)
    (hworker : ∀ votes voters, e'.worker ≠ .campaigning votes voters)
    (hacts : ∀ a ∈ acts, a.Silent) : Quiet e e' acts where
  leads hl := absurd hl hrole
  campaigns votes' voters hw := absurd hw (hworker votes' voters)
  silent := hacts

theorem quiet_worker {worker : Worker n B} (h : Kept e e₁)
    (hworker : ∀ votes voters, worker ≠ .campaigning votes voters)
    (hacts : ∀ a ∈ acts, a.Silent) : Quiet e { e₁ with worker := worker } acts :=
  quiet_of_eq h.role h.term (.inr hworker) hacts

theorem quiet_sealer {sealer : SealerThread B} (h : Kept e e₁) (hacts : ∀ a ∈ acts, a.Silent) :
    Quiet e { e₁ with sealer := sealer } acts := quiet_of_eq h.role h.term (.inl h.worker) hacts

theorem kept_refl (e : Engine n B H) : Kept e e := ⟨.inl rfl, rfl, rfl⟩

theorem quiet_done : Quiet e e.done [] :=
  quiet_of_eq (.inl rfl) rfl (.inr fun _ _ h => by cases h) (by simp)

variable {r : Engine n B H × List (Action n B H)}

theorem inRole_cases {role : RaftRole} (h : e.role = role → Decides i e ev r) :
    Decides i e ev (e.inRole role r) := by
  unfold inRole
  split_ifs with hrole
  · exact h hrole
  · exact .quiet quiet_done

/-! ### The handlers -/

variable {votes : VoteState} {voters : List (Fin n)}

/-- A request is granted, or leaves everything as it is. -/
theorem handleVoteRequest_cases (src : Fin n) (req : RaftVoteReq H) :
    let r := e.handleVoteRequest i src req
    r.1.role = e.role ∧ r.1.worker = e.worker ∧
      ((r.2.2 = false ∧ r.1.term = e.term ∧ ∀ a ∈ r.2.1, a.Silent) ∨
        (r.2.2 = true ∧ (e.role = .leader ∨ e.term < req.term) ∧
          ∃ resp : RaftVoteResp H, resp.term = req.term ∧
            r.2.1 = [.vote req.term req.candidate, .send (some src) (.voteResp resp)])) := by
  unfold handleVoteRequest
  split
  · refine ⟨rfl, rfl, .inl ⟨rfl, rfl, ?_⟩⟩
    intro a ha
    obtain rfl := mem_singleton.mp ha
    simp only [Silent, voteResp]
    split <;> simp
  rename_i hterm
  split
  · exact ⟨rfl, rfl, .inl ⟨rfl, rfl, by simp [Silent, voteResp]⟩⟩
  split
  · exact ⟨rfl, rfl, .inl ⟨rfl, rfl, by simp [Silent, voteResp]⟩⟩
  split
  · exact ⟨rfl, rfl, .inl ⟨rfl, rfl, by simp [Silent, voteResp]⟩⟩
  · refine ⟨rfl, rfl, .inr ⟨rfl, ?_, _, rfl, rfl⟩⟩
    by_cases hrole : e.role = .leader
    · exact .inl hrole
    · exact .inr (UInt64.not_le.mp fun hle => hterm ⟨hle, hrole⟩)

theorem heartbeatSeen_cases (hb : RaftHeartBeat B H) :
    let r := heartbeatSeen hb e
    r.1.role = e.role ∧ r.1.worker = e.worker ∧ (r.2 = false → r.1.term = e.term) := by
  unfold heartbeatSeen
  split <;> simp

variable (hd : Headers B H)

/-- A heartbeat changes the term only of who steps down. -/
theorem handleHeartbeat_cases (src : Fin n) (hb : RaftHeartBeat B H) :
    let r := e.handleHeartbeat hd i src hb
    r.1.role = e.role ∧ r.1.worker = e.worker ∧ (r.2.2 = false → r.1.term = e.term) ∧
      ∀ a ∈ r.2.1, a.Silent := by
  unfold handleHeartbeat
  split
  · exact ⟨rfl, rfl, fun _ => rfl, by simp⟩
  split
  · rename_i b _
    split
    · have hseen := heartbeatSeen_cases hb
        (e := { e with uncommitted := some b, uncommittedNumber := hb.uncommitedBlockNumber })
      exact ⟨hseen.1, hseen.2.1, hseen.2.2, by simp [Silent]⟩
    · exact ⟨rfl, rfl, fun _ => rfl, by simp⟩
  · have hseen := heartbeatSeen_cases hb (e := e)
    exact ⟨hseen.1, hseen.2.1, hseen.2.2, by simp [Silent]⟩

/-- After a request, a sealer whose loop ends if the request is granted. -/
theorem voteReq_cases (req : RaftVoteReq H) (giveUp : Engine n B H → Engine n B H)
    (hup : ∀ e' : Engine n B H, e'.role = e.role → (giveUp e').role ≠ .leader)
    (hidle : ∀ e' : Engine n B H, (giveUp e').worker = .idle) :
    let r := e.handleVoteRequest i src req
    Decides i e (.recv src (.voteReq req))
      (if r.2.2 then (giveUp r.1, r.2.1) else (r.1, r.2.1)) := by
  intro r
  obtain ⟨hrole, hworker, h | h⟩ := handleVoteRequest_cases (e := e) (i := i) src req
  · obtain ⟨hnot, hterm, hsilent⟩ := h
    rw [if_neg (by simp [r, hnot])]
    exact .quiet (quiet_of_eq (.inl hrole) hterm (.inl hworker) hsilent)
  · obtain ⟨hgranted, hpassed, hacts⟩ := h
    rw [if_pos (by simp [r, hgranted])]
    exact .grants ⟨hpassed, hup _ hrole, hidle _, hacts⟩

/-- After a heartbeat, a sealer whose loop ends if it steps down. -/
theorem heartBeat_cases (hb : RaftHeartBeat B H)
    (giveUp : Engine n B H → Engine n B H)
    (hup : ∀ e' : Engine n B H, e'.role = e.role → (giveUp e').role ≠ .leader)
    (hidle : ∀ e' : Engine n B H, e'.worker = e.worker →
      ∀ votes voters, (giveUp e').worker ≠ .campaigning votes voters) :
    let r := e.handleHeartbeat hd i src hb
    Decides i e ev (if r.2.2 then (giveUp r.1, r.2.1) else (r.1, r.2.1)) := by
  intro r
  obtain ⟨hrole, hworker, hterm, hsilent⟩ := handleHeartbeat_cases (e := e) (i := i) hd src hb
  by_cases hdown : r.2.2 = true
  · rw [if_pos hdown]
    exact .quiet (quiet_of_not (hup _ hrole) (hidle _ hworker) hsilent)
  · rw [if_neg hdown]
    exact .quiet (quiet_of_eq (.inl hrole) (hterm (by simpa using hdown)) (.inl hworker) hsilent)

theorem switchToFollower_done_role (leader : NodeIndex) :
    ((e.switchToFollower leader).done).role ≠ .leader := by
  simp [done]

/-- A count that is not of votes goes on, or ends the campaign. -/
theorem tally_cases {votes' : VoteState} (hrole : e.role = .candidate)
    (hworker : e.worker = .campaigning votes voters) (hvote : votes'.vote = votes.vote) :
    ElectionStep i e { e with worker := .campaigning votes' voters } [] ev := by
  refine .quiet ⟨fun hl => ?_, fun votes'' voters' hw => ?_, by simp⟩
  · rw [show e.role = .leader from hl] at hrole
    cases hrole
  · obtain ⟨rfl, rfl⟩ := Worker.campaigning.inj hw
    exact ⟨rfl, votes, hworker, hvote⟩

theorem giveUp_cases : ElectionStep i e (e₁.switchToFollower invalidIndex).done [] ev :=
  .quiet (quiet_of_not (switchToFollower_done_role _) (fun _ _ h => by cases h) (by simp))

/-- A response is counted as a vote, or decides nothing for the candidate. -/
theorem voteResp_cases (resp : RaftVoteResp H) (hrole : e.role = .candidate)
    (hworker : e.worker = .campaigning votes voters) :
    Decides i e (.recv src (.voteResp resp))
      (e.recvAsCandidate hd i src votes voters (.voteResp resp)) := by
  by_cases hterm : resp.term < e.term - 1
  · simp only [recvAsCandidate, handleVoteResponse, if_pos hterm, lt_irrefl]
    exact tally_cases hrole hworker rfl
  cases hflag : resp.voteFlag with
  | reject | lastTermError | firstVote =>
    simp only [recvAsCandidate, handleVoteResponse, hflag]
    split_ifs
    · exact giveUp_cases
    · simp only [lt_irrefl]
      exact tally_cases hrole hworker rfl
  | leaderReject =>
    simp only [recvAsCandidate, handleVoteResponse, if_neg hterm, hflag]
    exact giveUp_cases
  | outdated | discard =>
    simp only [recvAsCandidate, handleVoteResponse, if_neg hterm, hflag, lt_irrefl]
    exact tally_cases hrole hworker rfl
  | granted =>
    simp only [recvAsCandidate, handleVoteResponse, if_neg hterm, hflag]
    by_cases hmaj : majority n ≤ votes.vote + 1
    · simp only [if_pos hmaj]
      exact .counts hflag ⟨hworker, rfl, .inl ⟨rfl, hmaj, rfl⟩, rfl⟩
    · simp only [if_neg hmaj, lt_add_iff_pos_right, Nat.one_pos]
      refine .counts hflag ⟨hworker, rfl, .inr ⟨?_, rfl⟩, rfl⟩
      simp [hrole]

/-! ### The events -/

theorem recvAsFollower_cases (msg : Msg B H) (hrole : e.role = .follower)
    (hworker : e.worker = .following) :
    Decides i e (.recv src msg) (e.recvAsFollower hd i src msg) := by
  cases msg with
  | voteReq req =>
    exact voteReq_cases req done (fun e' he' => by simp [done, he', hrole]) (fun _ => rfl)
  | voteResp resp | heartBeatResp resp =>
    exact .quiet (quiet_of_eq (.inl rfl) rfl (.inl rfl) (by simp [recvAsFollower]))
  | heartBeat hb =>
    exact heartBeat_cases hd hb (fun e => { e with leader := hb.leader })
      (fun e' he' => by simp [he', hrole]) (fun e' he' _ _ h => by simp [he', hworker] at h)

theorem enter_cases (hworker : e.worker = .idle) : Decides i e .enter (e.enter i) := by
  unfold enter
  dsimp only
  split
  · rename_i hleader
    obtain ⟨-, hsame⟩ := resetConfig_of_role_ne (i := i) (e := e) (by simp [hleader])
    rw [hsame]
    exact .quiet (quiet_of_eq (.inl rfl) rfl (.inr fun _ _ h => by cases h) (by simp))
  · rename_i hfollower
    exact .quiet (quiet_of_not (by simp [hfollower]) (fun _ _ h => by cases h) (by simp))
  · rename_i hcandidate
    obtain ⟨hfits, hsame⟩ := resetConfig_of_role_ne (i := i) (e := e) (by simp [hcandidate])
    rw [hsame] at hcandidate ⊢
    split_ifs with hmaj
    · exact .stands ⟨hfits, hcandidate, rfl, .inl ⟨rfl, hmaj, hworker⟩, _, rfl, rfl⟩
    · exact .stands ⟨hfits, hcandidate, rfl, .inr ⟨hcandidate, rfl⟩, _, rfl, rfl⟩

/-- A candidate that has not yet asked for votes is of no account. -/
theorem quiet_switchToCandidate : Quiet e (e.switchToCandidate i).done [] :=
  quiet_of_not (by simp [done, switchToCandidate]) (fun _ _ h => by cases h) (by simp)

theorem timeout_cases (h : e.timeout i = some r) : Decides i e ev r := by
  unfold timeout at h
  split at h
  · split at h
    · cases h
      exact inRole_cases fun _ => .quiet quiet_switchToCandidate
    · cases h
  · cases h
    refine inRole_cases fun _ => ?_
    split
    · exact .quiet quiet_switchToCandidate
    · exact giveUp_cases
  · cases h
    exact inRole_cases fun _ => .quiet quiet_switchToCandidate
  · cases h

theorem reportHighest_kept (number : Int) : Kept e (e.reportHighest number).1 := by
  unfold reportHighest
  split <;> exact ⟨.inl rfl, rfl, rfl⟩

variable [DecidableEq H] {hd : Headers B H}

theorem tryCommit_cases (hd : Headers B H) (idx : NodeIndex) (hash : Option H) :
    let e' := e.tryCommitUncommitedBlock hd idx hash
    e'.role = e.role ∧ e'.term = e.term ∧ (e'.worker = e.worker ∨ e'.worker = .executing) := by
  unfold tryCommitUncommitedBlock commitDue
  split
  · exact ⟨rfl, rfl, .inl rfl⟩
  split
  · split
    · dsimp only
      split
      · split
        · exact ⟨rfl, rfl, .inl rfl⟩
        · exact ⟨rfl, rfl, .inr rfl⟩
      · exact ⟨rfl, rfl, .inl rfl⟩
    · split
      · split
        · exact ⟨rfl, rfl, .inl rfl⟩
        · exact ⟨rfl, rfl, .inr rfl⟩
      · exact ⟨rfl, rfl, .inl rfl⟩
  · exact ⟨rfl, rfl, .inl rfl⟩

theorem quiet_tryCommit (hd : Headers B H) (idx : NodeIndex) (hash : Option H)
    (memberBlock : List (Fin n × BlockRef H)) :
    Quiet e ({ e with memberBlock := memberBlock }.tryCommitUncommitedBlock hd idx hash) [] := by
  obtain ⟨hrole, hterm, hworker⟩ :=
    tryCommit_cases (e := { e with memberBlock := memberBlock }) hd idx hash
  refine quiet_of_eq (.inl hrole) hterm ?_ (by simp)
  rcases hworker with h | h
  · exact .inl h
  · exact .inr fun votes voters hw => by rw [h] at hw; cases hw

theorem recvAsLeader_cases (hd : Headers B H) (msg : Msg B H) :
    Decides i e (.recv src msg) (e.recvAsLeader hd i src msg) := by
  cases msg with
  | voteReq req =>
    exact voteReq_cases req (fun e => (e.switchToFollower invalidIndex).done)
      (fun _ _ => switchToFollower_done_role _) (fun _ => rfl)
  | voteResp resp => exact .quiet (quiet_of_eq (.inl rfl) rfl (.inl rfl) (by simp [recvAsLeader]))
  | heartBeat hb =>
    exact heartBeat_cases hd hb (fun e => (e.switchToFollower hb.leader).done)
      (fun _ _ => switchToFollower_done_role _) (fun _ _ _ _ h => by cases h)
  | heartBeatResp resp =>
    simp only [recvAsLeader]
    split
    · exact .quiet (quiet_tryCommit hd _ _ _)
    · exact .quiet (quiet_of_eq (.inl rfl) rfl (.inl rfl) (by simp))

theorem recvAsCandidate_cases (hd : Headers B H) (msg : Msg B H) (hrole : e.role = .candidate)
    (hworker : e.worker = .campaigning votes voters) :
    Decides i e (.recv src msg) (e.recvAsCandidate hd i src votes voters msg) := by
  cases msg with
  | voteReq req => exact recvAsLeader_cases hd (.voteReq req)
  | voteResp resp => exact voteResp_cases hd resp hrole hworker
  | heartBeat hb => exact recvAsLeader_cases hd (.heartBeat hb)
  | heartBeatResp resp =>
    exact .quiet (quiet_of_eq (.inl rfl) rfl (.inl rfl) (by simp [recvAsCandidate]))

theorem recv_cases (hd : Headers B H) {msg : Msg B H} (h : e.recv hd i src msg = some r) :
    Decides i e (.recv src msg) r := by
  unfold recv at h
  split at h
  · split at h
    · cases h
      exact inRole_cases fun _ => recvAsLeader_cases hd msg
    · cases h
  · rename_i votes voters hworker
    cases h
    exact inRole_cases fun hrole => recvAsCandidate_cases hd msg hrole hworker
  · rename_i hworker
    cases h
    exact inRole_cases fun hrole => recvAsFollower_cases hd msg hrole hworker
  · cases h

theorem generateHeartbeat_cases (hd : Headers B H) :
    let r := e.generateHeartbeat hd i
    r.1.role = e.role ∧ r.1.term = e.term ∧ r.1.worker = e.worker := by
  unfold generateHeartbeat
  split <;> exact ⟨rfl, rfl, rfl⟩

theorem beat_cases (h : e.beat hd i = some r) : Decides i e ev r := by
  unfold beat at h
  split at h
  · split at h
    · cases h
      obtain ⟨hrole, hterm, hworker⟩ := generateHeartbeat_cases (e := e) (i := i) hd
      exact inRole_cases fun _ => .quiet (quiet_of_eq
        (.inl ((clearFirstVoteCache_role _).trans hrole)) ((clearFirstVoteCache_term _).trans hterm)
        (.inl ((clearFirstVoteCache_worker _).trans hworker)) (by simp [Silent]))
    · cases h
  · cases h

theorem alone_cases (h : e.alone hd i = some r) : Decides i e ev r := by
  unfold alone at h
  split at h
  · split at h
    · cases h
    · cases h
      exact inRole_cases fun _ => .quiet (quiet_tryCommit hd _ _ e.memberBlock)
  · cases h

theorem checkAndSave_cases (hd : Headers B H) (b : B) (result : Option H) :
    Kept e (e.checkAndSave hd b result).1 ∧ ∀ a ∈ (e.checkAndSave hd b result).2, a.Silent := by
  unfold checkAndSave
  split
  · split
    · exact ⟨⟨.inl rfl, rfl, rfl⟩, by simp [Silent]⟩
    · exact ⟨kept_refl e, by simp⟩
  · exact ⟨kept_refl e, by simp⟩

theorem reportClear_kept (hd : Headers B H) : Kept e (e.reportClear hd i) := by
  unfold reportClear
  exact ⟨resetConfig_role _ _, by simp, by simp⟩

theorem workerCommit_cases {valid : Bool} {result : Option H}
    (h : e.workerCommit hd i valid result = some (e', acts)) : Quiet e e' acts := by
  unfold workerCommit at h
  split at h
  · split at h
    · cases h
      split <;> exact quiet_worker (kept_refl e) (fun _ _ h => by cases h) (by simp)
    · cases h
      exact quiet_worker (kept_refl e) (fun _ _ h => by cases h) (by simp)
  · rename_i b _
    cases h
    obtain ⟨hkept, hsilent⟩ := checkAndSave_cases hd b result
    exact quiet_worker hkept (fun _ _ h => by cases h) hsilent
  · cases h
    have hkept := reportHighest_kept (e := e) ((e.uncommitted.map hd.number).getD 0)
    split <;> exact quiet_worker hkept (fun _ _ h => by cases h) (by simp)
  · cases h
    exact quiet_worker (reportClear_kept hd) (fun _ _ h => by cases h) (by simp)
  · cases h

theorem sealerTurn_cases {valid : Bool} {result : Option H}
    (h : e.sealerTurn hd i valid result = some (e', acts)) : Quiet e e' acts := by
  unfold sealerTurn at h
  split at h
  · split at h
    · cases h
      exact quiet_sealer (kept_refl e) (by simp)
    · cases h
  · cases h
    split <;> exact quiet_sealer (reportHighest_kept e.head.height) (by simp)
  · cases h
    exact quiet_sealer (reportClear_kept hd) (by simp)
  · cases h
    exact quiet_sealer (kept_refl e) (by simp)
  · split at h
    · cases h
      exact quiet_of_eq (.inl rfl) rfl (.inl rfl) (by simp)
    · cases h
  · cases h
    exact quiet_sealer (kept_refl e) (by simp)
  · rename_i b _
    cases h
    obtain ⟨hkept, hsilent⟩ := checkAndSave_cases hd b result
    exact quiet_sealer hkept hsilent

/-- **Every step** of an engine is one of the four. -/
theorem step_cases (h : e.step hd i ev = some r) : Decides i e ev r := by
  cases ev with
  | enter =>
    simp only [step] at h
    split at h
    · rename_i hworker
      cases h
      exact enter_cases hworker
    · cases h
  | leave =>
    simp only [step] at h
    split at h <;> cases h <;> exact .quiet quiet_done
  | timeout => exact timeout_cases h
  | beat => exact beat_cases h
  | alone => exact alone_cases h
  | recv src msg => exact recv_cases hd h
  | workerCommit valid result => exact .quiet (workerCommit_cases h)
  | sealerReport =>
    simp only [step] at h
    split at h
    · cases h
      exact .quiet (quiet_sealer (kept_refl e) (by simp))
    · cases h
  | sealerTurn valid result => exact .quiet (sealerTurn_cases h)
  | sealBlock b =>
    simp only [step, sealBlock] at h
    split at h
    · cases h
      exact .quiet (quiet_of_eq (.inl rfl) rfl (.inl rfl) (by simp [Silent]))
    · cases h
  | sync blockHash =>
    cases h
    exact .quiet (quiet_of_eq (.inl rfl) rfl (.inl rfl) (by simp))

end Engine

/-! ### The condition -/

variable (s : Net n B H)

/-- For whom the sealer has voted in the term. -/
def Net.votesIn (i : Fin n) (term : UInt64) : List NodeIndex :=
  s.history.filterMap fun
    | (j, .vote t c) => if j = i ∧ t = term then some c else none
    | _ => none

theorem Net.mem_votesIn {s : Net n B H} {i : Fin n} {term : UInt64} {c : NodeIndex} :
    c ∈ s.votesIn i term ↔ (i, vote term c) ∈ s.history := by
  unfold votesIn
  rw [mem_filterMap]
  constructor
  · rintro ⟨⟨j, a⟩, hmem, ha⟩
    cases a with
    | vote t c' =>
      simp only [Option.ite_none_right_eq_some, Option.some.injEq] at ha
      obtain ⟨⟨rfl, rfl⟩, rfl⟩ := ha
      exact hmem
    | _ => cases ha
  · intro hmem
    exact ⟨_, hmem, by simp⟩

/-- Whose votes a candidate has counted. -/
def Engine.voters? (e : Engine n B H) : Option (List (Fin n)) :=
  match e.worker with
  | .campaigning _ voters => some voters
  | _ => none

/-- The condition on messages: a request that passes the test of the term comes from the candidate
the sealer has voted for in that term, if any; a vote is counted in the term it was given in, and
once. -/
def SafeMessage (i src : Fin n) : Msg B H → Prop
  | .voteReq req => (s.nodes i).role = .leader ∨ (s.nodes i).term < req.term →
      ∀ c ∈ s.votesIn i req.term, c = req.candidate
  | .voteResp resp => resp.voteFlag = .granted →
      ∀ voters ∈ (s.nodes i).voters?, resp.term = (s.nodes i).term ∧ src ∉ voters
  | _ => True

/-- The condition on a step: besides, nobody stands in a term in which they have voted for another
candidate. -/
def SafeElection (ev : Fin n × Event n B H) : Prop :=
  match ev.2 with
  | .enter => (s.nodes ev.1).role = .candidate →
      ∀ c ∈ s.votesIn ev.1 (s.nodes ev.1).term, c = nodeIndex ev.1
  | .recv src msg => SafeMessage s ev.1 src msg
  | _ => True

instance (i src : Fin n) : ∀ msg : Msg B H, Decidable (SafeMessage s i src msg)
  | .voteReq req =>
    have : Decidable (∀ c ∈ s.votesIn i req.term, c = req.candidate) := List.decidableBAll _ _
    inferInstanceAs (Decidable (_ ∨ _ → _))
  | .voteResp _ => inferInstanceAs (Decidable (_ → ∀ voters ∈ (s.nodes i).voters?, _))
  | .heartBeat _ | .heartBeatResp _ => instDecidableTrue

instance : ∀ ev : Fin n × Event n B H, Decidable (SafeElection s ev)
  | (i, .enter) =>
    have : Decidable (∀ c ∈ s.votesIn i (s.nodes i).term, c = nodeIndex i) := List.decidableBAll _ _
    inferInstanceAs (Decidable (_ → _))
  | (i, .recv src msg) => inferInstanceAs (Decidable (SafeMessage s i src msg))
  | (_, .leave) | (_, .timeout) | (_, .beat) | (_, .alone) | (_, .workerCommit _ _)
  | (_, .sealerReport) | (_, .sealerTurn _ _) | (_, .sealBlock _) | (_, .sync _) =>
    instDecidableTrue

/-! ### The invariant -/

/-- All the sealers have voted for `i` in the term. -/
def Elected (history : List (Fin n × Action n B H)) (i : Fin n) (term : UInt64)
    (voters : List (Fin n)) : Prop :=
  Fits i ∧ voters.Nodup ∧ ∀ j ∈ voters, (j, vote term (nodeIndex i)) ∈ history

structure ElectionOk (s : Net n B H) : Prop where
  requests : ∀ j dest req, (j, send dest (.voteReq req)) ∈ s.history →
    req.candidate = nodeIndex j
  granted : ∀ j dest resp, (j, send dest (.voteResp resp)) ∈ s.history →
    resp.voteFlag = .granted →
      ∃ i, dest = some i ∧ (j, vote resp.term (nodeIndex i)) ∈ s.history
  unique : ∀ j t c c', (j, vote t c) ∈ s.history → (j, vote t c') ∈ s.history →
    c = c'
  campaigns : ∀ i votes voters, (s.nodes i).worker = .campaigning votes voters →
    votes.vote = voters.length + 1 ∧ Elected s.history i (s.nodes i).term (i :: voters)
  leads : ∀ i, (s.nodes i).role = .leader →
    ∃ voters, majority n ≤ voters.length ∧ Elected s.history i (s.nodes i).term voters

theorem ElectionOk.start (heads : Fin n → BlockRef H) (noHash : H) :
    ElectionOk (start heads noHash : Net n B H) where
  requests _ _ _ h := by cases h
  granted _ _ _ h := by cases h
  unique _ _ _ _ h := by cases h
  campaigns _ _ _ h := by cases h
  leads _ h := by cases h

section Advance

variable {s : Net n B H} {i : Fin n} {e' : Engine n B H} {acts : List (Action n B H)}

theorem Elected.append {history new : List (Fin n × Action n B H)} {term : UInt64}
    {voters : List (Fin n)} (h : Elected history i term voters) :
    Elected (history ++ new) i term voters :=
  ⟨h.1, h.2.1, fun k hk => mem_append_left _ (h.2.2 k hk)⟩

section

variable (hok : ElectionOk s)
include hok

/-- What has to be shown of a step of sealer `i`. -/
theorem ElectionOk.advance
    (hrequests : ∀ dest req, .send dest (.voteReq req) ∈ acts → req.candidate = nodeIndex i)
    (hgranted : ∀ dest resp, .send dest (.voteResp resp) ∈ acts → resp.voteFlag = .granted →
      ∃ j, dest = some j ∧ .vote resp.term (nodeIndex j) ∈ acts) (hvotes : ∀ t c, .vote t c ∈ acts →
      (∀ c' ∈ s.votesIn i t, c' = c) ∧ ∀ c', .vote t c' ∈ acts → c' = c)
    (hcampaigns : ∀ votes voters, e'.worker = .campaigning votes voters →
      votes.vote = voters.length + 1 ∧
        Elected (s.advance i e' acts).history i e'.term (i :: voters)) (hleads : e'.role = .leader →
      ∃ voters, majority n ≤ voters.length ∧
        Elected (s.advance i e' acts).history i e'.term voters) :
    ElectionOk (s.advance i e' acts) where
  requests j dest req h := by
    rcases mem_advance.mp h with hold | ⟨rfl, hnew⟩
    · exact hok.requests j dest req hold
    · exact hrequests dest req hnew
  granted j dest resp h hflag := by
    rcases mem_advance.mp h with hold | ⟨rfl, hnew⟩
    · obtain ⟨k, hdest, hvote⟩ := hok.granted j dest resp hold hflag
      exact ⟨k, hdest, mem_advance.mpr (.inl hvote)⟩
    · obtain ⟨k, hdest, hvote⟩ := hgranted dest resp hnew hflag
      exact ⟨k, hdest, mem_advance.mpr (.inr ⟨rfl, hvote⟩)⟩
  unique j t c c' h h' := by
    rcases mem_advance.mp h with hold | ⟨rfl, hnew⟩ <;>
      rcases mem_advance.mp h' with hold' | ⟨hj, hnew'⟩
    · exact hok.unique j t c c' hold hold'
    · subst hj
      exact (hvotes t c' hnew').1 c (mem_votesIn.mpr hold)
    · exact ((hvotes t c hnew).1 c' (mem_votesIn.mpr hold')).symm
    · exact (hvotes t c' hnew').2 c hnew
  campaigns j votes voters h := by
    by_cases hj : j = i
    · subst hj
      simp only [advance, Function.update_self] at h ⊢
      exact hcampaigns votes voters h
    · simp only [Net.advance, Function.update_of_ne hj] at h ⊢
      obtain ⟨hcount, helected⟩ := hok.campaigns j votes voters h
      exact ⟨hcount, helected.append⟩
  leads j h := by
    by_cases hj : j = i
    · subst hj
      simp only [advance, Function.update_self] at h ⊢
      exact hleads h
    · simp only [Net.advance, Function.update_of_ne hj] at h ⊢
      obtain ⟨voters, hmaj, helected⟩ := hok.leads j h
      exact ⟨voters, hmaj, helected.append⟩

theorem ElectionOk.quiet (h : Quiet (s.nodes i) e' acts) : ElectionOk (s.advance i e' acts) := by
  refine hok.advance (fun dest req hm => (h.silent _ hm).elim)
    (fun dest resp hm hflag => absurd hflag (h.silent _ hm)) (fun t c hm => (h.silent _ hm).elim)
    ?_ ?_
  · intro votes' voters hw
    obtain ⟨hterm, votes, hw, hvote⟩ := h.campaigns votes' voters hw
    obtain ⟨hcount, helected⟩ := hok.campaigns i votes voters hw
    rw [hvote, hterm]
    exact ⟨hcount, helected.append⟩
  · intro hl
    obtain ⟨hl, hterm⟩ := h.leads hl
    obtain ⟨voters, hmaj, helected⟩ := hok.leads i hl
    rw [hterm]
    exact ⟨voters, hmaj, helected.append⟩

theorem ElectionOk.grants {src : Fin n} {req : RaftVoteReq H}
    (h : Grants req src (s.nodes i) e' acts) (hsent : s.Sent src i (.voteReq req))
    (hsafe : SafeMessage s i src (.voteReq req)) : ElectionOk (s.advance i e' acts) := by
  obtain ⟨resp, hterm, rfl⟩ := h.acts
  have hcand : req.candidate = nodeIndex src := by
    rcases hsent with hs | hs <;> exact hok.requests src _ req hs
  refine hok.advance ?_ ?_ ?_ ?_ ?_
  · intro dest req' hm
    simp at hm
  · intro dest resp' hm hflag
    simp only [mem_cons, send.injEq, Msg.voteResp.injEq, reduceCtorEq,
      not_mem_nil, or_false, false_or] at hm
    obtain ⟨rfl, rfl⟩ := hm
    exact ⟨src, rfl, by simp [hterm, hcand]⟩
  · intro t c hm
    simp only [mem_cons, reduceCtorEq, not_mem_nil, or_false] at hm
    obtain ⟨rfl, rfl⟩ := hm
    exact ⟨hsafe h.passed, fun c' hc' => by simpa using hc'⟩
  · intro votes voters hw
    rw [h.worker] at hw
    cases hw
  · exact fun hl => absurd hl h.role

theorem ElectionOk.stands (h : Stands i (s.nodes i) e' acts) (hsafe : SafeElection s (i, .enter)) :
    ElectionOk (s.advance i e' acts) := by
  obtain ⟨req, hcand, rfl⟩ := h.acts
  have helected : Elected (s.advance i e'
      [.send none (.voteReq req), .vote (s.nodes i).term (nodeIndex i)]).history i e'.term [i] := by
    refine ⟨h.fits, nodup_singleton i, fun j hj => ?_⟩
    obtain rfl := mem_singleton.mp hj
    exact mem_advance.mpr (.inr ⟨rfl, by simp [h.term]⟩)
  refine hok.advance ?_ ?_ ?_ ?_ ?_
  · intro dest req' hm
    simp only [mem_cons, send.injEq, Msg.voteReq.injEq, reduceCtorEq, not_mem_nil, or_false] at hm
    rw [hm.2, hcand]
  · intro dest resp hm
    simp at hm
  · intro t c hm
    simp only [mem_cons, reduceCtorEq, not_mem_nil, or_false, false_or] at hm
    obtain ⟨rfl, rfl⟩ := hm
    exact ⟨hsafe h.role, fun c' hc' => by simpa using hc'⟩
  · intro votes voters hw
    rcases h.next with ⟨-, -, hidle⟩ | ⟨-, hw'⟩
    · rw [hidle] at hw
      cases hw
    · rw [hw'] at hw
      obtain ⟨rfl, rfl⟩ := Worker.campaigning.inj hw
      exact ⟨rfl, helected⟩
  · intro hl
    rcases h.next with ⟨-, hmaj, -⟩ | ⟨hrole, -⟩
    · exact ⟨[i], hmaj, helected⟩
    · rw [hrole] at hl
      cases hl

theorem ElectionOk.counts {src : Fin n} {resp : RaftVoteResp H} {votes : VoteState}
    {voters : List (Fin n)} (hne : src ≠ i) (h : Counts src votes voters (s.nodes i) e' acts)
    (hflag : resp.voteFlag = .granted) (hsent : s.Sent src i (.voteResp resp))
    (hsafe : SafeMessage s i src (.voteResp resp)) : ElectionOk (s.advance i e' acts) := by
  obtain ⟨hworker, hterm, hnext, rfl⟩ := h
  obtain ⟨hrespTerm, hfresh⟩ := hsafe hflag voters (by simp [Engine.voters?, hworker])
  -- the response was meant for this candidate, in this term
  have hvote : (src, vote (s.nodes i).term (nodeIndex i)) ∈ s.history := by
    rw [← hrespTerm]
    rcases hsent with hs | hs
    · obtain ⟨k, hk, -⟩ := hok.granted src _ resp hs hflag
      cases hk
    · obtain ⟨k, hk, hv⟩ := hok.granted src _ resp hs hflag
      cases hk
      exact hv
  obtain ⟨hcount, hfits, hnodup, hall⟩ := hok.campaigns i votes voters hworker
  have helected : Elected (s.advance i e' []).history i e'.term (i :: src :: voters) := by
    refine ⟨hfits, ?_, ?_⟩
    · rw [nodup_cons] at hnodup ⊢
      refine ⟨?_, nodup_cons.mpr ⟨hfresh, hnodup.2⟩⟩
      rw [mem_cons]
      rintro (rfl | hmem)
      · exact hne rfl
      · exact hnodup.1 hmem
    · intro j hj
      rw [hterm]
      refine mem_advance.mpr (.inl ?_)
      rcases mem_cons.mp hj with rfl | hj
      · exact hall _ mem_cons_self
      · rcases mem_cons.mp hj with rfl | hj
        · exact hvote
        · exact hall j (mem_cons_of_mem i hj)
  refine hok.advance (by simp) (by simp) (by simp) ?_ ?_
  · intro votes' voters' hw
    rcases hnext with ⟨-, -, hidle⟩ | ⟨-, hw'⟩
    · rw [hidle] at hw
      cases hw
    · rw [hw'] at hw
      obtain ⟨rfl, rfl⟩ := Worker.campaigning.inj hw
      exact ⟨by simp [hcount], helected⟩
  · intro hl
    rcases hnext with ⟨-, hmaj, -⟩ | ⟨hrole, -⟩
    · exact ⟨i :: src :: voters, by simpa [hcount] using hmaj, helected⟩
    · exact absurd hl hrole

end

end Advance

variable [DecidableEq B] [DecidableEq H]

theorem ElectionOk.step {hd : Headers B H} {s s' : Net n B H} {ev : Fin n × Event n B H}
    (hok : ElectionOk s) (h : Guarded SafeElection (Steps (step hd)) s ev s') : ElectionOk s' := by
  obtain ⟨hsafe, hstep⟩ := h
  obtain ⟨e', acts, hpossible, hengine, rfl⟩ := step_eq_some hstep
  obtain ⟨i, event⟩ := ev
  cases Engine.step_cases hengine with
  | quiet hquiet => exact hok.quiet hquiet
  | grants hgrants => exact hok.grants hgrants hpossible.2 hsafe
  | stands hstands => exact hok.stands hstands hsafe
  | counts hflag hcounts => exact hok.counts hpossible.1 hcounts hflag hpossible.2 hsafe

/-- **Election safety.** In every run whose steps meet the condition, two leaders of one term are
the same sealer. -/
theorem leaders_of_term_unique (hd : Headers B H) (heads : Fin n → BlockRef H) (noHash : H)
    {es : List (Fin n × Event n B H)} {s : Net n B H}
    (hrun : Run (Guarded SafeElection (Steps (step hd))) (start heads noHash) es s)
    {i j : Fin n} (hi : (s.nodes i).role = .leader) (hj : (s.nodes j).role = .leader)
    (hterm : (s.nodes i).term = (s.nodes j).term) : i = j := by
  have hok : ElectionOk s := hrun.invariant (fun _ s => ElectionOk s)
    (ElectionOk.start heads noHash) fun _ _ _ _ hok hs => hok.step hs
  obtain ⟨voters, hmaj, hfits, hnodup, hvotes⟩ := hok.leads i hi
  obtain ⟨voters', hmaj', hfits', hnodup', hvotes'⟩ := hok.leads j hj
  obtain ⟨z, hz, hz'⟩ : ∃ z ∈ voters.toFinset, z ∈ voters'.toFinset := by
    refine Quorum.exists_common (Finset.subset_univ _) (Finset.subset_univ _) ?_
    rw [toFinset_card_of_nodup hnodup, toFinset_card_of_nodup hnodup', Finset.card_univ,
      Fintype.card_fin]
    have hlt := lt_two_mul_majority hfits
    omega
  have hindex := hok.unique z _ _ _ (hvotes z (mem_toFinset.mp hz))
    (hterm ▸ hvotes' z (mem_toFinset.mp hz'))
  exact nodeIndex_inj hfits hfits' hindex

/-! ### Elections of three sealers -/

scoped instance neZero_three : NeZero 3 := ⟨by decide⟩

/-- Blocks that are their own numbers and hashes. -/
def plainHeaders : Headers Nat Nat := ⟨fun b => b, fun _ => 0, id, Function.injective_id⟩

/-- Three sealers on a chain with only a genesis block. -/
def threeSealers : Net 3 Nat Nat := start (fun _ => ⟨0, 0⟩) 0

/-- The request of a candidate that has seen neither a leader nor a block. -/
def requestOf (i : Fin 3) (term : UInt64) : Msg Nat Nat :=
  .voteReq ⟨⟨nodeIndex i, term, 0, 0⟩, nodeIndex i, 0, 0⟩

/-- The response of such a sealer. -/
def responseOf (i : Fin 3) (term : UInt64) (flag : VoteRespFlag) : Msg Nat Nat :=
  .voteResp ⟨⟨nodeIndex i, term, 0, 0⟩, flag, 0⟩

/-- Sealer 0 asks sealer 1 for its vote, which sealer 1 gives when it is asked again. -/
def plainElection : List (Fin 3 × Event 3 Nat Nat) :=
  [(0, .enter), (1, .enter), (0, .timeout), (0, .enter), (1, .recv 0 (requestOf 0 1)),
    (0, .recv 1 (responseOf 1 0 .firstVote)), (1, .recv 0 (requestOf 0 1)),
    (0, .recv 1 (responseOf 1 1 .granted))]

theorem plainElection_unique :
    ∃ s, Run (Guarded SafeElection (Steps (step plainHeaders))) threeSealers plainElection s ∧
      (s.nodes 0).role = .leader ∧
      ∀ j, (s.nodes j).role = .leader → (s.nodes 0).term = (s.nodes j).term → 0 = j := by
  refine exists_guardedRun_of_exec (p := fun s => (s.nodes 0).role = .leader) (by decide +kernel)
    fun s hrun hrole => ⟨hrole, fun j hj hterm => ?_⟩
  exact leaders_of_term_unique plainHeaders _ 0 hrun hrole hj hterm

/-- Sealers 0 and 2 stand in term 1, sealer 1 votes for sealer 0, and both stand again in term 2
before the vote arrives. Sealer 0 counts it in term 2, in which sealer 1 votes for sealer 2. -/
def lateVote : List (Fin 3 × Event 3 Nat Nat) :=
  [(0, .enter), (1, .enter), (2, .enter), (0, .timeout), (0, .enter), (2, .timeout), (2, .enter),
    (1, .recv 0 (requestOf 0 1)), (1, .recv 0 (requestOf 0 1)), (1, .enter),
    (2, .recv 0 (requestOf 0 1)), (0, .recv 2 (requestOf 2 1)),
    (0, .recv 2 (responseOf 2 1 .discard)), (0, .timeout), (0, .enter),
    (2, .recv 0 (responseOf 0 1 .discard)), (2, .timeout), (2, .enter),
    (0, .recv 1 (responseOf 1 1 .granted)),
    (1, .recv 2 (requestOf 2 2)), (2, .recv 1 (responseOf 1 2 .granted))]

theorem two_leaders_of_term :
    ∃ s, Run (Steps (step plainHeaders)) threeSealers lateVote s ∧
      (s.nodes 0).role = .leader ∧ (s.nodes 2).role = .leader ∧
      (s.nodes 0).term = 2 ∧ (s.nodes 2).term = 2 := by
  exact exists_run_of_exec (by decide +kernel) fun _ _ h => h

end Rcc.Raft
