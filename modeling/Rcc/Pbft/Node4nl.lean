import Rcc.Pbft.Engine4nl
import Rcc.Pbft.Symbolic

/-!
# Rcc.Pbft.Node4nl

One node of the leaderless protocol as a transition system. An event is a received 4nl
message or a block the sealer hands over; a node is its engine with everything it has sent
and committed so far.

Every handler ends in the same tail: vote for a cached proposal, commit to one, save the
round or merely move the schedule on. `Effect` lists these moves with their guards, and
`handle_effect` says that a handler is the insertion its event calls for (`Arrival`) followed
by such a tail. The invariants of the later modules are proved per move, never by unfolding
the handlers.
-/

namespace Rcc.Pbft

open List

variable {H Id Sg : Type}

/-- What the engine is called with. -/
inductive Event (H Id Sg : Type) where
  /-- A `PrepareReqPacket4nl`. -/
  | prepare (req : PrepareReq4nl H Id Sg) (env : Env)
  /-- A `SignReqPacket4nl`. -/
  | sign (req : PBFTMsg H Sg) (env : Env)
  /-- A `CommitReqPacket4nl`. -/
  | commit (req : PBFTMsg H Sg) (env : Env)
  /-- The sealer's block: its transactions and its time stamp. -/
  | sealed (txs : List (Transaction H)) (timestamp : Nat) (env : Env)

def Event.env : Event H Id Sg → Env
  | .prepare _ env | .sign _ env | .commit _ env | .sealed _ _ env => env

/-- An engine and its outputs, oldest first. -/
structure Node (H Id Sg : Type) where
  engine : Engine H Id Sg
  outputs : List (Output H Id Sg)

section Step

variable [DecidableEq Id]

/-- `PBFTSealer::setBlock`: the header of a block the node seals itself. -/
def Engine.setBlock (c : Crypto H Id Sg) (txs : List (Transaction H)) (timestamp : Nat)
    (e : Engine H Id Sg) : Block H Id Sg :=
  let header := (BlockHeader.clear e.highest.header.stateRoot).populateFromParent c
    e.highest.header
  Block.calTransactionRoot c
    { header :=
        { header with
          sealer := e.nodeIdx
          sealerList := e.sealerList
          timestamp := timestamp }
      transactions := txs
      sigList := [] }

variable [DecidableEq H] [DecidableEq Sg] [StdHash H] [StdHash Sg] (c : Crypto H Id Sg)

/-- The handler of an event. A message off the network comes without an in-memory block. -/
def Engine.handle (ev : Event H Id Sg) (e : Engine H Id Sg) : Result H Id Sg :=
  match ev with
  | .prepare req env => e.handlePrepareMsg4nl c env { req with pBlock := none }
  | .sign req env => e.handleSignMsg4nl c env req
  | .commit req env => e.handleCommitMsg4nl c env req
  | .sealed txs timestamp env => e.generatePrepare c env (e.setBlock c txs timestamp)

/-- The rounds a node has committed, oldest first. -/
def Node.rounds (n : Node H Id Sg) : List Int := (savedOf n.outputs).map Saved.round

/-- A node that is no sealer drops its messages and does not seal. -/
def Node.step (n : Node H Id Sg) (ev : Event H Id Sg) :
    Option (Node H Id Sg) :=
  if n.engine.nodeIdx = maxIdx then some n
  else (n.engine.handle c ev).map fun (e, out) => ⟨e, n.outputs ++ out⟩

/-! ### Moves -/

namespace Engine

variable {c : Crypto H Id Sg} {env : Env} {r : Int} {e e' : Engine H Id Sg}
  {out : List (Output H Id Sg)}

/-- The node's own sign vote enters its cache. -/
def addOwnSign (c : Crypto H Id Sg) (t : Nat) (req : PrepareReq4nl H Id Sg) (e : Engine H Id Sg) :
    Engine H Id Sg :=
  { e with
    reqCache := e.reqCache.addSignReq4nl e.highestblockNumber (voteFor c e.keyPair t req) }

/-- The node's own commit vote enters its cache. -/
def addOwnCommit (c : Crypto H Id Sg) (t : Nat) (req : PrepareReq4nl H Id Sg) (e : Engine H Id Sg) :
    Engine H Id Sg :=
  { e with
    reqCache := e.reqCache.addCommitReq4nl e.highestblockNumber (voteFor c e.keyPair t req) }

/-- What a handler working on height `r` does after its event has arrived. -/
inductive Effect (c : Crypto H Id Sg) (env : Env) (r : Int) :
    Engine H Id Sg → List (Output H Id Sg) → Engine H Id Sg → Prop
  | done (e : Engine H Id Sg) : Effect c env r e [] e
  | commit {e e' : Engine H Id Sg} {out : List (Output H Id Sg)} {i : Int}
      {req : PrepareReq4nl H Id Sg} (hreq : e.reqCache.proposal? r i = some req)
      (tail : Effect c env r (e.addOwnCommit c env.utcTime req) out e') :
      Effect c env r e (.commit (voteFor c e.keyPair env.utcTime req) :: out) e'
  | save {e : Engine H Id Sg} {txs : List (Transaction H)}
      (hready : e.checkSignAndCommitAll4nl r e.globalSealingNodes = true)
      (htxs : appendProposals (e.reqCache.round r).nodes [] = some txs) :
      Effect c env r e
        [.saved ⟨r, (e.reqCache.round r).nodes, bigBlockFor4nl c e.highest.header txs⟩]
        ((e.updateSchedule r).afterCommit r (bigBlockFor4nl c e.highest.header txs))
  | reschedule {e : Engine H Id Sg}
      (hready : e.checkSignAndCommitAll4nl r e.globalSealingNodes = true)
      (hcommit : env.commitOk = false) :
      Effect c env r e [] (e.updateSchedule r)

/-- **The rule for moves.** What every move keeps holds after all of them; what a save
establishes holds of every round saved. `Q` is what is known of the outputs. -/
theorem Effect.rule {I : Engine H Id Sg → Prop} {P : Saved H Id Sg → Prop}
    {Q : Output H Id Sg → Prop} (hcommit : ∀ e i req, I e → e.reqCache.proposal? r i = some req →
      Q (.commit (voteFor c e.keyPair env.utcTime req)) → I (e.addOwnCommit c env.utcTime req))
    (hsave : ∀ e txs, I e → e.checkSignAndCommitAll4nl r e.globalSealingNodes = true →
      appendProposals (e.reqCache.round r).nodes [] = some txs →
      I ((e.updateSchedule r).afterCommit r (bigBlockFor4nl c e.highest.header txs)) ∧
        P ⟨r, (e.reqCache.round r).nodes, bigBlockFor4nl c e.highest.header txs⟩)
    (hreschedule : ∀ e, I e → e.checkSignAndCommitAll4nl r e.globalSealingNodes = true →
      env.commitOk = false → I (e.updateSchedule r)) (h : Effect c env r e out e')
    (hout : ∀ o ∈ out, Q o) (hI : I e) : I e' ∧ ∀ s, .saved s ∈ out → P s := by
  induction h with
  | done e => exact ⟨hI, by simp⟩
  | commit hreq tail ih =>
    have hstep := hcommit _ _ _ hI hreq (hout _ mem_cons_self)
    obtain ⟨hI', hP⟩ := ih (fun o ho => hout o (mem_cons_of_mem _ ho)) hstep
    refine ⟨hI', fun s hs => hP s ?_⟩
    simpa using hs
  | save hready htxs =>
    obtain ⟨hI', hP⟩ := hsave _ _ hI hready htxs
    refine ⟨hI', fun s hs => ?_⟩
    simp only [mem_singleton, Output.saved.injEq] at hs
    exact hs ▸ hP
  | reschedule hready hc => exact ⟨hreschedule _ hI hready hc, by simp⟩

theorem saveRound_effect (hready : e.checkSignAndCommitAll4nl r e.globalSealingNodes = true)
    (h : e.saveRound c env r = some (e', out)) : Effect c env r e out e' := by
  unfold saveRound at h
  split at h
  · cases h
  · rename_i block hblock
    obtain ⟨txs, htxs, rfl⟩ := Option.map_eq_some_iff.mp hblock
    split at h
    · cases h
      exact .done e
    · split_ifs at h with hcommit
      · cases h
        exact .reschedule hready hcommit
      · cases h
        exact .save hready htxs

theorem checkAndSave4nl_effect {i : Int} (h : e.checkAndSave4nl c env r i = some (e', out)) :
    Effect c env r e out e' := by
  unfold checkAndSave4nl at h
  split_ifs at h with hcheck
  · rw [Bool.and_eq_true] at hcheck
    exact saveRound_effect hcheck.2 h
  · cases h
    exact .done e

theorem checkAndCommit4nl_effect {i : Int} {byself : Bool}
    (h : e.checkAndCommit4nl c env r i byself = some (e', out)) : Effect c env r e out e' := by
  unfold checkAndCommit4nl at h
  split at h
  · cases h
    exact .done e
  · rename_i req hreq
    dsimp only at h
    split at h
    · obtain ⟨⟨e₁, out₁⟩, hsave, heq⟩ := Option.map_eq_some_iff.mp h
      cases heq
      exact .commit hreq (checkAndSave4nl_effect hsave)
    · cases h
      exact .done e

end Engine

/-! ### Arrivals -/

/-- The proposal an event makes the engine cache, as it is cached. -/
def Event.proposal? (e : Engine H Id Sg) :
    Event H Id Sg → Option (PrepareReq4nl H Id Sg)
  | .prepare req _ =>
    if req.idx ≠ e.nodeIdx then
      (decodeProposal req.block).map fun b => { req with pBlock := some b }
    else some { req with pBlock := none }
  | .sealed txs timestamp env =>
    if txs.length = 0 then none
    else some (PrepareReq4nl.ofBlock c e.keyPair (e.setBlock c txs timestamp) env.view
      e.nodeIdx env.utcTime)
  | _ => none

namespace Engine

variable {c : Crypto H Id Sg} {e e' : Engine H Id Sg} {ev : Event H Id Sg} {env : Env}
  {out : List (Output H Id Sg)}

/-- The engine with a proposal cached and the node's own vote for it. -/
def addProposal (c : Crypto H Id Sg) (t : Nat) (req : PrepareReq4nl H Id Sg) (e : Engine H Id Sg) :
    Engine H Id Sg := { e with reqCache := e.reqCache.addPrepareReq4nl req }.addOwnSign c t req

/-- What an event does before the tail: the height the handler goes on with, what was sent so
far, and the state. -/
inductive Arrival (c : Crypto H Id Sg) (e : Engine H Id Sg) :
    Event H Id Sg → Int → List (Output H Id Sg) → Engine H Id Sg → Prop
  /-- A proposal is cached and voted for; a received one may take its transactions out of the
  pool, the node's own is broadcast. -/
  | proposal {ev : Event H Id Sg} {req : PrepareReq4nl H Id Sg} {pool : List (Transaction H)}
      (notify : Bool) (sent : List (Output H Id Sg)) (hreq : ev.proposal? c e = some req)
      (hpool : pool.Sublist e.txPool) (hsent : ∀ o ∈ sent, o = .prepare req) :
      Arrival c e ev req.height (sent ++ [.sign (voteFor c e.keyPair ev.env.utcTime req)])
        ({ e with txPool := pool, notifyNextLeaderSeal := notify }.addProposal c ev.env.utcTime req)
  | sign (req : PBFTMsg H Sg) (env : Env) :
      Arrival c e (.sign req env) req.height []
        { e with reqCache := e.reqCache.addSignReq4nl e.highestblockNumber req }
  | commit (req : PBFTMsg H Sg) (env : Env) :
      Arrival c e (.commit req env) req.height []
        { e with reqCache := e.reqCache.addCommitReq4nl e.highestblockNumber req }

theorem Arrival.not_saved {e₁ : Engine H Id Sg} {r : Int} {sent : List (Output H Id Sg)}
    (h : Arrival c e ev r sent e₁) (s : Saved H Id Sg) : .saved s ∉ sent := by
  cases h with
  | proposal _ _ _ _ hsent =>
    intro hs
    rcases mem_append.mp hs with hs | hs
    · cases hsent _ hs
    · simp at hs
  | sign => simp
  | commit => simp

theorem Arrival.savedOf_sent {e₁ : Engine H Id Sg} {r : Int} {sent : List (Output H Id Sg)}
    (h : Arrival c e ev r sent e₁) : savedOf sent = [] :=
  eq_nil_iff_forall_not_mem.mpr fun s hs => h.not_saved s (mem_savedOf.mp hs)

/-- What a handler does. -/
inductive Handled (c : Crypto H Id Sg) (e : Engine H Id Sg) (ev : Event H Id Sg) :
    List (Output H Id Sg) → Engine H Id Sg → Prop
  /-- Undecodable bytes, or an empty block of the node's own. -/
  | ignored (notify : Bool) (hreq : ev.proposal? c e = none) :
      Handled c e ev [] { e with notifyNextLeaderSeal := notify }
  /-- An arrival, followed by moves at the arrival's height. -/
  | moves {r : Int} {sent out : List (Output H Id Sg)} {e₁ e' : Engine H Id Sg}
      (harr : Arrival c e ev r sent e₁) (heff : Effect c ev.env r e₁ out e') :
      Handled c e ev (sent ++ out) e'

theorem onlyGenerateSignMsg4nl_effect {req : PrepareReq4nl H Id Sg}
    (h : e.onlyGenerateSignMsg4nl c env req = some (e', out)) :
    ∃ out₁, Effect c env req.height (e.addOwnSign c env.utcTime req) out₁ e' ∧
      out = .sign (voteFor c e.keyPair env.utcTime req) :: out₁ := by
  unfold onlyGenerateSignMsg4nl at h
  obtain ⟨⟨e₁, out₁⟩, hcommit, heq⟩ := Option.map_eq_some_iff.mp h
  cases heq
  exact ⟨out₁, checkAndCommit4nl_effect hcommit, rfl⟩

theorem handlePrepare_handled {req : PrepareReq4nl H Id Sg}
    (h : e.handlePrepareMsg4nl c env { req with pBlock := none } = some (e', out)) :
    e.Handled c (.prepare req env) out e' := by
  unfold handlePrepareMsg4nl at h
  split at h
  · rename_i hidx
    split at h
    · rename_i hdec
      cases h
      exact .ignored e.notifyNextLeaderSeal (by simp [Event.proposal?, hidx, hdec])
    · rename_i b hdec
      obtain ⟨pool, hpool, hdrop⟩ := dropHandledTransactions_eq b e
      rw [hdrop] at h
      obtain ⟨out₁, heff, rfl⟩ := onlyGenerateSignMsg4nl_effect h
      have hreq : Event.proposal? c e (.prepare req env) = some { req with pBlock := some b } := by
        simp [Event.proposal?, hidx, hdec]
      exact .moves (.proposal e.notifyNextLeaderSeal [] hreq hpool (by simp)) heff
  · rename_i hidx
    obtain ⟨out₁, heff, rfl⟩ := onlyGenerateSignMsg4nl_effect h
    have hreq : Event.proposal? c e (.prepare req env) = some { req with pBlock := none } := by
      simp [Event.proposal?, hidx]
    exact .moves (.proposal e.notifyNextLeaderSeal [] hreq (List.Sublist.refl _) (by simp)) heff

theorem generatePrepare_handled {txs : List (Transaction H)} {timestamp : Nat}
    (h : e.generatePrepare c env (e.setBlock c txs timestamp) = some (e', out)) :
    e.Handled c (.sealed txs timestamp env) out e' := by
  have hlen : (e.setBlock c txs timestamp).transactions.length = txs.length := rfl
  unfold generatePrepare at h
  rw [hlen] at h
  split_ifs at h with hempty
  · cases h
    exact .ignored false (by simp only [Event.proposal?, if_pos hempty])
  · obtain ⟨⟨e₁, out₁⟩, hhandle, heq⟩ := Option.map_eq_some_iff.mp h
    cases heq
    -- the node's own index: the block is there already and is not decoded
    unfold handlePrepareMsg4nl at hhandle
    rw [if_neg (by intro hne; exact hne rfl)] at hhandle
    obtain ⟨out₂, heff, rfl⟩ := onlyGenerateSignMsg4nl_effect hhandle
    have hreq : Event.proposal? c e (.sealed txs timestamp env) = some (PrepareReq4nl.ofBlock c
        e.keyPair (e.setBlock c txs timestamp) env.view e.nodeIdx env.utcTime) := by
      simp only [Event.proposal?, if_neg hempty]
    exact .moves (.proposal false [_] hreq (List.Sublist.refl _)
      fun o ho => mem_singleton.mp ho) heff

/-- **Inversion.** Whatever the event, a handler that returns has let the event arrive and then
made moves at the event's height. -/
theorem handle_effect (h : e.handle c ev = some (e', out)) : e.Handled c ev out e' := by
  cases ev with
  | prepare req env => exact handlePrepare_handled h
  | sign req env => exact .moves (.sign req env) (checkAndCommit4nl_effect h)
  | commit req env => exact .moves (.commit req env) (checkAndSave4nl_effect h)
  | sealed txs timestamp env => exact generatePrepare_handled h

end Engine

/-! ### Cached proposals -/

variable {c : Crypto H Id Sg} {n n' : Node H Id Sg} {ev : Event H Id Sg}

namespace Engine

/-- Every cached proposal is filed under its own height and index and satisfies `P`. -/
def CachedProposals (P : PrepareReq4nl H Id Sg → Prop) (e : Engine H Id Sg) : Prop :=
  ∀ r i req, e.reqCache.proposal? r i = some req → req.height = r ∧ (req.idx : Int) = i ∧ P req

variable {P : PrepareReq4nl H Id Sg → Prop} {e e' : Engine H Id Sg}
variable {r : Int} {env : Env} {out : List (Output H Id Sg)}

omit [DecidableEq Id] in
theorem CachedProposals.addProposal {req : PrepareReq4nl H Id Sg} {t : Nat}
    (hP : CachedProposals P e) (hreq : P req) : CachedProposals P (e.addProposal c t req) := by
  intro r i req' h
  simp only [Engine.addProposal, addOwnSign, ReqCache4nl.proposal?_addSignReq4nl,
    ReqCache4nl.proposal?_addPrepareReq4nl] at h
  split_ifs at h with hslot
  · cases h
    exact ⟨hslot.1.symm, hslot.2.symm, hreq⟩
  · exact hP r i req' h

theorem CachedProposals.arrival {sent : List (Output H Id Sg)} (hP : CachedProposals P e)
    (h : Arrival c e ev r sent e') (hreq : ∀ req ∈ ev.proposal? c e, P req) :
    CachedProposals P e' := by
  cases h with
  | proposal notify sent hreq' => exact CachedProposals.addProposal hP (hreq _ hreq')
  | sign m env | commit m env => exact fun r i req h => hP r i req (by simpa using h)

theorem CachedProposals.effect (hP : CachedProposals P e) (h : Effect c env r e out e') :
    CachedProposals P e' := by
  induction h with
  | done => exact hP
  | commit _ _ ih => exact ih fun r i req h => hP r i req (by simpa [addOwnCommit] using h)
  | save => exact fun r i req h => hP r i req (ReqCache4nl.proposal?_delCache4nl (by simpa using h))
  | reschedule => exact fun r i req h => hP r i req (by simpa using h)

/-- What is true of every proposal that arrives is true of every cached one. -/
theorem CachedProposals.handled (hP : CachedProposals P e) (h : Handled c e ev out e')
    (hreq : ∀ req ∈ ev.proposal? c e, P req) : CachedProposals P e' := by
  cases h with
  | ignored => exact hP
  | moves harr heff => exact (hP.arrival harr hreq).effect heff

theorem Effect.frame (h : Effect c env r e out e') :
    e'.sealerList = e.sealerList ∧ e'.keyPair = e.keyPair := by
  induction h with
  | done => exact ⟨rfl, rfl⟩
  | commit _ _ ih => exact ih
  | save => simp
  | reschedule => simp

/-- The sealer list and the key never change. -/
theorem Handled.frame (h : Handled c e ev out e') :
    e'.sealerList = e.sealerList ∧ e'.keyPair = e.keyPair := by
  cases h with
  | ignored => exact ⟨rfl, rfl⟩
  | moves harr heff =>
    obtain ⟨hlist, hkey⟩ := heff.frame
    rw [hlist, hkey]
    cases harr <;> exact ⟨rfl, rfl⟩

/-- Handlers only take transactions out of the pool. -/
theorem Effect.txPool_subset (h : Effect c env r e out e') : e'.txPool ⊆ e.txPool := by
  induction h with
  | done => exact List.Subset.refl _
  | commit _ _ ih => exact ih
  | @save e txs =>
    refine List.Subset.trans (filter_subset_self _) ?_
    simp
  | reschedule => simp

theorem Handled.txPool_subset (h : Handled c e ev out e') : e'.txPool ⊆ e.txPool := by
  cases h with
  | ignored => exact List.Subset.refl _
  | moves harr heff =>
    refine List.Subset.trans heff.txPool_subset ?_
    cases harr with
    | proposal notify sent hreq hpool hsent => exact hpool.subset
    | sign | commit => exact List.Subset.refl _

end Engine

/-- A step of a node either drops the event or is a handler's work. -/
theorem Node.step_cases (h : n.step c ev = some n') :
    (n.engine.nodeIdx = maxIdx ∧ n' = n) ∨ (n.engine.nodeIdx ≠ maxIdx ∧
      ∃ out e', n.engine.Handled c ev out e' ∧ n' = ⟨e', n.outputs ++ out⟩) := by
  unfold Node.step at h
  split_ifs at h with hidx
  · exact Or.inl ⟨hidx, (Option.some.inj h).symm⟩
  · obtain ⟨⟨e', out⟩, hhandle, rfl⟩ := Option.map_eq_some_iff.mp h
    exact Or.inr ⟨hidx, out, e', Engine.handle_effect hhandle, rfl⟩

theorem Node.step_outputs (h : n.step c ev = some n') : ∃ out, n'.outputs = n.outputs ++ out := by
  rcases Node.step_cases h with ⟨-, rfl⟩ | ⟨-, out, e', -, rfl⟩
  · exact ⟨[], (append_nil _).symm⟩
  · exact ⟨out, rfl⟩

theorem Node.step_txPool_subset (h : n.step c ev = some n') :
    n'.engine.txPool ⊆ n.engine.txPool := by
  rcases Node.step_cases h with ⟨-, rfl⟩ | ⟨-, out, e', hhandled, rfl⟩
  · exact List.Subset.refl _
  · exact hhandled.txPool_subset

end Step

/-! ### A group of four sealers

The failing inputs and witnesses of the later modules are runs of one node of this group. -/

/-- The environment in which everything succeeds at once. -/
def symbolicEnv : Env := ⟨0, 0, true, true⟩

/-- The sealer with key `key` at process start. -/
def symbolicNode (key : Nat) : Node Digest Nat Signature :=
  ⟨Engine.init [10, 11, 12, 13] key symbolicGenesis [], []⟩

/-- The proposal that sealer `i` makes of the transactions `txs` at process start. -/
def sealerProposal (i : Nat) (txs : List Nat) : PrepareReq4nl Digest Nat Signature :=
  PrepareReq4nl.ofBlock symbolic (10 + i)
    ((symbolicNode (10 + i)).engine.setBlock symbolic (txs.map symbolicTx) 0) 0 i 0

/-- The votes of the sealers `keys` on a proposal, as events. -/
def votesOn (keys : List Nat) (req : PrepareReq4nl Digest Nat Signature) :
    List (Event Digest Nat Signature) :=
  keys.flatMap fun key =>
    [.sign (voteFor symbolic key 0 req) symbolicEnv,
      .commit (voteFor symbolic key 0 req) symbolicEnv]

/-- Sealer 0 seals transaction 0 and receives one proposal from each of the others. -/
def fourProposals : List (Event Digest Nat Signature) :=
  [.sealed [symbolicTx 0] 0 symbolicEnv, .prepare (sealerProposal 1 [1]) symbolicEnv,
    .prepare (sealerProposal 2 [2]) symbolicEnv, .prepare (sealerProposal 3 [3]) symbolicEnv]

/-- A complete first round of sealer 0: the four proposals, each with two votes of others. -/
def honestRound : List (Event Digest Nat Signature) :=
  fourProposals ++ (List.range 4).flatMap fun i => votesOn [11, 12] (sealerProposal i [i])

end Rcc.Pbft
