import Rcc.Pbft.Merge
import Rcc.Pbft.Sealer4nl

/-!
# Rcc.Pbft.Retention

What becomes of the transactions that `doWork` takes out of the pool.

They leave the pool before their block is proposed, so that from then on only two places keep
them: the node's own proposal in the cache, and, after the round is committed, the chain
(`Kept`). A commit moves them from the first to the second (`Kept.effect`). They are lost when
the proposal is replaced before that, or was never made. `removed_transactions_kept` says that
nothing else loses them; `resealed_transaction_lost` is a run in which a timeout makes the
sealer propose a second block for the same height.
-/

namespace Rcc.Pbft

open List SealerNode Engine ReqCache4nl

variable {H Id Sg : Type}

section

variable [DecidableEq Id]

/-! ### Where a removed transaction is kept -/

variable {rounds : List Int} {e : Engine H Id Sg} {h : H}

/-- The block in memory of the node's own proposal for height `r`. -/
def Engine.ownBlock? (e : Engine H Id Sg) (r : Int) : Option (Block H Id Sg) :=
  (e.reqCache.proposal? r e.nodeIdx).bind PrepareReq4nl.pBlock

/-- The transaction `h` is in a block of the chain, or in the node's own proposal for a height
that is none of the committed `rounds`. -/
def Kept (rounds : List Int) (e : Engine H Id Sg) (h : H) : Prop :=
  (∃ b ∈ e.chain, h ∈ b.txHashes) ∨
    ∃ r b, r ∉ rounds ∧ e.ownBlock? r = some b ∧ h ∈ b.txHashes

/-- Two engines with the same chain, the same index and the same proposals keep the same. -/
theorem Kept.congr {e' : Engine H Id Sg} (hk : Kept rounds e h) (hchain : e'.chain = e.chain)
    (hown : ∀ r, e'.ownBlock? r = e.ownBlock? r) : Kept rounds e' h := by
  simpa only [Kept, hchain, hown] using hk

variable {c : Crypto H Id Sg} {r : Int} {txs : List (Transaction H)} {env : Env}

/-- An event puts no proposal in the place of the node's own, as long as that has a block. -/
def SpareOwn (c : Crypto H Id Sg) (e : Engine H Id Sg) (ev : Event H Id Sg) : Prop :=
  ∀ req ∈ ev.proposal? c e, req.idx = e.nodeIdx → e.ownBlock? req.height = none

instance (c : Crypto H Id Sg) (e : Engine H Id Sg) (ev : Event H Id Sg) :
    Decidable (SpareOwn c e ev) :=
  inferInstanceAs (Decidable (∀ req ∈ ev.proposal? c e, _ → e.ownBlock? req.height = none))

theorem spareOwn_sealed {timestamp : Nat} (hfree : e.ownBlock? (e.highest.header.number + 1) =
    none) : SpareOwn c e (.sealed txs timestamp env) := by
  intro req hreq _
  simp only [Event.proposal?] at hreq
  split at hreq
  · cases hreq
  · cases hreq
    exact hfree

/-! ### The sealer -/

/-- The transactions of the pool and of the sealing block are filed under their hashes, and
what `doWork` has removed is kept. -/
structure Retained (s : SealerNode H Id Sg) : Prop where
  filed : ∀ t ∈ s.node.engine.txPool, t.originalHash = some t.hash
  sealingFiled : ∀ t ∈ s.sealing.block.transactions, t.originalHash = some t.hash
  kept : ∀ t ∈ s.removed, Kept s.node.rounds s.node.engine t.hash

/-- Nothing stands in the way of the next block: neither is there an own proposal for its
height, nor was that height committed; and its size will be within the limit. -/
def MaySeal (w : SealEnv) (s : SealerNode H Id Sg) : Prop :=
  s.node.engine.ownBlock? (s.number + 1) = none ∧ s.number + 1 ∉ s.node.rounds ∧
    s.sealingSize ≤ w.maxBlockTransactions ∧ s.maxTxsPerBlock w ≤ w.maxBlockTransactions

instance (w : SealEnv) (s : SealerNode H Id Sg) : Decidable (MaySeal w s) :=
  inferInstanceAs (Decidable (_ ∧ _ ∧ _ ∧ _))

namespace Retained

variable {s : SealerNode H Id Sg}

theorem reset (h : Retained s) (filter : List H) (nextLeader : Bool) :
    Retained (s.resetSealingBlock c filter nextLeader) where
  filed := h.filed
  sealingFiled := by
    cases nextLeader <;> simp [resetSealingBlock, Block.resetCurrentBlock]
  kept := h.kept

theorem reportNewBlock (h : Retained s) (v : LeaderEnv) : Retained (s.reportNewBlock c v) := by
  unfold SealerNode.reportNewBlock
  split
  · have h' : Retained { s with syncBlock := false }.reportBlock := by
      unfold reportBlock
      dsimp only
      split <;> exact ⟨h.filed, h.sealingFiled, h.kept⟩
    dsimp only
    split
    · exact h'.reset [] false
    · exact h'
  · exact h

theorem init (c : Crypto H Id Sg) (sealers : List Id) (key : Id) (genesis : Block H Id Sg)
    (chain : List (Block H Id Sg)) :
    Retained (SealerNode.init c sealers key genesis chain) where
  filed := by simp [SealerNode.init, Engine.init]
  sealingFiled := by simp [SealerNode.init, Block.resetCurrentBlock]
  kept := by simp [SealerNode.init]

variable [DecidableEq H]

theorem fill (h : Retained s) (w : SealEnv) : Retained (s.fill w) := by
  unfold SealerNode.fill
  split
  · refine ⟨h.filed, fun t ht => ?_, h.kept⟩
    rcases mem_append.mp ht with ht | ht
    · exact h.sealingFiled t ht
    · exact h.filed t (topTransactions_subset _ _ _ _ ht)
  · exact h

theorem imported (h : Retained s) (t : Transaction H) :
    ∀ u ∈ insertTransaction t s.node.engine.txPool, u.originalHash = some u.hash := by
  intro u hu
  unfold insertTransaction at hu
  split at hu
  · exact h.filed u hu
  · rcases mem_append.mp hu with hu | hu
    · exact h.filed u hu
    · rw [mem_singleton.mp hu]

end Retained

/-! ### Steps -/

variable [DecidableEq H]

/-- A commit files the node's own proposal in the chain before it is deleted. -/
theorem Kept.save (htxs : appendProposals (e.reqCache.round r).nodes [] = some txs)
    (hk : Kept rounds e h) :
    Kept (rounds ++ [r])
      ((e.updateSchedule r).afterCommit r (bigBlockFor4nl c e.highest.header txs)) h := by
  have hchain : ((e.updateSchedule r).afterCommit r (bigBlockFor4nl c e.highest.header txs)).chain =
        bigBlockFor4nl c e.highest.header txs :: e.chain := by
    show _ :: (e.updateSchedule r).chain = _
    rw [updateSchedule_chain]
  rcases hk with ⟨b, hb, hh⟩ | ⟨r', b, hr', hown, hh⟩
  · exact .inl ⟨b, hchain ▸ mem_cons_of_mem _ hb, hh⟩
  · by_cases hrr : r' = r
    · -- the committed round: its merge has read the proposal
      subst hrr
      obtain ⟨req, hreq, hb⟩ := Option.bind_eq_some_iff.mp hown
      refine .inl ⟨_, hchain ▸ mem_cons_self, ?_⟩
      rw [txHashes_bigBlockFor4nl c e.highest.header htxs, mem_flatMap]
      exact ⟨_, (UnorderedMap.find?_eq_some_iff _ _ _).mp hreq, by rwa [mergedHashes_of_pBlock hb]⟩
    · refine .inr ⟨r', b, by simp [hr', hrr], ?_, hh⟩
      rw [← hown]
      simp [ownBlock?, nodeIdx, proposal?, round_delCache4nl, hrr]

variable [DecidableEq Sg] [StdHash H] [StdHash Sg]

/-- No move of a handler loses a transaction. -/
theorem Kept.effect {e' : Engine H Id Sg} {out : List (Output H Id Sg)}
    (heff : Effect c env r e out e') (hk : Kept rounds e h) :
    Kept (rounds ++ (savedOf out).map Saved.round) e' h := by
  induction heff with
  | done e => simpa [savedOf] using hk
  | commit hreq tail ih =>
    exact ih (hk.congr rfl fun r => by
      simp [ownBlock?, addOwnCommit, nodeIdx])
  | save hready htxs => exact hk.save htxs
  | @reschedule e hready hcommit =>
    have hk' : Kept rounds (e.updateSchedule r) h :=
      hk.congr (updateSchedule_chain r e) fun r => by
        simp [ownBlock?, nodeIdx]
    simpa [savedOf] using hk'

theorem Engine.ownBlock?_addProposal (c : Crypto H Id Sg) (t : Nat) (e : Engine H Id Sg)
    (req : PrepareReq4nl H Id Sg) (r : Int) :
    (e.addProposal c t req).ownBlock? r =
      if r = req.height ∧ e.nodeIdx = req.idx then req.pBlock else e.ownBlock? r := by
  have hidx : (e.addProposal c t req).nodeIdx = e.nodeIdx := rfl
  unfold ownBlock?
  rw [hidx]
  simp only [addProposal, addOwnSign, proposal?_addSignReq4nl,
    proposal?_addPrepareReq4nl, Nat.cast_inj]
  split <;> rfl

theorem Kept.arrival {e₁ : Engine H Id Sg} {ev : Event H Id Sg} {sent : List (Output H Id Sg)}
    (harr : Arrival c e ev r sent e₁) (hspare : SpareOwn c e ev) (hk : Kept rounds e h) :
    Kept rounds e₁ h := by
  cases harr with
  | @proposal _ req pool notify sent hreq hpool hsent =>
    rcases hk with hchain | ⟨r', b, hr', hown, hh⟩
    · exact .inl hchain
    · refine .inr ⟨r', b, hr', ?_, hh⟩
      rw [ownBlock?_addProposal, if_neg]
      · exact hown
      · intro hslot
        have hnone := hspare req hreq hslot.2.symm
        rw [← hslot.1] at hnone
        exact absurd (hown.symm.trans hnone) (by simp)
  | sign m env | commit m env => exact hk.congr rfl fun r => by simp [ownBlock?, nodeIdx]

/-- No step of a node loses a transaction while it spares the node's own proposals. -/
theorem Kept.step {n n' : Node H Id Sg} {ev : Event H Id Sg} (hstep : n.step c ev = some n')
    (hspare : SpareOwn c n.engine ev) (hk : Kept n.rounds n.engine h) :
    Kept n'.rounds n'.engine h := by
  rcases Node.step_cases hstep with ⟨-, rfl⟩ | ⟨-, out, e', hhandled, rfl⟩
  · exact hk
  · cases hhandled with
    | ignored notify hreq =>
      have hk' : Kept n.rounds { n.engine with notifyNextLeaderSeal := notify } h :=
        hk.congr rfl fun r => rfl
      simpa [Node.rounds] using hk'
    | moves harr heff =>
      have hk' := (hk.arrival harr hspare).effect heff
      simpa [Node.rounds, harr.savedOf_sent] using hk'

/-- What the node seals is kept, provided that the height was not committed before. -/
theorem Kept.sealed {n n' : Node H Id Sg} {timestamp : Nat} {t : Transaction H}
    (hstep : n.step c (.sealed txs timestamp env) = some n') (hidx : n.engine.nodeIdx ≠ maxIdx)
    (hround : n.engine.highest.header.number + 1 ∉ n.rounds) (ht : t ∈ txs) :
    Kept n'.rounds n'.engine t.hash := by
  have hlen : txs.length ≠ 0 := by
    simpa using ne_nil_of_mem ht
  rcases Node.step_cases hstep with ⟨hmax, -⟩ | ⟨-, out, e', hhandled, rfl⟩
  · exact absurd hmax hidx
  · cases hhandled with
    | ignored notify hreq => simp [Event.proposal?, hlen] at hreq
    | moves harr heff =>
      have hsaved := harr.savedOf_sent
      cases harr with
      | @proposal _ req pool notify sent hreq hpool hsent =>
        simp only [Event.proposal?, if_neg hlen, Option.some.injEq] at hreq
        subst hreq
        -- the engine as the proposal is cached, before the handler goes on
        have hown := ownBlock?_addProposal c env.utcTime
          { n.engine with txPool := pool, notifyNextLeaderSeal := notify }
          (PrepareReq4nl.ofBlock c n.engine.keyPair (n.engine.setBlock c txs timestamp)
            env.view n.engine.nodeIdx env.utcTime) (n.engine.highest.header.number + 1)
        rw [if_pos ⟨rfl, rfl⟩] at hown
        have hk : Kept n.rounds _ t.hash := .inr ⟨_, _, hround, hown, mem_map_of_mem ht⟩
        rw [Node.rounds, savedOf_append, savedOf_append, hsaved, map_append]
        exact hk.effect heff

namespace Retained

variable {s s' : SealerNode H Id Sg}

theorem afterEvent (h : Retained s) {ev : Event H Id Sg} {n : Node H Id Sg}
    (hspare : SpareOwn c s.node.engine ev) (hstep : s.node.step c ev = some n) :
    Retained (s.afterEvent n) where
  filed t ht := h.filed t (Node.step_txPool_subset hstep ht)
  sealingFiled := h.sealingFiled
  kept t ht := (h.kept t ht).step hstep hspare

/-- The pool gives up its transactions to a block that is then proposed. -/
theorem handleBlock (h : Retained s) {w : SealEnv} (hidx : s.node.engine.nodeIdx ≠ maxIdx)
    (hfree : s.node.engine.ownBlock? (s.number + 1) = none) (hround : s.number + 1 ∉ s.node.rounds)
    (hsize : s.sealingSize ≤ w.maxBlockTransactions)
    (hstep : s.dropBlockTrans.handleBlock c w = some s') : Retained s' := by
  have hsize' : s.dropBlockTrans.sealingSize ≤ w.maxBlockTransactions := hsize
  unfold SealerNode.handleBlock at hstep
  rw [if_neg (Nat.not_lt.mpr hsize')] at hstep
  obtain ⟨n, hn, heq⟩ := Option.map_eq_some_iff.mp hstep
  have hspare : SpareOwn c s.dropBlockTrans.node.engine
      (.sealed s.sealing.block.transactions w.timestamp w.engine) := spareOwn_sealed hfree
  have hsealed : Retained
      { s.dropBlockTrans.afterEvent n with
        sealing :=
          { s.dropBlockTrans.sealing with
            block := s.dropBlockTrans.node.engine.setBlock c
              s.dropBlockTrans.sealing.block.transactions w.timestamp } } := by
    refine ⟨fun t ht => ?_, h.sealingFiled, fun t ht => ?_⟩
    · exact h.filed t (filter_subset_self _ (Node.step_txPool_subset hn ht))
    · rcases mem_append.mp ht with ht | ht
      · exact (h.kept t ht).step hn hspare
      · obtain ⟨-, hkey⟩ := mem_filter.mp ht
        rw [contains_iff_mem] at hkey
        obtain ⟨u, hu, hut⟩ := mem_map.mp hkey
        rw [h.sealingFiled u hu, Option.some.injEq] at hut
        rw [← hut]
        exact Kept.sealed hn hidx hround hu
  split at heq
  · exact heq ▸ hsealed.reset [] false
  · exact heq ▸ hsealed

theorem doWork (h : Retained s) {w : SealEnv}
    (hmay : (s.reportNewBlock c w.leader).shouldSeal w = true →
      MaySeal w (s.reportNewBlock c w.leader)) (hstep : s.doWork c w = some s') : Retained s' := by
  have hreport := h.reportNewBlock (c := c) w.leader
  unfold SealerNode.doWork at hstep
  generalize s.reportNewBlock c w.leader = s₁ at hmay hreport hstep
  dsimp only at hstep
  split at hstep
  · rename_i hseal
    obtain ⟨hfree, hround, hsize, hmax⟩ := hmay hseal
    have hidx : s₁.node.engine.nodeIdx ≠ maxIdx := by
      simp only [shouldSeal, Bool.and_eq_true, bne_iff_ne] at hseal
      exact hseal.1.1.1.2
    have hfill := hreport.fill w
    split at hstep
    · exact Option.some.inj hstep ▸ hfill
    · split at hstep
      · have hsize' := (s₁.sealingSize_fill_le w).trans (Nat.max_le.mpr ⟨hsize, hmax⟩)
        have hnode := s₁.fill_node w
        refine hfill.handleBlock ?_ ?_ ?_ hsize' hstep
        · rwa [hnode]
        · rwa [number, hnode]
        · rwa [number, hnode]
      · exact Option.some.inj hstep ▸ hfill
  · exact Option.some.inj hstep ▸ hreport

end Retained

/-- What an event must not do: replace a proposal of the node's own, or have a block made that
is refused or belongs to a committed height. -/
def RetainingEvent (c : Crypto H Id Sg) (s : SealerNode H Id Sg) :
    SealerEvent H Id Sg → Prop
  | .received p env => SpareOwn c s.node.engine (p.event env)
  | .doWork w => (s.reportNewBlock c w.leader).shouldSeal w = true →
      MaySeal w (s.reportNewBlock c w.leader)
  | _ => True

instance (c : Crypto H Id Sg) (s : SealerNode H Id Sg) (ev : SealerEvent H Id Sg) :
    Decidable (RetainingEvent c s ev) := by
  cases ev <;> unfold RetainingEvent <;> infer_instance

theorem Retained.step {s s' : SealerNode H Id Sg} {ev : SealerEvent H Id Sg} (h : Retained s)
    (hcond : RetainingEvent c s ev) (hstep : s.step c ev = some s') : Retained s' := by
  cases ev with
  | imported t =>
    cases hstep
    exact ⟨h.imported t, h.sealingFiled, fun t ht => (h.kept t ht).congr rfl fun r => rfl⟩
  | received p env =>
    obtain ⟨n, hn, rfl⟩ := Option.map_eq_some_iff.mp hstep
    exact h.afterEvent hcond hn
  | doWork w => exact h.doWork hcond hstep
  | viewChange v =>
    cases hstep
    unfold resetBlockForViewChange
    split
    · exact h
    · exact h.reset [] false
  | nextLeader filter => exact Option.some.inj hstep ▸ h.reset filter true

/-- **No transaction is lost** in a run whose events replace no proposal of the node's own and
let no block be made that is refused or belongs to a committed height: everything that
`doWork` has taken out of the pool is in the chain, or in the node's own proposal for a height
not yet committed. -/
theorem removed_transactions_kept {c : Crypto H Id Sg} {sealers : List Id} {key : Id}
    {genesis : Block H Id Sg} {chain : List (Block H Id Sg)}
    {es : List (SealerEvent H Id Sg)} {s : SealerNode H Id Sg}
    (h : Run (Guarded (RetainingEvent c) (Steps (step c)))
      (init c sealers key genesis chain) es s) :
    ∀ t ∈ s.removed, Kept s.node.rounds s.node.engine t.hash :=
  (h.invariant (fun _ s => Retained s) (Retained.init c sealers key genesis chain)
    fun _ _ _ _ hold hstep => hold.step hstep.1 hstep.2).kept

end

/-! ### Two runs of a sealer -/

/-- The sealer with key 10 of the group of four, at process start. -/
def symbolicSealer : SealerNode Digest Nat Signature :=
  init symbolic [10, 11, 12, 13] 10 symbolicGenesis []

/-- A pass of `doWork` that loads what is there and finds that the time is up. -/
def symbolicWork : SealerEvent Digest Nat Signature :=
  .doWork
    { engine := symbolicEnv, leader := ⟨false, false, 0⟩, startConsensus := true,
      blockSyncing := false, committedPrepare := false, maxBlockCanSeal := 1000,
      maxBlockTransactions := 1000, poolLimit := 10000, nonceCache := [],
      emptyBlockGenTime := 1000, minBlockGenTime := 500, loadTime := 0, checkTime := 500,
      omitEmptyBlock := true, timestamp := 0 }

/-- A timeout: the leader is given up and the sealing block reset. -/
def symbolicTimeout : SealerEvent Digest Nat Signature := .viewChange ⟨false, true, 0⟩

/-- What the other sealers send in the first round. -/
def packetsOfOthers : List (SealerEvent Digest Nat Signature) :=
  ([1, 2, 3].map fun i => .received (.prepare (sealerProposal i [i])) symbolicEnv) ++
    (List.range 4).flatMap fun i => [11, 12].flatMap fun key =>
      [.received (.sign (voteFor symbolic key 0 (sealerProposal i [i]))) symbolicEnv,
        .received (.commit (voteFor symbolic key 0 (sealerProposal i [i]))) symbolicEnv]

/-- Transaction 0 is sealed and committed; a timeout later, transaction 5 is sealed. -/
def sealedTwice : List (SealerEvent Digest Nat Signature) :=
  .imported (symbolicTx 0) :: symbolicWork :: packetsOfOthers ++
    [symbolicTimeout, .imported (symbolicTx 5), symbolicWork]

theorem sealedTwice_kept :
    ∃ s, Run (Guarded (RetainingEvent symbolic) (Steps (step symbolic)))
        symbolicSealer sealedTwice s ∧
      s.removed.map Transaction.nonce = [0, 5] ∧ s.node.rounds = [1] ∧
      ∀ t ∈ s.removed, Kept s.node.rounds s.node.engine t.hash := by
  refine exists_guardedRun_of_exec
    (p := fun s => s.removed.map Transaction.nonce = [0, 5] ∧ s.node.rounds = [1])
    (by decide +kernel) fun s hrun h => ?_
  exact ⟨h.1, h.2, removed_transactions_kept hrun⟩

/-- Everything an engine still holds, of whichever proposer and round. -/
def heldHashes (e : Engine Digest Nat Signature) : List Digest :=
  e.chain.flatMap Block.txHashes ++
    e.reqCache.prepareCache4nl.nodes.flatMap fun q => q.2.nodes.flatMap mergedHashes

theorem Kept.mem_heldHashes {rounds : List Int} {e : Engine Digest Nat Signature} {h : Digest}
    (hk : Kept rounds e h) : h ∈ heldHashes e := by
  rw [heldHashes, mem_append, mem_flatMap]
  rcases hk with hchain | ⟨r, b, -, hown, hh⟩
  · exact .inl hchain
  · obtain ⟨req, hreq, hb⟩ := Option.bind_eq_some_iff.mp hown
    obtain ⟨proposals, hround, hmem⟩ := proposal?_eq_some_iff.mp hreq
    refine .inr (mem_flatMap.mpr ⟨_, hround, mem_flatMap.mpr ⟨_, hmem, ?_⟩⟩)
    rwa [mergedHashes_of_pBlock hb]

/-- **The failing run.** Transaction 0 is sealed; a timeout resets the sealing block; then
transaction 1 is sealed for the same height, over the first proposal. -/
theorem resealed_transaction_lost :
    ∃ s, Run (Steps (step symbolic)) symbolicSealer
        [.imported (symbolicTx 0), symbolicWork, symbolicTimeout, .imported (symbolicTx 1),
          symbolicWork] s ∧
      ∃ t ∈ s.removed, ¬ Kept s.node.rounds s.node.engine t.hash := by
  refine exists_run_of_exec (p := fun s => ∃ t ∈ s.removed, t.hash ∉ heldHashes s.node.engine)
    (by decide +kernel) fun s _ h => ?_
  obtain ⟨t, ht, hnot⟩ := h
  exact ⟨t, ht, fun hk => hnot hk.mem_heldHashes⟩

end Rcc.Pbft
