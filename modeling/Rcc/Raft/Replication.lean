import Rcc.Raft.Election

/-!
# Rcc.Raft.Replication

**Only replicated blocks are committed** (`committed_replicated`): when a sealer commits its
uncommitted block, a majority of the sealers, itself among them, have held just that block as their
uncommitted block.

The acknowledgements that are collected in `m_commitFingerPrint` are sound: each comes from a
sealer that has held the block. But a commit does not always rest on them. A heartbeat response
without a block, as every sealer sends it while the leader has none, is taken for the sign that the
leader is the only sealer. And of the two threads, one may put another block in place of the one
that was acknowledged while the other is about to commit. `SafeCommit` excludes these steps;
`unreplicated_commit` is a run in which a response overtaken by the next block commits it.
-/

namespace Rcc.Raft

open List Rcc.Raft.Action SealerThread Net

variable {n : Nat} {B H : Type}

/-! ### Holders -/

section Holders

variable [DecidableEq B] [DecidableEq H] (history : List (Fin n × Action n B H))

/-- Who has held the block as uncommitted block. -/
def holders (b : B) : Finset (Fin n) :=
  Finset.univ.filter fun j => (j, hold b) ∈ history

theorem mem_holders {history : List (Fin n × Action n B H)} {b : B} {j : Fin n} :
    j ∈ holders history b ↔ (j, hold b) ∈ history := by
  simp [holders]

/-- A majority of the sealers, `i` among them, has held the block. -/
def Replicated (i : Fin n) (b : B) : Prop :=
  i ∈ holders history b ∧ n - (n - 1) / 2 ≤ (holders history b).card

theorem Replicated.mono {history history' : List (Fin n × Action n B H)} {i : Fin n} {b : B}
    (h : Replicated history i b) (hsub : ∀ x ∈ history, x ∈ history') :
    Replicated history' i b := by
  have hmono : holders history b ⊆ holders history' b := fun j hj =>
    mem_holders.mpr (hsub _ (mem_holders.mp hj))
  exact ⟨hmono h.1, h.2.trans (Finset.card_le_card hmono)⟩

end Holders

/-! ### The condition -/

/-- The condition on messages: a leader that has a block to commit gets no response without a
block; no block arrives while the sealer thread waits for its own to be committed. -/
def SafeBlockMessage (e : Engine n B H) : Msg B H → Prop
  | .heartBeatResp resp => e.uncommitted.isSome → e.uncommittedNumber = e.consensusBlockNumber →
      resp.term = e.term → resp.uncommitedBlockHash.isSome
  | .heartBeat hb => hb.uncommitedBlock.isSome → e.waitingForCommitting = false
  | _ => True

/-- The condition on a step: besides, the sealer thread puts its block in only if there is no other
and the worker is not about to execute one. -/
def SafeCommit (s : Net n B H) (ev : Fin n × Event n B H) : Prop :=
  match ev.2 with
  | .recv _ msg => SafeBlockMessage (s.nodes ev.1) msg
  | .sealBlock _ => (s.nodes ev.1).uncommitted.isNone ∧ (s.nodes ev.1).worker ≠ .executing
  | _ => True

instance (e : Engine n B H) (msg : Msg B H) : Decidable (SafeBlockMessage e msg) := by
  unfold SafeBlockMessage
  split <;> infer_instance

instance [DecidableEq B] (s : Net n B H) (ev : Fin n × Event n B H) :
    Decidable (SafeCommit s ev) := by
  unfold SafeCommit
  split <;> infer_instance

/-! ### Steps that bring no block nearer to its commit -/

/-- The worker is not about to commit. -/
def Worker.Free (w : Worker n B) : Prop := w ≠ .executing ∧ ∀ b, w ≠ .saving b

/-- The sealer thread is not about to commit. -/
def SealerThread.Free (t : SealerThread B) : Prop :=
  ∀ b, t ≠ .waiting b ∧ t ≠ .woken b ∧ t ≠ .saving b

theorem SealerThread.free_idle : (idle : SealerThread B).Free :=
  fun _ => ⟨by simp, by simp, by simp⟩

structure Calm (e e' : Engine n B H) : Prop where
  uncommitted : e'.uncommitted = e.uncommitted ∨ e'.uncommitted = none
  ready : e'.commitReady = e.commitReady ∨ e'.uncommitted = none
  fingerPrint : ∀ h, e'.commitFingerPrint h ⊆ e.commitFingerPrint h
  worker : e'.worker = e.worker ∨ e'.worker.Free
  sealer : e'.sealer = e.sealer ∨ e'.sealer.Free

namespace Calm

variable {e e' e'' : Engine n B H}

theorem refl (e : Engine n B H) : Calm e e :=
  ⟨.inl rfl, .inl rfl, fun _ _ h => h, .inl rfl, .inl rfl⟩

/-- What each of two steps leaves as it is or makes `P`, both of them do. -/
theorem kept_trans {α : Type} {P : α → Prop} {a b c : α} (h : b = a ∨ P b) (h' : c = b ∨ P c) :
    c = a ∨ P c := by
  rcases h' with rfl | h'
  · exact h
  · exact .inr h'

theorem trans (h : Calm e e') (h' : Calm e' e'') : Calm e e'' where
  uncommitted := kept_trans (P := (· = none)) h.uncommitted h'.uncommitted
  ready := by
    rcases h'.ready with hr | hr
    · rcases h.ready with hr' | hr'
      · exact .inl (hr.trans hr')
      · exact .inr (h'.uncommitted.elim (·.trans hr') id)
    · exact .inr hr
  fingerPrint hash := (h'.fingerPrint hash).trans (h.fingerPrint hash)
  worker := kept_trans h.worker h'.worker
  sealer := kept_trans h.sealer h'.sealer

theorem switchToFollower (leader : NodeIndex) (e : Engine n B H) :
    Calm e (e.switchToFollower leader) := by
  unfold Engine.switchToFollower
  dsimp only
  split
  · exact ⟨.inr rfl, .inr rfl, fun _ _ h => h, .inl rfl, .inl rfl⟩
  · exact ⟨.inl rfl, .inl rfl, fun _ _ h => h, .inl rfl, .inl rfl⟩

theorem resetConfig (i : Fin n) (e : Engine n B H) : Calm e (e.resetConfig i) := by
  unfold Engine.resetConfig
  split
  · exact refl e
  · exact switchToFollower _ e

theorem withWorker {worker : Worker n B} (hfree : worker.Free) (e : Engine n B H) :
    Calm e { e with worker := worker } := ⟨.inl rfl, .inl rfl, fun _ _ h => h, .inr hfree, .inl rfl⟩

/-- The sealer thread turns to something else. -/
theorem withSealer {sealer : SealerThread B} (hfree : sealer.Free) (e : Engine n B H) :
    Calm e { e with sealer := sealer } := ⟨.inl rfl, .inl rfl, fun _ _ h => h, .inl rfl, .inr hfree⟩

theorem done (e : Engine n B H) : Calm e e.done := withWorker ⟨by simp, by simp⟩ e

/-- A change of other members. -/
theorem of_eq (hu : e'.uncommitted = e.uncommitted) (hr : e'.commitReady = e.commitReady)
    (hf : e'.commitFingerPrint = e.commitFingerPrint) (hw : e'.worker = e.worker)
    (hs : e'.sealer = e.sealer) : Calm e e' :=
  ⟨.inl hu, .inl hr, fun _ _ h => hf ▸ h, .inl hw, .inl hs⟩

theorem clearFirstVoteCache (e : Engine n B H) : Calm e e.clearFirstVoteCache := by
  unfold Engine.clearFirstVoteCache
  split <;> exact of_eq rfl rfl rfl rfl rfl

theorem switchToLeader (i : Fin n) (e : Engine n B H) : Calm e (e.switchToLeader i) :=
  of_eq rfl rfl rfl rfl rfl

theorem withMemberBlock (memberBlock : List (Fin n × BlockRef H)) (e : Engine n B H) :
    Calm e { e with memberBlock := memberBlock } := of_eq rfl rfl rfl rfl rfl

theorem giveUp (leader : NodeIndex) (e : Engine n B H) : Calm e (e.switchToFollower leader).done :=
  (switchToFollower leader e).trans (done _)

theorem switchToCandidate (i : Fin n) (e : Engine n B H) : Calm e (e.switchToCandidate i).done :=
  have hcandidate : Calm (e.resetConfig i) (e.switchToCandidate i) := of_eq rfl rfl rfl rfl rfl
  ((resetConfig i e).trans hcandidate).trans (done _)

theorem enter (i : Fin n) (e : Engine n B H) : Calm e (e.enter i).1 := by
  refine (resetConfig i e).trans ?_
  unfold Engine.enter
  dsimp only
  split
  · exact ⟨.inl rfl, .inl rfl, fun _ _ h => h, .inr ⟨by simp, by simp⟩, .inl rfl⟩
  · exact withWorker ⟨by simp, by simp⟩ _
  · split
    · exact of_eq rfl rfl rfl rfl rfl
    · exact ⟨.inl rfl, .inl rfl, fun _ _ h => h, .inr ⟨by simp, by simp⟩, .inl rfl⟩

theorem reportHighest (number : Int) (e : Engine n B H) : Calm e (e.reportHighest number).1 := by
  unfold Engine.reportHighest
  split
  · exact of_eq rfl rfl rfl rfl rfl
  · exact refl e

theorem reportClear [DecidableEq H] (hd : Headers B H) (i : Fin n) (e : Engine n B H) :
    Calm e (e.reportClear hd i) := by
  refine trans ?_ (resetConfig i _)
  refine ⟨.inr rfl, .inr rfl, fun h => ?_, .inl rfl, .inl rfl⟩
  cases hb : e.uncommitted with
  | none => exact fun _ hk => hk
  | some b =>
    simp only
    by_cases heq : h = hd.hash b
    · subst heq
      simp
    · rw [Function.update_of_ne heq]

theorem handleVoteResponse (resp : RaftVoteResp H) (votes : VoteState) (e : Engine n B H) :
    Calm e (e.handleVoteResponse resp votes).1 := by
  unfold Engine.handleVoteResponse
  split
  · exact refl e
  split
  · exact refl e
  · exact of_eq rfl rfl rfl rfl rfl
  · exact refl e
  · dsimp only
    split
    · exact of_eq rfl rfl rfl rfl rfl
    · exact refl e
  · exact refl e
  · exact refl e
  · exact refl e

theorem heartbeatSeen (hb : RaftHeartBeat B H) (e : Engine n B H) :
    Calm e (Engine.heartbeatSeen hb e).1 := by
  unfold Engine.heartbeatSeen
  split
  · refine trans ?_ (clearFirstVoteCache _)
    exact of_eq rfl rfl rfl rfl rfl
  · exact clearFirstVoteCache e

end Calm

/-! ### The invariant -/

section Invariant

variable [DecidableEq B] [DecidableEq H]

/-- What the members of sealer `i` stand for. -/
structure BlocksOk (hd : Headers B H) (history : List (Fin n × Action n B H)) (i : Fin n)
    (e : Engine n B H) : Prop where
  held : ∀ b, e.uncommitted = some b → (i, hold b) ∈ history
  acked : ∀ h, ∀ k ∈ e.commitFingerPrint h,
    ∃ j b, nodeIndex j = k ∧ hd.hash b = h ∧ (j, hold b) ∈ history
  waits : ∀ b, e.sealer = .waiting b → ∀ b', e.uncommitted = some b' →
    b' = b ∧ (e.commitReady = true → Replicated history i b)
  executes : e.worker = .executing → ∀ b, e.uncommitted = some b → Replicated history i b
  saves : ∀ b, e.worker = .saving b ∨ e.sealer = .woken b ∨ e.sealer = .saving b →
    Replicated history i b

/-- What an action of sealer `i` stands for. -/
def Action.Ok (hd : Headers B H) (history : List (Fin n × Action n B H)) (i : Fin n) :
    Action n B H → Prop
  | .send _ (.heartBeatResp resp) => resp.idx = nodeIndex i ∧
      ∀ h, resp.uncommitedBlockHash = some h →
        ∃ b, hd.hash b = h ∧ (i, hold b) ∈ history
  | .commit b => Replicated history i b
  | _ => True

/-- The state and the actions are in order after a step. -/
def StepOk (hd : Headers B H) (history : List (Fin n × Action n B H)) (i : Fin n)
    (r : Engine n B H × List (Action n B H)) : Prop :=
  BlocksOk hd history i r.1 ∧ ∀ a ∈ r.2, a.Ok hd history i

variable {hd : Headers B H} {history history' : List (Fin n × Action n B H)} {i src : Fin n}
  {e e' : Engine n B H} {acts : List (Action n B H)} {b : B}
  {r : Engine n B H × List (Action n B H)}

theorem BlocksOk.mono (h : BlocksOk hd history i e) (hsub : ∀ x ∈ history, x ∈ history') :
    BlocksOk hd history' i e where
  held b hb := hsub _ (h.held b hb)
  acked hash k hk := by
    obtain ⟨j, b, hj, hb, hmem⟩ := h.acked hash k hk
    exact ⟨j, b, hj, hb, hsub _ hmem⟩
  waits b hw b' hb' := by
    obtain ⟨heq, hready⟩ := h.waits b hw b' hb'
    exact ⟨heq, fun hr => (hready hr).mono hsub⟩
  executes hw b hb := (h.executes hw b hb).mono hsub
  saves b hb := (h.saves b hb).mono hsub

theorem Action.Ok.mono {a : Action n B H} (h : a.Ok hd history i)
    (hsub : ∀ x ∈ history, x ∈ history') : a.Ok hd history' i := by
  cases a with
  | send dest msg =>
    cases msg with
    | heartBeatResp resp =>
      refine ⟨h.1, fun hash hhash => ?_⟩
      obtain ⟨b, hb, hmem⟩ := h.2 hash hhash
      exact ⟨b, hb, hsub _ hmem⟩
    | _ => trivial
  | commit b => exact Replicated.mono h hsub
  | _ => trivial

theorem BlocksOk.calm (h : BlocksOk hd history i e) (hcalm : Calm e e') :
    BlocksOk hd history i e' where
  held b hb := by
    rcases hcalm.uncommitted with hu | hu
    · exact h.held b (hu ▸ hb)
    · simp [hu] at hb
  acked hash k hk := h.acked hash k (hcalm.fingerPrint hash hk)
  waits b hw b' hb' := by
    rcases hcalm.sealer with hs | hs
    · rcases hcalm.uncommitted with hu | hu
      · obtain ⟨heq, hready⟩ := h.waits b (hs ▸ hw) b' (hu ▸ hb')
        rcases hcalm.ready with hr | hr
        · exact ⟨heq, fun hready' => hready (hr ▸ hready')⟩
        · simp [hr] at hb'
      · simp [hu] at hb'
    · exact absurd hw (hs b).1
  executes hw b hb := by
    rcases hcalm.worker with hw' | hw'
    · rcases hcalm.uncommitted with hu | hu
      · exact h.executes (hw' ▸ hw) b (hu ▸ hb)
      · simp [hu] at hb
    · exact absurd hw hw'.1
  saves b hb := by
    rcases hb with hw | hs | hs
    · rcases hcalm.worker with hw' | hw'
      · exact h.saves b (.inl (hw' ▸ hw))
      · exact absurd hw (hw'.2 b)
    · rcases hcalm.sealer with hs' | hs'
      · exact h.saves b (.inr (.inl (hs' ▸ hs)))
      · exact absurd hs (hs' b).2.1
    · rcases hcalm.sealer with hs' | hs'
      · exact h.saves b (.inr (.inr (hs' ▸ hs)))
      · exact absurd hs (hs' b).2.2

theorem StepOk.calm (h : StepOk hd history i r) (hcalm : Calm r.1 e') :
    StepOk hd history i (e', r.2) := ⟨h.1.calm hcalm, h.2⟩

theorem handleVoteRequest_calm (hd : Headers B H) (history : List (Fin n × Action n B H))
    (src : Fin n) (req : RaftVoteReq H) :
    Calm e (e.handleVoteRequest i src req).1 ∧
      ∀ a ∈ (e.handleVoteRequest i src req).2.1, a.Ok hd history i := by
  unfold Engine.handleVoteRequest
  split
  · exact ⟨.refl e, by simp [Ok]⟩
  split
  · exact ⟨.refl e, by simp [Ok]⟩
  split
  · exact ⟨.refl e, by simp [Ok]⟩
  split
  · exact ⟨.of_eq rfl rfl rfl rfl rfl, by simp [Ok]⟩
  · exact ⟨.of_eq rfl rfl rfl rfl rfl, by simp [Ok]⟩

theorem enter_acts (i : Fin n) (e : Engine n B H) : ∀ a ∈ (e.enter i).2, a.Ok hd history i := by
  unfold Engine.enter
  dsimp only
  split
  · simp
  · simp
  · split <;> simp [Ok]

section

variable (h : BlocksOk hd history i e)
include h

/-- A step that is calm and does nothing of importance. -/
theorem BlocksOk.stepOk (hcalm : Calm e e') (hacts : ∀ a ∈ acts, a.Ok hd history i) :
    StepOk hd history i (e', acts) := ⟨h.calm hcalm, hacts⟩

/-- The acknowledgements of a block come from holders of that block. -/
theorem BlocksOk.card_le_holders (b : B) :
    (e.commitFingerPrint (hd.hash b)).card ≤ (holders history b).card := by
  have hsub : e.commitFingerPrint (hd.hash b) ⊆ (holders history b).image nodeIndex := by
    intro k hk
    obtain ⟨j, b', hj, hb', hmem⟩ := h.acked _ k hk
    obtain rfl := hd.hash_injective hb'
    exact Finset.mem_image.mpr ⟨j, mem_holders.mpr hmem, hj⟩
  exact (Finset.card_le_card hsub).trans Finset.card_image_le

theorem BlocksOk.replicated (hfits : Fits i) (hb : e.uncommitted = some b)
    (hmaj : majority n ≤ (e.commitFingerPrint (hd.hash b)).card) : Replicated history i b := by
  refine ⟨mem_holders.mpr (h.held b hb), le_trans ?_ (h.card_le_holders b)⟩
  unfold majority at hmaj
  rwa [hfits.1] at hmaj

theorem BlocksOk.acknowledge {j : Fin n} (hmem : (j, hold b) ∈ history) :
    BlocksOk hd history i (e.acknowledge (hd.hash b) (nodeIndex j)) where
  held := h.held
  acked hash k hk := by
    by_cases heq : hash = hd.hash b
    · subst heq
      simp only [Engine.acknowledge, Function.update_self, Finset.mem_insert] at hk
      rcases hk with rfl | hk
      · exact ⟨j, b, rfl, rfl, hmem⟩
      · exact h.acked _ k hk
    · simp only [Engine.acknowledge, Function.update_of_ne heq] at hk
      exact h.acked hash k hk
  waits := h.waits
  executes := h.executes
  saves := h.saves

/-- A commit is due of a block that is replicated. -/
theorem BlocksOk.commitDue (hrep : ∀ b, e.uncommitted = some b → Replicated history i b) :
    BlocksOk hd history i e.commitDue := by
  unfold Engine.commitDue
  split
  · refine ⟨h.held, h.acked, fun b hw b' hb' => ?_, h.executes, h.saves⟩
    obtain ⟨rfl, -⟩ := h.waits b hw b' hb'
    exact ⟨rfl, fun _ => hrep b' hb'⟩
  · refine ⟨h.held, h.acked, h.waits, fun _ => hrep, fun b hb => ?_⟩
    rcases hb with hw | hs
    · cases hw
    · exact h.saves b (.inr hs)

/-! ### The handlers -/

/-- The uncommitted block is replaced while no thread is about to commit it. -/
theorem BlocksOk.withUncommitted {number : Int} (hmem : (i, hold b) ∈ history)
    (hworker : e.worker ≠ .executing) (hwaiting : e.waitingForCommitting = false) :
    BlocksOk hd history i { e with uncommitted := some b, uncommittedNumber := number } where
  held b' hb' := by
    cases hb'
    exact hmem
  acked := h.acked
  waits b' hw := by
    rw [Engine.waitingForCommitting, show e.sealer = .waiting b' from hw] at hwaiting
    cases hwaiting
  executes hw := absurd hw hworker
  saves := h.saves

/-- A heartbeat brings a block only to a sealer that acknowledges that very block. -/
theorem BlocksOk.handleHeartbeat (hb : RaftHeartBeat B H)
    (hnew : ∀ a ∈ (e.handleHeartbeat hd i src hb).2.1, (i, a) ∈ history)
    (hworker : e.worker ≠ .executing) (hsafe : SafeBlockMessage e (.heartBeat hb)) :
    StepOk hd history i
      ((e.handleHeartbeat hd i src hb).1, (e.handleHeartbeat hd i src hb).2.1) := by
  unfold Engine.handleHeartbeat at hnew ⊢
  split
  · exact ⟨h, by simp⟩
  rename_i hterm
  rw [if_neg hterm] at hnew
  split
  · rename_i b hdata
    simp only [hdata] at hnew
    split_ifs with hnumber
    · rw [if_pos hnumber] at hnew
      have hheld : (i, hold b) ∈ history := hnew _ (by simp)
      refine ⟨((h.withUncommitted hheld hworker (hsafe (by simp [hdata]))).calm
        (.heartbeatSeen hb _)).calm (.of_eq rfl rfl rfl rfl rfl), ?_⟩
      simp only [mem_cons, not_mem_nil, or_false, forall_eq_or_imp, forall_eq, Ok, true_and]
      exact ⟨rfl, fun hash hhash => ⟨b, Option.some.inj hhash, hheld⟩⟩
    · exact ⟨h, by simp⟩
  · refine ⟨(h.calm (.heartbeatSeen hb _)).calm (.of_eq rfl rfl rfl rfl rfl), ?_⟩
    simp only [mem_cons, not_mem_nil, or_false, forall_eq]
    exact ⟨rfl, fun hash hhash => by cases hhash⟩

/-- A response that carries the hash of a block its sender has held. -/
theorem BlocksOk.tryCommit (hfits : Fits i) {hash : Option H}
    (hsender : ∀ hsh, hash = some hsh → ∃ b, hd.hash b = hsh ∧ (src, hold b) ∈ history)
    (hsome : e.uncommitted.isSome → e.uncommittedNumber = e.consensusBlockNumber → hash.isSome) :
    BlocksOk hd history i (e.tryCommitUncommitedBlock hd (nodeIndex src) hash) := by
  unfold Engine.tryCommitUncommitedBlock
  split
  · exact h
  rename_i b hb
  split
  · rename_i hnumber
    split
    · rename_i hhash
      obtain ⟨b', hb', hmem⟩ := hsender _ hhash
      obtain rfl := hd.hash_injective hb'
      have hack := h.acknowledge hmem
      dsimp only
      split
      · rename_i hmaj
        refine hack.commitDue fun b'' hb'' => ?_
        obtain rfl := Option.some.inj (hb.symm.trans hb'')
        exact hack.replicated hfits hb hmaj
      · exact hack
    · split
      · rename_i hnone
        have := hsome (by simp [hb]) hnumber
        simp [hnone] at this
      · exact h
  · exact h.calm ⟨.inr rfl, .inr rfl, fun _ _ h => h, .inl rfl, .inl rfl⟩

theorem BlocksOk.generateHeartbeat : BlocksOk hd history i (e.generateHeartbeat hd i).1 := by
  unfold Engine.generateHeartbeat
  split
  · rename_i b hb
    exact h.acknowledge (h.held b hb)
  · exact h

theorem BlocksOk.checkAndSave (result : Option H) (hrep : Replicated history i b) :
    StepOk hd history i (e.checkAndSave hd b result) := by
  unfold Engine.checkAndSave
  split
  · split
    · refine h.stepOk ⟨.inr rfl, .inr rfl, fun _ _ h => h, .inl rfl, .inl rfl⟩ ?_
      simpa [Ok] using hrep
    · exact ⟨h, by simp⟩
  · exact ⟨h, by simp⟩

/-- The sealer thread goes on to commit only what is replicated. -/
theorem BlocksOk.withSealer {ready : Bool} {sealer : SealerThread B}
    (hwaits : ∀ b, sealer ≠ .waiting b)
    (hrep : ∀ b, sealer = .woken b ∨ sealer = .saving b → Replicated history i b) :
    BlocksOk hd history i { e with commitReady := ready, sealer := sealer } :=
  ⟨h.held, h.acked, fun b hw => absurd hw (hwaits b), h.executes,
    fun b hb => hb.elim (fun hw => h.saves b (.inl hw)) (hrep b)⟩

/-! ### The events -/

theorem BlocksOk.inRole {role : RaftRole} (hnew : ∀ a ∈ (e.inRole role r).2, (i, a) ∈ history)
    (hr : e.role = role → (∀ a ∈ r.2, (i, a) ∈ history) → StepOk hd history i r) :
    StepOk hd history i (e.inRole role r) := by
  unfold Engine.inRole at hnew ⊢
  split_ifs with hrole
  · rw [if_pos hrole] at hnew
    exact hr hrole hnew
  · exact h.stepOk (.done e) (by simp)

theorem BlocksOk.voteReq (req : RaftVoteReq H) {giveUp : Engine n B H → Engine n B H}
    (hcalm : ∀ e, Calm e (giveUp e)) :
    let r := e.handleVoteRequest i src req
    StepOk hd history i (if r.2.2 then (giveUp r.1, r.2.1) else (r.1, r.2.1)) := by
  intro r
  obtain ⟨hreq, hacts⟩ := handleVoteRequest_calm (e := e) (i := i) hd history src req
  split
  · exact h.stepOk (hreq.trans (hcalm _)) hacts
  · exact h.stepOk hreq hacts

theorem BlocksOk.heartBeat (hb : RaftHeartBeat B H) {giveUp : Engine n B H → Engine n B H}
    (hcalm : ∀ e, Calm e (giveUp e)) (hworker : e.worker ≠ .executing)
    (hsafe : SafeBlockMessage e (.heartBeat hb)) :
    let r := e.handleHeartbeat hd i src hb
    (∀ a ∈ (if r.2.2 then (giveUp r.1, r.2.1) else (r.1, r.2.1)).2, (i, a) ∈ history) →
      StepOk hd history i (if r.2.2 then (giveUp r.1, r.2.1) else (r.1, r.2.1)) := by
  intro r hnew
  have hnew' : ∀ a ∈ r.2.1, (i, a) ∈ history := by
    split at hnew <;> exact hnew
  have hstep : StepOk hd history i (r.1, r.2.1) := h.handleHeartbeat hb hnew' hworker hsafe
  split
  · exact hstep.calm (hcalm _)
  · exact hstep

theorem BlocksOk.recvAsLeader (msg : Msg B H) (hworker : e.worker = .leading) (hfits : Fits i)
    (hsafe : SafeBlockMessage e msg) (hsent : ∀ dest, (send dest msg).Ok hd history src)
    (hnew : ∀ a ∈ (e.recvAsLeader hd i src msg).2, (i, a) ∈ history) :
    StepOk hd history i (e.recvAsLeader hd i src msg) := by
  cases msg with
  | voteReq req => exact h.voteReq req (Calm.giveUp _)
  | voteResp resp => exact ⟨h, by simp [Engine.recvAsLeader]⟩
  | heartBeat hb => exact h.heartBeat hb (Calm.giveUp _) (by simp [hworker]) hsafe hnew
  | heartBeatResp resp =>
    simp only [Engine.recvAsLeader]
    split_ifs with hterm
    · obtain ⟨hidx, hheld⟩ := hsent none
      rw [hidx]
      exact ⟨(h.calm (.withMemberBlock _ e)).tryCommit hfits hheld
        fun hsome hnumber => hsafe hsome hnumber hterm, by simp⟩
    · exact ⟨h, by simp⟩

theorem BlocksOk.recvAsCandidate (msg : Msg B H) {votes : VoteState} {voters : List (Fin n)}
    (hworker : e.worker = .campaigning votes voters) (hsafe : SafeBlockMessage e msg)
    (hnew : ∀ a ∈ (e.recvAsCandidate hd i src votes voters msg).2, (i, a) ∈ history) :
    StepOk hd history i (e.recvAsCandidate hd i src votes voters msg) := by
  cases msg with
  | voteReq req => exact h.voteReq req (Calm.giveUp _)
  | voteResp resp =>
    have hcalm := Calm.handleVoteResponse resp votes e
    simp only [Engine.recvAsCandidate]
    generalize e.handleVoteResponse resp votes = counted at hcalm ⊢
    obtain ⟨e₁, votes', result⟩ := counted
    cases result with
    | toLeader => exact h.stepOk (hcalm.trans ((Calm.switchToLeader i _).trans (.done _))) (by simp)
    | toFollower => exact h.stepOk (hcalm.trans (.giveUp _ _)) (by simp)
    | none => exact h.stepOk (hcalm.trans (.withWorker ⟨by simp, by simp⟩ _)) (by simp)
  | heartBeat hb => exact h.heartBeat hb (Calm.giveUp _) (by simp [hworker]) hsafe hnew
  | heartBeatResp resp => exact ⟨h, by simp [Engine.recvAsCandidate]⟩

theorem BlocksOk.recvAsFollower (msg : Msg B H) (hworker : e.worker = .following)
    (hsafe : SafeBlockMessage e msg)
    (hnew : ∀ a ∈ (e.recvAsFollower hd i src msg).2, (i, a) ∈ history) :
    StepOk hd history i (e.recvAsFollower hd i src msg) := by
  cases msg with
  | voteReq req => exact h.voteReq req .done
  | voteResp resp | heartBeatResp resp => exact ⟨h, by simp [Engine.recvAsFollower]⟩
  | heartBeat hb =>
    have hcalm (e : Engine n B H) : Calm e { e with leader := hb.leader } :=
      .of_eq rfl rfl rfl rfl rfl
    exact h.heartBeat hb hcalm (by simp [hworker]) hsafe hnew

theorem BlocksOk.workerCommit {valid : Bool} {result : Option H}
    (hstep : e.workerCommit hd i valid result = some r) : StepOk hd history i r := by
  unfold Engine.workerCommit at hstep
  split at hstep
  · rename_i hworker
    split at hstep
    · rename_i b hb
      cases hstep
      refine ⟨?_, by simp⟩
      split
      · refine ⟨h.held, h.acked, h.waits, (fun hw => by cases hw), fun b' hb' => ?_⟩
        rcases hb' with hw | hs
        · obtain rfl := Worker.saving.inj hw
          exact h.executes hworker _ hb
        · exact h.saves b' (.inr hs)
      · exact h.calm (.withWorker ⟨by simp, by simp⟩ e)
    · cases hstep
      exact h.stepOk (.withWorker ⟨by simp, by simp⟩ e) (by simp)
  · rename_i b hworker
    cases hstep
    exact (h.checkAndSave result (h.saves b (.inl hworker))).calm
      (.withWorker ⟨by simp, by simp⟩ _)
  · cases hstep
    refine h.stepOk
      ((Calm.reportHighest ((e.uncommitted.map hd.number).getD 0) e).trans ?_) (by simp)
    split <;> exact .withWorker ⟨by simp, by simp⟩ _
  · cases hstep
    exact h.stepOk ((Calm.reportClear hd i e).trans (.withWorker ⟨by simp, by simp⟩ _)) (by simp)
  · cases hstep

theorem BlocksOk.sealerTurn {valid : Bool} {result : Option H}
    (hstep : e.sealerTurn hd i valid result = some r) : StepOk hd history i r := by
  unfold Engine.sealerTurn at hstep
  split at hstep
  · split at hstep
    · cases hstep
      exact h.stepOk (.withSealer (fun _ => ⟨by simp, by simp, by simp⟩) e) (by simp)
    · cases hstep
  · cases hstep
    refine h.stepOk ((Calm.reportHighest e.head.height e).trans ?_) (by simp)
    split
    · exact .withSealer (fun _ => ⟨by simp, by simp, by simp⟩) _
    · exact .withSealer free_idle _
  · cases hstep
    exact h.stepOk ((Calm.reportClear hd i e).trans (.withSealer free_idle _))
      (by simp)
  · cases hstep
    exact h.stepOk (.withSealer free_idle e) (by simp)
  · rename_i b hsealer
    split at hstep
    · rename_i hready
      cases hstep
      refine ⟨h.withSealer (fun b' => by split <;> simp) fun b' hb' => ?_, by simp⟩
      split at hb'
      · rename_i hsome
        obtain ⟨b'', hb''⟩ := Option.isSome_iff_exists.mp hsome
        obtain ⟨rfl, hrep⟩ := h.waits b hsealer b'' hb''
        rcases hb' with hs | hs
        · obtain rfl := woken.inj hs
          exact hrep hready
        · cases hs
      · rcases hb' with hs | hs <;> cases hs
    · cases hstep
  · rename_i b hsealer
    cases hstep
    refine ⟨h.withSealer (fun b' => by split <;> simp) fun b' hb' => ?_, by simp⟩
    split at hb'
    · rcases hb' with hs | hs
      · cases hs
      · obtain rfl := saving.inj hs
        exact h.saves _ (.inr (.inl hsealer))
    · rcases hb' with hs | hs <;> cases hs
  · rename_i b hsealer
    cases hstep
    exact (h.checkAndSave result (h.saves b (.inr (.inr hsealer)))).calm
      (.withSealer free_idle _)

variable (hnew : ∀ a ∈ r.2, (i, a) ∈ history)
include hnew

/-- A message to the worker. -/
theorem BlocksOk.recv {msg : Msg B H} (hstep : e.recv hd i src msg = some r)
    (hleader : e.role = .leader → Fits i) (hsafe : SafeBlockMessage e msg)
    (hsent : ∀ dest, (send dest msg).Ok hd history src) : StepOk hd history i r := by
  unfold Engine.recv at hstep
  split at hstep
  · rename_i hworker
    split at hstep
    · cases hstep
      exact h.inRole hnew fun hrole => h.recvAsLeader msg hworker (hleader hrole) hsafe hsent
    · cases hstep
  · rename_i hworker
    cases hstep
    exact h.inRole hnew fun _ => h.recvAsCandidate msg hworker hsafe
  · rename_i hworker
    cases hstep
    exact h.inRole hnew fun _ => h.recvAsFollower msg hworker hsafe
  · cases hstep

theorem BlocksOk.timeout (hstep : e.timeout i = some r) : StepOk hd history i r := by
  unfold Engine.timeout at hstep
  split at hstep
  · split at hstep
    · cases hstep
      exact h.inRole hnew fun _ _ => h.stepOk (.switchToCandidate i e) (by simp)
    · cases hstep
  · cases hstep
    refine h.inRole hnew fun _ _ => ?_
    split
    · exact h.stepOk (.switchToCandidate i e) (by simp)
    · refine h.stepOk (Calm.trans ?_ (.giveUp _ _)) (by simp)
      exact .of_eq rfl rfl rfl rfl rfl
  · cases hstep
    exact h.inRole hnew fun _ _ => h.stepOk (.switchToCandidate i e) (by simp)
  · cases hstep

theorem BlocksOk.beat (hstep : e.beat hd i = some r) : StepOk hd history i r := by
  unfold Engine.beat at hstep
  split at hstep
  · split at hstep
    · cases hstep
      exact h.inRole hnew fun _ _ =>
        h.generateHeartbeat.stepOk (.clearFirstVoteCache _) (by simp [Ok])
    · cases hstep
  · cases hstep

/-- Several sealers do not commit like a single one. -/
theorem BlocksOk.alone (hn : 1 < n) (hleader : e.role = .leader → Fits i)
    (hstep : e.alone hd i = some r) : StepOk hd history i r := by
  unfold Engine.alone at hstep
  split at hstep
  · split at hstep
    · cases hstep
    · rename_i hone
      cases hstep
      exact h.inRole hnew fun hrole _ => absurd ((hleader hrole).1.symm ▸ hn) hone
  · cases hstep

theorem BlocksOk.sealBlock (hstep : e.sealBlock b = some r) (hworker : e.worker ≠ .executing) :
    StepOk hd history i r := by
  unfold Engine.sealBlock at hstep
  split at hstep
  · cases hstep
    refine ⟨⟨fun b' hb' => ?_, h.acked, fun b' hw b'' hb'' => ?_, fun hw => absurd hw hworker,
      fun b' hb' => ?_⟩, by simp [Ok]⟩
    · cases hb'
      exact hnew _ (by simp)
    · obtain rfl := waiting.inj hw
      cases hb''
      exact ⟨rfl, fun hready => by cases hready⟩
    · rcases hb' with hw | hs | hs
      · exact h.saves b' (.inl hw)
      · cases hs
      · cases hs
  · cases hstep

theorem BlocksOk.step (hn : 1 < n) {ev : Event n B H} (hstep : e.step hd i ev = some r)
    (hleader : e.role = .leader → Fits i) (hrecv : ∀ src msg, ev = .recv src msg →
      SafeBlockMessage e msg ∧ ∀ dest, (send dest msg).Ok hd history src)
    (hseal : ∀ b, ev = .sealBlock b → e.worker ≠ .executing) : StepOk hd history i r := by
  cases ev with
  | enter =>
    simp only [Engine.step] at hstep
    split at hstep
    · cases hstep
      exact h.stepOk (.enter i e) (enter_acts i e)
    · cases hstep
  | leave =>
    simp only [Engine.step] at hstep
    split at hstep <;> cases hstep <;> exact h.stepOk (.done e) (by simp)
  | timeout => exact h.timeout hnew hstep
  | beat => exact h.beat hnew hstep
  | alone => exact h.alone hnew hn hleader hstep
  | recv src msg =>
    obtain ⟨hsafe, hsent⟩ := hrecv src msg rfl
    exact h.recv hnew hstep hleader hsafe hsent
  | workerCommit valid result => exact h.workerCommit hstep
  | sealerReport =>
    simp only [Engine.step] at hstep
    split at hstep
    · cases hstep
      exact h.stepOk (.withSealer (fun _ => ⟨by simp, by simp, by simp⟩) e) (by simp)
    · cases hstep
  | sealerTurn valid result => exact h.sealerTurn hstep
  | sealBlock b => exact h.sealBlock hnew hstep (hseal b rfl)
  | sync blockHash =>
    cases hstep
    exact h.stepOk (.of_eq rfl rfl rfl rfl rfl) (by simp)

end

/-! ### Runs -/

/-- Whoever leads, or stands, has an index that fits. -/
def Placed (i : Fin n) (e : Engine n B H) : Prop :=
  (e.role = .leader ∨ ∃ votes voters, e.worker = .campaigning votes voters) → Fits i

omit [DecidableEq B] in
theorem Placed.step {ev : Event n B H} (h : Placed i e) (hstep : e.step hd i ev = some (e', acts)) :
    Placed i e' := by
  intro hplace
  cases Engine.step_cases hstep with
  | quiet hquiet =>
    rcases hplace with hl | ⟨votes, voters, hw⟩
    · exact h (.inl (hquiet.leads hl).1)
    · obtain ⟨-, votes', hw', -⟩ := hquiet.campaigns votes voters hw
      exact h (.inr ⟨votes', voters, hw'⟩)
  | grants hgrants =>
    rcases hplace with hl | ⟨votes, voters, hw⟩
    · exact absurd hl hgrants.role
    · rw [hgrants.worker] at hw
      cases hw
  | stands hstands => exact hstands.fits
  | counts _ hcounts => exact h (.inr ⟨_, _, hcounts.worker⟩)

structure NetOk (hd : Headers B H) (s : Net n B H) : Prop where
  placed : ∀ i, Placed i (s.nodes i)
  blocks : ∀ i, BlocksOk hd s.history i (s.nodes i)
  actions : ∀ i a, (i, a) ∈ s.history → a.Ok hd s.history i

theorem Engine.start_blocksOk (hd : Headers B H) (head : BlockRef H) (noHash : H) :
    BlocksOk hd ([] : List (Fin n × Action n B H)) i (Engine.start head noHash) where
  held _ h := by cases h
  acked _ _ h := by simp [Engine.start] at h
  waits _ h := by cases h
  executes h := by cases h
  saves _ h := by rcases h with h | h | h <;> cases h

theorem NetOk.start (hd : Headers B H) (heads : Fin n → BlockRef H) (noHash : H) :
    NetOk hd (start heads noHash : Net n B H) where
  placed i h := by rcases h with h | ⟨_, _, h⟩ <;> cases h
  blocks i := Engine.start_blocksOk hd (heads i) noHash
  actions _ _ h := by cases h

theorem NetOk.step (hn : 1 < n) {s s' : Net n B H} {ev : Fin n × Event n B H} (h : NetOk hd s)
    (hguarded : Guarded SafeCommit (Steps (step hd)) s ev s') : NetOk hd s' := by
  obtain ⟨hsafe, hstep⟩ := hguarded
  obtain ⟨e, acts, hpossible, hengine, rfl⟩ := step_eq_some hstep
  obtain ⟨i, event⟩ := ev
  have hsub : ∀ x ∈ s.history, x ∈ (s.advance i e acts).history := fun _ hx => mem_append_left _ hx
  have hrecv : ∀ src msg, event = .recv src msg → SafeBlockMessage (s.nodes i) msg ∧
      ∀ dest, (send dest msg).Ok hd (s.advance i e acts).history src := by
    rintro src msg rfl
    refine ⟨hsafe, fun dest => ?_⟩
    -- what is required of a message does not depend on whom it was sent to
    obtain ⟨dest', hsent⟩ : ∃ dest', (src, send dest' msg) ∈ s.history := by
      rcases hpossible.2 with hsent | hsent
      · exact ⟨none, hsent⟩
      · exact ⟨some i, hsent⟩
    have hok := (h.actions src _ hsent).mono hsub
    cases msg with
    | heartBeatResp resp => exact hok
    | _ => trivial
  obtain ⟨hblocks, hacts⟩ := ((h.blocks i).mono hsub).step
    (fun a ha => mem_advance.mpr (.inr ⟨rfl, ha⟩)) hn hengine (fun hl => h.placed i (.inl hl))
    hrecv (fun b hb => by subst hb; exact hsafe.2)
  refine ⟨fun j => ?_, fun j => ?_, fun j a ha => ?_⟩
  · by_cases hj : j = i
    · subst hj
      simpa [advance] using (h.placed j).step hengine
    · simpa [advance, Function.update_of_ne hj] using h.placed j
  · by_cases hj : j = i
    · subst hj
      simpa [advance] using hblocks
    · simpa [advance, Function.update_of_ne hj] using (h.blocks j).mono hsub
  · rcases mem_advance.mp ha with hold | ⟨rfl, hnew⟩
    · exact (h.actions j a hold).mono hsub
    · exact hacts a hnew

/-- **Only replicated blocks are committed.** In every run of more than one sealer whose steps meet
the condition, a block that a sealer has committed has been held, as uncommitted block, by at least
`n - f` sealers, the one that committed it included. -/
theorem committed_replicated (hn : 1 < n) (hd : Headers B H) (heads : Fin n → BlockRef H)
    (noHash : H) {es : List (Fin n × Event n B H)} {s : Net n B H}
    (hrun : Run (Guarded SafeCommit (Steps (step hd))) (start heads noHash) es s)
    {i : Fin n} {b : B} (hcommit : (i, commit b) ∈ s.history) :
    i ∈ holders s.history b ∧ n - (n - 1) / 2 ≤ (holders s.history b).card := by
  have hok : NetOk hd s := hrun.invariant (fun _ s => NetOk hd s) (NetOk.start hd heads noHash)
    fun _ _ _ _ hok hs => hok.step hn hs
  exact hok.actions i _ hcommit

end Invariant

/-! ### Blocks of three sealers -/

/-- The heartbeat of sealer 0 in term 1. -/
def beatWith (block : Option Nat) (number : Int) : Msg Nat Nat :=
  .heartBeat ⟨⟨0, 1, 0, 0⟩, 0, block, number⟩

/-- The response of sealer 1. -/
def beatAnswer (hash : Option Nat) : Msg Nat Nat := .heartBeatResp ⟨⟨1, 1, 0, 0⟩, hash⟩

/-- Sealer 0 is elected, sealer 1 answers two of its heartbeats, and sealer 0 has seen one of the
answers when it seals block 1. -/
def sealedFirst : List (Fin 3 × Event 3 Nat Nat) :=
  plainElection ++
    [(0, .sealerTurn false none), (0, .sealerTurn false none), (0, .enter), (1, .enter),
      (0, .beat), (1, .recv 0 (beatWith none 0)), (0, .beat), (1, .recv 0 (beatWith none 0)),
      (0, .recv 1 (beatAnswer none)), (0, .sealerTurn false none), (0, .sealBlock 1)]

/-- The sealer thread wakes up, and the block is executed and saved. -/
def committedBySealer : List (Fin 3 × Event 3 Nat Nat) :=
  [(0, .sealerTurn true none), (0, .sealerTurn true none), (0, .sealerTurn true (some 77))]

/-- Sealer 1 gets the block and acknowledges it. -/
def acknowledgedRun : List (Fin 3 × Event 3 Nat Nat) :=
  sealedFirst ++ [(0, .beat), (1, .recv 0 (beatWith (some 1) 1)),
    (0, .recv 1 (beatAnswer (some 1)))] ++ committedBySealer

theorem acknowledgedRun_replicated :
    ∃ s, Run (Guarded SafeCommit (Steps (step plainHeaders))) threeSealers acknowledgedRun s ∧
      (0, commit 1) ∈ s.history ∧
      0 ∈ holders s.history 1 ∧ 3 - (3 - 1) / 2 ≤ (holders s.history 1).card := by
  refine exists_guardedRun_of_exec (p := fun s => (0, commit 1) ∈ s.history) (by decide +kernel)
    fun s hrun hcommit => ⟨hcommit, ?_⟩
  exact committed_replicated (by decide) plainHeaders (fun _ => ⟨0, 0⟩) 0 hrun hcommit

/-- The second answer arrives behind the block: sealer 0 commits block 1, which nobody else has. -/
theorem unreplicated_commit :
    ∃ s, Run (Steps (step plainHeaders)) threeSealers
        (sealedFirst ++ [(0, .recv 1 (beatAnswer none))] ++ committedBySealer) s ∧
      (0, commit 1) ∈ s.history ∧ holders s.history 1 = {0} := by
  exact exists_run_of_exec (by decide +kernel) fun _ _ h => h

end Rcc.Raft
