import Rcc.Pbft.Node4nl

/-!
# Rcc.Pbft.Rounds

The order in which a node commits its rounds.

A handler commits at most one round, the one its event is about, and only when that height has
as many proposals as there are packing nodes (`Node.step_saved`). Nothing else stands between a
message of a height committed long ago and a second commit of it: proposals are cached whatever
their height, and votes are refused for exactly the last committed height only. So the committed
heights increase as long as no late message completes an old height again
(`saved_rounds_increase`); `replayedRounds_repeat` is a run in which one does. The blocks are linked
in every run (`saved_blocks_linked`).
-/

namespace Rcc.Pbft

open List

variable {H Id Sg : Type}

section

variable [DecidableEq H] [DecidableEq Id] [DecidableEq Sg] [StdHash H] [StdHash Sg]

/-! ### What a step saves -/

variable {c : Crypto H Id Sg} {e : Engine H Id Sg} {ev : Event H Id Sg}

/-- The height an event is about and the proposals of that height once the event has arrived. -/
def Event.arrived (c : Crypto H Id Sg) (e : Engine H Id Sg) (ev : Event H Id Sg) :
    Option (Int × Round H Id Sg) :=
  match ev with
  | .sign m _ | .commit m _ => some (m.height, e.reqCache.round m.height)
  | _ => (ev.proposal? c e).map fun req =>
    (req.height, (e.reqCache.round req.height).set req.idx req)

omit [DecidableEq H] [DecidableEq Sg] [StdHash H] [StdHash Sg] in
theorem Event.arrived_of_proposal? {req : PrepareReq4nl H Id Sg} (h : ev.proposal? c e = some req) :
    ev.arrived c e = some (req.height, (e.reqCache.round req.height).set req.idx req) := by
  cases ev with
  | prepare | sealed => simp only [Event.arrived, h, Option.map_some]
  | sign | commit => cases h

theorem Engine.Arrival.arrived {e₁ : Engine H Id Sg} {r : Int} {sent : List (Output H Id Sg)}
    (h : Engine.Arrival c e ev r sent e₁) :
    ev.arrived c e = some (r, e₁.reqCache.round r) ∧
      e₁.globalSealingNodes = e.globalSealingNodes := by
  cases h with
  | proposal notify sent hreq =>
    refine ⟨?_, rfl⟩
    simp only [Event.arrived_of_proposal? hreq, Engine.addProposal, Engine.addOwnSign,
      ReqCache4nl.round_addSignReq4nl, ReqCache4nl.round_addPrepareReq4nl, if_pos]
  | sign m env | commit m env => simp [Event.arrived]

/-- The moves at a height save nothing, or that height once, and then it was complete. -/
theorem Engine.Effect.savedOf_cases {env : Env} {r : Int} {e' : Engine H Id Sg}
    {out : List (Output H Id Sg)} (h : Engine.Effect c env r e out e') :
    savedOf out = [] ∨
      ∃ s, savedOf out = [s] ∧ s.round = r ∧ s.merged = (e.reqCache.round r).nodes ∧
        (e.reqCache.round r).size = e.globalSealingNodes := by
  induction h with
  | done e | reschedule hready hcommit => exact .inl rfl
  | commit hreq tail ih =>
    simpa only [savedOf, filterMap_cons, Engine.addOwnCommit,
      ReqCache4nl.round_addCommitReq4nl] using ih
  | save hready htxs => exact .inr ⟨_, rfl, rfl, rfl, (Engine.of_checkSignAndCommitAll4nl hready).1⟩

/-- **What a step saves**: nothing, or the one round its event is about, with the proposals it
holds once the event has arrived, which are as many as there are packing nodes. -/
theorem Node.step_saved {n n' : Node H Id Sg} (h : n.step c ev = some n') :
    savedOf n'.outputs = savedOf n.outputs ∨
      ∃ s a, savedOf n'.outputs = savedOf n.outputs ++ [s] ∧ ev.arrived c n.engine = some a ∧
        s.round = a.1 ∧ s.merged = a.2.nodes ∧ a.2.size = n.engine.globalSealingNodes := by
  rcases Node.step_cases h with ⟨-, rfl⟩ | ⟨-, out, e', hhandled, rfl⟩
  · exact .inl rfl
  · cases hhandled with
    | ignored => exact .inl (by simp)
    | @moves r sent out e₁ _ harr heff =>
      obtain ⟨harrived, hnodes⟩ := harr.arrived
      simp only [savedOf_append, harr.savedOf_sent, nil_append]
      rcases heff.savedOf_cases with hnone | ⟨s, hs, hround, hmerged, hsize⟩
      · exact .inl (by rw [hnone, append_nil])
      · exact .inr ⟨s, _, by rw [hs], harrived, hround, hmerged, hnodes ▸ hsize⟩

/-! ### Committed heights -/

/-- An event of a height at or below a committed one does not complete that height: once it has
arrived, the height still has fewer or more proposals than there are packing nodes. -/
def NotReopened (c : Crypto H Id Sg) (n : Node H Id Sg) (ev : Event H Id Sg) : Prop :=
  ∀ a ∈ ev.arrived c n.engine, ∀ s ∈ savedOf n.outputs, a.1 ≤ s.round →
    a.2.size ≠ n.engine.globalSealingNodes

instance (c : Crypto H Id Sg) (n : Node H Id Sg) (ev : Event H Id Sg) :
    Decidable (NotReopened c n ev) :=
  inferInstanceAs (Decidable (∀ a ∈ ev.arrived c n.engine, ∀ s ∈ savedOf n.outputs, _))

/-- One step: the new height, if any, lies above all the old ones. -/
theorem saved_rounds_step {n n' : Node H Id Sg} (hcond : NotReopened c n ev)
    (h : n.step c ev = some n') (hold : ((savedOf n.outputs).map Saved.round).Pairwise (· < ·)) :
    ((savedOf n'.outputs).map Saved.round).Pairwise (· < ·) := by
  rcases Node.step_saved h with heq | ⟨s, a, heq, harrived, hround, -, hsize⟩
  · rwa [heq]
  · rw [heq, map_append, pairwise_append]
    refine ⟨hold, by simp, ?_⟩
    intro r hr r' hr'
    obtain ⟨t, ht, rfl⟩ := mem_map.mp hr
    rw [map_singleton, mem_singleton] at hr'
    by_contra hle
    exact hcond a harrived t ht (by omega) hsize

/-- **Rounds are committed once and in order** in every run in which no event completes a
height at or below a committed one. -/
theorem saved_rounds_increase {c : Crypto H Id Sg} {sealers : List Id} {key : Id}
    {genesis : Block H Id Sg} {chain : List (Block H Id Sg)} {es : List (Event H Id Sg)}
    {n : Node H Id Sg} (h : Run (Guarded (NotReopened c) (Steps (Node.step c)))
      ⟨Engine.init sealers key genesis chain, []⟩ es n) :
    ((savedOf n.outputs).map Saved.round).Pairwise (· < ·) :=
  h.invariant (fun _ n => ((savedOf n.outputs).map Saved.round).Pairwise (· < ·))
    List.Pairwise.nil fun _ _ _ _ hold hstep => saved_rounds_step hstep.1 hstep.2 hold

/-! ### The chain -/

/-- Each block refers to the one before it, the first one to `genesis`. -/
def Linked (c : Crypto H Id Sg) (genesis : Block H Id Sg) : List (Block H Id Sg) → Prop
  | [] => True
  | b :: bs => b.header.parentHash = (bs.headD genesis).header.digest c ∧
      b.header.number = (bs.headD genesis).header.number + 1 ∧ Linked c genesis bs

/-- The chain is linked, and has grown by the blocks that were saved. -/
structure Grown (c : Crypto H Id Sg) (genesis : Block H Id Sg) (chain : List (Block H Id Sg))
    (e : Engine H Id Sg) (outputs : List (Output H Id Sg)) : Prop where
  root : e.genesis = genesis
  saved : e.chain = ((savedOf outputs).map Saved.block).reverse ++ chain
  linked : Linked c genesis e.chain

section

variable {genesis : Block H Id Sg} {chain : List (Block H Id Sg)} {e' : Engine H Id Sg}
  {sent out : List (Output H Id Sg)} (hg : Grown c genesis chain e sent)
include hg

omit [DecidableEq H] [DecidableEq Id] [DecidableEq Sg] [StdHash H] [StdHash Sg] in
theorem Grown.unsaved (hout : savedOf out = []) (hroot : e'.genesis = e.genesis)
    (hchain : e'.chain = e.chain) : Grown c genesis chain e' (sent ++ out) :=
  ⟨hroot.trans hg.root, by rw [hchain, hg.saved, savedOf_append, hout, append_nil],
    hchain ▸ hg.linked⟩

theorem Grown.effect {env : Env} {r : Int} (h : Engine.Effect c env r e out e') :
    Grown c genesis chain e' (sent ++ out) := by
  have hroot (e : Engine H Id Sg) : (e.updateSchedule r).genesis = e.genesis := by
    unfold Engine.updateSchedule
    split <;> rfl
  induction h generalizing sent with
  | done => exact hg.unsaved rfl rfl rfl
  | commit _ _ ih =>
    rw [append_cons]
    exact ih (hg.unsaved rfl rfl rfl)
  | @save e txs =>
    have hchain : ((e.updateSchedule r).afterCommit r
        (bigBlockFor4nl c e.highest.header txs)).chain = _ :: e.chain :=
      congrArg _ (e.updateSchedule_chain r)
    refine ⟨(hroot e).trans hg.root, ?_, ?_⟩
    · rw [hchain, hg.saved]
      simp [savedOf]
    · -- the header of the block is populated from the highest one
      rw [hchain]
      exact ⟨hg.root ▸ rfl, hg.root ▸ rfl, hg.linked⟩
  | @reschedule e => exact hg.unsaved rfl (hroot e) (e.updateSchedule_chain r)

end

/-- **The chain of a node.** Whatever messages come, in whatever order and however often, the
blocks a node has saved make up its chain, in the order in which they were saved, with consecutive
numbers and each with the hash of the one before. -/
theorem saved_blocks_linked {sealers : List Id} {key : Id} {genesis : Block H Id Sg}
    {chain : List (Block H Id Sg)} (hchain : Linked c genesis chain) {es : List (Event H Id Sg)}
    {n : Node H Id Sg}
    (hrun : Run (Steps (Node.step c)) ⟨Engine.init sealers key genesis chain, []⟩ es n) :
    Grown c genesis chain n.engine n.outputs := by
  refine hrun.invariant (fun _ n => Grown c genesis chain n.engine n.outputs)
    ⟨rfl, rfl, hchain⟩ ?_
  intro _ n ev n' hg hstep
  rcases Node.step_cases hstep with ⟨-, rfl⟩ | ⟨-, out, e', hhandled, rfl⟩
  · exact hg
  · cases hhandled with
    | ignored => exact hg.unsaved rfl rfl rfl
    | @moves r sent out e₁ _ harr heff =>
      -- an arrival leaves the chain alone and saves nothing
      have harrived : Grown c genesis chain e₁ (n.outputs ++ sent) := by
        have hsent := harr.savedOf_sent
        cases harr <;> exact hg.unsaved hsent rfl rfl
      rw [← append_assoc]
      exact harrived.effect heff

end

/-! ### A node outside the first schedule

The fifth of five sealers packs no block in the first rounds, so that all proposals it merges
come off the network. -/

/-- The sealer with index 4 at process start. -/
def fifthNode : Node Digest Nat Signature :=
  ⟨Engine.init [10, 11, 12, 13, 14] 14 symbolicGenesis [], []⟩

/-- The messages of a complete round: four proposals and three votes of either kind on each. -/
def roundMessages (number : Int) : List (Event Digest Nat Signature) :=
  (List.range 4).flatMap fun i =>
    .prepare (symbolicProposal (10 + i) i number [i]) symbolicEnv ::
      votesOn [10, 11, 12] (symbolicProposal (10 + i) i number [i])

/-- Two rounds in order are committed in order. -/
theorem twoRounds_increase :
    ∃ n, Run (Guarded (NotReopened symbolic) (Steps (Node.step symbolic))) fifthNode
        (roundMessages 1 ++ roundMessages 2) n ∧ (savedOf n.outputs).map Saved.round = [1, 2] ∧
      ((savedOf n.outputs).map Saved.round).Pairwise (· < ·) := by
  refine exists_guardedRun_of_exec (p := fun n => (savedOf n.outputs).map Saved.round = [1, 2])
    (by decide +kernel) fun n hrun hsaved => ?_
  exact ⟨hsaved, saved_rounds_increase hrun⟩

/-- **The failing run.** The messages of round 1 are delivered once more after round 2: the
node commits round 1 a second time. -/
theorem replayedRounds_repeat :
    ∃ n, Run (Steps (Node.step symbolic)) fifthNode
        (roundMessages 1 ++ roundMessages 2 ++ roundMessages 1) n ∧
      (savedOf n.outputs).map Saved.round = [1, 2, 1] ∧
      ¬ ((savedOf n.outputs).map Saved.round).Pairwise (· < ·) := by
  exact exists_run_of_exec (by decide +kernel) fun _ _ h => h

/-- The blocks of that run are linked all the same. -/
theorem replayedRounds_linked :
    ∃ n, Run (Steps (Node.step symbolic)) fifthNode
        (roundMessages 1 ++ roundMessages 2 ++ roundMessages 1) n ∧
      n.engine.chain.map (·.header.number) = [3, 2, 1] ∧
      Grown symbolic symbolicGenesis [] n.engine n.outputs := by
  refine exists_run_of_exec (p := fun n => n.engine.chain.map (·.header.number) = [3, 2, 1])
    (by decide +kernel) fun n hrun hnumbers => ?_
  have hempty : Linked symbolic symbolicGenesis [] := trivial
  exact ⟨hnumbers, saved_blocks_linked hempty hrun⟩

end Rcc.Pbft
