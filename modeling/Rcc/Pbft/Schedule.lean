import Rcc.Pbft.Rounds

/-!
# Rcc.Pbft.Schedule

Whose proposals a round merges.

The packing nodes of a round are fixed in advance (`getSealingList`), but a proposal is cached
under whatever index it names, and a round is complete as soon as it has *as many* proposals as
there are packing nodes. The merged indices are the scheduled ones if every proposal that arrives
is signed by the sealer it names and that sealer packs in its round, and if the round that is
completed is the one whose schedule is in force (`merged_as_scheduled`). In
`foreignIndex_merged` a proposal under an index that belongs to no sealer is merged.
-/

namespace Rcc.Pbft

open List

variable {H Id Sg : Type}

open Engine (getSealingList packNodes)

/-! ### Schedules -/

/-- The packing nodes of a round, when rounds follow each other: what `checkAndSave4nl` leaves
behind for it at the round before, or the initial value of `globalSealingNodesList`. -/
def scheduleFor (sealers : List Id) (r : Int) : List Nat :=
  match packNodes (r - 1) with
  | none => [0, 1, 2, 3]
  | some k => getSealingList sealers.length k (r - 1)

/-- The sealer that a proposal names has signed it, and packs in the round of the proposal. -/
def Scheduled (c : Crypto H Id Sg) (sealers : List Id) (req : PrepareReq4nl H Id Sg) : Prop :=
  req.idx ∈ scheduleFor sealers req.height ∧
    ∃ id ∈ sealers[req.idx]?, req.toPBFTMsg.signedBy c id = true

instance (c : Crypto H Id Sg) (sealers : List Id) (req : PrepareReq4nl H Id Sg) :
    Decidable (Scheduled c sealers req) :=
  inferInstanceAs (Decidable (_ ∧ ∃ id ∈ sealers[req.idx]?, _))

/-- The merged indices are the scheduled ones, and each proposal is filed under the index of the
sealer that signed it. -/
structure MergedAsScheduled (c : Crypto H Id Sg) (e : Engine H Id Sg) (s : Saved H Id Sg) :
    Prop where
  count : s.merged.length = e.globalSealingNodes
  indices : (s.merged.map Prod.fst).toFinset =
    (e.globalSealingNodesList.map (Nat.cast : Nat → Int)).toFinset
  signed : ∀ p ∈ s.merged, p.1 = p.2.idx ∧
    ∃ id ∈ e.sealerList[p.2.idx]?, p.2.toPBFTMsg.signedBy c id = true

theorem length_updateSchedule [DecidableEq Id] (r : Int) {e : Engine H Id Sg}
    (h : e.globalSealingNodesList.length = e.globalSealingNodes) :
    (e.updateSchedule r).globalSealingNodesList.length =
      (e.updateSchedule r).globalSealingNodes := by
  unfold Engine.updateSchedule
  split
  · exact h
  · simp [getSealingList]

/-- Distinct indices from a list of the same length are all of the list. -/
theorem toFinset_eq_of_subset {l l' : List Int} (hnodup : l.Nodup) (hsub : ∀ i ∈ l, i ∈ l')
    (hlen : l.length = l'.length) : l.toFinset = l'.toFinset := by
  refine Finset.eq_of_subset_of_card_le (fun i hi => ?_) ?_
  · exact mem_toFinset.mpr (hsub i (mem_toFinset.mp hi))
  · calc l'.toFinset.card ≤ l'.length := toFinset_card_le l'
      _ = l.length := hlen.symm
      _ = l.toFinset.card := (toFinset_card_of_nodup hnodup).symm

section

variable [DecidableEq Id] {c : Crypto H Id Sg} {e : Engine H Id Sg} {ev : Event H Id Sg}

/-- What must be true of an event: its proposal is scheduled, and if its round is complete with
it, then the schedule in force is that round's. -/
def ScheduledEvent (c : Crypto H Id Sg) (e : Engine H Id Sg) (ev : Event H Id Sg) : Prop :=
  (∀ req ∈ ev.proposal? c e, Scheduled c e.sealerList req) ∧
  ∀ a ∈ ev.arrived c e, a.2.size = e.globalSealingNodes →
    e.globalSealingNodesList = scheduleFor e.sealerList a.1

instance (c : Crypto H Id Sg) (e : Engine H Id Sg) (ev : Event H Id Sg) :
    Decidable (ScheduledEvent c e ev) :=
  inferInstanceAs (Decidable ((∀ req ∈ ev.proposal? c e, _) ∧ ∀ a ∈ ev.arrived c e, _))

/-- The invariant: scheduled proposals only. -/
structure ScheduledEngine (c : Crypto H Id Sg) (e : Engine H Id Sg) : Prop where
  length : e.globalSealingNodesList.length = e.globalSealingNodes
  cached : e.CachedProposals (Scheduled c e.sealerList)

/-- A complete round of scheduled proposals, under the schedule in force, merges as scheduled. -/
theorem ScheduledEngine.merged {a : Int × Round H Id Sg} {s : Saved H Id Sg}
    (hok : ScheduledEngine c e) (hev : ScheduledEvent c e ev) (harrived : ev.arrived c e = some a)
    (hmerged : s.merged = a.2.nodes) (hsize : a.2.size = e.globalSealingNodes)
    (hcached : ∀ p ∈ a.2.nodes, p.2.height = a.1 ∧ (p.2.idx : Int) = p.1 ∧
      Scheduled c e.sealerList p.2) : MergedAsScheduled c e s := by
  have hforce := hev.2 a harrived hsize
  refine ⟨by rw [hmerged]; exact hsize, ?_, ?_⟩
  · rw [hmerged]
    refine toFinset_eq_of_subset a.2.nodup (fun i hi => ?_) ?_
    · obtain ⟨p, hp, rfl⟩ := mem_map.mp hi
      obtain ⟨hheight, hidx, hsched, -⟩ := hcached p hp
      rw [hforce, ← hheight, ← hidx]
      exact mem_map.mpr ⟨p.2.idx, hsched, rfl⟩
    · rw [length_map, length_map, hok.length]
      exact hsize
  · intro p hp
    obtain ⟨-, hidx, -, hsigned⟩ := hcached p (hmerged ▸ hp)
    exact ⟨hidx.symm, hsigned⟩

/-- The proposals of the event's height are cached ones and the event's own. -/
theorem arrived_cached {P : PrepareReq4nl H Id Sg → Prop} {a : Int × Round H Id Sg}
    (hP : e.CachedProposals P) (hreq : ∀ req ∈ ev.proposal? c e, P req)
    (harrived : ev.arrived c e = some a) :
    ∀ p ∈ a.2.nodes, p.2.height = a.1 ∧ (p.2.idx : Int) = p.1 ∧ P p.2 := by
  have hround : ∀ r, ∀ p ∈ (e.reqCache.round r).nodes,
      p.2.height = r ∧ (p.2.idx : Int) = p.1 ∧ P p.2 := fun r p hp =>
    hP r p.1 p.2 ((UnorderedMap.find?_eq_some_iff _ _ _).mpr hp)
  cases hprop : ev.proposal? c e with
  | none =>
    cases ev with
    | prepare | sealed => simp [Event.arrived, hprop] at harrived
    | sign m | commit m =>
      cases harrived
      exact hround m.height
  | some req =>
    rw [Event.arrived_of_proposal? hprop] at harrived
    cases harrived
    intro p hp
    rcases UnorderedMap.mem_set_nodes.mp hp with rfl | ⟨-, hp⟩
    · exact ⟨rfl, rfl, hreq req hprop⟩
    · exact hround req.height p hp

variable [DecidableEq H] [DecidableEq Sg] [StdHash H] [StdHash Sg]

/-- As many sealers are scheduled as proposals are waited for. -/
theorem length_schedule_effect {env : Env} {r : Int} {e' : Engine H Id Sg}
    {out : List (Output H Id Sg)} (h : Engine.Effect c env r e out e')
    (hlen : e.globalSealingNodesList.length = e.globalSealingNodes) :
    e'.globalSealingNodesList.length = e'.globalSealingNodes := by
  induction h with
  | done => exact hlen
  | commit _ _ ih => exact ih hlen
  | save | reschedule => exact length_updateSchedule r hlen

/-! ### Runs -/

theorem ScheduledEngine.step {n n' : Node H Id Sg} (hok : ScheduledEngine c n.engine)
    (hev : ScheduledEvent c n.engine ev) (h : n.step c ev = some n') :
    ScheduledEngine c n'.engine := by
  rcases Node.step_cases h with ⟨-, rfl⟩ | ⟨-, out, e', hhandled, rfl⟩
  · exact hok
  · refine ⟨?_, ?_⟩
    · cases hhandled with
      | ignored => exact hok.length
      | moves harr heff =>
        refine length_schedule_effect heff ?_
        cases harr <;> exact hok.length
    · rw [hhandled.frame.1]
      exact hok.cached.handled hhandled hev.1

/-- **Only scheduled proposers are merged**: in every run of scheduled events, a step that saves
a round has merged proposals of exactly the sealers scheduled at that moment, each signed by the
sealer it is filed under. -/
theorem merged_as_scheduled {c : Crypto H Id Sg} {sealers : List Id} {key : Id}
    {genesis : Block H Id Sg} {chain : List (Block H Id Sg)} {es : List (Event H Id Sg)}
    {n n' : Node H Id Sg} {ev : Event H Id Sg} {s : Saved H Id Sg}
    (h : Run (Guarded (fun n ev => ScheduledEvent c n.engine ev) (Steps (Node.step c)))
      ⟨Engine.init sealers key genesis chain, []⟩ es n)
    (hev : ScheduledEvent c n.engine ev) (hstep : n.step c ev = some n')
    (hs : savedOf n'.outputs = savedOf n.outputs ++ [s]) : MergedAsScheduled c n.engine s := by
  have hok : ScheduledEngine c n.engine := by
    refine h.invariant (fun _ n => ScheduledEngine c n.engine) ⟨rfl, ?_⟩
      fun _ _ _ _ hok hstep => hok.step hstep.1 hstep.2
    intro r i req hreq
    cases hreq
  rcases Node.step_saved hstep with heq | ⟨s', a, heq, harrived, -, hmerged, hsize⟩
  · rw [heq] at hs
    simp at hs
  · obtain rfl : s' = s := by simpa [heq] using hs
    exact hok.merged hev harrived hmerged hsize (arrived_cached hok.cached hev.1 harrived)

end

/-- The last vote of the first round, after which the fifth sealer saves it. -/
def lastVote (req : PrepareReq4nl Digest Nat Signature) : Event Digest Nat Signature :=
  .commit (voteFor symbolic 12 0 req) symbolicEnv

/-- The first round of the fifth sealer merges the four scheduled proposals. -/
theorem firstRound_as_scheduled :
    ∃ n n' s, Run (Guarded (fun n ev => ScheduledEvent symbolic n.engine ev)
        (Steps (Node.step symbolic))) fifthNode (roundMessages 1).dropLast n ∧
      n.step symbolic (lastVote (symbolicProposal 13 3 1 [3])) = some n' ∧
      savedOf n'.outputs = savedOf n.outputs ++ [s] ∧ MergedAsScheduled symbolic n.engine s := by
  have hsaved : ((exec (guardedStep (fun n ev => ScheduledEvent symbolic n.engine ev)
      (Node.step symbolic)) fifthNode (roundMessages 1).dropLast).bind fun n =>
        (guardedStep (fun n ev => ScheduledEvent symbolic n.engine ev) (Node.step symbolic) n
          (lastVote (symbolicProposal 13 3 1 [3]))).map fun n' =>
            ((savedOf n.outputs).length, (savedOf n'.outputs).length)) = some (0, 1) := by
    decide +kernel
  obtain ⟨n, hn, hlast⟩ := Option.bind_eq_some_iff.mp hsaved
  obtain ⟨n', hn', hlen⟩ := Option.map_eq_some_iff.mp hlast
  obtain ⟨hev, hstep⟩ := guarded_of_guardedStep hn'
  rw [Prod.mk.injEq, length_eq_zero_iff, length_eq_one_iff] at hlen
  obtain ⟨hnil, s, hs⟩ := hlen
  have hrun := guardedRun_of_exec hn
  have happ : savedOf n'.outputs = savedOf n.outputs ++ [s] := by rw [hs, hnil]; rfl
  exact ⟨n, n', s, hrun, hstep, happ, merged_as_scheduled hrun hev hstep happ⟩

/-- Three proposals of packing nodes, and one that the sealer with key 13 signs under the index
7, with three votes of either kind on each but the last vote. -/
def foreignIndexRound : List (Event Digest Nat Signature) :=
  ([0, 1, 2, 7].flatMap fun i =>
    let req := symbolicProposal (if i = 7 then 13 else 10 + i) i 1 [i]
    .prepare req symbolicEnv :: votesOn [10, 11, 12] req).dropLast

/-- **The failing run.** The round of five sealers is saved with a proposal under index 7. -/
theorem foreignIndex_merged :
    ∃ n n' s, Run (Steps (Node.step symbolic)) fifthNode foreignIndexRound n ∧
      n.step symbolic (lastVote (symbolicProposal 13 7 1 [7])) = some n' ∧
      savedOf n'.outputs = savedOf n.outputs ++ [s] ∧ (7 : Int) ∈ s.merged.map Prod.fst ∧
      ¬ MergedAsScheduled symbolic n.engine s := by
  have hsaved : ((exec (Node.step symbolic) fifthNode foreignIndexRound).bind fun n =>
      (n.step symbolic (lastVote (symbolicProposal 13 7 1 [7]))).map fun n' =>
        (n.engine.globalSealingNodesList, (savedOf n.outputs).length,
          (savedOf n'.outputs).map fun s => s.merged.map Prod.fst)) =
      some ([0, 1, 2, 3], 0, [[7, 2, 1, 0]]) := by decide +kernel
  obtain ⟨n, hn, hlast⟩ := Option.bind_eq_some_iff.mp hsaved
  obtain ⟨n', hstep, hobs⟩ := Option.map_eq_some_iff.mp hlast
  simp only [Prod.mk.injEq, length_eq_zero_iff] at hobs
  obtain ⟨hlist, hnil, hmerged⟩ := hobs
  obtain ⟨s, hs, hidx⟩ := map_eq_singleton_iff.mp hmerged
  refine ⟨n, n', s, run_of_exec hn, hstep, by rw [hs, hnil]; rfl, by simp [hidx], ?_⟩
  intro hsched
  have hindices := hsched.indices
  rw [hidx, hlist] at hindices
  exact absurd hindices (by decide)

end Rcc.Pbft
