import Rcc.Lib.Except
import Rcc.Lib.Run
import Rcc.Precompiled.ChainGovernance

/-!
# Rcc.Precompiled.Majority

What stands behind a decision of the committee.

* `Audit` — the tables with a ledger beside them: every vote that has been cast, was not replaced
  by its voter and has not yet carried a decision. The ledger is what the votes mean; the committee
  table is what the code keeps of it;
* `Majority` — distinct members whose votes in the ledger, for exactly this proposal and not
  expired, weigh more than the threshold asks for, in exact numbers;
* `Legitimate` — a step that decides has a majority, and one by an outsider does nothing;
* `Founded` — the invariant of the runs: the votes in the table are in the ledger, one for each
  member and key;
* `decisions_need_majorities` — in a run under `Sound`, every step is legitimate.
-/

namespace Rcc.Precompiled.ChainGovernance

open List CommitteeTable AccessRow

open Storage (Address Version)

variable {version : Version}

/-! ## Decisions -/

variable (c : CommitteeTable)

/-- The threshold as an exact number. -/
def CommitteeTable.threshold : ℚ :=
  match c.thresholds with
  | [] => 1 / 2
  | t :: _ => t.val / 100

namespace State

def weights (s : State) : List (Address × Int) := s.getCommitteeTable.weights

def thresholds (s : State) : List (Fin 100) := s.getCommitteeTable.thresholds

/-- The weight of a member. -/
def weight (s : State) (a : Address) : Int := (s.getCommitteeTable.weight? a).getD 0

def totalWeight (s : State) : Int := (s.members.map s.weight).sum

/-- The share of the total a proposal has to exceed. -/
def threshold (s : State) : ℚ := s.getCommitteeTable.threshold

/-- A member has been added or removed, a weight or the threshold changed. -/
def Decides (s s' : State) : Prop :=
  s'.members ≠ s.members ∨ s'.weights ≠ s.weights ∨ s'.thresholds ≠ s.thresholds

instance (s s' : State) : Decidable (Decides s s') := inferInstanceAs (Decidable (_ ∨ _ ∨ _))

/-- What a proposal is for. -/
def Enacted (s s' : State) : Proposal → Prop
  | .grant user => s'.members = s.members ++ [user] ∧ s'.weights = s.weights ++ [(user, 1)] ∧
      s'.thresholds = s.thresholds
  | .revoke user => s'.members = s.members.filter (· ≠ user) ∧
      s'.weights = s.weights.filter (·.1 ≠ user) ∧ s'.thresholds = s.thresholds
  | .weight user value => s'.members = s.members ∧
      s'.weights = s.weights.map (fun row => if row.1 = user then (user, value) else row) ∧
      s'.thresholds = s.thresholds
  | .threshold value => s'.members = s.members ∧ s'.weights = s.weights ∧
      s'.thresholds = s.thresholds.map fun _ => value

/-- Distinct members whose unexpired votes for `p` among the ballots weigh enough. -/
def Majority (s : State) (ballots : List Vote) (p : Proposal) (number : Int) : Prop :=
  ∃ bs : List Vote,
    (∀ b ∈ bs, b ∈ ballots ∧ b.proposal = p ∧ number < b.blockLimit ∧ b.origin ∈ s.members) ∧
    (bs.map Vote.origin).Nodup ∧
    s.threshold * s.totalWeight < ((bs.map fun b => s.weight b.origin).sum : Int)

end State

/-- The proposal a call is a vote for, if it comes to a vote. -/
def Op.proposal? (version : Version) (s : State) : Op → Option Proposal
  | .grantCommitteeMember user =>
    if user ∈ s.operators ∨ s.access.isEmpty ∨ user ∈ s.members then none else some (.grant user)
  | .revokeCommitteeMember user => if user ∈ s.members then some (.revoke user) else none
  | .updateCommitteeMemberWeight user weight =>
    if version ≥ V2_7_0 ∧ weight ≤ 0 ∨ user ∉ s.members ∨ (user, weight) ∈ s.weights then none
    else some (.weight user weight)
  | .updateThreshold weight =>
    if h : weight > 99 ∨ weight < 0 then none
    else if (⟨weight.toNat, toNat_lt_hundred h⟩ : Fin 100) ∈ s.thresholds then none
    else some (.threshold ⟨weight.toNat, toNat_lt_hundred h⟩)

/-- The tables and, beside them, the votes that stand and that no decision has used. -/
structure Audit where
  state : State
  ledger : List Vote
  /-- the block of the last call -/
  number : Int
  deriving DecidableEq

namespace Audit

/-- The ledger with the vote of a call, if its origin is a member. It takes the place of the vote
that the origin had on the same matter. -/
def ballots (version : Version) (a : Audit) (tx : Call) : List Vote :=
  match tx.op.proposal? version a.state with
  | some p => if tx.origin ∈ a.state.members then
      (a.ledger.filter fun b => ¬(b.proposal.key = p.key ∧ b.origin = tx.origin)) ++
        [⟨p, tx.origin, tx.number + c_voteValidLimit⟩] else a.ledger
  | none => a.ledger

/-- A call, at a block that is not before the last one. A decision uses up all votes for what it
decides. -/
def step (version : Version) (a : Audit) (tx : Call) : Option Audit :=
  if tx.number < a.number then none
  else
    let state := a.state.after version tx
    let ballots := a.ballots version tx
    some
      { state
        ledger := if a.state.Decides state then
            ballots.filter fun b => some b.proposal ≠ tx.op.proposal? version a.state
          else ballots
        number := tx.number }

end Audit

/-- What a step is to be: whatever it decides has a majority behind it, and a call by somebody who
is no member does nothing. -/
structure Legitimate (version : Version) (a : Audit) (tx : Call) (a' : Audit) : Prop where
  majority : a.state.Decides a'.state → ∃ p, tx.op.proposal? version a.state = some p ∧
    a.state.Enacted a'.state p ∧ a.state.Majority (a.ballots version tx) p tx.number
  outsider : tx.origin ∉ a.state.members → a'.state = a.state

/-- A committee in force, with a weight for each member, and votes that are in the ledger. -/
structure Founded (a : Audit) : Prop where
  nonempty : a.state.members ≠ []
  nodup : a.state.members.Nodup
  enabled : ∀ row ∈ a.state.access, row.enableNum ≤ a.number + 1
  created : a.state.committee.isSome
  weighted : ∀ u ∈ a.state.members, u ∈ a.state.weights.map Prod.fst
  slots : (a.state.getCommitteeTable.votes.map fun v => (v.proposal.key, v.origin)).Nodup
  cast : ∀ v ∈ a.state.getCommitteeTable.votes, v ∈ a.ledger

/-- When a call is safe: weights are positive and add up to what a double can hold, the votes for a
threshold are deleted once used, and the last member is not dismissed. -/
structure Sound (version : Version) (a : Audit) (tx : Call) : Prop where
  positive : ∀ u ∈ a.state.members, 0 < a.state.weight u
  bounded : a.state.totalWeight ≤ 2 ^ 53
  version : ∀ w, tx.op = .updateThreshold w → V2_7_0 ≤ version
  notLast : ∀ u, tx.op = .revokeCommitteeMember u → a.state.members ≠ [u]

/-! ## Recording a vote -/

/-- The table with the vote of a call. -/
def State.voted (s : State) (tx : Call) (p : Proposal) : CommitteeTable :=
  s.getCommitteeTable.recordVote p tx.origin tx.number

/-- A member has one vote under each key. -/
def CommitteeTable.Slots : Prop :=
  (c.votes.map fun v => (v.proposal.key, v.origin)).Nodup

theorem mem_recordVote {c : CommitteeTable} {p : Proposal} {origin : Address} {number : Int}
    {v : Vote} (h : v ∈ (c.recordVote p origin number).votes) :
    (v ∈ c.votes ∧ ¬(v.proposal.key = p.key ∧ v.origin = origin)) ∨
      v = ⟨p, origin, number + c_voteValidLimit⟩ := by
  replace h := (mem_filter.mp h).1
  split at h
  · obtain ⟨v', hv', rfl⟩ := mem_map.mp h
    split
    · exact .inr rfl
    · exact .inl ⟨hv', of_decide_eq_false (Bool.eq_false_of_not_eq_true ‹_›)⟩
  · rename_i hnone
    rcases mem_append.mp h with hv | hv
    · exact .inl ⟨hv, fun hmine => hnone (any_eq_true.mpr ⟨v, hv, decide_eq_true hmine⟩)⟩
    · exact .inr (mem_singleton.mp hv)

theorem CommitteeTable.Slots.recordVote {c : CommitteeTable} (h : c.Slots) (p : Proposal)
    (origin : Address) (number : Int) : (c.recordVote p origin number).Slots := by
  refine List.Sublist.nodup (filter_sublist.map _) ?_
  split
  · rw [map_map]
    refine (map_congr_left fun v _ => ?_).symm ▸ h
    simp only [Function.comp]
    split
    · rename_i hmine
      have := of_decide_eq_true hmine
      rw [this.1, this.2]
    · rfl
  · rename_i hnone
    rw [map_append, map_singleton, ← concat_eq_append]
    refine List.Nodup.concat (fun hmem => hnone ?_) h
    obtain ⟨v, hv, heq⟩ := mem_map.mp hmem
    exact any_eq_true.mpr ⟨v, hv, decide_eq_true (Prod.mk.inj heq)⟩

@[simp] theorem weights_recordVote (p : Proposal) (origin : Address)
    (number : Int) : (c.recordVote p origin number).weights = c.weights := rfl

@[simp] theorem thresholds_recordVote (p : Proposal) (origin : Address)
    (number : Int) : (c.recordVote p origin number).thresholds = c.thresholds := rfl

/-! ## Counting the votes -/

/-- The weight of an address as a number; those of members are positive. -/
def CommitteeTable.weightNat (a : Address) : ℕ := ((c.weight? a).getD 0).toNat

/-- The votes `validate` counts, of those who are members. -/
def CommitteeTable.counted (access : List AccessRow) (p : Proposal)
    (blockNumber : Int) : List Vote :=
  c.votes.filter fun v => (v.proposal = p ∧ blockNumber ≤ v.blockLimit) ∧
    v.origin ∈ access.map address

section Validate

variable {c : CommitteeTable} {access : List AccessRow} {p : Proposal} {blockNumber : Int}

theorem memberWeights_eq {rows : List AccessRow} (hw : ∀ row ∈ rows, (c.weight? row.address).isSome)
    (f : Address → ℚ) (total : ℚ) :
    c.memberWeights rows (f, total) =
      .ok (fun a => if a ∈ rows.map address then
          Binary64.round ((c.weight? a).getD 0) else f a,
        rows.foldl (fun t row => Binary64.round
          (t + Binary64.round ((c.weight? row.address).getD 0))) total) := by
  induction rows generalizing f total with
  | nil => simp [memberWeights]
  | cons row rows ih =>
    obtain ⟨w, hrow⟩ := Option.isSome_iff_exists.mp (hw row mem_cons_self)
    simp only [memberWeights, hrow]
    rw [ih fun r hr => hw r (mem_cons_of_mem _ hr)]
    congr 2
    · funext a
      by_cases ha : a ∈ rows.map address
      · simp [ha]
      · by_cases heq : a = row.address
        · subst heq
          simp [hrow]
        · simp [heq]
    · simp [hrow]

/-- With a weight for each member, `validate` does not throw. -/
theorem exists_validate_eq (hw : ∀ u ∈ access.map address, (c.weight? u).isSome) (p : Proposal)
    (blockNumber : Int) : ∃ b, c.validate access p blockNumber = .ok b := by
  rw [validate]
  dsimp only
  split
  · exact ⟨true, rfl⟩
  · rw [memberWeights_eq fun row hrow => hw _ (mem_map_of_mem (mem_filter.mp hrow).1)]
    exact ⟨_, rfl⟩

/-- Distinct members do not weigh more than all of them. -/
theorem sum_weights_le {as bs : List Address} (hbs : bs.Nodup) (hsub : bs ⊆ as) (w : Address → ℕ) :
    (bs.map w).sum ≤ (as.map w).sum := by
  obtain ⟨l, hperm, hl⟩ := subperm_of_subset hbs hsub
  rw [← (hperm.map w).sum_eq]
  exact (hl.map w).sum_le_sum fun _ _ => Nat.zero_le _

theorem round_weight {u : Address} (hpos : 0 < (c.weight? u).getD 0)
    (hle : c.weightNat u ≤ 2 ^ 53) : Binary64.round ((c.weight? u).getD 0) = c.weightNat u := by
  have hcast : (((c.weight? u).getD 0 : ℤ) : ℚ) = (c.weightNat u : ℕ) := by
    rw [weightNat, ← Int.cast_natCast, Int.toNat_of_nonneg hpos.le]
  rw [hcast, Binary64.round_natCast hle]

/-- The distinct slots of the votes are distinct voters, for one proposal. -/
theorem nodup_counted (hslots : c.Slots) :
    ((c.counted access p blockNumber).map Vote.origin).Nodup := by
  have hsub : ((c.counted access p blockNumber).map fun v => (v.proposal.key, v.origin)).Nodup :=
    (filter_sublist.map _).nodup hslots
  have hkey : ((c.counted access p blockNumber).map fun v => (v.proposal.key, v.origin)) =
      ((c.counted access p blockNumber).map Vote.origin).map (Prod.mk p.key) := by
    rw [map_map]
    refine map_congr_left fun v hv => ?_
    have := of_decide_eq_true (mem_filter.mp hv).2
    simp [this.1.1]
  exact List.Nodup.of_map _ (hkey ▸ hsub)

theorem sum_counted_le (hslots : c.Slots) :
    ((c.counted access p blockNumber).map fun v => c.weightNat v.origin).sum ≤
      ((access.map address).map c.weightNat).sum := by
  have hcounted : (c.counted access p blockNumber).map (fun v => c.weightNat v.origin) =
      ((c.counted access p blockNumber).map Vote.origin).map c.weightNat := by
    rw [map_map]
    rfl
  rw [hcounted]
  refine sum_weights_le (nodup_counted hslots) (fun u hu => ?_) _
  obtain ⟨v, hv, rfl⟩ := mem_map.mp hu
  exact (of_decide_eq_true (mem_filter.mp hv).2).2

/-- Votes of others than members weigh nothing. -/
theorem sum_votes_eq (votes : List Vote) (members : List Address) (w : Address → ℕ) :
    (votes.map fun v => if v.origin ∈ members then w v.origin else 0).sum =
      ((votes.filter fun v => v.origin ∈ members).map fun v => w v.origin).sum := by
  induction votes with
  | nil => rfl
  | cons v votes ih => by_cases hv : v.origin ∈ members <;> simp [hv, ih]

theorem threshold_lt {b : ℚ} (hb : 0 ≤ b) (h : (match c.thresholds with
      | [] => 1 / 2
      | t :: _ => Binary64.round (t.val / 100)) < Binary64.round b) : c.threshold < b := by
  rw [threshold]
  split at h
  · have hhalf : Binary64.round (1 / 2) = 1 / 2 := by decide +kernel
    exact Binary64.lt_of_round_lt_round hb (hhalf.trans_lt h)
  · exact Binary64.lt_of_round_lt_round hb h

/-- What `validate` finds true is true of the exact weights. -/
theorem validate_true (c : CommitteeTable) (access : List AccessRow) (p : Proposal)
    (blockNumber : Int) (hne : access ≠ []) (henabled : ∀ row ∈ access, row.enableNum ≤ blockNumber)
    (hweights : ∀ u ∈ access.map address, (c.weight? u).isSome ∧ 0 < (c.weight? u).getD 0)
    (hbound : ((access.map address).map c.weightNat).sum ≤ 2 ^ 53)
    (hslots : c.Slots) (h : c.validate access p blockNumber = .ok true) :
    c.threshold * (((access.map address).map c.weightNat).sum : ℕ) <
      (((c.counted access p blockNumber).map fun v => c.weightNat v.origin).sum : ℕ) := by
  set members := access.map address with hmembers
  set total := (members.map c.weightNat).sum with htotal
  set totalVotes := ((c.counted access p blockNumber).map fun v => c.weightNat v.origin).sum
  have hle : ∀ u ∈ members, c.weightNat u ≤ 2 ^ 53 := fun u hu =>
    (single_le_sum (fun _ _ => Nat.zero_le _) _ (mem_map_of_mem hu)).trans hbound
  have hround : ∀ u ∈ members, Binary64.round ((c.weight? u).getD 0) = c.weightNat u :=
    fun u hu => round_weight (hweights u hu).2 (hle u hu)
  -- both sums are exact
  have hmap : access.map (fun row => c.weightNat row.address) = members.map c.weightNat := by
    rw [map_map]
    rfl
  have hsum : access.foldl (fun t row => Binary64.round
      (t + Binary64.round ((c.weight? row.address).getD 0))) 0 = (total : ℚ) := by
    have hadd := Binary64.foldl_round_add
      (fun row : AccessRow => Binary64.round ((c.weight? row.address).getD 0))
      (fun row => c.weightNat row.address) access
      (fun row hrow => hround _ (mem_map_of_mem hrow)) 0
      (by rw [Nat.zero_add, hmap]; exact hbound)
    rwa [Nat.zero_add, hmap, Nat.cast_zero] at hadd
  have hvotes : (c.votes.filter fun v => v.proposal = p ∧ blockNumber ≤ v.blockLimit).foldl
      (fun t v => Binary64.round (t + if v.origin ∈ members then
        Binary64.round ((c.weight? v.origin).getD 0) else 0)) 0 = (totalVotes : ℚ) := by
    have hcount : ((c.votes.filter fun v => v.proposal = p ∧ blockNumber ≤ v.blockLimit).map
        fun v => if v.origin ∈ members then c.weightNat v.origin else 0).sum = totalVotes := by
      rw [sum_votes_eq, filter_filter]
      refine congrArg (fun vs : List Vote => (vs.map fun v => c.weightNat v.origin).sum)
        (filter_congr fun v _ => ?_)
      rw [← Bool.decide_and]
      exact decide_eq_decide.mpr and_comm
    have hadd := Binary64.foldl_round_add
      (fun v : Vote => if v.origin ∈ members then
        Binary64.round ((c.weight? v.origin).getD 0) else 0)
      (fun v => if v.origin ∈ members then c.weightNat v.origin else 0)
      (c.votes.filter fun v => v.proposal = p ∧ blockNumber ≤ v.blockLimit)
      (fun v _ => by
        split_ifs with hv
        · exact hround _ hv
        · simp) 0 (by
        rw [Nat.zero_add, hcount]
        exact (sum_counted_le hslots).trans hbound)
    rwa [Nat.zero_add, hcount, Nat.cast_zero] at hadd
  have hentries : access.filter (·.enableNum ≤ blockNumber) = access :=
    filter_eq_self.mpr fun row hrow => decide_eq_true (henabled row hrow)
  have hpos : (0 : ℚ) < total := by
    obtain ⟨row, hrow⟩ := exists_mem_of_ne_nil _ hne
    have hu : row.address ∈ members := mem_map_of_mem hrow
    have hw : 0 < c.weightNat row.address := by
      have := (hweights _ hu).2
      rw [weightNat]
      omega
    exact_mod_cast hw.trans_le
      (single_le_sum (fun _ _ => Nat.zero_le _) _ (mem_map_of_mem hu))
  rw [validate, hentries, if_neg (by simpa using hne),
    memberWeights_eq (fun row hrow => (hweights _ (mem_map_of_mem hrow)).1), hsum] at h
  have hex := Except.ok.inj h
  rw [hvotes, exceeds, if_neg hpos.ne'] at hex
  have hlt := threshold_lt (by positivity) (of_decide_eq_true hex)
  rwa [lt_div_iff₀ hpos] at hlt

end Validate

/-! ## What a call does -/

namespace State

variable {s : State} {tx : Call}

theorem setCommittee_eq (h : s.committee.isSome) :
    { s with committee := some s.getCommitteeTable } = s := by
  obtain ⟨c, hc⟩ := Option.isSome_iff_exists.mp h
  obtain ⟨access, operators, committee⟩ := s
  obtain rfl : committee = some c := hc
  rfl

/-- A call that comes to a vote is `verifyAndRecord`; any other leaves the tables alone. -/
theorem call_eq (version : Version) (tx : Call) (hcreated : s.committee.isSome)
    (hne : s.members ≠ []) :
    (tx.op.proposal? version s = none → s.after version tx = s) ∧
    ∀ p, tx.op.proposal? version s = some p →
      s.call version tx = s.verifyAndRecord version tx.number p tx.origin := by
  have hset := setCommittee_eq hcreated
  have haccess : ¬s.access.isEmpty := fun h => hne (by simp [members, isEmpty_iff.mp h])
  obtain ⟨origin, number, op, mayWrite⟩ := tx
  simp only [after]
  cases op with
  | grantCommitteeMember user =>
    simp only [Op.proposal?, call, grantCommitteeMember, haccess]
    by_cases hop : user ∈ s.operators
    · simp [hop]
    · by_cases hmem : user ∈ s.members <;> simp [hop, hmem]
  | revokeCommitteeMember user =>
    simp only [Op.proposal?, call]
    by_cases hmem : user ∈ s.members <;> simp [hmem]
  | updateCommitteeMemberWeight user weight =>
    simp only [Op.proposal?, call, updateCommitteeMemberWeight, hset]
    by_cases hpos : version ≥ V2_7_0 ∧ weight ≤ 0
    · simp [hpos]
    · by_cases hmem : user ∈ s.members
      · have hany : s.getCommitteeTable.weights.any (fun row => row = (user, weight)) =
            decide ((user, weight) ∈ s.weights) := by
          rw [Bool.eq_iff_iff, decide_eq_true_iff]
          simp [weights]
        rw [hany]
        by_cases hcur : (user, weight) ∈ s.weights <;> simp [hpos, hmem, hcur]
      · simp [hpos, hmem]
  | updateThreshold weight =>
    simp only [Op.proposal?, call, hset]
    by_cases hrange : weight > 99 ∨ weight < 0
    · simp [hrange]
    · simp only [hrange, dite_false, thresholds]
      split <;> simp_all

/-- What a call leaves: the tables as they were, if it is no vote, or the vote recorded, or the
proposal enacted. -/
theorem after_cases (version : Version) (tx : Call) (hcreated : s.committee.isSome)
    (hne : s.members ≠ []) (hw : ∀ u ∈ s.members, (s.getCommitteeTable.weight? u).isSome) :
    (s.after version tx = s ∧ (tx.op.proposal? version s = none ∨ tx.origin ∉ s.members)) ∨
    ∃ p, tx.op.proposal? version s = some p ∧ tx.origin ∈ s.members ∧
      (s.after version tx = { s with committee := some (s.voted tx p) } ∨
        (s.voted tx p).validate s.access p (tx.number + 1) = .ok true ∧
          s.after version tx = (s.enact version (tx.number + 1) (s.voted tx p) p).2) := by
  obtain ⟨hnone, hsome⟩ := call_eq version tx hcreated hne
  cases hp : tx.op.proposal? version s with
  | none => exact .inl ⟨hnone hp, .inl rfl⟩
  | some p =>
    rw [after, hsome p hp, verifyAndRecord]
    by_cases hmem : tx.origin ∈ s.members
    · rw [if_neg (not_not_intro hmem)]
      dsimp only
      rw [← voted]
      obtain ⟨b, hval⟩ := exists_validate_eq (c := s.voted tx p) hw p (tx.number + 1)
      rw [hval]
      cases b with
      | false => exact .inr ⟨p, rfl, hmem, .inl rfl⟩
      | true => exact .inr ⟨p, rfl, hmem, .inr ⟨hval, rfl⟩⟩
    · rw [if_pos hmem]
      exact .inl ⟨rfl, .inr hmem⟩

theorem enacted_enact (n : Int) {c : CommitteeTable} (hw : c.weights = s.weights)
    (ht : c.thresholds = s.thresholds) (p : Proposal) : s.Enacted (s.enact version n c p).2 p := by
  cases p with
  | grant user =>
    rw [Enacted, ← hw, ← ht]
    exact ⟨by simp [enact, members], rfl, rfl⟩
  | revoke user =>
    rw [Enacted, ← hw, ← ht]
    refine ⟨?_, rfl, rfl⟩
    rw [members, members, filter_map]
    rfl
  | weight user value =>
    rw [Enacted, ← hw, ← ht]
    exact ⟨rfl, rfl, rfl⟩
  | threshold value =>
    rw [Enacted, ← hw, ← ht]
    refine ⟨rfl, ?_, ?_⟩ <;> simp only [enact, thresholds, getCommitteeTable] <;>
      split <;> rfl

/-- Of the votes, those for other proposals remain, where used votes are deleted. -/
theorem votes_enact (n : Int) (c : CommitteeTable) (p : Proposal)
    (hp : ∀ w, p = .threshold w → V2_7_0 ≤ version) :
    (s.enact version n c p).2.getCommitteeTable.votes = c.votes.filter (·.proposal ≠ p) := by
  cases p with
  | grant user => rfl
  | revoke user => rfl
  | weight user value => rfl
  | threshold value =>
    simp only [enact, if_pos (hp value rfl)]
    rfl

/-- The member who is admitted is so from the next block on. -/
theorem enabled_enact {n : Int} {c : CommitteeTable} {p : Proposal}
    (h : ∀ row ∈ s.access, row.enableNum ≤ n) :
    ∀ row ∈ (s.enact version n c p).2.access, row.enableNum ≤ n := by
  intro row hrow
  cases p with
  | grant user =>
    rcases mem_append.mp hrow with hold | hnew
    · exact h row hold
    · rw [mem_singleton.mp hnew]
  | revoke user => exact h row (mem_filter.mp hrow).1
  | weight user value | threshold value => exact h row hrow

theorem committee_enact (n : Int) (c : CommitteeTable) (p : Proposal) :
    (s.enact version n c p).2.committee.isSome := by
  cases p <;> rfl

theorem weighted_of_enacted {s' : State} {p : Proposal} (h : s.Enacted s' p)
    (hw : ∀ u ∈ s.members, u ∈ s.weights.map Prod.fst) :
    ∀ u ∈ s'.members, u ∈ s'.weights.map Prod.fst := by
  intro u hu
  cases p with
  | grant user =>
    obtain ⟨hm, hweights, -⟩ := h
    rw [hm, mem_append] at hu
    rw [hweights, map_append, mem_append]
    exact hu.imp (hw u) (by simp)
  | revoke user =>
    obtain ⟨hm, hweights, -⟩ := h
    rw [hm, mem_filter] at hu
    rw [hweights]
    obtain ⟨row, hrow, rfl⟩ := mem_map.mp (hw u hu.1)
    exact mem_map_of_mem (mem_filter.mpr ⟨hrow, hu.2⟩)
  | weight user value =>
    obtain ⟨hm, hweights, -⟩ := h
    rw [hm] at hu
    rw [hweights, map_map]
    obtain ⟨row, hrow, rfl⟩ := mem_map.mp (hw u hu)
    refine mem_map.mpr ⟨row, hrow, ?_⟩
    by_cases huser : row.1 = user <;> simp [huser]
  | threshold value =>
    obtain ⟨hm, hweights, -⟩ := h
    rw [hm] at hu
    rw [hweights]
    exact hw u hu

end State

/-! ## One step -/

section Step

variable {a a' : Audit} {tx : Call} {p : Proposal} {op : Op} {s : State} {v : Vote}

theorem Op.proposal?_eq_grant {user : Address} (h : op.proposal? version s = some (.grant user)) :
    user ∉ s.members := by
  cases op <;> simp only [Op.proposal?] at h <;> split at h <;> simp_all

theorem Op.proposal?_eq_revoke {user : Address} (h : op.proposal? version s = some (.revoke user)) :
    op = .revokeCommitteeMember user := by
  cases op <;> simp only [Op.proposal?] at h <;> split at h <;> simp_all

theorem Op.proposal?_eq_threshold {w : Fin 100} (h : op.proposal? version s = some (.threshold w)) :
    ∃ x, op = .updateThreshold x := by
  cases op <;> simp only [Op.proposal?] at h <;> split at h <;> simp_all

theorem ballots_of_no_vote
    (h : tx.op.proposal? version a.state = none ∨ tx.origin ∉ a.state.members) :
    a.ballots version tx = a.ledger := by
  rw [Audit.ballots]
  split
  · exact if_neg (h.resolve_left (by simp [*]))
  · rfl

theorem Founded.weight?_isSome (h : Founded a) {u : Address} (hu : u ∈ a.state.members) :
    (a.state.getCommitteeTable.weight? u).isSome := by
  obtain ⟨row, hrow, rfl⟩ := mem_map.mp (h.weighted u hu)
  exact lookup_isSome_iff.mpr ⟨row, hrow, by simp⟩

theorem Audit.step_eq_some (h : a.step version tx = some a') :
    a.number ≤ tx.number ∧ a'.number = tx.number ∧ a'.state = a.state.after version tx ∧
      a'.ledger = if a.state.Decides (a.state.after version tx) then
          (a.ballots version tx).filter fun b => some b.proposal ≠ tx.op.proposal? version a.state
        else a.ballots version tx := by
  rw [Audit.step] at h
  split at h
  · cases h
  · cases h
    exact ⟨by omega, rfl, rfl, rfl⟩

variable (hp : tx.op.proposal? version a.state = some p)
include hp

theorem Founded.cast_recordVote (h : Founded a) (hmem : tx.origin ∈ a.state.members)
    (hv : v ∈ (a.state.voted tx p).votes) : v ∈ a.ballots version tx := by
  simp only [Audit.ballots, hp, if_pos hmem]
  rcases mem_recordVote hv with ⟨hold, hother⟩ | rfl
  · exact mem_append_left _ (mem_filter.mpr ⟨h.cast v hold, decide_eq_true hother⟩)
  · exact mem_append_right _ mem_cons_self

/-- The votes `validate` has counted are a majority. -/
theorem Founded.majority (h : Founded a) (hs : Sound version a tx) (hle : a.number ≤ tx.number)
    (hmem : tx.origin ∈ a.state.members)
    (hval : (a.state.voted tx p).validate a.state.access p (tx.number + 1) = .ok true) :
    a.state.Majority (a.ballots version tx) p tx.number := by
  set c := a.state.voted tx p with hc
  have hslots : c.Slots := Slots.recordVote h.slots p tx.origin tx.number
  have hweight (u : Address) (hu : u ∈ a.state.members) : a.state.weight u = c.weightNat u := by
    have := hs.positive u hu
    rw [weightNat, Int.toNat_of_nonneg]
    · rfl
    · exact this.le
  have htotal : a.state.totalWeight = ((a.state.members.map c.weightNat).sum : ℕ) := by
    rw [Nat.cast_list_sum, map_map]
    exact congrArg List.sum (map_congr_left hweight)
  have hmajor := validate_true c a.state.access p (tx.number + 1)
    (fun hnil => h.nonempty (by simp [State.members, hnil]))
    (fun row hrow => (h.enabled row hrow).trans (by omega))
    (fun u hu => ⟨h.weight?_isSome hu, hs.positive u hu⟩)
    (by have := hs.bounded; rw [htotal] at this; exact_mod_cast this)
    hslots hval
  refine ⟨c.counted a.state.access p (tx.number + 1), fun b hb => ?_,
    nodup_counted hslots, ?_⟩
  · obtain ⟨hb, hcond⟩ := mem_filter.mp hb
    obtain ⟨⟨hprop, hlimit⟩, hmember⟩ := of_decide_eq_true hcond
    exact ⟨h.cast_recordVote hp hmem hb, hprop, by omega, hmember⟩
  · have hsum : ((c.counted a.state.access p (tx.number + 1)).map
        fun b => a.state.weight b.origin).sum =
        (((c.counted a.state.access p (tx.number + 1)).map
          fun v => c.weightNat v.origin).sum : ℕ) := by
      rw [Nat.cast_list_sum, map_map]
      refine congrArg List.sum (map_congr_left fun b hb => hweight _ ?_)
      exact (of_decide_eq_true (mem_filter.mp hb).2).2
    rw [hsum, htotal, Int.cast_natCast]
    exact hmajor

/-- A vote that is still in the table has not been used. -/
theorem mem_ledger (hv : v ∈ a.ballots version tx) (hne : v.proposal ≠ p) :
    v ∈ if a.state.Decides (a.state.after version tx) then
        (a.ballots version tx).filter fun b => some b.proposal ≠ tx.op.proposal? version a.state
      else a.ballots version tx := by
  split
  · exact mem_filter.mpr ⟨hv, by simpa [hp] using hne⟩
  · exact hv

/-- Whoever is a member after a proposal has been enacted was one before, or is the one it
admits. -/
theorem Founded.members_enact (h : Founded a) (hs : Sound version a tx) {s' : State}
    (hen : a.state.Enacted s' p) : s'.members ≠ [] ∧ s'.members.Nodup := by
  cases p with
  | grant user =>
    rw [hen.1]
    refine ⟨by simp, ?_⟩
    rw [← concat_eq_append]
    exact h.nodup.concat (Op.proposal?_eq_grant hp)
  | revoke user =>
    rw [hen.1]
    refine ⟨fun hnil => hs.notLast user (Op.proposal?_eq_revoke hp) ?_, h.nodup.filter _⟩
    have hall : ∀ u ∈ a.state.members, u = user := by simpa using hnil
    have hrep := eq_replicate_of_mem hall
    have hle : a.state.members.length ≤ 1 := nodup_replicate.mp (hrep ▸ h.nodup)
    have hpos := length_pos_iff.mpr h.nonempty
    rw [hrep, show a.state.members.length = 1 by omega]
    rfl
  | weight user value | threshold value =>
    rw [hen.1]
    exact ⟨h.nonempty, h.nodup⟩

omit hp in
theorem Founded.step (h : Founded a) (hs : Sound version a tx)
    (hstep : a.step version tx = some a') : Founded a' ∧ Legitimate version a tx a' := by
  obtain ⟨hle, hnumber, hstate, hledger⟩ := Audit.step_eq_some hstep
  have henabled : ∀ row ∈ a.state.access, row.enableNum ≤ a'.number + 1 := fun row hrow =>
    (h.enabled row hrow).trans (by omega)
  have hslots (p : Proposal) : (a.state.voted tx p).Slots :=
    Slots.recordVote h.slots p tx.origin tx.number
  rcases State.after_cases version tx h.created h.nonempty (fun u => h.weight?_isSome) with
    ⟨hsame, hvote⟩ | ⟨p, hp, hmem, hrec | ⟨hval, hen⟩⟩
  · have hnone : ¬a.state.Decides a.state := by simp [State.Decides]
    rw [hsame] at hstate hledger
    rw [if_neg hnone, ballots_of_no_vote hvote] at hledger
    refine ⟨⟨?_, ?_, ?_, ?_, ?_, ?_, ?_⟩, fun hdec => absurd (hstate ▸ hdec) hnone, fun _ => hstate⟩
    all_goals rw [hstate]
    · exact h.nonempty
    · exact h.nodup
    · exact henabled
    · exact h.created
    · exact h.weighted
    · exact h.slots
    · rw [hledger]
      exact h.cast
  · -- the vote is recorded and nothing is decided
    have hnone : ¬a.state.Decides { a.state with committee := some (a.state.voted tx p) } := by
      simp [State.Decides, State.members, State.weights, State.thresholds,
        State.getCommitteeTable, State.voted]
    rw [hrec] at hstate hledger
    rw [if_neg hnone] at hledger
    refine ⟨⟨?_, ?_, ?_, ?_, ?_, ?_, ?_⟩, fun hdec => absurd (hstate ▸ hdec) hnone,
      fun hout => absurd hmem hout⟩
    all_goals rw [hstate]
    · exact h.nonempty
    · exact h.nodup
    · exact henabled
    · rfl
    · exact h.weighted
    · exact hslots p
    · rw [hledger]
      exact fun v hv => h.cast_recordVote hp hmem hv
  · have hversion : ∀ w, p = .threshold w → V2_7_0 ≤ version := fun w hw => by
      obtain ⟨x, hx⟩ := Op.proposal?_eq_threshold (hw ▸ hp)
      exact hs.version x hx
    have henacted : a.state.Enacted a'.state p := by
      rw [hstate, hen]
      exact State.enacted_enact _ (weights_recordVote ..) (thresholds_recordVote ..) p
    have hvotes : a'.state.getCommitteeTable.votes =
        (a.state.voted tx p).votes.filter (·.proposal ≠ p) := by
      rw [hstate, hen]
      exact State.votes_enact _ _ p hversion
    obtain ⟨hne, hnodup⟩ := h.members_enact hp hs henacted
    refine ⟨⟨hne, hnodup, ?_, ?_, State.weighted_of_enacted henacted h.weighted, ?_, ?_⟩,
      fun _ => ⟨p, hp, henacted, h.majority hp hs hle hmem hval⟩, fun hout => absurd hmem hout⟩
    · rw [hstate, hen, hnumber]
      exact State.enabled_enact fun row hrow => hnumber ▸ henabled row hrow
    · rw [hstate, hen]
      exact State.committee_enact _ _ p
    · rw [hvotes]
      exact (filter_sublist.map _).nodup (hslots p)
    · intro v hv
      rw [hvotes, mem_filter] at hv
      rw [hledger]
      exact mem_ledger hp (h.cast_recordVote hp hmem hv.1) (by simpa using hv.2)

end Step

/-- In a run under `Sound` from a founded committee, whatever is decided has a majority behind it,
and outsiders change nothing. -/
theorem decisions_need_majorities (version : Version) (a₀ a a' : Audit) (calls : List Call)
    (tx : Call) (h₀ : Founded a₀)
    (hrun : Run (Guarded (Sound version) (Steps (Audit.step version))) a₀ calls a)
    (hs : Sound version a tx) (hstep : a.step version tx = some a') :
    Legitimate version a tx a' := by
  have hfounded : Founded a := hrun.invariant (fun _ a => Founded a) h₀
    fun _ _ _ _ h hstep => (h.step hstep.1 hstep.2).1
  exact (hfounded.step hs hstep).2

/-- Members 1, 2 and 3 with a weight of one each and a threshold of a half. -/
def three : Audit where
  state := ⟨[⟨1, 0⟩, ⟨2, 0⟩, ⟨3, 0⟩], [], some ⟨[(1, 1), (2, 1), (3, 1)], [50], []⟩⟩
  ledger := []
  number := 1

/-- `three` when member 1 has voted for an address. -/
def threeVoting (user : Address) : Audit where
  state := ⟨[⟨1, 0⟩, ⟨2, 0⟩, ⟨3, 0⟩], [],
    some ⟨[(1, 1), (2, 1), (3, 1)], [50], [⟨.grant user, 1, 10001⟩]⟩⟩
  ledger := [⟨.grant user, 1, 10001⟩]
  number := 1

/-- Two of three members admit a fourth. -/
theorem fourth_member_admitted :
    (threeVoting 4).state.Decides
        ((threeVoting 4).state.after V2_7_0 ⟨2, 2, .grantCommitteeMember 4, true⟩) ∧
      ∀ a', (threeVoting 4).step V2_7_0 ⟨2, 2, .grantCommitteeMember 4, true⟩ = some a' →
        Legitimate V2_7_0 (threeVoting 4) ⟨2, 2, .grantCommitteeMember 4, true⟩ a' := by
  have hsound (a : Audit) (tx : Call) (user : Address) (hop : tx.op = .grantCommitteeMember user)
      (hpos : ∀ w ∈ a.state.members.map a.state.weight, 0 < w)
      (hle : a.state.totalWeight ≤ 2 ^ 53) : Sound V2_7_0 a tx := by
    refine ⟨fun u hu => hpos _ (mem_map_of_mem hu), hle, fun _ _ => le_rfl, fun u hu => ?_⟩
    rw [hop] at hu
    cases hu
  refine ⟨by decide +kernel, fun a' hstep => ?_⟩
  refine decisions_need_majorities V2_7_0 three (threeVoting 4) a'
    [⟨1, 1, .grantCommitteeMember 4, true⟩] _ ?_ ?_
    (hsound _ _ 4 rfl (by decide +kernel) (by decide +kernel)) hstep
  · exact ⟨by decide, by decide, by decide, rfl, fun _ hu => hu, by decide, by decide⟩
  · have hfirst : three.step V2_7_0 ⟨1, 1, .grantCommitteeMember 4, true⟩ =
        some (threeVoting 4) := by decide +kernel
    exact Run.nil.snoc ⟨hsound _ _ 4 rfl (by decide +kernel) (by decide +kernel), hfirst⟩

/-- With a single vote there is a majority only if its voter is one. -/
theorem State.Majority.of_singleton {s : State} {v : Vote} {p : Proposal} {number : Int}
    (h : s.Majority [v] p number) :
    s.threshold * s.totalWeight < 0 ∨ s.threshold * s.totalWeight < s.weight v.origin := by
  obtain ⟨bs, hbs, hnodup, hlt⟩ := h
  have hall : ∀ b ∈ bs, b = v := fun b hb => mem_singleton.mp (hbs b hb).1
  have hlen : bs.length ≤ 1 := by
    rw [eq_replicate_of_mem hall, map_replicate, nodup_replicate] at hnodup
    exact hnodup
  rcases Nat.le_one_iff_eq_zero_or_eq_one.mp hlen with h0 | h1
  · rw [eq_nil_of_length_eq_zero h0] at hlt
    exact .inl (by simpa using hlt)
  · obtain ⟨b, rfl⟩ := length_eq_one_iff.mp h1
    obtain rfl := hall b (mem_singleton_self b)
    exact .inr (by simpa using hlt)

/-- The members 1 to 6, of whom the first weighs as much as the others together. -/
def six : Audit where
  state := ⟨[⟨1, 0⟩, ⟨2, 0⟩, ⟨3, 0⟩, ⟨4, 0⟩, ⟨5, 0⟩, ⟨6, 0⟩], [],
    some ⟨[(1, 5 * (2 ^ 53 + 1)), (2, 2 ^ 53 + 1), (3, 2 ^ 53 + 1), (4, 2 ^ 53 + 1),
      (5, 2 ^ 53 + 1), (6, 2 ^ 53 + 1)], [50], []⟩⟩
  ledger := []
  number := 1

/-- Decisions without a majority. Before 2.7.0, a used vote for a threshold counts again: member 2
votes for 0.4 once, and member 3 alone brings it back later. And in any version, the last member
may leave, after which an outsider admits itself; and half of the weight passes for more than half
when it is too large for a double. -/
theorem decisions_without_majority :
    (∃ a a', exec (Audit.step 0x02060000) three [⟨1, 1, .updateThreshold 40, true⟩,
        ⟨2, 1, .updateThreshold 40, true⟩, ⟨1, 2, .updateThreshold 50, true⟩,
        ⟨3, 2, .updateThreshold 50, true⟩] = some a ∧
      a.step 0x02060000 ⟨3, 3, .updateThreshold 40, true⟩ = some a' ∧
      ¬Legitimate 0x02060000 a ⟨3, 3, .updateThreshold 40, true⟩ a') ∧
    (∃ a a', exec (Audit.step V2_7_0) ⟨⟨[⟨1, 0⟩], [], some ⟨[(1, 1)], [50], []⟩⟩, [], 1⟩
        [⟨1, 1, .revokeCommitteeMember 1, true⟩] = some a ∧
      a.step V2_7_0 ⟨9, 2, .grantCommitteeMember 9, true⟩ = some a' ∧
      ¬Legitimate V2_7_0 a ⟨9, 2, .grantCommitteeMember 9, true⟩ a') ∧
    ∃ a', six.step V2_7_0 ⟨1, 1, .grantCommitteeMember 9, true⟩ = some a' ∧
      ¬Legitimate V2_7_0 six ⟨1, 1, .grantCommitteeMember 9, true⟩ a' := by
  refine ⟨?_, ?_, ?_⟩
  · refine ⟨⟨⟨[⟨1, 0⟩, ⟨2, 0⟩, ⟨3, 0⟩], [], some ⟨[(1, 1), (2, 1), (3, 1)], [50],
        [⟨.threshold 50, 1, 10002⟩, ⟨.threshold 40, 2, 10001⟩, ⟨.threshold 50, 3, 10002⟩]⟩⟩, [], 2⟩,
      _, by decide +kernel, rfl, fun h => ?_⟩
    obtain ⟨p, -, -, hmajor⟩ := h.majority (by decide +kernel)
    exact absurd hmajor.of_singleton (by decide +kernel)
  · refine ⟨⟨⟨[], [], some ⟨[], [50], []⟩⟩, [], 1⟩, _, by decide +kernel, rfl, fun h => ?_⟩
    exact absurd (h.outsider (by decide)) (by decide +kernel)
  · refine ⟨_, rfl, fun h => ?_⟩
    obtain ⟨p, -, -, hmajor⟩ := h.majority (by decide +kernel)
    exact absurd hmajor.of_singleton (by decide +kernel)

end Rcc.Precompiled.ChainGovernance
