import Rcc.Pbft.Votes

/-!
# Rcc.Pbft.Authenticity

Whether a saved round is backed by real quorums of votes.

The handlers check neither the signature of a vote nor what it is a vote for: votes are
counted by block hash alone. Two things therefore have to be true of what arrives for a saved
round to be backed by a quorum of sealers: every vote is a `GenuineVote`, and everything that
names a block hash names the same height and index with it (`SlotsOk`). `saved_round_backed`
shows that these suffice in every run, `forgedRound_unbacked` is a run of forged votes.
-/

namespace Rcc.Pbft

open List ReqCache4nl Engine

variable {H Id Sg : Type}

/-! ### Slots -/

/-- `cache` holds something about the block hash `h` that names this height and index. -/
def Mentions [DecidableEq H] (cache : ReqCache4nl H Id Sg) (h : H) (slot : Int × Nat) : Prop :=
  (∃ x ∈ (votes cache.signCache4nl h).nodes, (x.2.height, x.2.idx) = slot) ∨
  (∃ x ∈ (votes cache.commitCache4nl h).nodes, (x.2.height, x.2.idx) = slot) ∨
  ∃ r i req, cache.proposal? r i = some req ∧ req.blockHash = h ∧ (req.height, req.idx) = slot

/-- The heights and indices that `cache` mentions with the block hash `h`. -/
def slotsOf [DecidableEq H] (cache : ReqCache4nl H Id Sg) (h : H) : List (Int × Nat) :=
  (votes cache.signCache4nl h).nodes.map (fun x => (x.2.height, x.2.idx)) ++
  (votes cache.commitCache4nl h).nodes.map (fun x => (x.2.height, x.2.idx)) ++
  cache.prepareCache4nl.nodes.flatMap fun round =>
    (round.2.nodes.filter fun p => p.2.blockHash = h).map fun p => (p.2.height, p.2.idx)

theorem mem_slotsOf [DecidableEq H] {cache : ReqCache4nl H Id Sg} {h : H} {a : Int × Nat} :
    a ∈ slotsOf cache h ↔ Mentions cache h a := by
  unfold slotsOf Mentions
  rw [mem_append, mem_append, mem_map, mem_map, mem_flatMap, or_assoc]
  refine or_congr_right (or_congr_right ⟨?_, ?_⟩)
  · rintro ⟨round, hround, ha⟩
    obtain ⟨p, hp, rfl⟩ := mem_map.mp ha
    obtain ⟨hp, hh⟩ := mem_filter.mp hp
    exact ⟨round.1, p.1, p.2, proposal?_eq_some_iff.mpr ⟨round.2, hround, hp⟩,
      of_decide_eq_true hh, rfl⟩
  · rintro ⟨r, i, req, hreq, hh, rfl⟩
    obtain ⟨proposals, hr, hi⟩ := proposal?_eq_some_iff.mp hreq
    exact ⟨(r, proposals), hr, mem_map.mpr ⟨(i, req), mem_filter.mpr ⟨hi, decide_eq_true hh⟩, rfl⟩⟩

/-- Everything cached about the block hash of `m` is about the slot `m` names. -/
def AgreesWith [DecidableEq H] (cache : ReqCache4nl H Id Sg) (m : PBFTMsg H Sg) : Prop :=
  ∀ a ∈ slotsOf cache m.blockHash, a = (m.height, m.idx)

instance [DecidableEq H] (cache : ReqCache4nl H Id Sg) (m : PBFTMsg H Sg) :
    Decidable (AgreesWith cache m) :=
  inferInstanceAs (Decidable (∀ a ∈ slotsOf cache m.blockHash, a = (m.height, m.idx)))

/-- Proposals are filed under their own height and index, and a block hash stands for one
height and index throughout the caches. -/
structure SlotsOk [DecidableEq H] (cache : ReqCache4nl H Id Sg) : Prop where
  keyed : ∀ {r i req}, cache.proposal? r i = some req → req.height = r ∧ (req.idx : Int) = i
  agree : ∀ {h a b}, Mentions cache h a → Mentions cache h b → a = b

section Slots

variable [DecidableEq H] {cache cache' : ReqCache4nl H Id Sg} {h : H} {a slot : Int × Nat}

theorem SlotsOk.empty : SlotsOk (∅ : ReqCache4nl H Id Sg) := by
  have hnone (r i : Int) : (∅ : ReqCache4nl H Id Sg).proposal? r i = none := rfl
  refine ⟨?_, ?_⟩
  · intro r i req hreq
    cases hreq
  · rintro h a b (⟨x, hx, -⟩ | ⟨x, hx, -⟩ | ⟨r, i, req, hreq, -⟩)
    · cases hx
    · cases hx
    · cases hreq

/-- A cache that gains at most one mention, in agreement with the others, stays consistent. -/
theorem SlotsOk.extend (hok : SlotsOk cache)
    (hkeyed : ∀ {r i req}, cache'.proposal? r i = some req → req.height = r ∧ (req.idx : Int) = i)
    (hnew : ∀ {h' a}, Mentions cache' h' a → Mentions cache h' a ∨ h' = h ∧ a = slot)
    (hagree : ∀ a, Mentions cache h a → a = slot) : SlotsOk cache' := by
  refine ⟨hkeyed, ?_⟩
  intro h' a b ha hb
  rcases hnew ha with ha | ⟨rfl, rfl⟩
  · rcases hnew hb with hb | ⟨rfl, rfl⟩
    · exact hok.agree ha hb
    · exact hagree a ha
  · rcases hnew hb with hb | ⟨-, rfl⟩
    · exact (hagree b hb).symm
    · rfl

theorem mentions_addPrepareReq4nl {req : PrepareReq4nl H Id Sg}
    (ha : Mentions (cache.addPrepareReq4nl req) h a) :
    Mentions cache h a ∨ h = req.blockHash ∧ a = (req.height, req.idx) := by
  rcases ha with ha | ha | ⟨r, i, req', hreq, hh, rfl⟩
  · exact .inl (.inl ha)
  · exact .inl (.inr (.inl ha))
  · rw [proposal?_addPrepareReq4nl] at hreq
    split at hreq
    · cases hreq
      exact .inr ⟨hh.symm, rfl⟩
    · exact .inl (.inr (.inr ⟨r, i, req', hreq, hh, rfl⟩))

theorem mentions_delCache4nl {r : Int} (ha : Mentions (cache.delCache4nl r) h a) :
    Mentions cache h a := by
  rcases ha with ⟨x, hx, rfl⟩ | ⟨x, hx, rfl⟩ | ⟨r', i, req, hreq, hh, rfl⟩
  · exact .inl ⟨x, mem_signVotes_delCache4nl hx, rfl⟩
  · exact .inr (.inl ⟨x, mem_commitVotes_delCache4nl hx, rfl⟩)
  · exact .inr (.inr ⟨r', i, req, proposal?_delCache4nl hreq, hh, rfl⟩)

namespace SlotsOk

variable (hok : SlotsOk cache)
include hok

theorem addPrepare {req : PrepareReq4nl H Id Sg} (hagree : AgreesWith cache req.toPBFTMsg) :
    SlotsOk (cache.addPrepareReq4nl req) := by
  refine hok.extend ?_ mentions_addPrepareReq4nl fun a ha => hagree a (mem_slotsOf.mpr ha)
  intro r i req' hreq
  rw [proposal?_addPrepareReq4nl] at hreq
  split_ifs at hreq with hslot
  · cases hreq
    exact ⟨hslot.1.symm, hslot.2.symm⟩
  · exact hok.keyed hreq

theorem del (r : Int) : SlotsOk (cache.delCache4nl r) :=
  ⟨fun hreq => hok.keyed (proposal?_delCache4nl hreq),
    fun ha hb => hok.agree (mentions_delCache4nl ha) (mentions_delCache4nl hb)⟩

/-- What is cached about a cached proposal's hash is about its slot. -/
theorem agree_proposal {r i : Int} {req : PrepareReq4nl H Id Sg}
    (hreq : cache.proposal? r i = some req) : AgreesWith cache req.toPBFTMsg :=
  fun _ ha => hok.agree (mem_slotsOf.mp ha) (.inr (.inr ⟨r, i, req, hreq, rfl, rfl⟩))

/-- A cache whose only new vote is `m`, with the same proposals. -/
theorem addVote {m : PBFTMsg H Sg} (hagree : AgreesWith cache m)
    (hprop : ∀ r i, cache'.proposal? r i = cache.proposal? r i)
    (hsign : ∀ {h x}, x ∈ (votes cache'.signCache4nl h).nodes →
      x ∈ (votes cache.signCache4nl h).nodes ∨ x = (m.sig, m) ∧ h = m.blockHash)
    (hcommit : ∀ {h x}, x ∈ (votes cache'.commitCache4nl h).nodes →
      x ∈ (votes cache.commitCache4nl h).nodes ∨ x = (m.sig, m) ∧ h = m.blockHash) :
    SlotsOk cache' := by
  refine hok.extend (h := m.blockHash) (fun hreq => hok.keyed (hprop _ _ ▸ hreq)) ?_
    fun a ha => hagree a (mem_slotsOf.mpr ha)
  rintro h a (⟨x, hx, rfl⟩ | ⟨x, hx, rfl⟩ | ⟨r, i, req, hreq, hh, rfl⟩)
  · rcases hsign hx with hx | ⟨rfl, rfl⟩
    · exact .inl (.inl ⟨x, hx, rfl⟩)
    · exact .inr ⟨rfl, rfl⟩
  · rcases hcommit hx with hx | ⟨rfl, rfl⟩
    · exact .inl (.inr (.inl ⟨x, hx, rfl⟩))
    · exact .inr ⟨rfl, rfl⟩
  · exact .inl (.inr (.inr ⟨r, i, req, hprop r i ▸ hreq, hh, rfl⟩))

end SlotsOk

variable [DecidableEq Sg] [StdHash H] [StdHash Sg] {m : PBFTMsg H Sg} {n : Int}

theorem SlotsOk.addSign (hok : SlotsOk cache) (hagree : AgreesWith cache m) :
    SlotsOk (cache.addSignReq4nl n m) :=
  hok.addVote hagree (proposal?_addSignReq4nl n m cache)
    mem_signVotes_addSignReq4nl fun hx => .inl (by simpa using hx)

theorem SlotsOk.addCommit (hok : SlotsOk cache) (hagree : AgreesWith cache m) :
    SlotsOk (cache.addCommitReq4nl n m) :=
  hok.addVote hagree (proposal?_addCommitReq4nl n m cache)
    (fun hx => .inl (by simpa using hx)) mem_commitVotes_addCommitReq4nl

end Slots

/-! ### Backed rounds -/

/-- A quorum of distinct sealers signed votes, known by `seen`, for this height, index and
block hash. -/
def Backed (c : Crypto H Id Sg) (sealers : List Id) (seen : PBFTMsg H Sg → Prop) (r i : Int)
    (h : H) : Prop :=
  ∃ S : Finset Id, minValidNodes sealers ≤ S.card ∧ ∀ id ∈ S, id ∈ sealers ∧
    ∃ m, seen m ∧ m.height = r ∧ (m.idx : Int) = i ∧ m.blockHash = h ∧ m.signedBy c id = true

theorem Backed.mono {c : Crypto H Id Sg} {sealers : List Id} {seen seen' : PBFTMsg H Sg → Prop}
    {r i : Int} {h : H} (hb : Backed c sealers seen r i h) (hseen : ∀ m, seen m → seen' m) :
    Backed c sealers seen' r i h := by
  obtain ⟨S, hcard, hS⟩ := hb
  refine ⟨S, hcard, fun id hid => ?_⟩
  obtain ⟨hsealer, m, hm, hrest⟩ := hS id hid
  exact ⟨hsealer, m, hseen m hm, hrest⟩

/-- The sign votes a node has received or cast. -/
def SignSeen (es : List (Event H Id Sg)) (outputs : List (Output H Id Sg)) (m : PBFTMsg H Sg) :
    Prop := (∃ env, .sign m env ∈ es) ∨ .sign m ∈ outputs

/-- The commit votes a node has received or cast. -/
def CommitSeen (es : List (Event H Id Sg)) (outputs : List (Output H Id Sg)) (m : PBFTMsg H Sg) :
    Prop := (∃ env, .commit m env ∈ es) ∨ .commit m ∈ outputs

/-- Every proposal merged into the saved round has both quorums behind it. -/
def SavedBacked (c : Crypto H Id Sg) (sealers : List Id) (S C : PBFTMsg H Sg → Prop)
    (s : Saved H Id Sg) : Prop :=
  ∀ p ∈ s.merged, Backed c sealers S s.round p.1 p.2.blockHash ∧
    Backed c sealers C s.round p.1 p.2.blockHash

section Runs

variable [DecidableEq H] [DecidableEq Id] [DecidableEq Sg] [StdHash H] [StdHash Sg]
  {c : Crypto H Id Sg} {sealers : List Id} {S C : PBFTMsg H Sg → Prop} {e : Engine H Id Sg}
  {r : Int}

/-- What must be true of an event: a vote is genuine, and the message names the height and
index that everything cached about its block hash names. -/
def AuthenticEvent (c : Crypto H Id Sg) (e : Engine H Id Sg) (ev : Event H Id Sg) : Prop :=
  (∀ req ∈ ev.proposal? c e, AgreesWith e.reqCache req.toPBFTMsg) ∧
  match ev with
  | .sign m _ =>
    GenuineVote c e.sealerList e.keyPair e.reqCache.signCache4nl m ∧ AgreesWith e.reqCache m
  | .commit m _ =>
    GenuineVote c e.sealerList e.keyPair e.reqCache.commitCache4nl m ∧ AgreesWith e.reqCache m
  | _ => True

instance (c : Crypto H Id Sg) (e : Engine H Id Sg) (ev : Event H Id Sg) :
    Decidable (AuthenticEvent c e ev) := by
  cases ev <;> unfold AuthenticEvent <;> infer_instance

/-- The engine's part of the invariant. -/
structure AuthenticEngine (c : Crypto H Id Sg) (sealers : List Id) (S C : PBFTMsg H Sg → Prop)
    (e : Engine H Id Sg) : Prop where
  sealers_eq : e.sealerList = sealers
  caches : CachesOk c S C e
  slots : SlotsOk e.reqCache

omit [DecidableEq Sg] [StdHash H] [StdHash Sg] in
/-- The votes counted for a cached proposal back it. -/
theorem AuthenticEngine.backed (hok : AuthenticEngine c sealers S C e) {seen : PBFTMsg H Sg → Prop}
    {cache : VoteCache H Sg} {p : Int × PrepareReq4nl H Id Sg}
    (hp : e.reqCache.proposal? r p.1 = some p.2)
    (hvotes : VotesOk c e.sealerList e.keyPair seen cache)
    (hsize : minValidNodes e.sealerList ≤ getSizeFromCache p.2.blockHash cache)
    (hslot : ∀ x ∈ (votes cache p.2.blockHash).nodes,
      Mentions e.reqCache p.2.blockHash (x.2.height, x.2.idx)) :
    Backed c sealers seen r p.1 p.2.blockHash := by
  obtain ⟨S', hcard, hS⟩ := hvotes.signers p.2.blockHash
  rw [hok.sealers_eq] at hsize hS
  refine ⟨S', hcard ▸ hsize, fun id hid => ?_⟩
  obtain ⟨hsealer, m, hm, hhash, ⟨x, hx, rfl⟩, hsigned⟩ := hS id hid
  have hagree := hok.slots.agree_proposal hp _ (mem_slotsOf.mpr (hslot x hx))
  obtain ⟨hr, hi⟩ := hok.slots.keyed hp
  rw [Prod.mk.injEq] at hagree
  exact ⟨hsealer, x.2, hm, hagree.1.trans hr, by rw [hagree.2, hi], hhash, hsigned⟩

/-- The moves of a handler keep the invariant, and a round they save is backed. -/
theorem AuthenticEngine.effect (hc : c.Lawful) {env : Env} {e' : Engine H Id Sg}
    {out : List (Output H Id Sg)} (h : Effect c env r e out e')
    (hout : ∀ m, .commit m ∈ out → C m) (hok : AuthenticEngine c sealers S C e) :
    AuthenticEngine c sealers S C e' ∧ ∀ s, .saved s ∈ out → SavedBacked c sealers S C s := by
  refine h.rule (I := AuthenticEngine c sealers S C) (P := SavedBacked c sealers S C)
    (Q := fun o => ∀ m, o = .commit m → C m) ?_ ?_ ?_ (fun o ho m hm => hout m (hm ▸ ho)) hok
  · intro e i req hok hreq hm
    refine ⟨hok.sealers_eq, hok.caches.addOwnCommit hc (hm _ rfl), ?_⟩
    exact hok.slots.addCommit (hok.slots.agree_proposal hreq)
  · intro e txs hok hready _
    obtain ⟨-, hcert⟩ := of_checkSignAndCommitAll4nl hready
    refine ⟨⟨?_, (hok.caches.updateSchedule r).afterCommit r _, ?_⟩, ?_⟩
    · rw [afterCommit_sealerList, updateSchedule_sealerList]
      exact hok.sealers_eq
    · rw [afterCommit_reqCache, updateSchedule_reqCache]
      exact hok.slots.del r
    · intro p hp
      obtain ⟨hprop, hsign, hcommit⟩ := hcert p hp
      exact ⟨hok.backed hprop hok.caches.sign hsign fun x hx => .inl ⟨x, hx, rfl⟩,
        hok.backed hprop hok.caches.commit hcommit fun x hx => .inr (.inl ⟨x, hx, rfl⟩)⟩
  · intro e hok _ _
    refine ⟨?_, hok.caches.updateSchedule r, ?_⟩
    · rw [updateSchedule_sealerList]
      exact hok.sealers_eq
    · rw [updateSchedule_reqCache]
      exact hok.slots

/-- So does the arrival of an authentic event. -/
theorem AuthenticEngine.arrival (hc : c.Lawful) {e₁ : Engine H Id Sg} {ev : Event H Id Sg}
    {sent : List (Output H Id Sg)} (h : Arrival c e ev r sent e₁)
    (hev : AuthenticEvent c e ev) (hsent : ∀ m, .sign m ∈ sent → S m)
    (hsign : ∀ m env, ev = .sign m env → S m) (hcommit : ∀ m env, ev = .commit m env → C m)
    (hok : AuthenticEngine c sealers S C e) : AuthenticEngine c sealers S C e₁ := by
  cases h with
  | @proposal _ req pool notify sent hreq _ _ =>
    have hvote : S (voteFor c e.keyPair ev.env.utcTime req) := hsent _ (by simp)
    have hslots := hok.slots.addPrepare (hev.1 req hreq)
    have hcached : (e.reqCache.addPrepareReq4nl req).proposal? req.height req.idx =
        some req := by
      rw [proposal?_addPrepareReq4nl, if_pos ⟨rfl, rfl⟩]
    exact ⟨hok.sealers_eq, hok.caches.addProposal hc hvote pool notify,
      hslots.addSign (hslots.agree_proposal hcached)⟩
  | sign m env =>
    exact ⟨hok.sealers_eq, hok.caches.addSign hc (hsign m env rfl) hev.2.1 _,
      hok.slots.addSign hev.2.2⟩
  | commit m env =>
    exact ⟨hok.sealers_eq, hok.caches.addCommit hc (hcommit m env rfl) hev.2.1 _,
      hok.slots.addCommit hev.2.2⟩

/-- The invariant of a node and the events it has seen. -/
structure AuthenticNode (c : Crypto H Id Sg) (sealers : List Id) (es : List (Event H Id Sg))
    (n : Node H Id Sg) : Prop where
  engine : n.engine.nodeIdx ≠ maxIdx →
    AuthenticEngine c sealers (SignSeen es n.outputs) (CommitSeen es n.outputs) n.engine
  backed : ∀ s, .saved s ∈ n.outputs →
    SavedBacked c sealers (SignSeen es n.outputs) (CommitSeen es n.outputs) s

theorem AuthenticNode.step (hc : c.Lawful) {es : List (Event H Id Sg)} {n n' : Node H Id Sg}
    {ev : Event H Id Sg} (hok : AuthenticNode c sealers es n) (hev : AuthenticEvent c n.engine ev)
    (h : n.step c ev = some n') : AuthenticNode c sealers (es ++ [ev]) n' := by
  have hS : ∀ out m, SignSeen es n.outputs m → SignSeen (es ++ [ev]) (n.outputs ++ out) m := by
    rintro out m (⟨env, hm⟩ | hm)
    · exact .inl ⟨env, mem_append_left _ hm⟩
    · exact .inr (mem_append_left _ hm)
  have hC : ∀ out m,
      CommitSeen es n.outputs m → CommitSeen (es ++ [ev]) (n.outputs ++ out) m := by
    rintro out m (⟨env, hm⟩ | hm)
    · exact .inl ⟨env, mem_append_left _ hm⟩
    · exact .inr (mem_append_left _ hm)
  have hold : ∀ out s, .saved s ∈ n.outputs → SavedBacked c sealers
      (SignSeen (es ++ [ev]) (n.outputs ++ out)) (CommitSeen (es ++ [ev]) (n.outputs ++ out)) s :=
    fun out s hs p hp => ⟨(hok.backed s hs p hp).1.mono (hS out),
      (hok.backed s hs p hp).2.mono (hC out)⟩
  rcases Node.step_cases h with ⟨hidx, rfl⟩ | ⟨hidx, out, e', hhandled, rfl⟩
  · refine ⟨fun hne => absurd hidx hne, fun s hs => ?_⟩
    have := hold [] s hs
    rwa [append_nil] at this
  · have hengine := hok.engine hidx
    have hmono : AuthenticEngine c sealers (SignSeen (es ++ [ev]) (n.outputs ++ out))
        (CommitSeen (es ++ [ev]) (n.outputs ++ out)) n.engine :=
      ⟨hengine.sealers_eq, hengine.caches.mono (hS _) (hC _), hengine.slots⟩
    cases hhandled with
    | ignored notify _ =>
      refine ⟨fun _ => ⟨hmono.sealers_eq, ?_, hmono.slots⟩, fun s hs => ?_⟩
      · exact ⟨hmono.caches.key, hmono.caches.sign, hmono.caches.commit⟩
      · exact hold [] s (by simpa using hs)
    | @moves r sent out _ _ harr heff =>
      have hmem : ev ∈ es ++ [ev] := by simp
      have harrived := hmono.arrival hc harr hev (fun m hm => .inr (by simp [hm]))
        (fun m env heq => .inl ⟨env, heq ▸ hmem⟩) (fun m env heq => .inl ⟨env, heq ▸ hmem⟩)
      obtain ⟨hfinal, hsaved⟩ := harrived.effect hc heff fun m hm => .inr (by simp [hm])
      refine ⟨fun _ => hfinal, fun s hs => ?_⟩
      rcases mem_append.mp hs with hs | hs
      · exact hold _ s hs
      · rcases mem_append.mp hs with hs | hs
        · exact absurd hs (harr.not_saved s)
        · exact hsaved s hs

/-- **Quorum authenticity.** In every run of authentic events, every proposal merged into a
saved round is backed, for its height, index and block hash, by sign and commit votes with
valid signatures of a quorum of distinct sealers. -/
theorem saved_round_backed {c : Crypto H Id Sg} (hc : c.Lawful) {sealers : List Id} {key : Id}
    {genesis : Block H Id Sg} {chain : List (Block H Id Sg)} {es : List (Event H Id Sg)}
    {n : Node H Id Sg}
    (h : Run (Guarded (fun n ev => AuthenticEvent c n.engine ev) (Steps (Node.step c)))
      ⟨init sealers key genesis chain, []⟩ es n) :
    ∀ s ∈ savedOf n.outputs,
      SavedBacked c sealers (SignSeen es n.outputs) (CommitSeen es n.outputs) s := by
  have hinit : AuthenticNode c sealers [] ⟨init sealers key genesis chain, []⟩ := by
    refine ⟨fun hidx => ?_, by simp⟩
    exact ⟨rfl, ⟨mem_sealerList_of_nodeIdx hidx, VotesOk.empty, VotesOk.empty⟩, SlotsOk.empty⟩
  have hok := h.invariant (AuthenticNode c sealers) hinit
    fun es n ev n' hn hstep => hn.step hc hstep.1 hstep.2
  exact fun s hs => hok.backed s (mem_savedOf.mp hs)

end Runs

/-- The round of honest votes is saved, and it is backed. -/
theorem honestRound_backed :
    ∃ n, Run (Guarded (fun n ev => AuthenticEvent symbolic n.engine ev)
        (Steps (Node.step symbolic))) (symbolicNode 10) honestRound n ∧
      (savedOf n.outputs).length = 1 ∧ ∀ s ∈ savedOf n.outputs, SavedBacked symbolic
        [10, 11, 12, 13] (SignSeen honestRound n.outputs) (CommitSeen honestRound n.outputs) s := by
  refine exists_guardedRun_of_exec (p := fun n => (savedOf n.outputs).length = 1)
    (by decide +kernel) fun n hrun hlen => ?_
  exact ⟨hlen, saved_round_backed symbolic_lawful hrun⟩

/-- A vote with made-up signature bytes. -/
def forgedVote (salt : Nat) (req : PrepareReq4nl Digest Nat Signature) : PBFTMsg Digest Signature :=
  { req.toPBFTMsg with sig := ⟨99, .leaf 0, salt⟩, sig2 := ⟨99, .leaf 0, salt⟩ }

/-- The four proposals, each with two forged votes of either kind. -/
def forgedRound : List (Event Digest Nat Signature) :=
  fourProposals ++ (List.range 4).flatMap fun i =>
    [1, 2].flatMap fun salt =>
      [.sign (forgedVote salt (sealerProposal i [i])) symbolicEnv,
        .commit (forgedVote salt (sealerProposal i [i])) symbolicEnv]

/-- The sealers that a sign vote sent by the node is signed by. -/
def sentSigners (keys : List Nat) : Output Digest Nat Signature → List Nat
  | .sign m => keys.filter fun id => m.signedBy symbolic id
  | _ => []

/-- The sealers that a sign vote received by the node is signed by. -/
def receivedSigners (keys : List Nat) : Event Digest Nat Signature → List Nat
  | .sign m _ => keys.filter fun id => m.signedBy symbolic id
  | _ => []

/-- **The failing run.** Two forged votes of each kind make up the quorum: the round is saved,
and no sealer but the node itself has voted for what it merges. -/
theorem forgedRound_unbacked :
    ∃ n, Run (Steps (Node.step symbolic)) (symbolicNode 10) forgedRound n ∧
      ∃ s ∈ savedOf n.outputs, ¬ SavedBacked symbolic [10, 11, 12, 13]
        (SignSeen forgedRound n.outputs) (CommitSeen forgedRound n.outputs) s := by
  obtain ⟨n, hn, hmerged, hsigners⟩ : ∃ n, Run (Steps (Node.step symbolic)) (symbolicNode 10)
      forgedRound n ∧ ((savedOf n.outputs).map fun s => s.merged.length) = [4] ∧
        n.outputs.flatMap (sentSigners [10, 11, 12, 13]) = [10, 10, 10, 10] :=
    exists_run_of_exec (by decide +kernel) fun _ _ h => h
  have hforged : forgedRound.flatMap (receivedSigners [10, 11, 12, 13]) = [] := by
    decide +kernel
  obtain ⟨s, hs, hlen⟩ : ∃ s ∈ savedOf n.outputs, s.merged.length = 4 :=
    mem_map.mp (hmerged ▸ mem_singleton_self 4)
  obtain ⟨p, hp⟩ := exists_mem_of_length_pos (hlen ▸ Nat.succ_pos 3 : 0 < s.merged.length)
  refine ⟨n, hn, s, hs, fun hbacked => ?_⟩
  obtain ⟨S, hcard, hS⟩ := (hbacked p hp).1
  -- the only valid sign votes are the node's own
  have hsub : S ⊆ {10} := by
    intro id hid
    obtain ⟨hsealer, m, hseen, -, -, -, hsigned⟩ := hS id hid
    rcases hseen with ⟨env, hm⟩ | hm
    · have hmem : id ∈ forgedRound.flatMap (receivedSigners [10, 11, 12, 13]) :=
        mem_flatMap.mpr ⟨_, hm, mem_filter.mpr ⟨hsealer, hsigned⟩⟩
      cases hmem
    · have hmem : id ∈ n.outputs.flatMap (sentSigners [10, 11, 12, 13]) :=
        mem_flatMap.mpr ⟨_, hm, mem_filter.mpr ⟨hsealer, hsigned⟩⟩
      rw [hsigners] at hmem
      simpa using hmem
  have hle := Finset.card_le_card hsub
  have hmin : minValidNodes [10, 11, 12, 13] = 3 := by decide
  simp at hle
  omega

end Rcc.Pbft
