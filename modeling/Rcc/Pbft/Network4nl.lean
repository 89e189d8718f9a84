import Rcc.Pbft.Votes

/-!
# Rcc.Pbft.Network4nl

The leaderless protocol as a network: every honest sealer is a `Node`, everything else is in
the hands of an adversary that delivers what it likes to whom it likes, any number of times and
in any order. It is held back by signatures only: bytes that verify under the key of an honest
sealer over some digest exist only if that sealer has signed that digest (`Net.Unforged`).

**Agreement on content** (`saved_content_agree`): two honest nodes that save the same round have
merged the same block under every index that both merged. The argument is the usual one. A
sealer signs at most one block hash for a height and index; two quorums share an honest sealer;
so the two hashes are equal, and with them the headers, the transaction roots and the
transactions. The handlers check nothing of what it rests on, so it is a condition on every
step (`CarefulEvent`): a proposal carries the block its hash is of, the node has not voted for
another hash in that slot, and the votes are genuine. `equivocation_splits` is a run in which one
faulty sealer proposes two blocks and two honest nodes merge one each.
-/

namespace Rcc.Pbft

open Function (update)

open List Function Engine

variable {H Id Sg : Type}

/-! ### Ballots -/

variable {c : Crypto H Id Sg}

/-- What a message of the protocol speaks for: a block hash in a slot. -/
@[ext] structure Ballot (H : Type) where
  height : Int
  idx : Nat
  blockHash : H
deriving DecidableEq

def PBFTMsg.ballot (m : PBFTMsg H Sg) : Ballot H := ⟨m.height, m.idx, m.blockHash⟩

/-- The message a node has broadcast. -/
def Output.message? : Output H Id Sg → Option (PBFTMsg H Sg)
  | .prepare req => some req.toPBFTMsg
  | .sign m | .commit m => some m
  | .saved _ => none

/-- The ballots a node has cast. -/
def ballots (outputs : List (Output H Id Sg)) : List (Ballot H) :=
  (outputs.filterMap Output.message?).map PBFTMsg.ballot

/-- The digests a node has signed. -/
def signedDigests (c : Crypto H Id Sg) (outputs : List (Output H Id Sg)) : List H :=
  (outputs.filterMap Output.message?).flatMap fun m => [m.blockHash, m.fieldsWithoutBlock c]

@[simp] theorem ballots_append (l l' : List (Output H Id Sg)) :
    ballots (l ++ l') = ballots l ++ ballots l' := by
  simp [ballots]

@[simp] theorem signedDigests_append (c : Crypto H Id Sg) (l l' : List (Output H Id Sg)) :
    signedDigests c (l ++ l') = signedDigests c l ++ signedDigests c l' := by
  simp [signedDigests]

theorem blockHash_mem_signedDigests {outputs : List (Output H Id Sg)} {o : Output H Id Sg}
    {m : PBFTMsg H Sg} (ho : o ∈ outputs) (hm : o.message? = some m) :
    m.blockHash ∈ signedDigests c outputs :=
  mem_flatMap.mpr ⟨m, mem_filterMap.mpr ⟨o, ho, hm⟩, by simp⟩

/-- A signed digest is the block hash of a ballot, or the digest of some message fields. -/
theorem mem_signedDigests {outputs : List (Output H Id Sg)} {h : H}
    (hh : h ∈ signedDigests c outputs) :
    (∃ b ∈ ballots outputs, b.blockHash = h) ∨
      ∃ height view idx timestamp, h = c.hash (.fields height view idx timestamp) := by
  obtain ⟨m, hm, hmem⟩ := mem_flatMap.mp hh
  rcases mem_cons.mp hmem with rfl | hmem
  · exact Or.inl ⟨m.ballot, mem_map.mpr ⟨m, hm, rfl⟩, rfl⟩
  · exact Or.inr ⟨m.height, m.view, m.idx, m.timestamp, mem_singleton.mp hmem⟩

/-- The block hash is the digest of a header that names the ballot's slot. -/
def Ballot.Named (c : Crypto H Id Sg) (b : Ballot H) : Prop :=
  ∃ hd : BlockHeader H Id, hd.digest c = b.blockHash ∧ hd.number = b.height ∧ hd.sealer = b.idx

/-- The header under a digest is determined, and so is the slot. -/
theorem Ballot.Named.slot_eq (hinj : Injective c.hash) {b b' : Ballot H} (hb : b.Named c)
    (hb' : b'.Named c) (heq : b.blockHash = b'.blockHash) :
    b.height = b'.height ∧ b.idx = b'.idx := by
  obtain ⟨hd, hdig, hnum, hseal⟩ := hb
  obtain ⟨hd', hdig', hnum', hseal'⟩ := hb'
  have hhd : Preimage.header hd = .header hd' := hinj (hdig.trans (heq.trans hdig'.symm))
  cases hhd
  exact ⟨hnum.symm.trans hnum', hseal.symm.trans hseal'⟩

/-- No header is hashed to the digest of message fields. -/
theorem Ballot.Named.ne_fields (hinj : Injective c.hash) {b : Ballot H} (hb : b.Named c)
    (height view : Int) (idx timestamp : Nat) :
    b.blockHash ≠ c.hash (.fields height view idx timestamp) := by
  obtain ⟨hd, hdig, -⟩ := hb
  intro heq
  have hhd : Preimage.header hd = .fields height view idx timestamp := hinj (hdig.trans heq)
  cases hhd

/-- Ballots that name their slots, no two of them different in one slot. -/
structure BallotsOk (c : Crypto H Id Sg) (l : List (Ballot H)) : Prop where
  named : ∀ b ∈ l, b.Named c
  unique : ∀ b ∈ l, ∀ b' ∈ l, b.height = b'.height → b.idx = b'.idx → b = b'

theorem BallotsOk.of_subset {l l' : List (Ballot H)} (hok : BallotsOk c l)
    (hsub : ∀ b ∈ l', b ∈ l) : BallotsOk c l' :=
  ⟨fun b hb => hok.named b (hsub b hb),
    fun b hb b' hb' => hok.unique b (hsub b hb) b' (hsub b' hb')⟩

theorem BallotsOk.cons {l : List (Ballot H)} {a : Ballot H} (hok : BallotsOk c l) (ha : a.Named c)
    (hnew : ∀ b ∈ l, b.height = a.height → b.idx = a.idx → b.blockHash = a.blockHash) :
    BallotsOk c (a :: l) := by
  have heq : ∀ b ∈ l, b.height = a.height → b.idx = a.idx → b = a :=
    fun b hb hr hi => Ballot.ext hr hi (hnew b hb hr hi)
  refine ⟨?_, ?_⟩
  · intro b hb
    rcases mem_cons.mp hb with rfl | hold
    · exact ha
    · exact hok.named b hold
  · intro b hb b' hb' hr hi
    rcases mem_cons.mp hb with hba | hold <;> rcases mem_cons.mp hb' with hba' | hold'
    · rw [hba, hba']
    · subst hba
      exact (heq b' hold' hr.symm hi.symm).symm
    · subst hba'
      exact heq b hold hr hi
    · exact hok.unique b hold b' hold' hr hi

/-! ### Proposals -/

/-- The encoded block is the one the message speaks for: its header has the hash, height and
index of the message, and its transaction root is the root of its transactions. -/
def CarriesItsBlock (c : Crypto H Id Sg) (req : PrepareReq4nl H Id Sg) : Prop :=
  ∃ b ∈ req.block, b.header.digest c = req.blockHash ∧ b.header.number = req.height ∧
    b.header.sealer = req.idx ∧ b.header.transactionsRoot = c.hash (.transactions b.txHashes)

instance [DecidableEq H] (c : Crypto H Id Sg) (req : PrepareReq4nl H Id Sg) :
    Decidable (CarriesItsBlock c req) := inferInstanceAs (Decidable (∃ b ∈ req.block, _))

/-- The same of a proposal as it is cached. -/
structure ProposalOk (c : Crypto H Id Sg) (req : PrepareReq4nl H Id Sg) : Prop where
  named : req.toPBFTMsg.ballot.Named c
  body : ∀ b ∈ req.pBlock, b.header.digest c = req.blockHash ∧
    b.header.transactionsRoot = c.hash (.transactions b.txHashes)

/-- Two proposals of one hash carry one block. -/
theorem ProposalOk.body_eq (hinj : Injective c.hash) {req req' : PrepareReq4nl H Id Sg}
    (hok : ProposalOk c req) (hok' : ProposalOk c req') (heq : req.blockHash = req'.blockHash)
    {b b' : Block H Id Sg} (hb : req.pBlock = some b) (hb' : req'.pBlock = some b') :
    b.header = b'.header ∧ b.txHashes = b'.txHashes := by
  obtain ⟨hdig, hroot⟩ := hok.body b hb
  obtain ⟨hdig', hroot'⟩ := hok'.body b' hb'
  have hhd : Preimage.header b.header = .header b'.header :=
    hinj (hdig.trans (heq.trans hdig'.symm))
  have hheader : b.header = b'.header := Preimage.header.inj hhd
  have htxs : (Preimage.transactions b.txHashes : Preimage H Id) = .transactions b'.txHashes :=
    hinj (hroot.symm.trans (hheader ▸ hroot'))
  exact ⟨hheader, Preimage.transactions.inj htxs⟩

/-! ### Certificates -/

variable {sealers : List Id} {K K' : PBFTMsg H Sg → Prop}

/-- A quorum of distinct sealers signed votes, known by `K`, for the block hash. -/
def Certified (c : Crypto H Id Sg) (sealers : List Id) (K : PBFTMsg H Sg → Prop) (h : H) : Prop :=
  ∃ S : Finset Id, minValidNodes sealers ≤ S.card ∧ ∀ id ∈ S, id ∈ sealers ∧
    ∃ m, K m ∧ m.blockHash = h ∧ m.signedBy c id = true

/-- What is known of a round a careful node has saved. -/
def SavedOk (c : Crypto H Id Sg) (sealers : List Id) (K : PBFTMsg H Sg → Prop) (s : Saved H Id Sg) :
    Prop :=
  ∀ p ∈ s.merged, p.2.height = s.round ∧ (p.2.idx : Int) = p.1 ∧ ProposalOk c p.2 ∧
    (∃ b, p.2.pBlock = some b) ∧ Certified c sealers K p.2.blockHash

theorem SavedOk.mono {s : Saved H Id Sg} (hok : SavedOk c sealers K s) (hK : ∀ m, K m → K' m) :
    SavedOk c sealers K' s := by
  intro p hp
  obtain ⟨hr, hi, hprop, hbody, S, hcard, hS⟩ := hok p hp
  refine ⟨hr, hi, hprop, hbody, S, hcard, fun id hid => ?_⟩
  obtain ⟨hsealer, m, hm, hrest⟩ := hS id hid
  exact ⟨hsealer, m, hK m hm, hrest⟩

/-- Two quorums share an honest sealer. -/
theorem Certified.common_honest [DecidableEq Id] {faulty : Finset Id} {h h' : H}
    (hlen : sealers.length < 65536) (hpos : sealers ≠ [])
    (hfaulty : faulty.card ≤ Quorum.maxFaulty sealers.length) (hcert : Certified c sealers K h)
    (hcert' : Certified c sealers K h') :
    ∃ z ∈ sealers, z ∉ faulty ∧ (∃ m, K m ∧ m.blockHash = h ∧ m.signedBy c z = true) ∧
      ∃ m, K m ∧ m.blockHash = h' ∧ m.signedBy c z = true := by
  have hmin : minValidNodes sealers = Quorum.quorumSize sealers.length := by
    rw [minValidNodes, nodeNum, toIdx, Nat.mod_eq_of_lt hlen]
  obtain ⟨S, hcard, hS⟩ := hcert
  obtain ⟨T, hcard', hT⟩ := hcert'
  rw [hmin] at hcard hcard'
  obtain ⟨z, hzS, hzT, hzf⟩ := Quorum.exists_honest_common (length_pos_iff.mpr hpos)
    (toFinset_card_le sealers) (fun id hid => mem_toFinset.mpr (hS id hid).1)
    (fun id hid => mem_toFinset.mpr (hT id hid).1) hcard hcard' hfaulty
  exact ⟨z, (hS z hzS).1, hzf, (hS z hzS).2, (hT z hzT).2⟩

section

variable [DecidableEq H]

/-! ### Careful nodes -/

variable {n : Node H Id Sg} {ev : Event H Id Sg} {req : PrepareReq4nl H Id Sg}
  {e e₁ : Engine H Id Sg} {r : Int} {sent : List (Output H Id Sg)} {B : Ballot H → Prop}

/-- The engine's part of the invariant; `B` is what is known of the ballots of its proposals. -/
structure CarefulEngine (c : Crypto H Id Sg) (sealers : List Id) (K : PBFTMsg H Sg → Prop)
    (B : Ballot H → Prop) (e : Engine H Id Sg) : Prop where
  sealers_eq : e.sealerList = sealers
  caches : CachesOk c K (fun _ => True) e
  cached : e.CachedProposals fun req => ProposalOk c req ∧ B req.toPBFTMsg.ballot

theorem CarefulEngine.mono {B' : Ballot H → Prop} (hok : CarefulEngine c sealers K B e)
    (hK : ∀ m, K m → K' m) (hB : ∀ b, B b → B' b) : CarefulEngine c sealers K' B' e := by
  refine ⟨hok.sealers_eq, hok.caches.mono hK fun _ => id, fun r i req hreq => ?_⟩
  obtain ⟨hr, hi, hprop, hb⟩ := hok.cached r i req hreq
  exact ⟨hr, hi, hprop, hB _ hb⟩

variable [DecidableEq Id]

/-- What must be true of an event: the node has not voted for another hash in the slot of its
proposal, a proposal off the network carries its block, and a vote is genuine. -/
def CarefulEvent (c : Crypto H Id Sg) (n : Node H Id Sg) (ev : Event H Id Sg) : Prop :=
  (∀ req ∈ ev.proposal? c n.engine, ∀ b ∈ ballots n.outputs,
    b.height = req.height → b.idx = req.idx → b.blockHash = req.blockHash) ∧
  match ev with
  | .prepare req _ => CarriesItsBlock c req
  | .sign m _ => GenuineVote c n.engine.sealerList n.engine.keyPair n.engine.reqCache.signCache4nl m
  | .commit m _ =>
    GenuineVote c n.engine.sealerList n.engine.keyPair n.engine.reqCache.commitCache4nl m
  | .sealed _ _ _ => True

instance [DecidableEq Sg] (c : Crypto H Id Sg) (n : Node H Id Sg) (ev : Event H Id Sg) :
    Decidable (CarefulEvent c n ev) :=
  match ev with
  | .prepare _ _ => inferInstanceAs (Decidable (_ ∧ CarriesItsBlock c _))
  | .sign _ _ => inferInstanceAs (Decidable (_ ∧ GenuineVote _ _ _ _ _))
  | .commit _ _ => inferInstanceAs (Decidable (_ ∧ GenuineVote _ _ _ _ _))
  | .sealed _ _ _ => inferInstanceAs (Decidable (_ ∧ True))

/-- A careful proposal is cached with the block it speaks for; the node's own always is. -/
theorem CarefulEvent.proposalOk (hev : CarefulEvent c n ev)
    (hreq : ev.proposal? c n.engine = some req) : ProposalOk c req := by
  cases ev with
  | prepare wire env =>
    obtain ⟨w, hw, hdig, hnum, hseal, hroot⟩ := hev.2
    simp only [Event.proposal?] at hreq
    split at hreq
    · obtain ⟨b, hb, rfl⟩ := Option.map_eq_some_iff.mp hreq
      obtain ⟨w', hw', hheader, htxs⟩ := txHashes_of_decodeProposal hb
      obtain rfl : w = w' := Option.some.inj (hw.symm.trans hw')
      refine ⟨⟨w.header, hdig, hnum, hseal⟩, ?_⟩
      intro b' hb'
      cases hb'
      rw [hheader, htxs]
      exact ⟨hdig, hroot⟩
    · cases hreq
      refine ⟨⟨w.header, hdig, hnum, hseal⟩, ?_⟩
      intro b' hb'
      cases hb'
  | sealed txs timestamp env =>
    simp only [Event.proposal?] at hreq
    split at hreq
    · cases hreq
    · cases hreq
      refine ⟨⟨_, rfl, rfl, rfl⟩, ?_⟩
      intro b hb
      cases hb
      exact ⟨rfl, rfl⟩
  | sign => cases hreq
  | commit => cases hreq

/-- The invariant of one node. `K` is what is known of the sign votes it has counted. -/
structure CarefulNode (c : Crypto H Id Sg) (sealers : List Id) (key : Id)
    (K : PBFTMsg H Sg → Prop) (n : Node H Id Sg) : Prop where
  key_eq : n.engine.keyPair = key
  engine : n.engine.nodeIdx ≠ maxIdx →
    CarefulEngine c sealers K (· ∈ ballots n.outputs) n.engine
  ballots_ok : BallotsOk c (ballots n.outputs)
  saved : ∀ s, .saved s ∈ n.outputs → key ∈ sealers ∧ SavedOk c sealers K s

theorem CarefulNode.mono {key : Id} (hok : CarefulNode c sealers key K n) (hK : ∀ m, K m → K' m) :
    CarefulNode c sealers key K' n :=
  ⟨hok.key_eq, fun hidx => (hok.engine hidx).mono hK fun _ => id, hok.ballots_ok,
    fun s hs => ⟨(hok.saved s hs).1, (hok.saved s hs).2.mono hK⟩⟩

/-! ### The network -/

/-- The honest sealers' nodes, by key. Faulty sealers have no state of their own. -/
abbrev Net (H Id Sg : Type) := Id → Node H Id Sg

/-- If the signature over the block hash is an honest sealer's, that sealer has signed it. -/
def Net.Unforged (c : Crypto H Id Sg) (sealers : List Id) (faulty : Finset Id) (net : Net H Id Sg)
    (m : PBFTMsg H Sg) : Prop :=
  ∀ y ∈ sealers, y ∉ faulty → c.verify y m.sig m.blockHash = true →
    m.blockHash ∈ signedDigests c (net y).outputs

instance (c : Crypto H Id Sg) (sealers : List Id) (faulty : Finset Id) (net : Net H Id Sg)
    (m : PBFTMsg H Sg) : Decidable (net.Unforged c sealers faulty m) :=
  inferInstanceAs (Decidable (∀ y ∈ sealers, _))

/-- The network at process start. -/
def Net.init (sealers : List Id) (genesis : Block H Id Sg) (chain : Id → List (Block H Id Sg)) :
    Net H Id Sg := fun x => ⟨Engine.init sealers x genesis (chain x), []⟩

variable {faulty : Finset Id} {net : Net H Id Sg}

/-- The invariant of the network: every node is careful, and no counted vote was forged. -/
def NetOk (c : Crypto H Id Sg) (sealers : List Id) (faulty : Finset Id) (net : Net H Id Sg) :
    Prop := ∀ x, CarefulNode c sealers x (net.Unforged c sealers faulty) (net x)

theorem NetOk.init (c : Crypto H Id Sg) (sealers : List Id) (faulty : Finset Id)
    (genesis : Block H Id Sg) (chain : Id → List (Block H Id Sg)) :
    NetOk c sealers faulty (Net.init sealers genesis chain) := by
  intro x
  refine ⟨rfl, fun hidx => ⟨rfl, ?_, fun r i req hreq => ?_⟩, ⟨?_, ?_⟩, ?_⟩
  · exact ⟨Engine.mem_sealerList_of_nodeIdx hidx, VotesOk.empty, VotesOk.empty⟩
  · cases hreq
  · simp [Net.init, ballots]
  · simp [Net.init, ballots]
  · simp [Net.init]

/-- An honest sealer that has signed the hash of a proper proposal has cast a ballot for it. -/
theorem NetOk.ballot_of_unforged (hinj : Injective c.hash) {m : PBFTMsg H Sg} {z : Id}
    (hok : NetOk c sealers faulty net) (hz : z ∈ sealers) (hzf : z ∉ faulty)
    (hm : net.Unforged c sealers faulty m) (hsigned : m.signedBy c z = true)
    (hhash : m.blockHash = req.blockHash) (hreq : ProposalOk c req) :
    req.toPBFTMsg.ballot ∈ ballots (net z).outputs := by
  rw [PBFTMsg.signedBy, Bool.and_eq_true] at hsigned
  rcases mem_signedDigests (hm z hz hzf hsigned.1) with ⟨b, hb, hbh⟩ | ⟨r, v, i, t, hfields⟩
  · have heq : b.blockHash = req.toPBFTMsg.ballot.blockHash := hbh.trans hhash
    obtain ⟨hr, hi⟩ := ((hok z).ballots_ok.named b hb).slot_eq hinj hreq.named heq
    rw [← Ballot.ext hr hi heq]
    exact hb
  · exact absurd (hhash.symm.trans hfields) (hreq.named.ne_fields hinj r v i t)

/-! ### Steps -/

variable [DecidableEq Sg] [StdHash H] [StdHash Sg]

/-- The ballots cast while an event arrives are for its proposal. -/
theorem Engine.Arrival.ballots_eq (h : Arrival c e ev r sent e₁) {b : Ballot H}
    (hb : b ∈ ballots sent) : ∃ req, ev.proposal? c e = some req ∧ b = req.toPBFTMsg.ballot := by
  cases h with
  | @proposal _ req pool notify sent hreq hpool hsent =>
    refine ⟨req, hreq, ?_⟩
    obtain ⟨m, hm, rfl⟩ := mem_map.mp hb
    obtain ⟨o, ho, hmsg⟩ := mem_filterMap.mp hm
    rcases mem_append.mp ho with ho | ho
    · rw [hsent o ho] at hmsg
      rw [← Option.some.inj hmsg]
    · rw [mem_singleton.mp ho] at hmsg
      rw [← Option.some.inj hmsg]
      rfl
  | sign => cases hb
  | commit => cases hb

/-- While a careful event arrives, no second ballot is cast in a slot. -/
theorem BallotsOk.arrival (hok : BallotsOk c (ballots n.outputs)) (hev : CarefulEvent c n ev)
    (harr : Arrival c n.engine ev r sent e₁) : BallotsOk c (ballots (n.outputs ++ sent)) := by
  rw [ballots_append]
  cases hprop : ev.proposal? c n.engine with
  | none =>
    refine hok.of_subset fun b hb => ?_
    rcases mem_append.mp hb with hb | hb
    · exact hb
    · obtain ⟨req, hreq, -⟩ := harr.ballots_eq hb
      rw [hprop] at hreq
      cases hreq
  | some req =>
    refine (hok.cons (hev.proposalOk hprop).named (hev.1 req hprop)).of_subset fun b hb => ?_
    rcases mem_append.mp hb with hb | hb
    · exact mem_cons_of_mem _ hb
    · obtain ⟨req', hreq', rfl⟩ := harr.ballots_eq hb
      obtain rfl := Option.some.inj (hprop.symm.trans hreq')
      exact mem_cons_self

theorem Engine.Arrival.ballot_mem (h : Arrival c e ev r sent e₁)
    (hreq : ev.proposal? c e = some req) : req.toPBFTMsg.ballot ∈ ballots sent := by
  cases h with
  | proposal notify sent hreq' =>
    obtain rfl := Option.some.inj (hreq.symm.trans hreq')
    rw [ballots_append]
    exact mem_append_right _ mem_cons_self
  | sign => cases hreq
  | commit => cases hreq

/-- The ballots cast by the moves of a handler are for cached proposals. -/
theorem Engine.Effect.ballots_cached {env : Env} {e' : Engine H Id Sg} {out : List (Output H Id Sg)}
    (h : Effect c env r e out e')
    (hB : e.CachedProposals fun req => B req.toPBFTMsg.ballot) : ∀ b ∈ ballots out, B b := by
  induction h with
  | done | reschedule => simp [ballots]
  | @commit e e' out i req hreq tail ih =>
    intro b hb
    rcases mem_cons.mp hb with rfl | hb
    · exact (hB r i req hreq).2.2
    · exact ih (hB.effect (.commit hreq (.done _))) b hb
  | save => simp [ballots, Output.message?]

theorem CarefulEngine.effect (hc : c.Lawful) {env : Env} {e' : Engine H Id Sg}
    {out : List (Output H Id Sg)} (h : Effect c env r e out e')
    (hok : CarefulEngine c sealers K B e) :
    CarefulEngine c sealers K B e' ∧ ∀ s, .saved s ∈ out → SavedOk c sealers K s := by
  refine h.rule (I := CarefulEngine c sealers K B) (P := SavedOk c sealers K)
    (Q := fun _ => True) ?_ ?_ ?_ (fun _ _ => trivial) hok
  · intro e i req hok hreq _
    exact ⟨hok.sealers_eq, hok.caches.addOwnCommit hc trivial,
      hok.cached.effect (.commit hreq (.done _) : Effect c env r e _ _)⟩
  · intro e txs hok hready htxs
    refine ⟨⟨?_, (hok.caches.updateSchedule r).afterCommit r _,
      hok.cached.effect (.save hready htxs : Effect c env r e _ _)⟩, ?_⟩
    · simpa using hok.sealers_eq
    · intro p hp
      obtain ⟨hprop, hsign, -⟩ := (of_checkSignAndCommitAll4nl hready).2 p hp
      obtain ⟨hr, hi, hpok, -⟩ := hok.cached r p.1 p.2 hprop
      obtain ⟨S, hcard, hS⟩ := hok.caches.sign.signers p.2.blockHash
      rw [hok.sealers_eq] at hsign hS
      refine ⟨hr, hi, hpok, exists_pBlock_of_appendProposals htxs p hp, S, hcard ▸ hsign, ?_⟩
      intro id hid
      obtain ⟨hsealer, m, hm, hhash, -, hsigned⟩ := hS id hid
      exact ⟨hsealer, m, hm, hhash, hsigned⟩
  · intro e hok hready hcommit
    refine ⟨?_, hok.caches.updateSchedule r,
      hok.cached.effect (.reschedule hready hcommit : Effect c env r e _ _)⟩
    simpa using hok.sealers_eq

/-- The message an event delivers. -/
def Event.message? : Event H Id Sg → Option (PBFTMsg H Sg)
  | .prepare req _ => some req.toPBFTMsg
  | .sign m _ | .commit m _ => some m
  | .sealed _ _ _ => none

theorem CarefulEngine.arrival (hc : c.Lawful) (h : Arrival c n.engine ev r sent e₁)
    (hev : CarefulEvent c n ev) (hmsg : ∀ m ∈ ev.message?, K m)
    (hown : ∀ t req, .sign (voteFor c n.engine.keyPair t req) ∈ sent →
      K (voteFor c n.engine.keyPair t req))
    (hB : ∀ req ∈ ev.proposal? c n.engine, B req.toPBFTMsg.ballot)
    (hok : CarefulEngine c sealers K B n.engine) : CarefulEngine c sealers K B e₁ := by
  have hcached := hok.cached.arrival h fun req hreq => ⟨hev.proposalOk hreq, hB req hreq⟩
  cases h with
  | @proposal _ req pool notify sent hreq hpool hsent =>
    exact ⟨hok.sealers_eq, hok.caches.addProposal hc (hown _ _ (by simp)) pool notify, hcached⟩
  | sign m env => exact ⟨hok.sealers_eq, hok.caches.addSign hc (hmsg m rfl) hev.2 _, hcached⟩
  | commit m env => exact ⟨hok.sealers_eq, hok.caches.addCommit hc trivial hev.2 _, hcached⟩

theorem CarefulNode.step (hc : c.Lawful) {key : Id} {n' : Node H Id Sg}
    (hok : CarefulNode c sealers key K n) (hev : CarefulEvent c n ev)
    (hmsg : ∀ m ∈ ev.message?, K m)
    (hown : ∀ t req, .sign (voteFor c key t req) ∈ n'.outputs → K (voteFor c key t req))
    (h : n.step c ev = some n') : CarefulNode c sealers key K n' := by
  rcases Node.step_cases h with ⟨-, rfl⟩ | ⟨hidx, out, e', hhandled, rfl⟩
  · exact hok
  · have hkey : e'.keyPair = key := hhandled.frame.2.trans hok.key_eq
    rw [← hok.key_eq] at hown
    cases hhandled with
    | ignored notify _ =>
      obtain ⟨hsealers, hcaches, hcached⟩ := hok.engine hidx
      rw [append_nil]
      exact ⟨hkey, fun _ => ⟨hsealers, ⟨hcaches.key, hcaches.sign, hcaches.commit⟩, hcached⟩,
        hok.ballots_ok, hok.saved⟩
    | @moves r sent out e₁ _ harr heff =>
      -- every ballot of the step is in the slot of its proposal, or was cast before
      have hstart : CarefulEngine c sealers K (· ∈ ballots (n.outputs ++ sent)) n.engine :=
        (hok.engine hidx).mono (fun _ => id) fun b hb => by simp [hb]
      have harrived := hstart.arrival hc harr hev hmsg (fun t req hm => hown t req (by simp [hm]))
        fun req hreq => by simp [harr.ballot_mem hreq]
      obtain ⟨hengine, hsaved⟩ := harrived.effect hc heff
      have hout : ∀ b ∈ ballots out, b ∈ ballots (n.outputs ++ sent) :=
        heff.ballots_cached fun r i req hreq =>
          have hb := harrived.cached r i req hreq
          ⟨hb.1, hb.2.1, hb.2.2.2⟩
      have hsent := hok.ballots_ok.arrival hev harr
      refine ⟨hkey, fun _ => hengine.mono (fun _ => id) fun b hb => ?_,
        hsent.of_subset fun b hb => ?_, fun s hs => ?_⟩
      · rw [← append_assoc, ballots_append]
        exact mem_append_left _ hb
      · rw [← append_assoc, ballots_append] at hb
        rcases mem_append.mp hb with hb | hb
        · exact hb
        · exact hout b hb
      · rcases mem_append.mp hs with hs | hs
        · exact hok.saved s hs
        · rcases mem_append.mp hs with hs | hs
          · exact absurd hs (harr.not_saved s)
          · have hsealer := hengine.caches.key
            rw [hkey, hengine.sealers_eq] at hsealer
            exact ⟨hsealer, hsaved s hs⟩

/-- An honest node handles an event; what it receives is anything that is not forged. -/
def Net.step (c : Crypto H Id Sg) (sealers : List Id) (faulty : Finset Id) (net : Net H Id Sg)
    (ev : Id × Event H Id Sg) : Option (Net H Id Sg) :=
  if ev.1 ∉ faulty ∧ ∀ m ∈ ev.2.message?, net.Unforged c sealers faulty m then
    ((net ev.1).step c ev.2).map (update net ev.1)
  else none

theorem Net.step_cases {net' : Net H Id Sg} {ev : Id × Event H Id Sg}
    (h : net.step c sealers faulty ev = some net') :
    (∀ m ∈ ev.2.message?, net.Unforged c sealers faulty m) ∧
      ∃ n', (net ev.1).step c ev.2 = some n' ∧ net' = update net ev.1 n' := by
  unfold Net.step at h
  split at h
  · rename_i hcond
    obtain ⟨n', hn', rfl⟩ := Option.map_eq_some_iff.mp h
    exact ⟨hcond.2, n', hn', rfl⟩
  · cases h

/-- What was not forged stays so, since nodes never take back a signature. -/
theorem Net.Unforged.update {x : Id} {n' : Node H Id Sg} {m : PBFTMsg H Sg}
    (h : net.Unforged c sealers faulty m) (hstep : (net x).step c ev = some n') :
    Net.Unforged c sealers faulty (update net x n') m := by
  intro y hy hfaulty hverify
  have hold := h y hy hfaulty hverify
  by_cases hyx : y = x
  · subst hyx
    obtain ⟨out, hout⟩ := Node.step_outputs hstep
    rw [update_self, hout, signedDigests_append]
    exact mem_append_left _ hold
  · rwa [update_of_ne hyx]

theorem NetOk.step (hc : c.Lawful) {net' : Net H Id Sg} {ev : Id × Event H Id Sg}
    (hok : NetOk c sealers faulty net) (hev : CarefulEvent c (net ev.1) ev.2)
    (h : net.step c sealers faulty ev = some net') : NetOk c sealers faulty net' := by
  obtain ⟨hmsg, n', hstep, rfl⟩ := Net.step_cases h
  intro x
  have hold := (hok x).mono fun m hm => hm.update hstep
  by_cases hx : x = ev.1
  · subst hx
    rw [update_self]
    refine hold.step hc hev (fun m hm => (hmsg m hm).update hstep) ?_ hstep
    -- the votes the node casts in this step verify for nobody but the node
    intro t req hm y hy hfaulty hverify
    obtain rfl := hc.verify_unique y ev.1 _ _ hverify (hc.verify_sign ev.1 _)
    rw [update_self]
    exact blockHash_mem_signedDigests hm rfl
  · rw [update_of_ne hx]
    exact hold

/-! ### Agreement -/

/-- **Agreement on content.** In every run of careful events, with at most `(n - 1) / 3` faulty
sealers, two honest nodes that save the same round have merged the same block under every index
that both merged. -/
theorem saved_content_agree {c : Crypto H Id Sg} (hc : c.Lawful)
    (hinj : Injective c.hash) {sealers : List Id} (hlen : sealers.length < 65536)
    {faulty : Finset Id} (hfaulty : faulty.card ≤ Quorum.maxFaulty sealers.length)
    {genesis : Block H Id Sg} {chain : Id → List (Block H Id Sg)}
    {es : List (Id × Event H Id Sg)} {net : Net H Id Sg}
    (h : Run (Guarded (fun net ev => CarefulEvent c (net ev.1) ev.2)
      (Steps (Net.step c sealers faulty))) (Net.init sealers genesis chain) es net)
    {x y : Id} {s t : Saved H Id Sg} (hs : s ∈ savedOf (net x).outputs)
    (ht : t ∈ savedOf (net y).outputs) (hround : s.round = t.round)
    {p q : Int × PrepareReq4nl H Id Sg} (hp : p ∈ s.merged) (hq : q ∈ t.merged) (hidx : p.1 = q.1) :
    ∃ b b', p.2.pBlock = some b ∧ q.2.pBlock = some b' ∧ b.header = b'.header ∧
      b.txHashes = b'.txHashes := by
  have hok : NetOk c sealers faulty net :=
    h.invariant (fun _ => NetOk c sealers faulty) (NetOk.init c sealers faulty genesis chain)
      fun _ _ _ _ hok hstep => hok.step hc hstep.1 hstep.2
  obtain ⟨hx, hsok⟩ := (hok x).saved s (mem_savedOf.mp hs)
  obtain ⟨-, htok⟩ := (hok y).saved t (mem_savedOf.mp ht)
  obtain ⟨hpr, hpi, hpok, ⟨b, hb⟩, hpcert⟩ := hsok p hp
  obtain ⟨hqr, hqi, hqok, ⟨b', hb'⟩, hqcert⟩ := htok q hq
  obtain ⟨z, hz, hzf, ⟨m, hm, hmh, hms⟩, ⟨m', hm', hmh', hms'⟩⟩ :=
    hpcert.common_honest hlen (ne_nil_of_mem hx) hfaulty hqcert
  -- both proposals have a ballot of `z` in the same slot
  have hballot := hok.ballot_of_unforged hinj hz hzf hm hms hmh hpok
  have hballot' := hok.ballot_of_unforged hinj hz hzf hm' hms' hmh' hqok
  have heq := (hok z).ballots_ok.unique _ hballot _ hballot'
    (hpr.trans (hround.trans hqr.symm)) (by exact_mod_cast hpi.trans (hidx.trans hqi.symm))
  have hhash : p.2.blockHash = q.2.blockHash := congrArg Ballot.blockHash heq
  exact ⟨b, b', hb, hb', hpok.body_eq hinj hqok hhash hb hb'⟩

end

/-! ### Four sealers, one of them faulty -/

/-- The sealers with keys 10, 11 and 12 seal their blocks and receive each other's. -/
def honestProposals : List (Nat × Event Digest Nat Signature) :=
  (List.range 3).map (fun i => (10 + i, .sealed [symbolicTx i] 0 symbolicEnv)) ++
  (List.range 3).flatMap fun i =>
    ((List.range 3).filter (· ≠ i)).map fun j =>
      (10 + i, .prepare (sealerProposal j [j]) symbolicEnv)

/-- The proposals that the faulty sealer, of index 3, sends to `key`, in this order. -/
def faultyProposals (key : Nat) (txs : List Nat) : List (Nat × Event Digest Nat Signature) :=
  txs.map fun t => (key, .prepare (sealerProposal 3 [t]) symbolicEnv)

/-- The votes of the other two honest sealers reach `key`, for the three honest proposals and
the faulty sealer's proposal of transaction `t`. -/
def votesTo (key t : Nat) : List (Nat × Event Digest Nat Signature) :=
  let voters := [10, 11, 12].filter (· ≠ key)
  ((List.range 3).flatMap (fun i => votesOn voters (sealerProposal i [i])) ++
    votesOn voters (sealerProposal 3 [t])).map fun ev => (key, ev)

/-- The network of four sealers at process start. -/
def symbolicNet : Net Digest Nat Signature := Net.init [10, 11, 12, 13] symbolicGenesis fun _ => []

/-- What a node has merged: round, index and transactions. -/
def mergedContents (n : Node H Id Sg) : List (Int × Int × Option (List H)) :=
  (savedOf n.outputs).flatMap fun s =>
    s.merged.map fun p => (s.round, p.1, p.2.pBlock.map Block.txHashes)

theorem mem_mergedContents {n : Node H Id Sg} {r i : Int} {txs : Option (List H)}
    (h : (r, i, txs) ∈ mergedContents n) :
    ∃ s ∈ savedOf n.outputs, s.round = r ∧
      ∃ p ∈ s.merged, p.1 = i ∧ p.2.pBlock.map Block.txHashes = txs := by
  obtain ⟨s, hs, hmem⟩ := mem_flatMap.mp h
  obtain ⟨p, hp, heq⟩ := mem_map.mp hmem
  simp only [Prod.mk.injEq] at heq
  exact ⟨s, hs, heq.1, p, hp, heq.2.1, heq.2.2⟩

/-- The faulty sealer behaves, and two honest nodes save the first round. -/
def agreeingRun : List (Nat × Event Digest Nat Signature) :=
  honestProposals ++ faultyProposals 10 [3] ++ faultyProposals 11 [3] ++
    faultyProposals 12 [3] ++ votesTo 10 3 ++ votesTo 11 3

/-- Two nodes save the first round of a careful run, and they agree on index 3. -/
theorem agreeingRun_agrees :
    ∃ net s t p q, Run (Guarded (fun net ev => CarefulEvent symbolic (net ev.1) ev.2)
        (Steps (Net.step symbolic [10, 11, 12, 13] {13}))) symbolicNet agreeingRun net ∧
      s ∈ savedOf (net 10).outputs ∧ t ∈ savedOf (net 11).outputs ∧ s.round = t.round ∧
      p ∈ s.merged ∧ q ∈ t.merged ∧ p.1 = 3 ∧ q.1 = 3 ∧
      ∃ b b', p.2.pBlock = some b ∧ q.2.pBlock = some b' ∧ b.header = b'.header ∧
        b.txHashes = b'.txHashes := by
  have hobs : (exec (guardedStep (fun net ev => CarefulEvent symbolic (net ev.1) ev.2)
      (Net.step symbolic [10, 11, 12, 13] {13})) symbolicNet agreeingRun).any (fun net =>
        (1, 3, some [.leaf 3]) ∈ mergedContents (net 10) ∧
          (1, 3, some [.leaf 3]) ∈ mergedContents (net 11)) = true := by decide +kernel
  obtain ⟨net, hrun, h10, h11⟩ := exists_guardedRun_of_exec hobs fun _ _ h => h
  obtain ⟨s, hs, hsr, p, hp, hpi, -⟩ := mem_mergedContents h10
  obtain ⟨t, ht, htr, q, hq, hqi, -⟩ := mem_mergedContents h11
  exact ⟨net, s, t, p, q, hrun, hs, ht, hsr.trans htr.symm, hp, hq, hpi, hqi,
    saved_content_agree symbolic_lawful symbolic_hash_injective (by decide) (by decide) hrun
      hs ht (hsr.trans htr.symm) hp hq (hpi.trans hqi.symm)⟩

/-- The faulty sealer sends two proposals to every honest node. All of them vote for both, and
the one that came last stays cached. -/
def equivocation : List (Nat × Event Digest Nat Signature) :=
  honestProposals ++ faultyProposals 10 [4, 3] ++ faultyProposals 11 [3, 4] ++
    faultyProposals 12 [3, 4] ++ votesTo 10 3 ++ votesTo 11 4

/-- **The failing run.** One of four sealers is faulty and sends two proposals; of two honest
nodes one merges transaction 3 under its index, the other transaction 4. -/
theorem equivocation_splits :
    ∃ net s t p q, Run (Steps (Net.step symbolic [10, 11, 12, 13] {13})) symbolicNet
        equivocation net ∧
      s ∈ savedOf (net 10).outputs ∧ t ∈ savedOf (net 11).outputs ∧ s.round = t.round ∧
      p ∈ s.merged ∧ q ∈ t.merged ∧ p.1 = q.1 ∧
      p.2.pBlock.map Block.txHashes = some [.leaf 3] ∧
      q.2.pBlock.map Block.txHashes = some [.leaf 4] := by
  have hobs : (exec (Net.step symbolic [10, 11, 12, 13] {13}) symbolicNet equivocation).any
      (fun net => (1, 3, some [.leaf 3]) ∈ mergedContents (net 10) ∧
        (1, 3, some [.leaf 4]) ∈ mergedContents (net 11)) = true := by decide +kernel
  obtain ⟨net, hnet, h10, h11⟩ := exists_run_of_exec hobs fun _ _ h => h
  obtain ⟨s, hs, hsr, p, hp, hpi, hp3⟩ := mem_mergedContents h10
  obtain ⟨t, ht, htr, q, hq, hqi, hq4⟩ := mem_mergedContents h11
  exact ⟨net, s, t, p, q, hnet, hs, ht, hsr.trans htr.symm, hp, hq, hpi.trans hqi.symm, hp3, hq4⟩

end Rcc.Pbft
