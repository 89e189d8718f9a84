import Rcc.Pbft.Node4nl

/-!
# Rcc.Pbft.Votes

When the size of a vote cache counts distinct signers.

The caches are keyed by signature bytes, and the handlers store every vote they are given.
`VotesOk` is what makes a cache's size meaningful all the same: every cached vote is signed by
a sealer, and no two of them by the same one. It is kept by every move a node makes on its own
account and by the arrival of a `GenuineVote`, and it turns sizes into sets of signers
(`VotesOk.signers`).
-/

namespace Rcc.Pbft

open ReqCache4nl

variable {H Id Sg : Type}

section

variable [DecidableEq H]

/-- The votes of `cache` are signed by sealers, at most one by each; those of the node itself
(`key`) are the ones it makes. `seen` is what is known of every message in the cache. -/
structure VotesOk (c : Crypto H Id Sg) (sealers : List Id) (key : Id)
    (seen : PBFTMsg H Sg → Prop) (cache : VoteCache H Sg) : Prop where
  keyed : ∀ {h x}, x ∈ (votes cache h).nodes → x.1 = x.2.sig ∧ x.2.blockHash = h ∧ seen x.2
  signed : ∀ {h x}, x ∈ (votes cache h).nodes → ∃ id ∈ sealers, x.2.signedBy c id = true
  apart : ∀ {h x y id}, x ∈ (votes cache h).nodes → y ∈ (votes cache h).nodes →
    x.2.signedBy c id = true → y.2.signedBy c id = true → x.1 = y.1
  own : ∀ {h x}, x ∈ (votes cache h).nodes → x.2.signedBy c key = true → x.1 = c.sign key h

/-- A vote that may be counted: a sealer signed it, no other vote of that sealer is counted
for the same block, and if the sealer is the node itself then it is the node's own vote. -/
def GenuineVote (c : Crypto H Id Sg) (sealers : List Id) (key : Id) (cache : VoteCache H Sg)
    (m : PBFTMsg H Sg) : Prop :=
  ∃ id ∈ sealers, m.signedBy c id = true ∧
    (∀ x ∈ (votes cache m.blockHash).nodes, x.2.signedBy c id = true → x.1 = m.sig) ∧
    (id = key → m.sig = c.sign key m.blockHash)

instance [DecidableEq Id] [DecidableEq Sg] (c : Crypto H Id Sg) (sealers : List Id) (key : Id)
    (cache : VoteCache H Sg) (m : PBFTMsg H Sg) : Decidable (GenuineVote c sealers key cache m) :=
  inferInstanceAs (Decidable (∃ id ∈ sealers, _))

variable {c : Crypto H Id Sg} {sealers : List Id} {key : Id} {seen : PBFTMsg H Sg → Prop}
  {cache cache' : VoteCache H Sg} {m : PBFTMsg H Sg}

theorem VotesOk.empty : VotesOk c sealers key seen (∅ : VoteCache H Sg) := by
  constructor <;> intros <;> simp_all [votes]

section

variable (hok : VotesOk c sealers key seen cache)
include hok

theorem VotesOk.of_subset (hsub : ∀ {h x}, x ∈ (votes cache' h).nodes → x ∈ (votes cache h).nodes) :
    VotesOk c sealers key seen cache' where
  keyed hx := hok.keyed (hsub hx)
  signed hx := hok.signed (hsub hx)
  apart hx hy := hok.apart (hsub hx) (hsub hy)
  own hx := hok.own (hsub hx)

theorem VotesOk.mono {seen' : PBFTMsg H Sg → Prop} (hseen : ∀ m, seen m → seen' m) :
    VotesOk c sealers key seen' cache where
  keyed hx := ⟨(hok.keyed hx).1, (hok.keyed hx).2.1, hseen _ (hok.keyed hx).2.2⟩
  signed := hok.signed
  apart := hok.apart
  own := hok.own

/-- **Counting.** The size of the cache under a hash is a number of distinct sealers. -/
theorem VotesOk.signers [DecidableEq Id] (h : H) :
    ∃ S : Finset Id, S.card = getSizeFromCache h cache ∧
      ∀ id ∈ S, id ∈ sealers ∧
        ∃ m, seen m ∧ m.blockHash = h ∧ (∃ x ∈ (votes cache h).nodes, x.2 = m) ∧
          m.signedBy c id = true := by
  have hapart : (votes cache h).nodes.Pairwise fun x y =>
      ∀ id, (id ∈ sealers ∧ x.2.signedBy c id = true) →
        ¬ (id ∈ sealers ∧ y.2.signedBy c id = true) := by
    have hkeys := List.pairwise_map.mp (votes cache h).nodup
    refine hkeys.imp_of_mem ?_
    intro x y hx hy hne id hidx hidy
    exact hne (hok.apart hx hy hidx.2 hidy.2)
  obtain ⟨S, hcard, hS⟩ := Quorum.exists_signers (fun x hx => hok.signed hx) hapart
  refine ⟨S, hcard, fun id hid => ?_⟩
  obtain ⟨x, hx, hsealer, hsigned⟩ := hS id hid
  exact ⟨hsealer, x.2, (hok.keyed hx).2.2, (hok.keyed hx).2.1, ⟨x, hx, rfl⟩, hsigned⟩

theorem VotesOk.genuine_voteFor (hc : c.Lawful) (hkey : key ∈ sealers) (t : Nat)
    (req : PrepareReq4nl H Id Sg) : GenuineVote c sealers key cache (voteFor c key t req) :=
  ⟨key, hkey, voteFor_signedBy hc key t req, fun _ hx hsigned => hok.own hx hsigned,
    fun _ => rfl⟩

end

variable [DecidableEq Sg] [StdHash H] [StdHash Sg]

/-- The arrival of a genuine vote keeps the count honest. -/
theorem VotesOk.addVote (hc : c.Lawful) (hok : VotesOk c sealers key seen cache) (hseen : seen m)
    (hm : GenuineVote c sealers key cache m) : VotesOk c sealers key seen (addVote m cache) := by
  obtain ⟨id, hid, hsigned, hother, hown⟩ := hm
  -- a vote signed by the same sealer as `m` bears the same signature
  have hsame : ∀ {x : Sg × PBFTMsg H Sg} {id'}, x ∈ (votes cache m.blockHash).nodes →
      m.signedBy c id' = true → x.2.signedBy c id' = true → x.1 = m.sig := by
    intro x id' hx hm' hx'
    obtain rfl := PBFTMsg.signedBy_unique hc hsigned hm'
    exact hother x hx hx'
  refine ⟨?_, ?_, ?_, ?_⟩
  · intro h x hx
    rcases mem_votes_addVote hx with hx | ⟨rfl, rfl⟩
    · exact hok.keyed hx
    · exact ⟨rfl, rfl, hseen⟩
  · intro h x hx
    rcases mem_votes_addVote hx with hx | ⟨rfl, rfl⟩
    · exact hok.signed hx
    · exact ⟨id, hid, hsigned⟩
  · intro h x y id' hx hy hx' hy'
    rcases mem_votes_addVote hx with hx | ⟨rfl, rfl⟩
    · rcases mem_votes_addVote hy with hy | ⟨rfl, rfl⟩
      · exact hok.apart hx hy hx' hy'
      · exact hsame hx hy' hx'
    · rcases mem_votes_addVote hy with hy | ⟨rfl, -⟩
      · exact (hsame hy hx' hy').symm
      · rfl
  · intro h x hx hx'
    rcases mem_votes_addVote hx with hx | ⟨rfl, rfl⟩
    · exact hok.own hx hx'
    · exact hown (PBFTMsg.signedBy_unique hc hsigned hx')

end

/-! ### Both caches of an engine -/

/-- Both caches of a sealer count distinct signers; `S` and `C` are what is known of the sign
and of the commit votes in them. -/
structure CachesOk [DecidableEq H] (c : Crypto H Id Sg) (S C : PBFTMsg H Sg → Prop)
    (e : Engine H Id Sg) : Prop where
  key : e.keyPair ∈ e.sealerList
  sign : VotesOk c e.sealerList e.keyPair S e.reqCache.signCache4nl
  commit : VotesOk c e.sealerList e.keyPair C e.reqCache.commitCache4nl

theorem Engine.mem_sealerList_of_nodeIdx [DecidableEq Id] {e : Engine H Id Sg}
    (h : e.nodeIdx ≠ maxIdx) : e.keyPair ∈ e.sealerList := by
  by_contra hkey
  exact h (if_neg hkey)

namespace CachesOk

variable [DecidableEq H] {c : Crypto H Id Sg} {S C : PBFTMsg H Sg → Prop} {e : Engine H Id Sg}

section

variable (hok : CachesOk c S C e)
include hok

theorem mono {S' C' : PBFTMsg H Sg → Prop} (hS : ∀ m, S m → S' m) (hC : ∀ m, C m → C' m) :
    CachesOk c S' C' e := ⟨hok.key, hok.sign.mono hS, hok.commit.mono hC⟩

theorem updateSchedule [DecidableEq Id] (r : Int) : CachesOk c S C (e.updateSchedule r) := by
  constructor
  all_goals simp only [Engine.updateSchedule_sealerList, Engine.updateSchedule_keyPair,
    Engine.updateSchedule_reqCache]
  · exact hok.key
  · exact hok.sign
  · exact hok.commit

theorem afterCommit (r : Int) (b : Block H Id Sg) : CachesOk c S C (e.afterCommit r b) :=
  ⟨hok.key, hok.sign.of_subset mem_signVotes_delCache4nl,
    hok.commit.of_subset mem_commitVotes_delCache4nl⟩

end

variable [DecidableEq Sg] [StdHash H] [StdHash Sg] {t : Nat} {req : PrepareReq4nl H Id Sg}

section

variable (hc : c.Lawful) (hok : CachesOk c S C e)
include hc hok

theorem addSign {m : PBFTMsg H Sg} (hm : S m)
    (hgen : GenuineVote c e.sealerList e.keyPair e.reqCache.signCache4nl m) (n : Int) :
    CachesOk c S C { e with reqCache := e.reqCache.addSignReq4nl n m } := by
  refine ⟨hok.key, ?_, ?_⟩
  · unfold addSignReq4nl
    split
    · exact hok.sign
    · exact hok.sign.addVote hc hm hgen
  · rw [commitCache4nl_addSignReq4nl]
    exact hok.commit

theorem addCommit {m : PBFTMsg H Sg} (hm : C m)
    (hgen : GenuineVote c e.sealerList e.keyPair e.reqCache.commitCache4nl m) (n : Int) :
    CachesOk c S C { e with reqCache := e.reqCache.addCommitReq4nl n m } := by
  refine ⟨hok.key, ?_, ?_⟩
  · refine hok.sign.of_subset ?_
    intro h x hx
    rwa [signVotes_addCommitReq4nl] at hx
  · unfold addCommitReq4nl
    split
    · exact hok.commit
    · split
      · exact hok.commit
      · exact hok.commit.addVote hc hm hgen

theorem addOwnSign (hm : S (voteFor c e.keyPair t req)) : CachesOk c S C (e.addOwnSign c t req) :=
  hok.addSign hc hm (hok.sign.genuine_voteFor hc hok.key t req) _

theorem addOwnCommit (hm : C (voteFor c e.keyPair t req)) :
    CachesOk c S C (e.addOwnCommit c t req) :=
  hok.addCommit hc hm (hok.commit.genuine_voteFor hc hok.key t req) _

end

theorem addProposal (hc : c.Lawful) (hok : CachesOk c S C e) (hm : S (voteFor c e.keyPair t req))
    (pool : List (Transaction H)) (notify : Bool) :
    CachesOk c S C
      ({ e with txPool := pool, notifyNextLeaderSeal := notify }.addProposal c t req) :=
  addOwnSign (e := { e with
    txPool := pool
    notifyNextLeaderSeal := notify
    reqCache := e.reqCache.addPrepareReq4nl req }) hc ⟨hok.key, hok.sign, hok.commit⟩ hm

end CachesOk

end Rcc.Pbft
