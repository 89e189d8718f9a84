import Rcc.Lib.IterationOrder
import Rcc.Pbft.Symbolic
import Rcc.Pbft.Engine4nl

/-!
# Rcc.Pbft.Merge

What the merge of a round computes, and what its result depends on.

`checkAndSave4nl` appends the proposals of the round in the iteration order of an
`std::unordered_map`. Two nodes that hold the same proposals therefore build the same block
only if that order is the same on both, and the order depends on when the proposals arrived
(`bigBlock_eq_iff_sameIterationOrder`). The transactions themselves are appended unexamined,
so that the block repeats a transaction whenever two proposals share it
(`saved_block_fresh_iff`).
-/

namespace Rcc.Pbft

open List UnorderedMap

variable {H Id Sg : Type}

/-! ### The loop -/

variable {l : List (Int × PrepareReq4nl H Id Sg)}

/-- The transactions a proposal contributes. -/
def mergedTransactions (p : Int × PrepareReq4nl H Id Sg) : List (Transaction H) :=
  p.2.pBlock.elim [] Block.transactions

theorem appendProposals_eq_some {acc txs : List (Transaction H)}
    (h : appendProposals l acc = some txs) : txs = acc ++ l.flatMap mergedTransactions := by
  induction l generalizing acc with
  | nil =>
    rw [flatMap_nil, append_nil]
    exact (Option.some.inj h).symm
  | cons p l ih =>
    unfold appendProposals at h
    split at h
    · cases h
    · rename_i b hb
      rw [ih h, flatMap_cons]
      simp [mergedTransactions, hb]

theorem appendProposals_of_isSome (h : ∀ p ∈ l, p.2.pBlock.isSome = true)
    (acc : List (Transaction H)) :
    appendProposals l acc = some (acc ++ l.flatMap mergedTransactions) := by
  induction l generalizing acc with
  | nil => simp [appendProposals]
  | cons p l ih =>
    obtain ⟨b, hb⟩ := Option.isSome_iff_exists.mp (h p mem_cons_self)
    unfold appendProposals
    rw [hb]
    dsimp only
    rw [ih (fun q hq => h q (mem_cons_of_mem p hq)), flatMap_cons]
    simp [mergedTransactions, hb]

/-! ### Arrival histories -/

/-- The cache after the proposals of a history were cached in this order. -/
def cacheAfter (history : List (PrepareReq4nl H Id Sg)) : ReqCache4nl H Id Sg :=
  history.foldl (fun c req => c.addPrepareReq4nl req) ∅

variable (r : Int)

/-- The proposals of height `r` in a history. -/
def ofHeight (history : List (PrepareReq4nl H Id Sg)) : List (PrepareReq4nl H Id Sg) :=
  history.filter fun req => req.height = r

/-- The indices under which the proposals of height `r` arrived, in order. -/
def arrivals (history : List (PrepareReq4nl H Id Sg)) : List Int :=
  (ofHeight r history).map fun req => (req.idx : Int)

theorem round_cacheAfter (history : List (PrepareReq4nl H Id Sg)) :
    (cacheAfter history).round r =
      ofArrivals ((ofHeight r history).map fun req => ((req.idx : Int), req)) := by
  induction history using List.reverseRecOn with
  | nil => rfl
  | append_singleton history req ih =>
    unfold cacheAfter at ih ⊢
    rw [foldl_append, foldl_cons, foldl_nil, ReqCache4nl.round_addPrepareReq4nl]
    unfold ofHeight at ih ⊢
    rw [filter_append]
    split_ifs with hr
    · rw [← hr, ih, filter_cons_of_pos (by simp [hr]), filter_nil, map_append]
      exact (ofArrivals_append _ ((req.idx : Int), req)).symm
    · rw [ih, filter_cons_of_neg (by simp [Ne.symm hr]), filter_nil, append_nil]

theorem map_fst_ofHeight (history : List (PrepareReq4nl H Id Sg)) :
    ((ofHeight r history).map fun req => ((req.idx : Int), req)).map Prod.fst =
      arrivals r history := by
  rw [map_map]
  rfl

/-! ### Dependence on the arrival order -/

/-- The two histories leave the same (index, proposal) pairs at height `r`. -/
def SameProposals (h₁ h₂ : List (PrepareReq4nl H Id Sg)) : Prop :=
  ∀ i, (cacheAfter h₁).proposal? r i = (cacheAfter h₂).proposal? r i

theorem mergeRound_eq_of_sameIterationOrder (c : Crypto H Id Sg) (parent : BlockHeader H Id)
    {r : Int} {h₁ h₂ : List (PrepareReq4nl H Id Sg)}
    (hmem : ∀ i, i ∈ arrivals r h₁ ↔ i ∈ arrivals r h₂)
    (hn : (arrivals r h₁).dedup.length ≤ firstBucketCount)
    (horder : SameIterationOrder (arrivals r h₁) (arrivals r h₂)) (hsame : SameProposals r h₁ h₂) :
    mergeRound c parent r (cacheAfter h₁) = mergeRound c parent r (cacheAfter h₂) := by
  have hkeys : ((cacheAfter h₁).round r).keys = ((cacheAfter h₂).round r).keys := by
    rw [round_cacheAfter, round_cacheAfter]
    refine (keys_ofArrivals_eq_iff ?_ ?_).mpr ?_
    · intro k
      rw [map_fst_ofHeight, map_fst_ofHeight]
      exact hmem k
    · rw [size_ofArrivals, map_fst_ofHeight]
      exact hn
    · rw [map_fst_ofHeight, map_fst_ofHeight]
      exact horder
  unfold mergeRound
  rw [nodes_eq_of_keys_eq hkeys hsame]

/-- A proposal whose single transaction bears the proposer's index as its nonce. -/
def probe [Inhabited Sg] (parent : BlockHeader H Id) (r : Int) (i : Nat) :
    PrepareReq4nl H Id Sg where
  height := r
  view := 0
  idx := i
  timestamp := 0
  blockHash := parent.parentHash
  sig := default
  sig2 := default
  block := none
  pBlock := some
    { header := parent
      transactions := [⟨parent.parentHash, i, 0, none⟩]
      sigList := [] }

section Probe

variable [Inhabited Sg] {c : Crypto H Id Sg} {parent : BlockHeader H Id} {r : Int}

/-- The history in which the probes of `o` arrive in this order. -/
def probes (parent : BlockHeader H Id) (r : Int) (o : List Nat) : List (PrepareReq4nl H Id Sg) :=
  o.map (probe parent r)

variable (o : List Nat)

theorem ofHeight_probes :
    ofHeight r (probes parent r o : List (PrepareReq4nl H Id Sg)) = probes parent r o := by
  unfold ofHeight
  rw [filter_eq_self]
  intro req hreq
  obtain ⟨i, -, rfl⟩ := mem_map.mp hreq
  exact decide_eq_true rfl

theorem arrivals_probes :
    arrivals r (probes parent r o : List (PrepareReq4nl H Id Sg)) = o.map Nat.cast := by
  unfold arrivals
  rw [ofHeight_probes, probes, map_map]
  rfl

theorem round_probes :
    (cacheAfter (probes parent r o)).round r =
      ofArrivals (o.map fun i : Nat => ((i : Int), (probe parent r i :
        PrepareReq4nl H Id Sg))) := by
  rw [round_cacheAfter, ofHeight_probes, probes, map_map]
  rfl

theorem mem_round_probes {o : List Nat} {p : Int × PrepareReq4nl H Id Sg}
    (hp : p ∈ ((cacheAfter (probes parent r o)).round r).nodes) :
    ∃ i ∈ o, p = ((i : Int), probe parent r i) := by
  rw [round_probes] at hp
  obtain ⟨i, hi, rfl⟩ := mem_map.mp (mem_of_mem_ofArrivals hp)
  exact ⟨i, hi, rfl⟩

theorem mergeRound_probes :
    (mergeRound c parent r (cacheAfter (probes parent r o))).map
        (fun b => b.transactions.map fun t => (t.nonce : Int)) =
      some ((cacheAfter (probes parent r o : List (PrepareReq4nl H Id Sg))).round r).keys := by
  have hprobe : ∀ p ∈ ((cacheAfter (probes parent r o)).round r).nodes,
      ∃ i ∈ o, p = ((i : Int), (probe parent r i : PrepareReq4nl H Id Sg)) :=
    fun p hp => mem_round_probes hp
  unfold mergeRound
  rw [appendProposals_of_isSome, Option.map_some, UnorderedMap.keys]
  · refine congrArg some ?_
    simp only [bigBlockFor4nl, Block.calTransactionRoot, nil_append, map_flatMap]
    rw [map_eq_flatMap]
    refine flatMap_congr fun p hp => ?_
    obtain ⟨i, -, rfl⟩ := hprobe p hp
    rfl
  · intro p hp
    obtain ⟨i, -, rfl⟩ := hprobe p hp
    rfl

theorem proposal?_probes (j : Int) :
    (cacheAfter (probes parent r o)).proposal? r j =
      if j ∈ o.map Nat.cast then some (probe parent r j.toNat : PrepareReq4nl H Id Sg)
      else none := by
  have hkeys : j ∈ ((cacheAfter (probes parent r o)).round r :
      Round H Id Sg).keys ↔ j ∈ o.map Nat.cast := by
    rw [round_probes, mem_keys_ofArrivals, map_map]
    rfl
  split_ifs with hj
  · obtain ⟨p, hp, rfl⟩ := mem_map.mp (hkeys.mpr hj)
    obtain ⟨i, -, rfl⟩ := mem_round_probes hp
    exact (find?_eq_some_iff _ _ _).mpr hp
  · exact (find?_eq_none_iff _ _).mpr fun h => hj (hkeys.mp h)

theorem sameProposals_probes {o₁ o₂ : List Nat} (hsame : ∀ i, i ∈ o₁ ↔ i ∈ o₂) :
    SameProposals r (probes parent r o₁ : List (PrepareReq4nl H Id Sg)) (probes parent r o₂) := by
  intro j
  have hmem : j ∈ o₁.map (Nat.cast : Nat → Int) ↔ j ∈ o₂.map Nat.cast := by
    simp only [mem_map, hsame]
  rw [proposal?_probes, proposal?_probes]
  simp only [hmem]

end Probe

/-- **Exactness.** Fix the orders in which the proposals of a round arrive at two nodes. The
two nodes build the same block from the same proposals, whatever the proposals are, if and
only if the hash table iterates the two orders alike. -/
theorem bigBlock_eq_iff_sameIterationOrder [Inhabited Sg] (c : Crypto H Id Sg)
    (parent : BlockHeader H Id) (r : Int) {o₁ o₂ : List Nat} (hmem : ∀ i, i ∈ o₁ ↔ i ∈ o₂)
    (hn : o₁.dedup.length ≤ firstBucketCount) :
    (∀ h₁ h₂ : List (PrepareReq4nl H Id Sg), arrivals r h₁ = o₁.map Nat.cast →
      arrivals r h₂ = o₂.map Nat.cast → SameProposals r h₁ h₂ →
      mergeRound c parent r (cacheAfter h₁) = mergeRound c parent r (cacheAfter h₂)) ↔
    SameIterationOrder (o₁.map (Nat.cast : Nat → Int)) (o₂.map Nat.cast) := by
  have hmem' : ∀ i : Int, i ∈ o₁.map (Nat.cast : Nat → Int) ↔ i ∈ o₂.map Nat.cast := by
    intro i
    simp only [mem_map, hmem]
  have hn' : (o₁.map (Nat.cast : Nat → Int)).dedup.length ≤ firstBucketCount := by
    rwa [dedup_map_of_injective Nat.cast_injective, length_map]
  constructor
  · intro hall
    have heq := hall (probes parent r o₁) (probes parent r o₂) (arrivals_probes o₁)
      (arrivals_probes o₂) (sameProposals_probes hmem)
    have hkeys := congrArg
      (Option.map fun b : Block H Id Sg => b.transactions.map fun t => (t.nonce : Int)) heq
    rw [mergeRound_probes, mergeRound_probes, Option.some.injEq, round_probes,
      round_probes] at hkeys
    have horder := (keys_ofArrivals_eq_iff ?_ ?_).mp hkeys
    · simpa only [map_map, Function.comp_def] using horder
    · intro k
      simpa only [map_map, Function.comp_def] using hmem' k
    · rw [size_ofArrivals]
      simpa only [map_map, Function.comp_def] using hn'
  · intro horder h₁ h₂ ho₁ ho₂ hsame
    refine mergeRound_eq_of_sameIterationOrder c parent ?_ ?_ ?_ hsame
    · rw [ho₁, ho₂]
      exact hmem'
    · rw [ho₁]
      exact hn'
    · rw [ho₁, ho₂]
      exact horder

/-- A repeated proposal does not disturb the order: only first arrivals count. -/
theorem mergeRound_repeated_arrival :
    mergeRound symbolic symbolicGenesis.header 1
        (cacheAfter (probes symbolicGenesis.header 1 [0, 1, 2, 0])) =
      mergeRound symbolic symbolicGenesis.header 1
        (cacheAfter (probes symbolicGenesis.header 1 [0, 1, 2])) :=
  (bigBlock_eq_iff_sameIterationOrder symbolic symbolicGenesis.header 1
    (by simp; omega) (by decide)).mpr (by decide) _ _ (arrivals_probes [0, 1, 2, 0])
    (arrivals_probes [0, 1, 2]) (sameProposals_probes (by simp; omega))

/-- The four proposals of a round, in the order of `o`. -/
def roundIn (o : List Nat) : List (PrepareReq4nl Digest Nat Signature) :=
  o.map fun i => symbolicProposal (10 + i) i 1 [5 + i]

/-- The proposals of a complete round arrive at two nodes in opposite orders, and the nodes build
two different blocks. -/
theorem mergeRound_differs_by_arrival :
    let forth := roundIn [0, 1, 2, 3]
    let back := roundIn [3, 2, 1, 0]
    let merged := fun history => mergeRound symbolic symbolicGenesis.header 1 (cacheAfter history)
    SameProposals 1 forth back ∧
      (merged forth).map Block.txHashes = some [.leaf 8, .leaf 7, .leaf 6, .leaf 5] ∧
      (merged back).map Block.txHashes = some [.leaf 5, .leaf 6, .leaf 7, .leaf 8] ∧
      (merged forth).map (fun b => b.header.transactionsRoot) ≠
        (merged back).map (fun b => b.header.transactionsRoot) ∧
      (merged forth).map (fun b => b.header.digest symbolic) ≠
        (merged back).map (fun b => b.header.digest symbolic) := by
  intro forth back merged
  refine ⟨?_, by decide, by decide, by decide, by decide⟩
  intro i
  have hkey : ∀ i, (symbolicProposal (10 + i) i 1 [5 + i]).height = 1 ∧
      (symbolicProposal (10 + i) i 1 [5 + i]).idx = i := fun _ => ⟨rfl, rfl⟩
  simp only [forth, back, roundIn, map_cons, map_nil, cacheAfter, foldl_cons, foldl_nil,
    ReqCache4nl.proposal?_addPrepareReq4nl, (hkey _).1, (hkey _).2, true_and]
  split_ifs <;> first | rfl | omega

/-! ### Repeated transactions -/

/-- The block has every transaction once and none that the chain has. -/
def FreshBlock (chain : List (Block H Id Sg)) (b : Block H Id Sg) : Prop :=
  b.txHashes.Nodup ∧ ∀ b' ∈ chain, ∀ h ∈ b.txHashes, h ∉ b'.txHashes

instance [DecidableEq H] (chain : List (Block H Id Sg)) (b : Block H Id Sg) :
    Decidable (FreshBlock chain b) := inferInstanceAs (Decidable (_ ∧ _))

/-- The transactions of a round are divided among its proposers: each has one owner, only the
owner packs it, once, and nobody packs a transaction of the chain. -/
def PackedApart (e : Engine H Id Sg) (r : Int) : Prop :=
  ∃ owner : H → Int, ∀ p ∈ (e.reqCache.round r).nodes, ∀ b, p.2.pBlock = some b →
    b.txHashes.Nodup ∧ ∀ h ∈ b.txHashes, owner h = p.1 ∧ ∀ b' ∈ e.chain, h ∉ b'.txHashes

/-- The hashes a proposal contributes. -/
def mergedHashes (p : Int × PrepareReq4nl H Id Sg) : List H :=
  (mergedTransactions p).map Transaction.hash

theorem mergedHashes_of_pBlock {p : Int × PrepareReq4nl H Id Sg} {b : Block H Id Sg}
    (h : p.2.pBlock = some b) : mergedHashes p = b.txHashes := by
  unfold mergedHashes mergedTransactions
  rw [h]
  rfl

theorem exists_pBlock_of_mem_mergedHashes {p : Int × PrepareReq4nl H Id Sg} {h : H}
    (hh : h ∈ mergedHashes p) : ∃ b, p.2.pBlock = some b ∧ h ∈ b.txHashes := by
  cases hb : p.2.pBlock with
  | none => simp [mergedHashes, mergedTransactions, hb] at hh
  | some b => exact ⟨b, rfl, mergedHashes_of_pBlock hb ▸ hh⟩

theorem txHashes_bigBlockFor4nl (c : Crypto H Id Sg) (parent : BlockHeader H Id)
    {txs : List (Transaction H)} (h : appendProposals l [] = some txs) :
    (bigBlockFor4nl c parent txs).txHashes = l.flatMap mergedHashes := by
  obtain rfl := appendProposals_eq_some h
  simp only [bigBlockFor4nl, Block.calTransactionRoot, Block.txHashes, nil_append, map_flatMap]
  rfl

/-- Proposals without a common transaction can be told apart by an owner function. -/
theorem exists_owner [DecidableEq H]
    (hdisj : l.Pairwise fun p q => List.Disjoint (mergedHashes p) (mergedHashes q)) :
    ∃ owner : H → Int, ∀ p ∈ l, ∀ h ∈ mergedHashes p, owner h = p.1 := by
  refine ⟨fun h => (l.find? fun p => h ∈ mergedHashes p).elim 0 Prod.fst, ?_⟩
  intro p hp h hh
  have hsome : (l.find? fun p => h ∈ mergedHashes p).isSome = true :=
    List.find?_isSome.mpr ⟨p, hp, decide_eq_true hh⟩
  obtain ⟨q, hq⟩ := Option.isSome_iff_exists.mp hsome
  have hqh : h ∈ mergedHashes q := by simpa using List.find?_some hq
  have hpq : q = p := by
    by_contra hne
    have hsymm : Std.Symm fun p q : Int × PrepareReq4nl H Id Sg =>
        List.Disjoint (mergedHashes p) (mergedHashes q) := ⟨fun _ _ => List.Disjoint.symm⟩
    exact hdisj.forall (mem_of_find?_eq_some hq) hp hne hqh hh
  dsimp only
  rw [hq, hpq]
  rfl

variable [DecidableEq H] [DecidableEq Id]

/-- **Exactness.** The block of a saved round is free of repeated transactions if and only if
the transactions of the cached proposals were divided among the proposers. -/
theorem saved_block_fresh_iff {c : Crypto H Id Sg} {env : Env} {r i : Int} {e e' : Engine H Id Sg}
    {out : List (Output H Id Sg)} {s : Saved H Id Sg}
    (h : e.checkAndSave4nl c env r i = some (e', out)) (hs : .saved s ∈ out) :
    FreshBlock e.chain s.block ↔ PackedApart e r := by
  obtain ⟨-, txs, htxs, rfl⟩ := Engine.checkAndSave4nl_saved h hs
  have hhashes := txHashes_bigBlockFor4nl c e.highest.header htxs
  unfold FreshBlock
  rw [hhashes, nodup_flatMap]
  constructor
  · rintro ⟨⟨hnodup, hdisj⟩, hchain⟩
    obtain ⟨owner, howner⟩ := exists_owner hdisj
    refine ⟨owner, ?_⟩
    intro p hp b hb
    rw [← mergedHashes_of_pBlock hb]
    refine ⟨hnodup p hp, fun x hx => ⟨howner p hp x hx, fun b' hb' => ?_⟩⟩
    exact hchain b' hb' x (mem_flatMap.mpr ⟨p, hp, hx⟩)
  · rintro ⟨owner, hpacked⟩
    refine ⟨⟨?_, ?_⟩, ?_⟩
    · intro p hp
      cases hb : p.2.pBlock with
      | none => simp [mergedHashes, mergedTransactions, hb]
      | some b =>
        rw [mergedHashes_of_pBlock hb]
        exact (hpacked p hp b hb).1
    · -- two proposals of one owner would be filed under one index
      have hkeys := pairwise_map.mp (e.reqCache.round r).nodup
      refine hkeys.imp_of_mem ?_
      intro p q hp hq hpq x hx hx'
      obtain ⟨b, hb, hxb⟩ := exists_pBlock_of_mem_mergedHashes hx
      obtain ⟨b', hb', hxb'⟩ := exists_pBlock_of_mem_mergedHashes hx'
      have hp' := ((hpacked p hp b hb).2 x hxb).1
      have hq' := ((hpacked q hq b' hb').2 x hxb').1
      exact hpq (hp'.symm.trans hq')
    · intro b' hb' x hx
      obtain ⟨p, hp, hxp⟩ := mem_flatMap.mp hx
      obtain ⟨b, hb, hxb⟩ := exists_pBlock_of_mem_mergedHashes hxp
      exact ((hpacked p hp b hb).2 x hxb).2 b' hb'

/-- A cache in which every proposal has the votes of all `sealers`. -/
def certifiedCache (sealers : List Nat) (proposals : List (PrepareReq4nl Digest Nat Signature)) :
    ReqCache4nl Digest Nat Signature :=
  proposals.foldl (fun cache req =>
    sealers.foldl (fun cache id =>
        (cache.addSignReq4nl 0 (voteFor symbolic id 0 req)).addCommitReq4nl 0
          (voteFor symbolic id 0 req))
      (cache.addPrepareReq4nl req)) ∅

/-- Sealer 10 of four, about to save round 1 with the transactions `txs i` from sealer `i`. -/
def certifiedEngine (txs : Nat → List Nat) : Engine Digest Nat Signature :=
  { Engine.init [10, 11, 12, 13] 10 symbolicGenesis [] with
    reqCache := certifiedCache [10, 11, 12, 13]
      ((List.range 4).map fun i => symbolicProposal (10 + i) i 1 (txs i)) }

/-- The attempt of the certified engine to save round 1. -/
def certifiedSave (txs : Nat → List Nat) : Result Digest Nat Signature :=
  (certifiedEngine txs).checkAndSave4nl symbolic ⟨0, 0, true, true⟩ 1 0

/-- The blocks saved by a handler. -/
def savedBlocks (result : Result H Id Sg) : List (Block H Id Sg) :=
  result.elim [] fun r => (savedOf r.2).map Saved.block

omit [DecidableEq H] [DecidableEq Id] in
theorem exists_of_mem_savedBlocks {result : Result H Id Sg} {b : Block H Id Sg}
    (h : b ∈ savedBlocks result) :
    ∃ e out s, result = some (e, out) ∧ .saved s ∈ out ∧ s.block = b := by
  cases result with
  | none => cases h
  | some r =>
    obtain ⟨s, hs, rfl⟩ := mem_map.mp h
    exact ⟨r.1, r.2, s, rfl, mem_savedOf.mp hs, rfl⟩

/-- Sealers whose pools do not overlap: the saved block is fresh. -/
theorem saved_block_fresh_of_apart :
    ∃ b ∈ savedBlocks (certifiedSave fun i => [i]), FreshBlock [] b := by
  have hlen : (savedBlocks (certifiedSave fun i => [i])).length = 1 := by decide +kernel
  obtain ⟨b, hb⟩ := exists_mem_of_length_pos (hlen ▸ Nat.one_pos)
  obtain ⟨e', out, s, hsave, hs, rfl⟩ := exists_of_mem_savedBlocks hb
  exact ⟨s.block, hb, (saved_block_fresh_iff hsave hs).mpr
    ⟨fun h => match h with | .leaf n => n | .pair _ _ => 0, by decide +kernel⟩⟩

/-- Sealers 0 and 1 both packed transaction 5: the saved block has it twice. -/
theorem saved_block_repeats_transaction :
    let saved := savedBlocks (certifiedSave fun i => if i < 2 then [5] else [i])
    saved.map Block.txHashes = [[.leaf 3, .leaf 2, .leaf 5, .leaf 5]] ∧
      ∀ b ∈ saved, ¬ FreshBlock [] b := by
  decide +kernel

end Rcc.Pbft
