import Mathlib.Data.List.Sort
import Rcc.Pbft.Engine4nl
import Rcc.Pbft.Symbolic

/-!
# Rcc.Pbft.CheckBlock

Acceptance of a finished block (`PBFTEngine::checkBlock`), which block synchronisation relies on
(`SyncMaster::isNextBlock`): the signatures that come with a block are all checked, but what is
compared with the quorum is the *length* of the list.

An entry of the list is checked against the sealer that its index, narrowed to 16 bits,
addresses. `accepted_quorum_iff` says what the accepted blocks with a real quorum are: those
whose entries address a quorum of different sealers. `repeatedSignature_accepted` is a block
accepted with one signature listed three times.
-/

namespace Rcc.Pbft

open List

variable {H Id Sg : Type}

/-! ### Configuration -/

/-- What `checkBlock` reads from the chain and its configuration. `noId` is `h512()`. -/
structure ChainConfig (Id : Type) where
  number : Int
  sealerList : List Id
  maxBlockTransactions : Nat
  noId : Id

inductive ConfigError where
  | emptySealers
deriving DecidableEq

/-- `resetConfig` with `updateConsensusNodeList`: the sealers in the order all nodes agree on. -/
def resetConfig [LinearOrder Id] (cfg : ChainConfig Id) : Except ConfigError (List Id) :=
  if cfg.sealerList.length < 1 then .error .emptySealers
  else .ok (cfg.sealerList.insertionSort (· ≤ ·))

/-- `checkSign(idx, hash, sig)`, with `getNodeIDByIndex`. -/
def checkSign [DecidableEq Id] (c : Crypto H Id Sg) (noId : Id) (sealers : List Id) (idx : Nat)
    (h : H) (sig : Sg) : Bool :=
  let nodeId := getSealerByIndex noId sealers idx
  nodeId ≠ noId && c.verify nodeId sig h

theorem checkSign_iff [DecidableEq Id] {c : Crypto H Id Sg} {noId : Id} {sealers : List Id}
    {idx : Nat} {h : H} {sig : Sg} :
    checkSign c noId sealers idx h sig = true ↔
      getSealerByIndex noId sealers idx ≠ noId ∧
        c.verify (getSealerByIndex noId sealers idx) sig h = true := by
  simp [checkSign]

section

variable [LinearOrder Id]

/-! ### Acceptance -/

variable {c : Crypto H Id Sg} {cfg : ChainConfig Id} {b : Block H Id Sg}

/-- `checkBlock`: the checks in the order of the source, which returns `false` at the first one
that fails. The index of a signature is a 256-bit number that is narrowed to `IDXTYPE`. -/
def checkBlock (c : Crypto H Id Sg) (cfg : ChainConfig Id) (b : Block H Id Sg) :
    Except ConfigError Bool :=
  if b.header.number ≤ cfg.number then .ok false
  else (resetConfig cfg).map fun sealers =>
    -- the genesis block is not checked
    b.header.number = 0 ||
      (sealers = b.header.sealerList &&
        getSealerByIndex cfg.noId sealers (b.header.sealer % 2 ^ 64) ≠ cfg.noId &&
        minValidNodes sealers ≤ b.sigList.length && b.sigList.all (fun s =>
          checkSign c cfg.noId sealers (toIdx s.1) (b.header.digest c) s.2) &&
        b.transactions.length ≤ cfg.maxBlockTransactions)

/-- What acceptance of a block other than the genesis block has checked. -/
structure Accepted (c : Crypto H Id Sg) (cfg : ChainConfig Id) (sealers : List Id)
    (b : Block H Id Sg) : Prop where
  above : cfg.number < b.header.number
  sealers_eq : resetConfig cfg = .ok sealers
  listed : b.header.sealerList = sealers
  sealer : getSealerByIndex cfg.noId sealers (b.header.sealer % 2 ^ 64) ≠ cfg.noId
  enough : minValidNodes sealers ≤ b.sigList.length
  signed : ∀ s ∈ b.sigList,
    checkSign c cfg.noId sealers (toIdx s.1) (b.header.digest c) s.2 = true
  size : b.transactions.length ≤ cfg.maxBlockTransactions

theorem checkBlock_accepted (h : checkBlock c cfg b = .ok true) (hnum : b.header.number ≠ 0) :
    ∃ sealers, Accepted c cfg sealers b := by
  unfold checkBlock at h
  split_ifs at h with habove
  · cases h
  · cases hcfg : resetConfig cfg with
    | error err =>
      rw [hcfg] at h
      cases h
    | ok sealers =>
      simp only [hcfg, Except.map, Except.ok.injEq, hnum, decide_false, Bool.false_or,
        Bool.and_eq_true, decide_eq_true_eq, all_eq_true] at h
      obtain ⟨⟨⟨⟨hlisted, hsealer⟩, henough⟩, hsigned⟩, hsize⟩ := h
      exact ⟨sealers, by omega, hcfg, hlisted.symm, hsealer, henough, hsigned, hsize⟩

/-! ### Quorums -/

/-- At least a quorum of different sealers have a valid signature over the header hash among
the signatures of the block. -/
def QuorumSigned (c : Crypto H Id Sg) (sealers : List Id) (b : Block H Id Sg) : Prop :=
  ∃ S : Finset Id, minValidNodes sealers ≤ S.card ∧ ∀ id ∈ S, id ∈ sealers ∧
    ∃ s ∈ b.sigList, c.verify id s.2 (b.header.digest c) = true

/-- The sealers that the indices of the signatures address. -/
def addressed (cfg : ChainConfig Id) (sealers : List Id) (b : Block H Id Sg) : Finset Id :=
  (b.sigList.map fun s => getSealerByIndex cfg.noId sealers (toIdx s.1)).toFinset

/-- The signers of an accepted block are the sealers its indices address. -/
theorem Accepted.mem_addressed_iff (hc : c.Lawful) {sealers : List Id}
    (h : Accepted c cfg sealers b) (id : Id) :
    id ∈ addressed cfg sealers b ↔
      id ∈ sealers ∧ ∃ s ∈ b.sigList, c.verify id s.2 (b.header.digest c) = true := by
  rw [addressed, mem_toFinset, mem_map]
  constructor
  · rintro ⟨s, hs, rfl⟩
    obtain ⟨hne, hverify⟩ := checkSign_iff.mp (h.signed s hs)
    exact ⟨getSealerByIndex_mem hne, s, hs, hverify⟩
  · rintro ⟨-, s, hs, hverify⟩
    -- the entry was verified for the addressed sealer, so `id` is that sealer
    obtain ⟨-, hverify'⟩ := checkSign_iff.mp (h.signed s hs)
    exact ⟨s, hs, hc.verify_unique _ _ _ _ hverify' hverify⟩

theorem Accepted.quorumSigned_iff (hc : c.Lawful) {sealers : List Id} (h : Accepted c cfg sealers b)
    : QuorumSigned c sealers b ↔ minValidNodes sealers ≤ (addressed cfg sealers b).card := by
  constructor
  · rintro ⟨S, hcard, hS⟩
    refine hcard.trans (Finset.card_le_card fun id hid => ?_)
    exact (h.mem_addressed_iff hc id).mpr (hS id hid)
  · intro hcard
    exact ⟨addressed cfg sealers b, hcard, fun id hid => (h.mem_addressed_iff hc id).mp hid⟩

/-- **When acceptance means a quorum.** A block other than the genesis block that is accepted is
signed by a quorum of different sealers exactly if the indices of its signatures, narrowed to 16
bits, address a quorum of different sealers. -/
theorem accepted_quorum_iff {c : Crypto H Id Sg} (hc : c.Lawful) {cfg : ChainConfig Id}
    {b : Block H Id Sg} (h : checkBlock c cfg b = .ok true) (hnum : b.header.number ≠ 0) :
    ∃ sealers, resetConfig cfg = .ok sealers ∧
      (QuorumSigned c sealers b ↔ minValidNodes sealers ≤ (addressed cfg sealers b).card) := by
  obtain ⟨sealers, hacc⟩ := checkBlock_accepted h hnum
  exact ⟨sealers, hacc.sealers_eq, hacc.quorumSigned_iff hc⟩

end

/-- The chain of four sealers above its genesis block. -/
def symbolicConfig : ChainConfig Nat := ⟨0, [13, 12, 11, 10], 1000, 0⟩

/-- Block 1 with signatures of the sealers of these indices. -/
def signedBlock (indices : List Nat) : Block Digest Nat Signature :=
  let header := { (symbolicBlock 1 0 [0]).header with sealerList := [10, 11, 12, 13] }
  { symbolicBlock 1 0 [0] with
    header := header
    sigList := indices.map fun i => (i, symbolic.sign (10 + i % 65536) (header.digest symbolic)) }

/-- A block with three signers is accepted, and they are a quorum. -/
theorem threeSigners_quorum :
    checkBlock symbolic symbolicConfig (signedBlock [0, 1, 2]) = .ok true ∧
      QuorumSigned symbolic [10, 11, 12, 13] (signedBlock [0, 1, 2]) := by
  have hacc : checkBlock symbolic symbolicConfig (signedBlock [0, 1, 2]) = .ok true := by
    decide +kernel
  refine ⟨hacc, ?_⟩
  obtain ⟨sealers, hsealers, hiff⟩ := accepted_quorum_iff symbolic_lawful hacc (by decide)
  obtain rfl : sealers = [10, 11, 12, 13] := by
    have hcfg : resetConfig symbolicConfig = .ok [10, 11, 12, 13] := by decide +kernel
    exact (Except.ok.inj hsealers).symm
  exact hiff.mpr (by decide +kernel)

/-- **The failing input.** A signature of one sealer, listed three times under indices that are
equal modulo 2^16, passes for a quorum of three. -/
theorem repeatedSignature_accepted :
    checkBlock symbolic symbolicConfig (signedBlock [1, 1, 65537]) = .ok true ∧
      (signedBlock [1, 1, 65537]).header.number ≠ 0 ∧
      resetConfig symbolicConfig = .ok [10, 11, 12, 13] ∧
      ¬ QuorumSigned symbolic [10, 11, 12, 13] (signedBlock [1, 1, 65537]) := by
  refine ⟨by decide +kernel, by decide, by decide +kernel, ?_⟩
  rintro ⟨S, hcard, hS⟩
  have hsub : S ⊆ {11} := by
    intro id hid
    obtain ⟨-, s, hs, hverify⟩ := hS id hid
    simp only [signedBlock, map_cons, map_nil, mem_cons, not_mem_nil, or_false] at hs
    rcases hs with rfl | rfl | rfl <;> simp_all [symbolic]
  have hle := Finset.card_le_card hsub
  have hmin : minValidNodes [10, 11, 12, 13] = 3 := by decide
  simp at hle
  omega

end Rcc.Pbft
