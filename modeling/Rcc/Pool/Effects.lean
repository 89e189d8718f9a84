import Rcc.Pool.Invariant

/-!
# Rcc.Pool.Effects

What calls leave of the queue.

`dropBlockTrans` removes by the original hash of a transaction, which only `insert` writes. The
transactions of a block that a node has sealed are those of its pool, but those of a block from the
network have been decoded, and their original hash is zero. So the pool may keep transactions of the
block (`dropBlockTrans_exact_iff`).
-/

namespace Rcc.Pool.TxPool

open List

open OrderedSet (Rotations)

variable {s s' : TxPool} {rot : Rotations (Iterator × Ptr)}

/-- What is left is what has another hash. -/
theorem Indexed.mem_removeTrans (h : Indexed s) {k : H256} (hs' : s.removeTrans rot k = some s')
    (e : Iterator × Ptr) : e ∈ s'.queue ↔ e ∈ s.queue ∧ (s.heap e.2).hash ≠ some k := by
  rw [TxPool.removeTrans] at hs'
  cases hk : s.txsHash.lookup k with
  | none =>
    rw [hk] at hs'
    cases hs'
    refine (and_iff_left_of_imp fun he hhash => ?_).symm
    rw [(h.index k e.1).mpr ⟨e.2, he, hhash⟩] at hk
    cases hk
  | some it =>
    obtain ⟨p, hnode, -⟩ := h.node? hk
    simp only [hk, hnode] at hs'
    cases hs'
    rw [← h.mem_filter_node hk, queue, rot.toList_apply, OrderedSet.Tree.toList_remove]
    rfl

/-- The loop removes the original hashes. -/
theorem Indexed.mem_dropTransactions (h : Indexed s) {block : List Ptr}
    (hs' : s.dropTransactions rot block = some s') (e : Iterator × Ptr) :
    e ∈ s'.queue ↔
      e ∈ s.queue ∧ ∀ p ∈ block, (s.heap e.2).hash ≠ some (s.heap p).originalHash := by
  induction block generalizing s with
  | nil =>
    cases hs'
    simp
  | cons p block ih =>
    obtain ⟨s₁, hs₁, h₁⟩ := h.removeTrans rot (s.heap p).originalHash
    rw [dropTransactions, foldlM_cons, TxPool.dropTransaction, hs₁] at hs'
    have h₂ : Indexed { s₁ with invalidTxs := s₁.invalidTxs.erase (s.heap p).originalHash } :=
      h₁.indexed.unmoved ⟨rfl, rfl, rfl, rfl, fun _ => rfl, fun _ => rfl⟩
    rw [ih h₂ hs', forall_mem_cons, ← and_assoc, ← h.mem_removeTrans hs₁, h₁.heap]
    rfl

/-- The pool is left with what is not in the block. -/
def DropsBlock (s : TxPool) (block : List Ptr) (s' : TxPool) : Prop :=
  (∀ e ∈ s'.queue, ∀ p ∈ block, (s'.heap e.2).hash ≠ (s'.heap p).hash) ∧
    ∀ e ∈ s.queue, (∀ p ∈ block, (s.heap e.2).hash ≠ (s.heap p).hash) → e ∈ s'.queue

/-- **Dropping a block.** The pool is left with what is not in the block, exactly if of the pending
transactions the same have the hash and the original hash of a transaction of the block. -/
theorem dropBlockTrans_exact_iff (h : Indexed s) (rot : Rotations (Iterator × Ptr))
    (block : List Ptr) : (∃ s', s.dropBlockTrans rot block = some s' ∧ DropsBlock s block s') ↔
      ∀ k ∈ s.txsHash, (∃ p ∈ block, (s.heap p).hash = some k) ↔
        ∃ p ∈ block, (s.heap p).originalHash = k := by
  obtain ⟨s', hs', hfewer⟩ := h.dropBlockTrans rot block
  have hmem : ∀ e, e ∈ s'.queue ↔
      e ∈ s.queue ∧ ∀ p ∈ block, (s.heap e.2).hash ≠ some (s.heap p).originalHash := by
    obtain ⟨s₁, hs₁, rfl⟩ := Option.map_eq_some_iff.mp hs'
    have h₀ : Indexed { s with txNonceCheck := s.txNonceCheck.updateCache s.chain false } :=
      h.unmoved ⟨rfl, rfl, rfl, rfl, fun _ => rfl, fun _ => rfl⟩
    have hloop := h₀.mem_dropTransactions hs₁
    exact hloop
  constructor
  · intro ⟨s₁, hs₁, hgone, hleft⟩ k hk
    obtain rfl := Option.some.inj (hs'.symm.trans hs₁)
    rw [hfewer.heap] at hgone
    obtain ⟨e, he, hhash⟩ := h.mem_txsHash.mp hk
    constructor
    · intro ⟨p, hp, hpk⟩
      by_contra hnot
      refine hgone e ((hmem e).mpr ⟨he, fun p' hp' heq => hnot ⟨p', hp', ?_⟩⟩) p hp
        (hhash.trans hpk.symm)
      exact (Option.some.inj (hhash.symm.trans heq)).symm
    · intro ⟨p, hp, hpk⟩
      by_contra hnot
      have hpending := hleft e he fun p' hp' heq => hnot ⟨p', hp', heq.symm.trans hhash⟩
      exact ((hmem e).mp hpending).2 p hp (hpk ▸ hhash)
  · intro hiff
    refine ⟨s', hs', fun e he p hp heq => ?_, fun e he hnot => (hmem e).mpr ⟨he, ?_⟩⟩
    · rw [hfewer.heap] at heq
      obtain ⟨he, hother⟩ := (hmem e).mp he
      obtain ⟨k, hk⟩ := h.hashed e he
      obtain ⟨p', hp', rfl⟩ := (hiff k (h.mem_txsHash.mpr ⟨e, he, hk⟩)).mp ⟨p, hp, heq ▸ hk⟩
      exact hother p' hp' hk
    · intro p hp heq
      obtain ⟨p', hp', hk⟩ := (hiff _ (h.mem_txsHash.mpr ⟨e, he, heq⟩)).mpr ⟨p, hp, rfl⟩
      exact hnot p' hp' (heq.trans hk.symm)

/-- The transactions from ten on are decoded copies of those below. -/
def copied (p : Ptr) : Transaction := numbered (p % 10)

/-- A pool with transaction 1. -/
def onePending : TxPool := ((empty copied [] {}).importTx {} keepShape 1 10).2

theorem onePending_indexed : onePending.Indexed :=
  ((indexed_empty copied [] {}).importTx {} keepShape 1 nofun).1

/-- The block of the pool's own transaction. -/
theorem own_block_dropped :
    ∃ s', onePending.dropBlockTrans keepShape [1] = some s' ∧ onePending.DropsBlock [1] s' := by
  refine (dropBlockTrans_exact_iff onePending_indexed keepShape [1]).mpr fun k hk => ?_
  have hkeys : onePending.txsHash.keys = [101] := by decide +kernel
  have hk : k ∈ onePending.txsHash.keys := hk
  rw [hkeys, mem_singleton] at hk
  subst hk
  decide +kernel

/-- The block has a copy of the transaction, which is left in the pool. -/
theorem decoded_block_kept :
    (onePending.heap 11).hash = (onePending.heap 1).hash ∧
      (onePending.dropBlockTrans keepShape [11]).map queue = some [(0, 1)] := by
  decide +kernel

end Rcc.Pool.TxPool
