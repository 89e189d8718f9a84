import Mathlib.Data.List.AList
import Rcc.Lib.Run

/-!
# Rcc.Chain.BlockCache

`BlockCache::add` (`libblockchain/BlockChainImp.cpp`): a map from hashes to blocks, and a queue of
its keys that says which one is the oldest.

For a hash that is in the map the insertion does nothing, but the queue gets the hash once more. So
the two agree exactly as long as no block is added that is in the cache and stays there
(`Fresh`, `cache_queue_agree`).
-/

namespace Rcc.Chain

open List

def c_blockCacheSize : Nat := 10

/-- The members of `BlockCache`. The front of the queue is the head of the list. -/
structure BlockCache (Hash Block : Type) where
  blockCache : AList fun _ : Hash => Block := ∅
  blockCacheFIFO : List Hash := []

namespace BlockCache

variable {Hash Block : Type} [DecidableEq Hash] (s : BlockCache Hash Block)

/-- The oldest block is removed, and everything if there are still too many blocks. From an empty
queue nothing can be taken: `none`. -/
def evict : Option (BlockCache Hash Block) :=
  if s.blockCache.keys.length > c_blockCacheSize then
    match s.blockCacheFIFO with
    | [] => none
    | firstHash :: rest =>
      let blockCache := s.blockCache.erase firstHash
      if blockCache.keys.length > c_blockCacheSize then some {} else some ⟨blockCache, rest⟩
  else some s

def add (hash : Block → Hash) (s : BlockCache Hash Block) (block : Block) :
    Option (BlockCache Hash Block) := do
  let s ← s.evict
  let blockHash := hash block
  return {
    blockCache :=
      -- `std::map::insert` keeps what is there
      if blockHash ∈ s.blockCache then s.blockCache else s.blockCache.insert blockHash block
    blockCacheFIFO := s.blockCacheFIFO ++ [blockHash] }

/-- The queue lists each key once and nothing else. -/
def Agree : Prop := s.blockCacheFIFO ~ s.blockCache.keys

/-- The key of the oldest block of a full cache. -/
def Leaves (k : Hash) : Prop :=
  c_blockCacheSize < s.blockCache.keys.length ∧ s.blockCacheFIFO.head? = some k

/-- The block is not in the cache, or it is the one that has to leave. -/
def Fresh (hash : Block → Hash) (s : BlockCache Hash Block) (block : Block) : Prop :=
  hash block ∈ s.blockCache.keys → s.Leaves (hash block)

instance (hash : Block → Hash) (s : BlockCache Hash Block) (block : Block) :
    Decidable (Fresh hash s block) := inferInstanceAs (Decidable (_ → _ ∧ _))

variable {s : BlockCache Hash Block}

/-- Only the oldest block leaves, and only if the cache is full. -/
theorem Agree.evict (h : s.Agree) (hsize : s.blockCache.keys.length ≤ c_blockCacheSize + 1) :
    ∃ s', s.evict = some s' ∧ s'.Agree ∧ s'.blockCache.keys.length ≤ c_blockCacheSize ∧
      ∀ k, k ∈ s'.blockCache.keys ↔ k ∈ s.blockCache.keys ∧ ¬s.Leaves k := by
  rw [BlockCache.evict]
  by_cases hfull : s.blockCache.keys.length > c_blockCacheSize
  · rw [if_pos hfull]
    cases hfifo : s.blockCacheFIFO with
    | nil =>
      have hnone := h.length_eq
      rw [hfifo, length_nil] at hnone
      omega
    | cons firstHash rest =>
      have hkeys : firstHash :: rest ~ s.blockCache.keys := hfifo ▸ h
      have herase := hkeys.erase firstHash
      rw [erase_cons_head, ← AList.keys_erase] at herase
      have hlength := hkeys.length_eq
      rw [length_cons, herase.length_eq] at hlength
      refine ⟨_, if_neg (by omega), herase, by simp only; omega, fun k => ?_⟩
      simp only [AList.keys_erase, s.blockCache.keys_nodup.mem_erase_iff, Leaves, hfifo,
        head?_cons, gt_iff_lt.mp hfull, true_and, Option.some.injEq, eq_comm (a := firstHash),
        and_comm]
  · rw [if_neg hfull]
    exact ⟨s, rfl, h, Nat.not_lt.mp hfull, fun k => (and_iff_left fun hk => hfull hk.1).symm⟩

theorem Agree.add (hash : Block → Hash) (h : s.Agree)
    (hsize : s.blockCache.keys.length ≤ c_blockCacheSize + 1) (block : Block) :
    ∃ s', s.add hash block = some s' ∧ (s'.Agree ↔ Fresh hash s block) ∧
      s'.blockCache.keys.length ≤ c_blockCacheSize + 1 ∧
      ∀ k ∈ s.blockCache.keys, k ∈ s'.blockCache.keys ∨ s.Leaves k := by
  obtain ⟨t, ht, hagree, hroom, hmem⟩ := h.evict hsize
  have hkept : ∀ k ∈ s.blockCache.keys, k ∈ t.blockCache.keys ∨ s.Leaves k := fun k hk =>
    (Classical.em (s.Leaves k)).symm.imp_left fun hstays => (hmem k).mpr ⟨hk, hstays⟩
  have hfresh : Fresh hash s block ↔ hash block ∉ t.blockCache.keys := by
    rw [hmem, not_and_not_right, Fresh]
  refine ⟨_, by rw [BlockCache.add, ht]; rfl, ?_⟩
  rw [hfresh]
  by_cases hin : hash block ∈ t.blockCache
  · simp only [if_pos hin]
    refine ⟨iff_of_false (fun hperm => ?_) (not_not.mpr hin), Nat.le_succ_of_le hroom, hkept⟩
    -- the hash is once more in the queue
    have hlength := hperm.length_eq
    rw [length_append, hagree.length_eq] at hlength
    simp at hlength
  · have hkeys : (t.blockCache.insert (hash block) block).keys
        = hash block :: t.blockCache.keys := by
      rw [AList.keys_insert, erase_of_not_mem hin]
    simp only [if_neg hin, Agree, hkeys]
    refine ⟨iff_of_true ((perm_append_singleton _ _).trans (hagree.cons _)) hin,
      Nat.succ_le_succ hroom, fun k hk => (hkept k hk).imp_left (mem_cons_of_mem _)⟩

/-- **Queue and map agree.** In a run in which no block is added that is in the cache and stays,
the queue lists each key once and the cache is at most one block above its size. The next addition
removes at most the oldest block, and it keeps the agreement exactly if its block is fresh. -/
theorem cache_queue_agree (hash : Block → Hash) {blocks : List Block}
    (hrun : Run (Guarded (Fresh hash) (Steps (add hash))) {} blocks s) :
    s.Agree ∧ s.blockCache.keys.length ≤ c_blockCacheSize + 1 ∧
    ∀ block, ∃ s', s.add hash block = some s' ∧ (s'.Agree ↔ Fresh hash s block) ∧
      ∀ k ∈ s.blockCache.keys, k ∈ s'.blockCache.keys ∨ s.Leaves k := by
  have h : s.Agree ∧ s.blockCache.keys.length ≤ c_blockCacheSize + 1 := by
    refine hrun.invariant (fun _ s => s.Agree ∧ s.blockCache.keys.length ≤ c_blockCacheSize + 1)
      ⟨Perm.nil, Nat.zero_le _⟩ fun _ s block s' h hstep => ?_
    obtain ⟨s'', hadd, hagree, hsize, -⟩ := h.1.add hash h.2 block
    obtain rfl := Option.some.inj (hadd.symm.trans hstep.2)
    exact ⟨hagree.mpr hstep.1, hsize⟩
  refine ⟨h.1, h.2, fun block => ?_⟩
  obtain ⟨s', hadd, hagree, -, hkept⟩ := h.1.add hash h.2 block
  exact ⟨s', hadd, hagree, hkept⟩

/-- Eleven blocks fill the cache, and the first of them comes back when it has to leave. -/
theorem oldest_block_returns : ∃ s : BlockCache Nat Nat,
    Run (Guarded (Fresh id) (Steps (add id))) {} [0, 1, 2, 3, 4, 5, 6, 7, 8, 9, 10, 0] s ∧
      s.blockCacheFIFO = [1, 2, 3, 4, 5, 6, 7, 8, 9, 10, 0] ∧ s.Agree := by
  refine exists_guardedRun_of_exec (p := fun s : BlockCache Nat Nat => s.blockCacheFIFO = _)
    (by decide +kernel) fun s hrun hqueue => ⟨hqueue, ?_⟩
  exact (cache_queue_agree id hrun).1

/-- A block that is added twice is twice in the queue. -/
theorem repeated_block_disagrees : ∃ s : BlockCache Nat Nat,
    Run (Steps (add id)) {} [7, 7] s ∧ ¬s.Agree := by
  refine exists_run_of_exec (p := fun s : BlockCache Nat Nat => s.blockCacheFIFO = [7, 7] ∧
    s.blockCache.keys = [7]) (by decide +kernel) fun s _ h hagree => ?_
  have hlength := hagree.length_eq
  rw [h.1, h.2] at hlength
  cases hlength

end BlockCache

end Rcc.Chain
