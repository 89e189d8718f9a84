import Rcc.Pool.TxPool

/-!
# Rcc.Pool.Invariant

The representation invariant of the transaction pool: the index by hash and the queue describe the
same transactions, and `m_usedMemorySize` is their size.

The comparison of the queue is `<=`, which is no strict order. But a transaction is compared right
after its import time has been set, and if the import times do not decrease, no transaction of the
queue has a later one, however the times of those that are there have been rewritten. Then each
comparison of a transaction of the queue with the new one says that it is before it, and the new one
is inserted (`OrderedSet.Tree.emplace_of_forall`). Everything else goes through iterators.
-/

namespace Rcc.Pool

open Function (update)

open List TxPool Transaction PoolEvent

open OrderedSet (Rotations)

/-! ## Lists of nodes -/

theorem filter_node {l : List (Iterator × Ptr)} (hl : (l.map Prod.fst).Nodup) {it : Iterator}
    {p : Ptr} (h : (it, p) ∈ l) :
    ∃ l₁ l₂, l = l₁ ++ (it, p) :: l₂ ∧ l.filter (fun e => !decide (e.1 = it)) = l₁ ++ l₂ := by
  obtain ⟨l₁, l₂, rfl⟩ := append_of_mem h
  refine ⟨l₁, l₂, rfl, ?_⟩
  rw [map_append, map_cons, nodup_append, nodup_cons] at hl
  obtain ⟨-, ⟨hnot, -⟩, hdisj⟩ := hl
  have h₁ : ∀ e ∈ l₁, (!decide (e.1 = it)) = true := by
    intro e he
    simpa using hdisj e.1 (mem_map_of_mem he) it (by simp)
  have h₂ : ∀ e ∈ l₂, (!decide (e.1 = it)) = true := by
    intro e he
    simpa using fun heq : e.1 = it => hnot (mem_map.mpr ⟨e, he, heq⟩)
  rw [filter_append, filter_cons, filter_eq_self.mpr h₁, filter_eq_self.mpr h₂]
  simp

/-- A loop whose rounds succeed and keep a property. -/
theorem foldlM_keeps {σ α : Type} {f : σ → α → Option σ} (P : σ → Prop)
    (hf : ∀ s a, P s → ∃ s', f s a = some s' ∧ P s') (l : List α) {s : σ} (hs : P s) :
    ∃ s', l.foldlM f s = some s' ∧ P s' := by
  induction l generalizing s with
  | nil => exact ⟨s, rfl, hs⟩
  | cons a l ih =>
    obtain ⟨s', hs', h'⟩ := hf s a hs
    obtain ⟨s'', hs'', h''⟩ := ih h'
    exact ⟨s'', by rw [foldlM_cons, hs']; exact hs'', h''⟩

namespace TxPool

/-! ## The invariant -/

/-- The nodes of the queue in their order. -/
def queue (s : TxPool) : List (Iterator × Ptr) := s.txsQueue.toList

/-- The index and the queue describe the same transactions. -/
structure Indexed (s : TxPool) : Prop where
  index : ∀ h it, s.txsHash.lookup h = some it ↔
    ∃ p, (it, p) ∈ s.queue ∧ (s.heap p).hash = some h
  hashed : ∀ e ∈ s.queue, ∃ h, (s.heap e.2).hash = some h
  nodup : (s.queue.map Prod.fst).Nodup
  fresh : ∀ e ∈ s.queue, e.1 < s.nextNode
  memory : s.usedMemorySize = (s.queue.map fun e => (s.heap e.2).capacity).sum

/-- No transaction of the queue has a later import time. -/
def NotAfter (t : Nat) (s : TxPool) : Prop := ∀ e ∈ s.queue, (s.heap e.2).importTime ≤ t

/-- What the index and the queue say is the same. -/
structure Unmoved (s s' : TxPool) : Prop where
  txsQueue : s'.txsQueue = s.txsQueue
  nextNode : s'.nextNode = s.nextNode
  txsHash : s'.txsHash = s.txsHash
  usedMemorySize : s'.usedMemorySize = s.usedMemorySize
  hash : ∀ p, (s'.heap p).hash = (s.heap p).hash
  capacity : ∀ p, (s'.heap p).capacity = (s.heap p).capacity

variable {s s' : TxPool} {t : Nat}

theorem Indexed.unmoved (h : Indexed s) (hs : Unmoved s s') : Indexed s' := by
  have hqueue : s'.queue = s.queue := by rw [queue, queue, hs.txsQueue]
  refine ⟨fun k it => ?_, fun e he => ?_, ?_, fun e he => ?_, ?_⟩
  · rw [hs.txsHash, hqueue, h.index]
    simp only [hs.hash]
  · rw [hs.hash]
    exact h.hashed e (hqueue ▸ he)
  · rw [hqueue]
    exact h.nodup
  · rw [hs.nextNode]
    exact h.fresh e (hqueue ▸ he)
  · rw [hs.usedMemorySize, hqueue, h.memory]
    simp only [hs.capacity]

/-! ## Removal -/

/-- Transactions have been removed, and the rest is in order. -/
structure Fewer (s s' : TxPool) : Prop where
  indexed : Indexed s'
  heap : s'.heap = s.heap
  queue : ∀ e ∈ s'.queue, e ∈ s.queue

theorem Indexed.fewer (h : Indexed s) : Fewer s s := ⟨h, rfl, fun _ => id⟩

theorem Fewer.trans {s'' : TxPool} (h : Fewer s s') (h' : Fewer s' s'') : Fewer s s'' :=
  ⟨h'.indexed, h'.heap.trans h.heap, fun e he => h.queue e (h'.queue e he)⟩

theorem Fewer.notAfter (h : Fewer s s') (ht : NotAfter t s) : NotAfter t s' := fun e he => by
  rw [h.heap]
  exact ht e (h.queue e he)

/-- A loop that removes transactions. -/
theorem Fewer.foldlM {α : Type} {f : TxPool → α → Option TxPool}
    (hf : ∀ s a, Indexed s → ∃ s', f s a = some s' ∧ Fewer s s') (h : Indexed s) (l : List α) :
    ∃ s', l.foldlM f s = some s' ∧ Fewer s s' := by
  refine foldlM_keeps (Fewer s) (fun s₁ a h₁ => ?_) l h.fewer
  obtain ⟨s₂, hs₂, h₂⟩ := hf s₁ a h₁.indexed
  exact ⟨s₂, hs₂, h₁.trans h₂⟩

section removal
variable (h : Indexed s)
include h

theorem Indexed.mem_txsHash {k : H256} :
    k ∈ s.txsHash ↔ ∃ e ∈ s.queue, (s.heap e.2).hash = some k := by
  rw [← AList.lookup_isSome, Option.isSome_iff_exists]
  constructor
  · rintro ⟨it, hit⟩
    obtain ⟨p, hp, hhash⟩ := (h.index k it).mp hit
    exact ⟨(it, p), hp, hhash⟩
  · rintro ⟨e, he, hhash⟩
    exact ⟨e.1, (h.index k e.1).mpr ⟨e.2, he, hhash⟩⟩

theorem Indexed.node? {k : H256} {it : Iterator} (hk : s.txsHash.lookup k = some it) :
    ∃ p, s.node? it = some (it, p) ∧ (it, p) ∈ s.queue ∧ (s.heap p).hash = some k := by
  obtain ⟨p, hp, hhash⟩ := (h.index k it).mp hk
  refine ⟨p, ?_, hp, hhash⟩
  have hsome : (s.node? it).isSome := List.find?_isSome.mpr ⟨(it, p), hp, by simp⟩
  obtain ⟨e, he⟩ := Option.isSome_iff_exists.mp hsome
  have heq : e.1 = it := by simpa using List.find?_some he
  have hmem : e ∈ s.queue := mem_of_find?_eq_some he
  rw [he, inj_on_of_nodup_map h.nodup hmem hp heq]

/-- The other nodes are those with other hashes. -/
theorem Indexed.mem_filter_node {k : H256} {it : Iterator} (hk : s.txsHash.lookup k = some it)
    (e : Iterator × Ptr) : e ∈ s.queue.filter (fun e => !decide (e.1 = it)) ↔
      e ∈ s.queue ∧ (s.heap e.2).hash ≠ some k := by
  obtain ⟨p, -, hp, hhash⟩ := h.node? hk
  rw [mem_filter, Bool.not_eq_true', decide_eq_false_iff_not]
  refine and_congr_right fun he => not_congr ⟨fun heq => ?_, fun hhash' => ?_⟩
  · rw [inj_on_of_nodup_map h.nodup he hp heq]
    exact hhash
  · have hit := (h.index k e.1).mpr ⟨e.2, he, hhash'⟩
    exact Option.some.inj (hit.symm.trans hk)

theorem Indexed.removeTrans (rot : Rotations (Iterator × Ptr)) (k : H256) :
    ∃ s', s.removeTrans rot k = some s' ∧ Fewer s s' := by
  rw [TxPool.removeTrans]
  cases hk : s.txsHash.lookup k with
  | none => exact ⟨s, rfl, h.fewer⟩
  | some it =>
    obtain ⟨p, hnode, hp, hhash⟩ := h.node? hk
    refine ⟨_, by simp only [hnode]; rfl, ?_⟩
    have hqueue : (rot.apply (s.txsQueue.remove (·.1 = it))).toList
        = s.queue.filter (fun e => !decide (e.1 = it)) := by
      rw [rot.toList_apply, OrderedSet.Tree.toList_remove]
      rfl
    have hsub : ∀ e, e ∈ (rot.apply (s.txsQueue.remove (·.1 = it))).toList ↔
        e ∈ s.queue ∧ (s.heap e.2).hash ≠ some k := by
      intro e
      rw [hqueue, h.mem_filter_node hk]
    refine ⟨⟨fun k' it' => ?_, fun e he => h.hashed e ((hsub e).mp he).1, ?_,
      fun e he => h.fresh e ((hsub e).mp he).1, ?_⟩, rfl, fun e he => ((hsub e).mp he).1⟩
    · show AList.lookup k' (s.txsHash.erase k) = some it' ↔
        ∃ p', (it', p') ∈ (rot.apply (s.txsQueue.remove (·.1 = it))).toList ∧ _
      simp only [hsub]
      by_cases hkk : k' = k
      · subst hkk
        exact ⟨by simp, fun ⟨p', hp', hhash'⟩ => absurd hhash' hp'.2⟩
      · rw [AList.lookup_erase_ne hkk, h.index]
        refine exists_congr fun p' => and_congr_left fun hhash' => ?_
        exact (and_iff_left fun hhash => hkk (Option.some.inj (hhash'.symm.trans hhash))).symm
    · show ((rot.apply _).toList.map Prod.fst).Nodup
      rw [hqueue]
      exact h.nodup.sublist (filter_sublist.map _)
    · show s.usedMemorySize - (s.heap p).capacity = ((rot.apply _).toList.map _).sum
      obtain ⟨l₁, l₂, hsplit, hrest⟩ := filter_node h.nodup hp
      rw [hqueue, hrest, h.memory, hsplit]
      simp only [map_append, map_cons, sum_append, sum_cons]
      ring

end removal

/-- What is done after a removal leaves the index and the queue alone. -/
theorem Fewer.map {f : TxPool → TxPool} (hf : ∀ s, Unmoved s (f s))
    (hheap : ∀ s, (f s).heap = s.heap) {o : Option TxPool} (h : ∃ s', o = some s' ∧ Fewer s s') :
    ∃ s', o.map f = some s' ∧ Fewer s s' := by
  obtain ⟨s', rfl, h'⟩ := h
  refine ⟨f s', rfl, h'.indexed.unmoved (hf s'), (hheap s').trans h'.heap, fun e he => ?_⟩
  rw [TxPool.queue, (hf s').txsQueue] at he
  exact h'.queue e he

section calls
variable (cfg : PoolConfig) (rot : Rotations (Iterator × Ptr))

theorem Indexed.drop (h : Indexed s) (k : H256) :
    ∃ s', s.drop cfg rot k = some s' ∧ Fewer s s' := by
  rw [TxPool.drop]
  split
  · have h₀ : Indexed { s with
        dropped := if s.dropped.card < cfg.limit then Insert.insert k s.dropped else ∅ } :=
      h.unmoved ⟨rfl, rfl, rfl, rfl, fun _ => rfl, fun _ => rfl⟩
    obtain ⟨s', hs', hfewer⟩ := h₀.removeTrans rot k
    exact ⟨s', hs', hfewer.indexed, hfewer.heap, hfewer.queue⟩
  · exact ⟨s, rfl, h.fewer⟩

theorem Indexed.dropTransaction (h : Indexed s) (p : Ptr) :
    ∃ s', s.dropTransaction rot p = some s' ∧ Fewer s s' := by
  refine Fewer.map ?_ ?_ (h.removeTrans rot _)
  · exact fun _ => ⟨rfl, rfl, rfl, rfl, fun _ => rfl, fun _ => rfl⟩
  · exact fun _ => rfl

theorem Indexed.dropBlockTrans (h : Indexed s) (block : List Ptr) :
    ∃ s', s.dropBlockTrans rot block = some s' ∧ Fewer s s' := by
  have h₀ : Indexed { s with txNonceCheck := s.txNonceCheck.updateCache s.chain false } :=
    h.unmoved ⟨rfl, rfl, rfl, rfl, fun _ => rfl, fun _ => rfl⟩
  obtain ⟨s₁, hs₁, h₁⟩ := Fewer.foldlM (fun _ p h => h.dropTransaction rot p) h₀ block
  refine Fewer.map ?_ ?_ ⟨s₁, hs₁, h₁.indexed, h₁.heap, h₁.queue⟩
  · exact fun _ => ⟨rfl, rfl, rfl, rfl, fun _ => rfl, fun _ => rfl⟩
  · exact fun _ => rfl

theorem Indexed.removeInvalidTx (h : Indexed s) (k : H256) :
    ∃ s', s.removeInvalidTx rot k = some s' ∧ Fewer s s' := by
  refine Fewer.map ?_ ?_ (h.removeTrans rot k)
  · exact fun _ => ⟨rfl, rfl, rfl, rfl, fun _ => rfl, fun _ => rfl⟩
  · exact fun _ => rfl

theorem Indexed.removeInvalidTxs (h : Indexed s) :
    ∃ s', s.removeInvalidTxs rot = some s' ∧ Fewer s s' := by
  refine Fewer.map ?_ ?_ (Fewer.foldlM (fun _ k h => h.removeInvalidTx rot k) h _)
  · exact fun _ => ⟨rfl, rfl, rfl, rfl, fun _ => rfl, fun _ => rfl⟩
  · exact fun _ => rfl

/-! ## Import -/

variable {p : Ptr} {k : H256}

/-- What a write to an object leaves as it was. -/
theorem update_field {β : Type} (f : Transaction → β) {heap : Ptr → Transaction} {tx : Transaction}
    (hf : f tx = f (heap p)) (p' : Ptr) : f (update heap p tx p') = f (heap p') := by
  by_cases hp : p' = p
  · subst hp
    rw [Function.update_self, hf]
  · rw [Function.update_of_ne hp]

theorem unmoved_setImportTime (s : TxPool) (p : Ptr) (now : Nat) :
    Unmoved s (s.setImportTime p now) :=
  ⟨rfl, rfl, rfl, rfl, update_field hash rfl, update_field capacity rfl⟩

theorem NotAfter.setImportTime {now : Nat} (h : NotAfter now s) (p : Ptr) :
    NotAfter now (s.setImportTime p now) := by
  intro e he
  show (update s.heap p ((s.heap p).setImportTime now) e.2).importTime ≤ now
  by_cases hp : e.2 = p
  · rw [hp, Function.update_self]
    exact Nat.le_refl now
  · rw [Function.update_of_ne hp]
    exact h e he

/-- `verify` changes the nonces of the pool only, and passes unknown transactions only. -/
theorem verify_spec (s : TxPool) (tx : Transaction) (k : H256) (policy : IfDropped) :
    (∃ nonces, (s.verify cfg tx k policy).2 = { s with txpoolNonces := nonces }) ∧
    ((s.verify cfg tx k policy).1 = .Success → k ∉ s.txsHash) := by
  rw [verify]
  split_ifs with hknown hdropped hnonce hlimit hsender
  · exact ⟨⟨s.txpoolNonces, rfl⟩, by simp⟩
  · exact ⟨⟨s.txpoolNonces, rfl⟩, by simp⟩
  · exact ⟨⟨s.txpoolNonces, rfl⟩, by simp⟩
  · exact ⟨⟨s.txpoolNonces, rfl⟩, by simp⟩
  · exact ⟨⟨s.txpoolNonces, rfl⟩, by simp⟩
  · refine ⟨?_, fun _ => hknown⟩
    simp only [verifyIds]
    split_ifs <;> exact ⟨_, rfl⟩

/-- A transaction that is new, and that no transaction of the queue is after, is inserted. -/
theorem insert_eq (hk : k ∉ s.txsHash) (ht : NotAfter (s.heap p).importTime s) :
    s.insert rot p k = (true, { s with
      txsQueue := rot.apply (s.txsQueue.insertLeaf (transactionCompare s.heap) (s.nextNode, p))
      nextNode := s.nextNode + 1
      txsHash := s.txsHash.insert k s.nextNode
      heap := update s.heap p ((s.heap p).setOriginalHash k) }) := by
  have hafter : ∀ e ∈ s.txsQueue.toList, transactionCompare s.heap e (s.nextNode, p) = true :=
    fun e he => decide_eq_true (ht e he)
  have hemplace := OrderedSet.Tree.emplace_of_forall hafter
  rw [insert, if_neg hk, hemplace]

theorem Indexed.insert (h : Indexed s) (hk : k ∉ s.txsHash) (hhash : (s.heap p).hash = some k)
    {l₁ l₂ : List (Iterator × Ptr)} (hqueue : s.queue = l₁ ++ l₂)
    (hqueue' : s'.queue = l₁ ++ (s.nextNode, p) :: l₂) (hnext : s'.nextNode = s.nextNode + 1)
    (hindex : s'.txsHash = s.txsHash.insert k s.nextNode)
    (hmemory : s'.usedMemorySize = s.usedMemorySize + (s.heap p).capacity)
    (hheap : ∀ p', (s'.heap p').hash = (s.heap p').hash)
    (hcapacity : ∀ p', (s'.heap p').capacity = (s.heap p').capacity) : Indexed s' := by
  have hmem : ∀ e, e ∈ s'.queue ↔ e = (s.nextNode, p) ∨ e ∈ s.queue := by
    intro e
    simp only [hqueue, hqueue', mem_append, mem_cons, or_left_comm]
  refine ⟨fun k' it => ?_, fun e he => ?_, ?_, fun e he => ?_, ?_⟩
  · simp only [hheap, hmem, hindex]
    by_cases hkk : k' = k
    · subst hkk
      rw [AList.lookup_insert]
      constructor
      · rintro heq
        cases heq
        exact ⟨p, .inl rfl, hhash⟩
      · rintro ⟨p', heq | hp', hhash'⟩
        · rw [(Prod.mk.inj heq).1]
        · have := (h.index k' it).mpr ⟨p', hp', hhash'⟩
          exact absurd (AList.lookup_isSome.mp (by rw [this]; rfl)) hk
    · rw [AList.lookup_insert_ne hkk, h.index]
      refine exists_congr fun p' => and_congr_left fun hhash' => ?_
      refine ⟨.inr, fun hp' => hp'.resolve_left ?_⟩
      rintro heq
      obtain ⟨-, rfl⟩ := Prod.mk.inj heq
      exact hkk (Option.some.inj (hhash'.symm.trans hhash))
  · rw [hheap]
    rcases (hmem e).mp he with rfl | he
    · exact ⟨k, hhash⟩
    · exact h.hashed e he
  · have hnodup := h.nodup
    have hnot : s.nextNode ∉ s.queue.map Prod.fst := by
      rintro hmap
      obtain ⟨e, he, heq⟩ := mem_map.mp hmap
      exact absurd heq (h.fresh e he).ne
    rw [hqueue, map_append] at hnodup hnot
    rw [hqueue', map_append]
    exact nodup_middle.mpr (nodup_cons.mpr ⟨hnot, hnodup⟩)
  · rw [hnext]
    rcases (hmem e).mp he with rfl | he
    · exact Nat.lt_succ_self _
    · exact (h.fresh e he).trans (Nat.lt_succ_self _)
  · simp only [hmemory, h.memory, hqueue, hqueue', hcapacity, map_append, map_cons,
      sum_append, sum_cons]
    ring

theorem Indexed.insertVerified (h : Indexed s) (hk : k ∉ s.txsHash)
    (hhash : (s.heap p).hash = some k) (ht : NotAfter (s.heap p).importTime s) :
    Indexed (s.insertVerified rot p k) ∧
    NotAfter (s.heap p).importTime (s.insertVerified rot p k) ∧
    (s.insertVerified rot p k).queue.length = s.queue.length + 1 := by
  obtain ⟨l₁, l₂, hsplit, hleaf⟩ : ∃ l₁ l₂, s.txsQueue.toList = l₁ ++ l₂ ∧
      (s.txsQueue.insertLeaf (transactionCompare s.heap) (s.nextNode, p)).toList =
        l₁ ++ (s.nextNode, p) :: l₂ := OrderedSet.Tree.toList_insertLeaf s.txsQueue
  have hqueue : s.queue = l₁ ++ l₂ := hsplit
  rw [TxPool.insertVerified, insert_eq rot hk ht]
  simp only [if_true]
  generalize hs' : TxPool.mk _ _ _ _ _ _ _ _ _ _ _ = s'
  have hqueue' : s'.queue = l₁ ++ (s.nextNode, p) :: l₂ := by
    rw [← hs', queue, rot.toList_apply, hleaf]
  have hheap : s'.heap = update s.heap p ((s.heap p).setOriginalHash k) := by
    rw [← hs']
  refine ⟨h.insert hk hhash hqueue hqueue' ?_ ?_ ?_ ?_ ?_, ?_, ?_⟩
  · rw [← hs']
  · rw [← hs']
  · rw [← hs', Function.update_self]
    rfl
  · rw [hheap]
    exact update_field hash rfl
  · rw [hheap]
    exact update_field capacity rfl
  · intro e he
    have htime : ∀ p', (s'.heap p').importTime = (s.heap p').importTime := by
      rw [hheap]
      exact update_field importTime rfl
    rw [htime]
    rw [hqueue', mem_append, mem_cons, or_left_comm, ← mem_append] at he
    rcases he with rfl | he
    · exact Nat.le_refl _
    · exact ht e (hqueue ▸ he)
  · rw [hqueue', hqueue]
    simp only [length_append, length_cons]
    omega

/-- **Import.** The import time is not before those of the transactions of the queue. -/
theorem Indexed.importTx (h : Indexed s) (p : Ptr) {now : Nat} (ht : NotAfter now s) :
    Indexed (s.importTx cfg rot p now).2 ∧ NotAfter now (s.importTx cfg rot p now).2 ∧
    ((s.importTx cfg rot p now).1 = some .Success →
      (s.importTx cfg rot p now).2.queue.length ≤ cfg.limit) := by
  have h₁ := h.unmoved (unmoved_setImportTime s p now)
  have ht₁ := ht.setImportTime p
  have hnow : ((s.setImportTime p now).heap p).importTime = now := by
    show (update s.heap p ((s.heap p).setImportTime now) p).importTime = now
    rw [Function.update_self]
    rfl
  rw [TxPool.importTx]
  generalize s.setImportTime p now = s₁ at h₁ ht₁ hnow
  rw [importTimed]
  split_ifs with hmemory hfull
  · exact ⟨h₁, ht₁, by simp⟩
  · exact ⟨h₁, ht₁, by simp⟩
  split
  · exact ⟨h₁, ht₁, by simp⟩
  · rename_i k hk
    obtain ⟨⟨nonces, hverify⟩, hnew⟩ := verify_spec cfg s₁ (s₁.heap p) k .Ignore
    have h₂ : Indexed { s₁ with txpoolNonces := nonces } :=
      h₁.unmoved ⟨rfl, rfl, rfl, rfl, fun _ => rfl, fun _ => rfl⟩
    show Indexed (s₁.verifyAndInsert cfg rot p k).2 ∧
      NotAfter now (s₁.verifyAndInsert cfg rot p k).2 ∧
      (some (s₁.verifyAndInsert cfg rot p k).1 = some .Success →
        (s₁.verifyAndInsert cfg rot p k).2.queue.length ≤ cfg.limit)
    rw [verifyAndInsert]
    simp only [hverify]
    split_ifs with hsuccess
    · obtain ⟨h₃, ht₃, hlength⟩ := h₂.insertVerified rot (hnew hsuccess) hk
        (show NotAfter (s₁.heap p).importTime _ from hnow.symm ▸ ht₁)
      refine ⟨h₃, hnow ▸ ht₃, fun _ => ?_⟩
      rw [hlength]
      exact Nat.succ_le_of_lt (Nat.lt_of_not_le hfull)
    · exact ⟨h₂, ht₁, fun hsome => absurd (Option.some.inj hsome) hsuccess⟩

end calls

end TxPool

/-! ## Runs -/

/-- The import time a call sets. -/
def PoolEvent.time? : PoolEvent → Option Nat
  | .importTx _ now _ => some now
  | .submit _ now _ sealerOrObserver synced => if sealerOrObserver ∧ synced then some now else none
  | _ => none

section runs

variable {cfg : PoolConfig} {s : TxPool} {t : Nat}

/-- What a call does to a pool that is in order, if its import time, if any, is `now` and not before
those of the queue. -/
theorem TxPool.Indexed.step (cfg : PoolConfig) (h : s.Indexed) (ht : s.NotAfter t) {now : Nat}
    (hle : t ≤ now) (e : PoolEvent) (he : ∀ t', e.time? = some t' → t' = now) :
    ∃ s', poolStep cfg s e = some s' ∧ s'.Indexed ∧
      s'.NotAfter (if e.time?.isSome then now else t) := by
  have hunmoved : ∀ s', Unmoved s s' → s'.heap = s.heap → s'.Indexed ∧ s'.NotAfter t := by
    intro s' hs' hheap
    refine ⟨h.unmoved hs', fun x hx => ?_⟩
    rw [queue, hs'.txsQueue] at hx
    rw [hheap]
    exact ht x hx
  have hfewer : ∀ {o : Option TxPool}, (∃ s', o = some s' ∧ s.Fewer s') →
      ∃ s', o = some s' ∧ s'.Indexed ∧ s'.NotAfter t := by
    rintro _ ⟨s', rfl, hs'⟩
    exact ⟨s', rfl, hs'.indexed, hs'.notAfter ht⟩
  have ht' : s.NotAfter now := fun x hx => (ht x hx).trans hle
  cases e with
  | importTx p now' rot =>
    obtain rfl := he now' rfl
    obtain ⟨h', ht'', -⟩ := h.importTx cfg rot p ht'
    exact ⟨_, rfl, h', ht''⟩
  | submit p now' rot sealerOrObserver synced =>
    cases sealerOrObserver with
    | false => exact ⟨s, rfl, h, ht⟩
    | true =>
      cases synced with
      | false => exact ⟨s, rfl, h, ht⟩
      | true =>
        obtain rfl := he now' rfl
        obtain ⟨h', ht'', -⟩ := h.importTx cfg rot p ht'
        exact ⟨_, rfl, h', ht''⟩
  | drop k rot => exact hfewer (h.drop cfg rot k)
  | dropBlockTrans block rot => exact hfewer (h.dropBlockTrans rot block)
  | dropBlockTxsFilter block | topTransactions limit avoid updateAvoid
  | topTransactions4nl limit nodeSize nodeIdx avoid updateAvoid | commit nonces =>
    exact ⟨_, rfl, hunmoved _ ⟨rfl, rfl, rfl, rfl, fun _ => rfl, fun _ => rfl⟩ rfl⟩
  | removeInvalidTxs rot => exact hfewer (h.removeInvalidTxs rot)

/-- A new pool. -/
def TxPool.empty (heap : Ptr → Transaction) (chain : Chain) (txNonceCheck : TransactionNonceCheck) :
    TxPool := { heap, chain, txNonceCheck }

theorem TxPool.indexed_empty (heap : Ptr → Transaction) (chain : Chain)
    (check : TransactionNonceCheck) : (empty heap chain check).Indexed :=
  ⟨fun k it => by simp [empty, queue, OrderedSet.Tree.toList], nofun, nodup_nil,
    nofun, rfl⟩

/-- A run keeps the pool in order, and the last import time bounds those of the queue. -/
theorem TxPool.indexed_run {heap : Ptr → Transaction} {chain : Chain}
    {check : TransactionNonceCheck} {es : List PoolEvent}
    (hrun : Run (Steps (poolStep cfg)) (empty heap chain check) es s)
    (htimes : (es.filterMap time?).Pairwise (· ≤ ·)) :
    s.Indexed ∧ ∃ t, s.NotAfter t ∧ (t = 0 ∨ t ∈ es.filterMap time?) := by
  refine hrun.invariant (fun es s => (es.filterMap time?).Pairwise (· ≤ ·) →
    s.Indexed ∧ ∃ t, s.NotAfter t ∧ (t = 0 ∨ t ∈ es.filterMap time?)) ?_ ?_ htimes
  · exact fun _ => ⟨indexed_empty _ _ _, 0, nofun, .inl rfl⟩
  · intro es s e s' ih hstep htimes
    rw [filterMap_append, pairwise_append] at htimes
    obtain ⟨hbefore, -, hlast⟩ := htimes
    obtain ⟨h, t, ht, hmem⟩ := ih hbefore
    rw [filterMap_append]
    cases htime : e.time? with
    | none =>
      obtain ⟨s'', hs'', h', ht'⟩ := h.step cfg ht (Nat.le_refl t) e (by simp [htime])
      obtain rfl := Option.some.inj (hstep.symm.trans hs'')
      rw [htime] at ht'
      exact ⟨h', t, ht', hmem.imp_right fun hm => mem_append_left _ hm⟩
    | some now =>
      have hnow : now ∈ [e].filterMap time? := by simp [htime]
      have hle : t ≤ now := by
        rcases hmem with rfl | hm
        · exact Nat.zero_le now
        · exact hlast t hm now hnow
      obtain ⟨s'', hs'', h', ht'⟩ := h.step cfg ht hle e fun t' ht' =>
        Option.some.inj (ht'.symm.trans htime)
      obtain rfl := Option.some.inj (hstep.symm.trans hs'')
      rw [htime] at ht'
      exact ⟨h', now, ht', .inr (mem_append_right _ hnow)⟩

end runs

/-- **The representation of the pool.** After any calls whose import times do not decrease, with the
trees balanced in any way, the index has the hashes of the queue and leads to their transactions,
each of them is there once, the memory in use is their size, no iterator is followed that leads
nowhere, and an import that succeeds does not exceed the limit. -/
theorem pool_representation (cfg : PoolConfig) (heap : Ptr → Transaction) (chain : Chain)
    (check : TransactionNonceCheck) {es : List PoolEvent} {s : TxPool}
    (hrun : Run (Steps (poolStep cfg)) (empty heap chain check) es s)
    (htimes : (es.filterMap time?).Pairwise (· ≤ ·)) :
    (∀ k, k ∈ s.txsHash ↔ ∃ e ∈ s.queue, (s.heap e.2).hash = some k) ∧
    (s.queue.map Prod.snd).Nodup ∧ (s.queue.map fun e => (s.heap e.2).hash).Nodup ∧
    (∀ k it, s.txsHash.lookup k = some it →
      ∃ p, s.node? it = some (it, p) ∧ (s.heap p).hash = some k) ∧
    s.usedMemorySize = (s.queue.map fun e => (s.heap e.2).capacity).sum ∧
    (∀ e : PoolEvent, (∀ t ∈ es.filterMap time?, ∀ now ∈ e.time?, t ≤ now) →
      (poolStep cfg s e).isSome) ∧
    ∀ p now rot, (∀ t ∈ es.filterMap time?, t ≤ now) →
      (s.importTx cfg rot p now).1 = some .Success →
      (s.importTx cfg rot p now).2.queue.length ≤ cfg.limit := by
  obtain ⟨h, t, ht, hmem⟩ := indexed_run hrun htimes
  have hbound : ∀ now, (∀ t ∈ es.filterMap time?, t ≤ now) → t ≤ now := by
    intro now hall
    rcases hmem with rfl | hm
    · exact Nat.zero_le now
    · exact hall t hm
  have hhashes : (s.queue.map fun e => (s.heap e.2).hash).Nodup := by
    refine List.Nodup.map_on (fun e he e' he' heq => ?_) h.nodup.of_map
    obtain ⟨k, hk⟩ := h.hashed e he
    have hit := (h.index k e.1).mpr ⟨e.2, he, hk⟩
    have hit' := (h.index k e'.1).mpr ⟨e'.2, he', heq ▸ hk⟩
    exact inj_on_of_nodup_map h.nodup he he' (Option.some.inj (hit.symm.trans hit'))
  refine ⟨fun k => h.mem_txsHash, ?_, hhashes, fun k it hk => ?_, h.memory, fun e he => ?_,
    fun p now rot hnow => ?_⟩
  · have hcomp : (s.queue.map fun e => (s.heap e.2).hash)
        = (s.queue.map Prod.snd).map fun p => (s.heap p).hash := by
      rw [map_map]
      rfl
    exact List.Nodup.of_map _ (hcomp ▸ hhashes)
  · obtain ⟨p, hnode, -, hhash⟩ := h.node? hk
    exact ⟨p, hnode, hhash⟩
  · cases htime : e.time? with
    | none =>
      obtain ⟨s', hs', -⟩ := h.step cfg ht (Nat.le_refl t) e (by simp [htime])
      exact Option.isSome_iff_exists.mpr ⟨s', hs'⟩
    | some now =>
      obtain ⟨s', hs', -⟩ := h.step cfg ht
        (hbound now fun t' ht' => he t' ht' now (by simp [htime])) e
        fun t' ht' => Option.some.inj (ht'.symm.trans htime)
      exact Option.isSome_iff_exists.mpr ⟨s', hs'⟩
  · exact (h.importTx cfg rot p fun x hx => (ht x hx).trans (hbound now hnow)).2.2

/-- Transactions with numbers as their hashes and sizes. -/
def numbered (p : Ptr) : Transaction := { hash := some (p + 100), nonce := p, dataSize := p }

def keepShape : Rotations (Iterator × Ptr) := ⟨id, fun _ => rfl⟩

/-- Transactions of one import time, one that is imported again, and removals. -/
def poolCalls : List PoolEvent :=
  [.importTx 3 10 keepShape, .importTx 1 10 keepShape, .importTx 3 12 keepShape,
    .submit 2 12 keepShape true true, .topTransactions 5 ∅ true, .dropBlockTrans [1] keepShape,
    .removeInvalidTxs keepShape, .importTx 4 12 keepShape, .drop 104 keepShape]

theorem poolCalls_representation : ∃ s, Run (Steps (poolStep {})) (empty numbered [] {})
      poolCalls s ∧ s.queue.map Prod.snd = [2, 3] ∧
    (∀ k, k ∈ s.txsHash ↔ ∃ e ∈ s.queue, (s.heap e.2).hash = some k) ∧
    s.usedMemorySize = (s.queue.map fun e => (s.heap e.2).capacity).sum := by
  refine exists_run_of_exec (p := fun s => s.queue.map Prod.snd = [2, 3]) (by decide +kernel)
    fun s hs hqueue => ?_
  have h := pool_representation {} numbered [] {} hs (by decide)
  exact ⟨hqueue, h.1, h.2.2.2.2.1⟩

end Rcc.Pool
