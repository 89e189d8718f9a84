import Mathlib.Data.List.AList
import Mathlib.Tactic
import Rcc.Lib.Run

/-!
# Rcc.Pool.NonceCheck

The nonces of the last blocks: `CommonTransactionNonceCheck` and `TransactionNonceCheck`.

`updateCache` moves a window of `m_maxBlockLimit` blocks up to the head of the chain. It erases the
nonces of the blocks that leave the window and inserts those of the blocks that come in. A nonce of
a leaving block is erased even if a block that stays has it too, so the window is exact if and only
if this does not happen (`Expirable`, `nonce_window_exact`).
-/

namespace Rcc.Pool

open List

abbrev NonceKeyType := Nat

/-! ## The chain -/

/-- The nonces of the blocks after the genesis block, which `checkAndBuildGenesisBlock` builds
without transactions. -/
abbrev Chain := List (List NonceKeyType)

namespace Chain

variable (chain : Chain)

def number : Nat := chain.length

/-- The nonces of the transactions of a block: `getBlockByNumber` and `getAllNonces`. -/
def getBlockNonces (blockNumber : Nat) : Option (List NonceKeyType) := ([] :: chain)[blockNumber]?

/-- What the table of nonces has for a block. -/
def getNonces (blockNumber : Nat) : Option (List NonceKeyType) :=
  if chain.number < blockNumber then none else some ((chain.getBlockNonces blockNumber).getD [])

/-- The nonces of a block. -/
def nonces (i : Nat) : List NonceKeyType := (chain.getBlockNonces i).getD []

/-- The nonces of the blocks from `a` to `b`. -/
def noncesIn (a b : Nat) : Finset NonceKeyType :=
  (Finset.Icc a b).biUnion fun i => (chain.nonces i).toFinset

variable {chain} {i : Nat}

theorem mem_noncesIn {a b : Nat} {n : NonceKeyType} :
    n ∈ chain.noncesIn a b ↔ ∃ i, a ≤ i ∧ i ≤ b ∧ n ∈ chain.nonces i := by
  simp [noncesIn, and_assoc]

theorem nonces_zero : chain.nonces 0 = [] := rfl

theorem getBlockNonces_eq (hi : i ≤ chain.number) :
    chain.getBlockNonces i = some (chain.nonces i) := by
  have hlt : i < (([] : List NonceKeyType) :: chain).length := Nat.lt_succ_of_le hi
  simp only [nonces, getBlockNonces, List.getElem?_eq_getElem hlt, Option.getD_some]

theorem getNonces_eq (hi : i ≤ chain.number) :
    chain.getNonces i = some (chain.nonces i) := if_neg (by omega)

/-- A block stays as it is when the chain grows. -/
theorem nonces_append (hi : i ≤ chain.number) (block : List NonceKeyType) :
    nonces (chain ++ [block]) i = chain.nonces i := by
  have hlt : i < (([] : List NonceKeyType) :: chain).length := Nat.lt_succ_of_le hi
  rw [nonces, getBlockNonces, ← cons_append, List.getElem?_append_left hlt]
  rfl

end Chain

/-! ## CommonTransactionNonceCheck -/

/-- `isNonceOk`: whether the nonce is new, and the cache afterwards. -/
def isNonceOk (cache : Finset NonceKeyType) (nonce : NonceKeyType) (needInsert : Bool) :
    Bool × Finset NonceKeyType :=
  if nonce ∈ cache then (false, cache)
  else (true, if needInsert then insert nonce cache else cache)

/-- `delCache` for the transactions of a block. -/
def delCache (cache : Finset NonceKeyType) (nonces : List NonceKeyType) : Finset NonceKeyType :=
  (nonces.filter (· ∈ cache)).foldl Finset.erase cache

/-! ## TransactionNonceCheck -/

structure TransactionNonceCheck where
  cache : Finset NonceKeyType := ∅
  /-- A block that was not found has a null pointer. -/
  blockNonceCache : AList fun _ : Nat => Option (List NonceKeyType) := ∅
  startblk : Nat := 0
  endblk : Nat := 0
  maxBlockLimit : Nat := 1000
  blockNumber : Nat := 0

namespace TransactionNonceCheck

/-- The check against the block limit has been commented out. -/
def isBlockLimitOk (_c : TransactionNonceCheck) (_blockLimit : Nat) : Bool := true

section
variable (chain : Chain) (c : TransactionNonceCheck)

def getNonceAndUpdateCache (blockNumber : Nat) (update : Bool) :
    Option (List NonceKeyType) × TransactionNonceCheck :=
  let nonceVec :=
    match c.blockNonceCache.lookup blockNumber with
    | some nonceVec => nonceVec
    | none =>
      if chain.number = blockNumber then chain.getBlockNonces blockNumber
      else chain.getNonces blockNumber
  (nonceVec, if update ∧ c.blockNonceCache.keys.length < c.maxBlockLimit then
      { c with blockNonceCache := c.blockNonceCache.insert blockNumber nonceVec }
    else c)

/-- The nonces of a block that leaves the window. -/
def eraseBlock (i : Nat) : TransactionNonceCheck :=
  let (nonceVec, c) := c.getNonceAndUpdateCache chain i false
  { c with
    cache := (nonceVec.getD []).foldl Finset.erase c.cache
    blockNonceCache := c.blockNonceCache.erase i }

/-- The nonces of a new block. -/
def insertBlock (i : Nat) : TransactionNonceCheck :=
  let (nonceVec, c) := c.getNonceAndUpdateCache chain i true
  { c with cache := (nonceVec.getD []).foldl (fun cache nonce => insert nonce cache) c.cache }

/-- The window of a head. -/
def moveWindow : TransactionNonceCheck :=
  let lastnumber := chain.number
  { c with
    blockNumber := lastnumber
    endblk := lastnumber
    startblk := if lastnumber > c.maxBlockLimit then lastnumber - c.maxBlockLimit else 0 }

/-- The first half of `updateCache`: what leaves the cache. -/
def expire (rebuild : Bool) : TransactionNonceCheck :=
  let prestartblk := c.startblk
  let c := c.moveWindow chain
  if rebuild then { c with cache := ∅ }
  else (List.range' prestartblk (c.startblk - prestartblk)).foldl (eraseBlock chain) c

def updateCache (rebuild : Bool) : TransactionNonceCheck :=
  let preendblk := if rebuild then 0 else c.endblk
  let c := c.expire chain rebuild
  let start := max (preendblk + 1) c.startblk
  (List.range' start (c.endblk + 1 - start)).foldl (insertBlock chain) c

/-- The constructor, with `setBlockLimit`. -/
def init (maxBlockLimit : Nat) : TransactionNonceCheck := updateCache chain { maxBlockLimit } true

end

/-! ## The window -/

section spec
variable {chain : Chain} {c c' : TransactionNonceCheck} {i : Nat}

/-- The nonces kept for single blocks are those of the chain. -/
def Sound (chain : Chain) (c : TransactionNonceCheck) : Prop :=
  ∀ i nonceVec, c.blockNonceCache.lookup i = some nonceVec →
    i ≤ chain.number ∧ nonceVec = some (chain.nonces i)

/-- The same window, with the same nonces for single blocks or fewer. -/
structure SameWindow (c c' : TransactionNonceCheck) : Prop where
  startblk : c'.startblk = c.startblk
  endblk : c'.endblk = c.endblk
  maxBlockLimit : c'.maxBlockLimit = c.maxBlockLimit

theorem SameWindow.trans {c'' : TransactionNonceCheck} (h : SameWindow c c')
    (h' : SameWindow c' c'') : SameWindow c c'' :=
  ⟨h'.startblk.trans h.startblk, h'.endblk.trans h.endblk, h'.maxBlockLimit.trans h.maxBlockLimit⟩

theorem getNonceAndUpdateCache_spec (hs : Sound chain c) (hi : i ≤ chain.number) (update : Bool) :
    (c.getNonceAndUpdateCache chain i update).1 = some (chain.nonces i) ∧
    Sound chain (c.getNonceAndUpdateCache chain i update).2 ∧
    (c.getNonceAndUpdateCache chain i update).2.cache = c.cache ∧
    SameWindow c (c.getNonceAndUpdateCache chain i update).2 := by
  have hvec : (c.getNonceAndUpdateCache chain i update).1 = some (chain.nonces i) := by
    show (match c.blockNonceCache.lookup i with
      | some nonceVec => nonceVec
      | none => if chain.number = i then chain.getBlockNonces i else chain.getNonces i) = _
    cases hlookup : c.blockNonceCache.lookup i with
    | some nonceVec => exact (hs i nonceVec hlookup).2
    | none =>
      simp only
      split
      · exact Chain.getBlockNonces_eq hi
      · exact Chain.getNonces_eq hi
  refine ⟨hvec, ?_⟩
  by_cases hupdate : update ∧ c.blockNonceCache.keys.length < c.maxBlockLimit
  · have hc : (c.getNonceAndUpdateCache chain i update).2
        = { c with blockNonceCache := c.blockNonceCache.insert i (some (chain.nonces i)) } := by
      rw [← hvec]
      exact if_pos hupdate
    rw [hc]
    refine ⟨fun j nonceVec hj => ?_, rfl, rfl, rfl, rfl⟩
    by_cases hji : j = i
    · subst hji
      rw [AList.lookup_insert] at hj
      exact ⟨hi, (Option.some.inj hj).symm⟩
    · rw [AList.lookup_insert_ne hji] at hj
      exact hs j nonceVec hj
  · have hc : (c.getNonceAndUpdateCache chain i update).2 = c := if_neg hupdate
    rw [hc]
    exact ⟨hs, rfl, rfl, rfl, rfl⟩

theorem mem_foldl_erase {nonces : List NonceKeyType} {cache : Finset NonceKeyType}
    {n : NonceKeyType} : n ∈ nonces.foldl Finset.erase cache ↔ n ∈ cache ∧ n ∉ nonces := by
  induction nonces generalizing cache with
  | nil => simp
  | cons nonce nonces ih => simp [ih, and_assoc, and_left_comm]

theorem mem_foldl_insert {nonces : List NonceKeyType} {cache : Finset NonceKeyType}
    {n : NonceKeyType} :
    n ∈ nonces.foldl (fun cache nonce => insert nonce cache) cache ↔
      n ∈ cache ∨ n ∈ nonces := by
  induction nonces generalizing cache with
  | nil => simp
  | cons nonce nonces ih => simp [ih, or_assoc, or_left_comm]

theorem eraseBlock_spec (hs : Sound chain c) (hi : i ≤ chain.number) :
    (∀ n, n ∈ (c.eraseBlock chain i).cache ↔ n ∈ c.cache ∧ n ∉ chain.nonces i) ∧
    Sound chain (c.eraseBlock chain i) ∧ SameWindow c (c.eraseBlock chain i) := by
  obtain ⟨hvec, hsound, hcache, hwindow⟩ := getNonceAndUpdateCache_spec hs hi false
  refine ⟨fun n => ?_, fun j nonceVec hj => ?_, hwindow.startblk, hwindow.endblk,
    hwindow.maxBlockLimit⟩
  · show n ∈ ((c.getNonceAndUpdateCache chain i false).1.getD []).foldl Finset.erase
      (c.getNonceAndUpdateCache chain i false).2.cache ↔ _
    rw [hvec, hcache, Option.getD_some, mem_foldl_erase]
  · have hj' : AList.lookup j
        ((c.getNonceAndUpdateCache chain i false).2.blockNonceCache.erase i) = some nonceVec := hj
    by_cases hji : j = i
    · subst hji
      rw [AList.lookup_erase] at hj'
      cases hj'
    · rw [AList.lookup_erase_ne hji] at hj'
      exact hsound j nonceVec hj'

theorem insertBlock_spec (hs : Sound chain c) (hi : i ≤ chain.number) :
    (∀ n, n ∈ (c.insertBlock chain i).cache ↔ n ∈ c.cache ∨ n ∈ chain.nonces i) ∧
    Sound chain (c.insertBlock chain i) ∧ SameWindow c (c.insertBlock chain i) := by
  obtain ⟨hvec, hsound, hcache, hwindow⟩ := getNonceAndUpdateCache_spec hs hi true
  refine ⟨fun n => ?_, hsound, hwindow.startblk, hwindow.endblk, hwindow.maxBlockLimit⟩
  show n ∈ ((c.getNonceAndUpdateCache chain i true).1.getD []).foldl
    (fun cache nonce => insert nonce cache) (c.getNonceAndUpdateCache chain i true).2.cache ↔ _
  rw [hvec, hcache, Option.getD_some, mem_foldl_insert]

theorem eraseBlocks_spec (hs : Sound chain c) {is : List Nat} (his : ∀ i ∈ is, i ≤ chain.number) :
    (∀ n, n ∈ (is.foldl (eraseBlock chain) c).cache ↔ n ∈ c.cache ∧ ∀ i ∈ is, n ∉ chain.nonces i) ∧
    Sound chain (is.foldl (eraseBlock chain) c) ∧
    SameWindow c (is.foldl (eraseBlock chain) c) := by
  induction is generalizing c with
  | nil => exact ⟨by simp, hs, rfl, rfl, rfl⟩
  | cons i is ih =>
    obtain ⟨hmem, hsound, hwindow⟩ := eraseBlock_spec hs (his i (by simp))
    obtain ⟨hmem', hsound', hwindow'⟩ := ih hsound fun j hj => his j (by simp [hj])
    refine ⟨fun n => ?_, hsound', hwindow.trans hwindow'⟩
    rw [foldl_cons, hmem' n, hmem n, forall_mem_cons, and_assoc]

theorem insertBlocks_spec (hs : Sound chain c) {is : List Nat} (his : ∀ i ∈ is, i ≤ chain.number) :
    (∀ n, n ∈ (is.foldl (insertBlock chain) c).cache ↔ n ∈ c.cache ∨ ∃ i ∈ is, n ∈ chain.nonces i) ∧
    Sound chain (is.foldl (insertBlock chain) c) ∧
    SameWindow c (is.foldl (insertBlock chain) c) := by
  induction is generalizing c with
  | nil => exact ⟨by simp, hs, rfl, rfl, rfl⟩
  | cons i is ih =>
    obtain ⟨hmem, hsound, hwindow⟩ := insertBlock_spec hs (his i (by simp))
    obtain ⟨hmem', hsound', hwindow'⟩ := ih hsound fun j hj => his j (by simp [hj])
    refine ⟨fun n => ?_, hsound', hwindow.trans hwindow'⟩
    rw [foldl_cons, hmem' n, hmem n, exists_mem_cons_iff, or_assoc]

theorem moveWindow_startblk : (c.moveWindow chain).startblk = chain.number - c.maxBlockLimit := by
  show (if chain.number > c.maxBlockLimit then chain.number - c.maxBlockLimit else 0) = _
  split <;> omega

theorem expire_spec (hs : Sound chain c) (rebuild : Bool) :
    (∀ n, n ∈ (c.expire chain rebuild).cache ↔ rebuild = false ∧ n ∈ c.cache ∧
      ∀ i, c.startblk ≤ i → i < chain.number - c.maxBlockLimit → n ∉ chain.nonces i) ∧
    Sound chain (c.expire chain rebuild) ∧
    SameWindow (c.moveWindow chain) (c.expire chain rebuild) := by
  have hsound : Sound chain (c.moveWindow chain) := hs
  cases rebuild with
  | true => exact ⟨fun n => by simp [expire], hsound, rfl, rfl, rfl⟩
  | false =>
    have his : ∀ i, i ∈ List.range' c.startblk ((c.moveWindow chain).startblk - c.startblk) ↔
        c.startblk ≤ i ∧ i < chain.number - c.maxBlockLimit := by
      intro i
      rw [moveWindow_startblk, mem_range'_1]
      omega
    have hle : ∀ i, c.startblk ≤ i ∧ i < chain.number - c.maxBlockLimit → i ≤ chain.number :=
      fun i hi => hi.2.le.trans (Nat.sub_le _ _)
    obtain ⟨hmem, hsound', hwindow⟩ := eraseBlocks_spec hsound fun i hi => hle i ((his i).mp hi)
    refine ⟨fun n => (hmem n).trans ?_, hsound', hwindow⟩
    simp only [his, and_imp, true_and]
    rfl

theorem updateCache_spec (hs : Sound chain c) (rebuild : Bool) :
    (∀ n, n ∈ (c.updateCache chain rebuild).cache ↔ (rebuild = false ∧ n ∈ c.cache ∧
        ∀ i, c.startblk ≤ i → i < chain.number - c.maxBlockLimit → n ∉ chain.nonces i) ∨
      ∃ i, (if rebuild then 0 else c.endblk) < i ∧ chain.number - c.maxBlockLimit ≤ i ∧
        i ≤ chain.number ∧ n ∈ chain.nonces i) ∧
    Sound chain (c.updateCache chain rebuild) ∧
    SameWindow (c.moveWindow chain) (c.updateCache chain rebuild) := by
  obtain ⟨hmem, hsound, hwindow⟩ := expire_spec hs rebuild
  have hstart := hwindow.startblk.trans moveWindow_startblk
  have hend : (c.expire chain rebuild).endblk = chain.number := hwindow.endblk
  have his : ∀ i, i ∈ List.range' (max ((if rebuild then 0 else c.endblk) + 1)
      (c.expire chain rebuild).startblk) ((c.expire chain rebuild).endblk + 1 -
        max ((if rebuild then 0 else c.endblk) + 1) (c.expire chain rebuild).startblk) ↔
      (if rebuild then 0 else c.endblk) < i ∧ chain.number - c.maxBlockLimit ≤ i ∧
        i ≤ chain.number := by
    intro i
    rw [mem_range'_1, hend]
    omega
  obtain ⟨hmem', hsound', hwindow'⟩ := insertBlocks_spec hsound fun i hi => ((his i).mp hi).2.2
  refine ⟨fun n => (hmem' n).trans ?_, hsound', hwindow.trans hwindow'⟩
  simp only [hmem n, his, and_assoc]

end spec

theorem cache_rebuild {chain : Chain} {c : TransactionNonceCheck} (hs : Sound chain c) :
    (c.updateCache chain true).cache
      = chain.noncesIn (chain.number - c.maxBlockLimit) chain.number := by
  ext n
  rw [(updateCache_spec hs true).1, Chain.mem_noncesIn]
  constructor
  · rintro (⟨hfalse, -⟩ | ⟨i, -, hi⟩)
    · cases hfalse
    · exact ⟨i, hi⟩
  · rintro ⟨i, hi⟩
    refine .inr ⟨i, ?_, hi⟩
    rcases Nat.eq_zero_or_pos i with rfl | hpos
    · -- the genesis block has no nonces
      simp [Chain.nonces_zero] at hi
    · exact hpos

end TransactionNonceCheck

/-! ## Runs -/

/-- The chain and the checker. -/
structure NonceState where
  chain : Chain
  checker : TransactionNonceCheck

inductive NonceEvent
  /-- A block has been committed. -/
  | commit (nonces : List NonceKeyType)
  /-- `updateCache(false)` -/
  | update

def NonceState.init (chain : Chain) (maxBlockLimit : Nat) : NonceState :=
  ⟨chain, TransactionNonceCheck.init chain maxBlockLimit⟩

def nonceStep (s : NonceState) : NonceEvent → Option NonceState
  | .commit nonces => some { s with chain := s.chain ++ [nonces] }
  | .update => some { s with checker := s.checker.updateCache s.chain false }

namespace NonceState

variable {s : NonceState} {limit : Nat}

/-- The cache has the nonces of the window of the last update. -/
structure Exact (limit : Nat) (s : NonceState) : Prop where
  maxBlockLimit : s.checker.maxBlockLimit = limit
  sound : s.checker.Sound s.chain
  endblk : s.checker.endblk ≤ s.chain.number
  startblk : s.checker.startblk = s.checker.endblk - limit
  cache : s.checker.cache = s.chain.noncesIn s.checker.startblk s.checker.endblk

/-- No nonce of a block that an update takes out of the window is also in a block that stays,
unless a block that comes in has it as well. -/
def Expirable (s : NonceState) : Prop :=
  ∀ i ∈ Finset.Ico s.checker.startblk (s.chain.number - s.checker.maxBlockLimit),
  ∀ j ∈ Finset.Icc (s.chain.number - s.checker.maxBlockLimit) s.checker.endblk,
  ∀ n ∈ s.chain.nonces i, n ∈ s.chain.nonces j →
    n ∈ s.chain.noncesIn (s.checker.endblk + 1) s.chain.number

instance (s : NonceState) : Decidable s.Expirable := by
  unfold Expirable
  infer_instance

/-- **An update is exact if and only if no nonce is erased that should stay.** -/
theorem Exact.cache_update (h : Exact limit s) :
    (s.checker.updateCache s.chain false).cache
        = s.chain.noncesIn (s.chain.number - limit) s.chain.number ↔ s.Expirable := by
  obtain ⟨rfl, hsound, hend, hstart, hcache⟩ := h
  have hmem := (TransactionNonceCheck.updateCache_spec hsound false).1
  constructor
  · intro heq i hi j hj n hni hnj
    obtain ⟨hstarti, hi⟩ := Finset.mem_Ico.mp hi
    obtain ⟨hstay, hj⟩ := Finset.mem_Icc.mp hj
    have hn : n ∈ (s.checker.updateCache s.chain false).cache := by
      rw [heq, Chain.mem_noncesIn]
      exact ⟨j, hstay, hj.trans hend, hnj⟩
    rcases (hmem n).mp hn with ⟨-, -, hout⟩ | ⟨k, hk, -, hle, hnk⟩
    · exact absurd hni (hout i hstarti hi)
    · exact Chain.mem_noncesIn.mpr ⟨k, hk, hle, hnk⟩
  · intro hcond
    ext n
    rw [hmem, hcache, Chain.mem_noncesIn, Chain.mem_noncesIn]
    constructor
    · rintro (⟨-, ⟨i, hi, hie, hni⟩, hout⟩ | ⟨i, -, hi, hie, hni⟩)
      · refine ⟨i, ?_, hie.trans hend, hni⟩
        by_contra hlt
        exact hout i hi (by omega) hni
      · exact ⟨i, hi, hie, hni⟩
    · rintro ⟨j, hj, hjn, hnj⟩
      rcases Nat.lt_or_ge s.checker.endblk j with hnew | hold
      · exact .inr ⟨j, hnew, hj, hjn, hnj⟩
      by_cases hout : ∃ i, s.checker.startblk ≤ i ∧
          i < s.chain.number - s.checker.maxBlockLimit ∧ n ∈ s.chain.nonces i
      · -- erased, but inserted again
        obtain ⟨i, hi, hlt, hni⟩ := hout
        obtain ⟨k, hek, hk, hnk⟩ := Chain.mem_noncesIn.mp (hcond i (Finset.mem_Ico.mpr ⟨hi, hlt⟩) j
          (Finset.mem_Icc.mpr ⟨hj, hold⟩) n hni hnj)
        exact .inr ⟨k, hek, by omega, hk, hnk⟩
      · refine .inl ⟨rfl, ⟨j, by omega, hold, hnj⟩, fun i hi hlt hni => ?_⟩
        exact hout ⟨i, hi, hlt, hni⟩

theorem exact_updateCache {chain : Chain} {c : TransactionNonceCheck} (hs : c.Sound chain)
    {rebuild : Bool} (hcache : (c.updateCache chain rebuild).cache
      = chain.noncesIn (chain.number - c.maxBlockLimit) chain.number) :
    Exact c.maxBlockLimit ⟨chain, c.updateCache chain rebuild⟩ := by
  obtain ⟨-, hsound, hwindow⟩ := TransactionNonceCheck.updateCache_spec hs rebuild
  have hend : (c.updateCache chain rebuild).endblk = chain.number := hwindow.endblk
  have hstart := hwindow.startblk.trans TransactionNonceCheck.moveWindow_startblk
  refine ⟨hwindow.maxBlockLimit, hsound, hend.le, ?_, ?_⟩
  · simp only [hstart, hend]
  · simp only [hstart, hend, hcache]

theorem exact_init (chain : Chain) (limit : Nat) : Exact limit (init chain limit) := by
  have hs : TransactionNonceCheck.Sound chain { maxBlockLimit := limit } := fun i v h => by
    simp at h
  exact exact_updateCache hs (TransactionNonceCheck.cache_rebuild hs)

theorem Exact.commit (h : Exact limit s) (nonces : List NonceKeyType) :
    Exact limit { s with chain := s.chain ++ [nonces] } := by
  have hnumber : Chain.number (s.chain ++ [nonces]) = s.chain.number + 1 := by simp [Chain.number]
  refine ⟨h.maxBlockLimit, fun i v hi => ?_, ?_, h.startblk, ?_⟩
  · obtain ⟨hle, hv⟩ := h.sound i v hi
    exact ⟨by rw [hnumber]; omega, by rw [hv, Chain.nonces_append hle]⟩
  · rw [hnumber]
    exact h.endblk.trans (Nat.le_succ _)
  · refine h.cache.trans ?_
    ext n
    simp only [Chain.mem_noncesIn]
    refine exists_congr fun i => and_congr_right fun _ => and_congr_right fun hi => ?_
    rw [Chain.nonces_append (hi.trans h.endblk)]

theorem Exact.update (h : Exact limit s) (hcond : s.Expirable) :
    Exact limit { s with checker := s.checker.updateCache s.chain false } := by
  have hcache := h.cache_update.mpr hcond
  obtain ⟨rfl, hsound, -⟩ := h
  exact exact_updateCache hsound hcache

end NonceState

/-- Each update takes only such nonces out of the cache that no block of the window has. -/
def NonceOnce (s : NonceState) : NonceEvent → Prop
  | .commit _ => True
  | .update => s.Expirable

instance : ∀ s e, Decidable (NonceOnce s e)
  | _, .commit _ => .isTrue trivial
  | s, .update => inferInstanceAs (Decidable s.Expirable)

/-- **The cache is the window.** After updates at any heights that each erase no nonce of a block
that stays, the next one makes the cache the set of the nonces of the last blocks, as a rebuild
would, if and only if it does not either. -/
theorem nonce_window_exact (chain : Chain) (maxBlockLimit : Nat) {es : List NonceEvent}
    {s : NonceState}
    (hrun : Run (Guarded NonceOnce (Steps nonceStep)) (.init chain maxBlockLimit) es s) :
    s.checker.cache = s.chain.noncesIn (s.checker.endblk - maxBlockLimit) s.checker.endblk ∧
    (s.checker.updateCache s.chain true).cache
      = s.chain.noncesIn (s.chain.number - maxBlockLimit) s.chain.number ∧
    ((s.checker.updateCache s.chain false).cache
      = s.chain.noncesIn (s.chain.number - maxBlockLimit) s.chain.number ↔ s.Expirable) := by
  have h : s.Exact maxBlockLimit := by
    refine hrun.invariant (fun _ s => s.Exact maxBlockLimit) (NonceState.exact_init _ _) ?_
    rintro _ s e s' h ⟨hcond, hstep⟩
    cases e with
    | commit nonces =>
      cases hstep
      exact h.commit nonces
    | update =>
      cases hstep
      exact h.update hcond
  refine ⟨h.startblk ▸ h.cache, ?_, h.cache_update⟩
  rw [TransactionNonceCheck.cache_rebuild h.sound, h.maxBlockLimit]

/-- A nonce comes back in the block in which its first use leaves the window, and updates are left
out. -/
theorem nonce_window_returning : ∃ s : NonceState,
    Run (Guarded NonceOnce (Steps nonceStep)) (.init [[1], [2, 3]] 2)
      [.commit [4], .update, .commit [1, 5], .commit [], .commit [6], .update] s ∧
    s.chain.number = 6 ∧ s.Expirable ∧
    s.checker.cache = s.chain.noncesIn (s.checker.endblk - 2) s.checker.endblk := by
  refine exists_guardedRun_of_exec (p := fun s => s.chain.number = 6 ∧ s.Expirable)
    (by decide +kernel) fun s hrun h => ?_
  exact ⟨h.1, h.2, (nonce_window_exact [[1], [2, 3]] 2 hrun).1⟩

/-- Two blocks of the window have one nonce, and it is lost when the first one leaves. -/
theorem nonce_window_loses : ∃ s : NonceState,
    Run (Steps nonceStep) (.init [] 2) [.commit [7], .update, .commit [7], .update, .commit [],
      .update, .commit [], .update] s ∧
    7 ∈ s.chain.noncesIn (s.chain.number - 2) s.chain.number ∧
    7 ∈ (s.checker.updateCache s.chain true).cache ∧ 7 ∉ s.checker.cache := by
  exact exists_run_of_exec (by decide +kernel) fun _ _ h => h

end Rcc.Pool
