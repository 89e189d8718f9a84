import Rcc.Block.Caches

/-!
# Rcc.Sync.DownloadingBlockQueue

The queue of downloaded blocks, `DownloadingBlockQueue`. Received packets wait in a buffer as they
came; `flushBufferToQueue` decodes them into a priority queue of blocks.

`m_blockQueueSize` is to be the memory that the queued blocks take. `flushOneShard` and `pop` keep
it, but `clearQueue` drops the blocks and leaves it as it is (`queue_accounting`). It is what
`adjustMaxRequestBlocks` computes the free memory from.
-/

namespace Rcc.Sync

open List

open Rcc.Block (FullBlock BlockEnv laissezFaire)

/-- `c_maxRequestBlocks` -/
abbrev maxRequestBlocksLimit : Int := 32

/-- `c_maxRequestShards` -/
abbrev maxRequestShards : Nat := 4

/-- `c_maxDownloadingBlockQueueSize` -/
abbrev maxDownloadingBlockQueueSize : Nat := 256

/-- `c_maxDownloadingBlockQueueBufferSize` -/
abbrev maxDownloadingBlockQueueBufferSize : Nat := 256

/-- `m_blockSizeExpandCoeff` -/
abbrev blockSizeExpandCoeff : Int := 3

/-- A block with the size of the bytes it was decoded from. -/
structure QueuedBlock (Tx : Type) where
  block : FullBlock Tx
  blockSize : Nat

namespace QueuedBlock

variable {Tx : Type} (b : QueuedBlock Tx)

def number : Int := b.block.header.fields.number

/-- What a block adds to `m_blockQueueSize`. -/
def memory : Int := b.blockSize * blockSizeExpandCoeff

end QueuedBlock

structure DownloadingBlockQueue (Tx : Type) where
  /-- The elements of the priority queue. -/
  blocks : List (QueuedBlock Tx) := []
  buffer : List (List UInt8) := []
  maxBlockQueueSize : Int := 512 * 1024 * 1024
  blockQueueSize : Int := 0
  maxRequestBlocks : Int := 8
  averageBlockSize : Int := 0
  averageCalCount : Int := 0

namespace DownloadingBlockQueue

variable {Tx : Type} (env : BlockEnv Tx) (s : DownloadingBlockQueue Tx)

def push (rlps : List UInt8) : DownloadingBlockQueue Tx :=
  if s.buffer.length ≥ maxDownloadingBlockQueueBufferSize then s
  else { s with buffer := s.buffer ++ [rlps] }

/-- The number of shards is a `size_t`, so the division is one of unsigned numbers. -/
def adjustMaxRequestBlocks : DownloadingBlockQueue Tx :=
  if s.averageBlockSize = 0 then s
  else
    let freeQueueSize := s.maxBlockQueueSize - s.blockQueueSize
    let quotient := freeQueueSize % 2 ^ 64 / (s.averageBlockSize * maxRequestShards % 2 ^ 64)
    let maxRequestBlocks := Int.bmod quotient (2 ^ 64)
    { s with maxRequestBlocks :=
        if maxRequestBlocks > maxRequestBlocksLimit then maxRequestBlocksLimit
        else max 1 maxRequestBlocks }

variable (b : QueuedBlock Tx)

/-- The heap may have any of the blocks with the least number on top. -/
def IsTop : Prop := ∀ x ∈ s.blocks, b.number ≤ x.number

instance : Decidable (s.IsTop b) := List.decidableBAll _ _

/-- `pop`, where the block at index `i` is on top. -/
def pop (i : Nat) : Option (DownloadingBlockQueue Tx) :=
  if s.blocks.isEmpty then some { s with maxRequestBlocks := maxRequestBlocksLimit }
  else
    match s.blocks[i]? with
    | none => none
    | some b =>
      if s.IsTop b then
        some { s with
          blockQueueSize := s.blockQueueSize - b.memory
          blocks := s.blocks.eraseIdx i }
      else none

def clearQueue : DownloadingBlockQueue Tx := { s with blocks := [] }

def clear : DownloadingBlockQueue Tx := { s with buffer := [] }.clearQueue

variable (blockNumber : Int)

/-- The queue is full and its top is behind the number. -/
def NeedClear : Prop :=
  s.blocks.length = maxDownloadingBlockQueueSize ∧ ∀ b ∈ s.blocks, blockNumber < b.number

instance : Decidable (s.NeedClear blockNumber) := instDecidableAnd

def clearFullQueueIfNotHas : DownloadingBlockQueue Tx :=
  if s.NeedClear blockNumber then s.clearQueue else s

/-! ### Flushing -/

/-- `Block(rlps[i].toBytes(), CheckTransaction::Everything, false)`; `none` is an exception. -/
def readBlock (rlps : List UInt8) (i : Nat) : Option (QueuedBlock Tx) := do
  let item ← (Rlp.index rlps i {}).toOption
  let bytes ← (Rlp.toBytes item.1 laissezFaire).toOption
  let block ← (FullBlock.decode env {} bytes false).toOption
  return ⟨block, bytes.length⟩

variable (chainNumber : Option Int)

/-- `isNewerBlock`, where `chainNumber` is `none` without a block chain. -/
def isNewerBlock (b : QueuedBlock Tx) : Bool :=
  match chainNumber with
  | none => true
  | some n => !decide (b.number ≤ n)

def pushBlock : DownloadingBlockQueue Tx :=
  { s with
    blocks := b :: s.blocks
    blockQueueSize := s.blockQueueSize + b.memory
    averageBlockSize :=
      if s.averageBlockSize = 0 then b.memory
      else Int.tdiv (b.memory + s.averageBlockSize * s.averageCalCount) (s.averageCalCount + 1)
    averageCalCount := s.averageCalCount + 1 }

/-- A round of the loop of `flushOneShard`. -/
def flushItem (rlps : List UInt8) (i : Nat) : DownloadingBlockQueue Tx :=
  match readBlock env rlps i with
  | none => s
  | some b => if isNewerBlock chainNumber b then s.pushBlock b else s

/-- `flushOneShard`: `none` is an exception. -/
def flushOneShard (shard : List UInt8) :
    Option Bool × DownloadingBlockQueue Tx :=
  if s.blocks.length ≥ maxDownloadingBlockQueueSize then (some false, s)
  else
    match (Rlp.make shard .veryStrict).bind fun rlps => (Rlp.itemCount rlps).map (rlps, ·) with
    | .error _ => (none, s)
    | .ok (rlps, itemCount) =>
      (some true, (List.range itemCount).foldl (fun s i => s.flushItem env chainNumber rlps i) s)

/-- The loop of `flushBufferToQueue` over the buffer. The shard that finds the queue full is
lost. -/
def flushBuffer (chainNumber : Option Int) :
    List (List UInt8) → DownloadingBlockQueue Tx → DownloadingBlockQueue Tx
  | [], s => { s with buffer := [] }
  | shard :: rest, s =>
    let r := { s with buffer := rest }.flushOneShard env chainNumber shard
    if r.1 = some true then flushBuffer chainNumber rest r.2 else r.2

def flushBufferToQueue : DownloadingBlockQueue Tx :=
  flushBuffer env chainNumber s.buffer s

end DownloadingBlockQueue

/-! ## Runs -/

inductive QueueEvent
  | push (rlps : List UInt8)
  | adjustMaxRequestBlocks
  | pop (i : Nat)
  | top (isFlushBuffer : Bool) (chainNumber : Option Int)
  | clear
  | clearQueue
  | flushBufferToQueue (chainNumber : Option Int)
  | clearFullQueueIfNotHas (blockNumber : Int)
  | setMaxBlockQueueSize (size : Int)

variable {Tx : Type}

def queueStep (env : BlockEnv Tx) (s : DownloadingBlockQueue Tx) :
    QueueEvent → Option (DownloadingBlockQueue Tx)
  | .push rlps => some (s.push rlps)
  | .adjustMaxRequestBlocks => some s.adjustMaxRequestBlocks
  | .pop i => s.pop i
  | .top isFlushBuffer chainNumber =>
    some (if isFlushBuffer then s.flushBufferToQueue env chainNumber else s)
  | .clear => some s.clear
  | .clearQueue => some s.clearQueue
  | .flushBufferToQueue chainNumber => some (s.flushBufferToQueue env chainNumber)
  | .clearFullQueueIfNotHas blockNumber => some (s.clearFullQueueIfNotHas blockNumber)
  | .setMaxBlockQueueSize size => some { s with maxBlockQueueSize := size }

/-- Only an empty queue is cleared. -/
def ClearsEmpty (s : DownloadingBlockQueue Tx) : QueueEvent → Prop
  | .clear => s.blocks = []
  | .clearQueue => s.blocks = []
  | .clearFullQueueIfNotHas blockNumber => ¬s.NeedClear blockNumber
  | _ => True

instance (s : DownloadingBlockQueue Tx) (e) : Decidable (ClearsEmpty s e) := by
  cases e <;> unfold ClearsEmpty <;> infer_instance

namespace DownloadingBlockQueue

variable {env : BlockEnv Tx} {s s' : DownloadingBlockQueue Tx}

/-- The memory of the queued blocks. -/
def memory (blocks : List (QueuedBlock Tx)) : Int := (blocks.map QueuedBlock.memory).sum

structure Accounted (s : DownloadingBlockQueue Tx) : Prop where
  size : s.blockQueueSize = memory s.blocks
  positive : ∀ b ∈ s.blocks, 0 < b.blockSize

/-- The number of blocks that may be requested. -/
def Bounded (s : DownloadingBlockQueue Tx) : Prop :=
  1 ≤ s.maxRequestBlocks ∧ s.maxRequestBlocks ≤ maxRequestBlocksLimit

theorem memory_pos {blocks : List (QueuedBlock Tx)} (hpos : ∀ b ∈ blocks, 0 < b.blockSize)
    (hne : blocks ≠ []) : 0 < memory blocks := by
  refine sum_pos _ (fun x hx => ?_) (by simpa using hne)
  obtain ⟨b, hb, rfl⟩ := mem_map.mp hx
  have := hpos b hb
  show 0 < (b.blockSize : Int) * 3
  omega

theorem readBlock_pos {rlps : List UInt8} {i : Nat} {b : QueuedBlock Tx}
    (h : readBlock env rlps i = some b) : 0 < b.blockSize := by
  obtain ⟨item, -, h⟩ := Option.bind_eq_some_iff.mp h
  obtain ⟨bytes, -, h⟩ := Option.bind_eq_some_iff.mp h
  obtain ⟨block, hblock, h⟩ := Option.bind_eq_some_iff.mp h
  cases h
  refine length_pos_iff.mpr ?_
  rintro rfl
  have hnil : Block.extractBlock [] = .error .invalidBlockFormat := rfl
  simp [FullBlock.decode, hnil, Except.mapError, Except.toOption, bind, Except.bind] at hblock

/-- A flush keeps what pushing a decoded block and changing the buffer keep. -/
theorem flushBuffer_keeps {P : DownloadingBlockQueue Tx → Prop}
    (hpush : ∀ s b, 0 < b.blockSize → P s → P (s.pushBlock b))
    (hbuffer : ∀ s shards, P s → P { s with buffer := shards }) (chainNumber : Option Int)
    (shards : List (List UInt8)) (h : P s) : P (flushBuffer env chainNumber shards s) := by
  induction shards generalizing s with
  | nil => exact hbuffer s [] h
  | cons shard rest ih =>
    have hshard : P ({ s with buffer := rest }.flushOneShard env chainNumber shard).2 := by
      rw [flushOneShard]
      split
      · exact hbuffer s rest h
      split
      · exact hbuffer s rest h
      · refine List.foldlRecOn _ _ (hbuffer s rest h) fun s hs i _ => ?_
        rw [flushItem]
        split
        · exact hs
        · rename_i b hb
          split
          · exact hpush s b (readBlock_pos hb) hs
          · exact hs
    rw [flushBuffer]
    split
    · exact ih hshard
    · exact hshard

theorem Accounted.pushBlock (h : s.Accounted) {b : QueuedBlock Tx} (hb : 0 < b.blockSize) :
    (s.pushBlock b).Accounted := by
  refine ⟨?_, fun x hx => ?_⟩
  · show s.blockQueueSize + b.memory = memory (b :: s.blocks)
    rw [h.size, memory, memory, map_cons, sum_cons, add_comm]
  · rcases mem_cons.mp hx with rfl | hx
    · exact hb
    · exact h.positive x hx

/-! ### What a call does -/

theorem bounded_limit (s : DownloadingBlockQueue Tx) {n : Int} (hn : 1 ≤ n)
    (hle : n ≤ maxRequestBlocksLimit) : Bounded { s with maxRequestBlocks := n } := ⟨hn, hle⟩

theorem bounded_adjustMaxRequestBlocks (h : s.Bounded) : s.adjustMaxRequestBlocks.Bounded := by
  rw [adjustMaxRequestBlocks]
  split
  · exact h
  · refine bounded_limit s ?_ ?_
    · split
      · decide
      · exact le_max_left _ _
    · split
      · exact le_refl _
      · exact max_le (by decide) (by omega)

theorem pop_cases {i : Nat} (hstep : s.pop i = some s') :
    s.blocks = [] ∧ s' = { s with maxRequestBlocks := maxRequestBlocksLimit } ∨
    ∃ b, s.blocks[i]? = some b ∧ s' = { s with
      blockQueueSize := s.blockQueueSize - b.memory, blocks := s.blocks.eraseIdx i } := by
  rw [pop] at hstep
  split at hstep
  · rename_i hempty
    cases hstep
    exact .inl ⟨isEmpty_iff.mp hempty, rfl⟩
  split at hstep
  · cases hstep
  · rename_i b hb
    split at hstep
    · cases hstep
      exact .inr ⟨b, hb, rfl⟩
    · cases hstep

/-- The chain number of the flush that a call makes. -/
def flushes : QueueEvent → Option (Option Int)
  | .top true chainNumber | .flushBufferToQueue chainNumber => some chainNumber
  | _ => none

/-- A call flushes, or leaves the blocks, or pops one of them, or clears them. -/
theorem queueStep_cases {e : QueueEvent} (hstep : queueStep env s e = some s') :
    (s.Bounded → s'.Bounded) ∧ ((∃ chainNumber, flushes e = some chainNumber ∧ ClearsEmpty s e ∧
        s' = s.flushBufferToQueue env chainNumber) ∨ flushes e = none ∧
        (ClearsEmpty s e ∧ s'.blockQueueSize = s.blockQueueSize ∧ s'.blocks = s.blocks ∨
          (∃ i b, ClearsEmpty s e ∧ s.blocks[i]? = some b ∧
            s'.blockQueueSize = s.blockQueueSize - b.memory ∧ s'.blocks = s.blocks.eraseIdx i) ∨
          (ClearsEmpty s e ↔ s.blocks = []) ∧ s'.blockQueueSize = s.blockQueueSize ∧
            s'.blocks = [])) := by
  have hflush : ∀ chainNumber, s.Bounded → (s.flushBufferToQueue env chainNumber).Bounded :=
    fun chainNumber h => flushBuffer_keeps (fun _ _ _ h => h) (fun _ _ h => h) chainNumber _ h
  cases e with
  | push rlps =>
    cases hstep
    rw [push]
    split <;> exact ⟨id, .inr ⟨rfl, .inl ⟨trivial, rfl, rfl⟩⟩⟩
  | adjustMaxRequestBlocks =>
    cases hstep
    refine ⟨bounded_adjustMaxRequestBlocks, .inr ⟨rfl, .inl ⟨trivial, ?_⟩⟩⟩
    rw [adjustMaxRequestBlocks]
    split <;> exact ⟨rfl, rfl⟩
  | pop i =>
    obtain ⟨-, rfl⟩ | ⟨b, hb, rfl⟩ := pop_cases hstep
    · exact ⟨fun _ => bounded_limit s (by decide) (by decide),
        .inr ⟨rfl, .inl ⟨trivial, rfl, rfl⟩⟩⟩
    · exact ⟨id, .inr ⟨rfl, .inr (.inl ⟨i, b, trivial, hb, rfl, rfl⟩)⟩⟩
  | top isFlushBuffer chainNumber =>
    cases hstep
    cases isFlushBuffer with
    | false => exact ⟨id, .inr ⟨rfl, .inl ⟨trivial, rfl, rfl⟩⟩⟩
    | true => exact ⟨hflush chainNumber, .inl ⟨chainNumber, rfl, trivial, rfl⟩⟩
  | clear | clearQueue =>
    cases hstep
    exact ⟨id, .inr ⟨rfl, .inr (.inr ⟨.rfl, rfl, rfl⟩)⟩⟩
  | flushBufferToQueue chainNumber =>
    cases hstep
    exact ⟨hflush chainNumber, .inl ⟨chainNumber, rfl, trivial, rfl⟩⟩
  | clearFullQueueIfNotHas blockNumber =>
    cases hstep
    rw [clearFullQueueIfNotHas]
    split_ifs with hneed
    · refine ⟨id, .inr ⟨rfl, .inr (.inr ⟨iff_of_false (fun hnot => hnot hneed) ?_, rfl, rfl⟩)⟩⟩
      exact fun hnil => absurd hneed.1 (by simp [hnil])
    · exact ⟨id, .inr ⟨rfl, .inl ⟨hneed, rfl, rfl⟩⟩⟩
  | setMaxBlockQueueSize size =>
    cases hstep
    exact ⟨id, .inr ⟨rfl, .inl ⟨trivial, rfl, rfl⟩⟩⟩

theorem Accounted.step (h : s.Accounted) {e : QueueEvent} (hstep : queueStep env s e = some s') :
    (∀ b ∈ s'.blocks, 0 < b.blockSize) ∧
    (s'.blockQueueSize = memory s'.blocks ↔ ClearsEmpty s e) := by
  obtain ⟨chainNumber, _, hcond, rfl⟩ | ⟨-, ⟨hcond, hsize, hblocks⟩ |
    ⟨i, b, hcond, hb, hsize, hblocks⟩ | ⟨hcond, hsize, hblocks⟩⟩ := (queueStep_cases hstep).2
  · have h' : (s.flushBufferToQueue env chainNumber).Accounted := flushBuffer_keeps
      (fun _ _ hb h => h.pushBlock hb) (fun _ _ h => ⟨h.size, h.positive⟩) chainNumber _ h
    exact ⟨h'.positive, iff_of_true h'.size hcond⟩
  · rw [hblocks, hsize]
    exact ⟨h.positive, iff_of_true h.size hcond⟩
  · rw [hblocks, hsize]
    refine ⟨fun x hx => h.positive x (mem_of_mem_eraseIdx hx), iff_of_true ?_ hcond⟩
    obtain ⟨hi, rfl⟩ := List.getElem?_eq_some_iff.mp hb
    have hsum := ((getElem_cons_eraseIdx_perm hi).map QueuedBlock.memory).sum_eq
    rw [map_cons, sum_cons] at hsum
    rw [h.size, memory, memory, ← hsum]
    ring
  · rw [hblocks, hsize, hcond, h.size]
    refine ⟨nofun, fun hzero => ?_, fun hnil => by rw [hnil]⟩
    by_contra hne
    exact absurd hzero (memory_pos h.positive hne).ne'

end DownloadingBlockQueue

/-- **The accounts of the queue.** The number of blocks to request is always in its bounds. As long
as only an empty queue is cleared, `m_blockQueueSize` is the memory of the queued blocks; and it is
after the next call if and only if that does not clear blocks either. -/
theorem queue_accounting (env : BlockEnv Tx) {es : List QueueEvent} {s : DownloadingBlockQueue Tx}
    (hrun : Run (Steps (queueStep env)) {} es s) :
    (1 ≤ s.maxRequestBlocks ∧ s.maxRequestBlocks ≤ maxRequestBlocksLimit) ∧
    (Run (Guarded ClearsEmpty (Steps (queueStep env))) {} es s →
      s.blockQueueSize = (s.blocks.map fun b => (b.blockSize : Int) * blockSizeExpandCoeff).sum ∧
      ∀ e s', queueStep env s e = some s' → (s'.blockQueueSize
          = (s'.blocks.map fun b => (b.blockSize : Int) * blockSizeExpandCoeff).sum ↔
        ClearsEmpty s e)) := by
  constructor
  · refine hrun.invariant (fun _ s => s.Bounded)
      (DownloadingBlockQueue.bounded_limit {} (by decide) (by decide)) ?_
    exact fun _ _ _ _ h hstep => (DownloadingBlockQueue.queueStep_cases hstep).1 h
  · intro hguarded
    have h : s.Accounted := by
      refine hguarded.invariant (fun _ s => s.Accounted) ⟨rfl, nofun⟩ ?_
      rintro _ s e s' h ⟨hcond, hstep⟩
      obtain ⟨hpos, hsize⟩ := h.step hstep
      exact ⟨hsize.mpr hcond, hpos⟩
    exact ⟨h.size, fun e s' hstep => (h.step hstep).2⟩

open Rcc.Block (pairsEnv sealedBytes)

/-- A packet with one block. -/
def onePacket : List UInt8 := Rlp.listOf [Rlp.rlp (.bytes sealedBytes)]

def guardedEvents : List QueueEvent :=
  [.push onePacket, .push onePacket, .clearFullQueueIfNotHas 0, .flushBufferToQueue (some 0),
    .adjustMaxRequestBlocks, .pop 1, .pop 0, .clear, .push onePacket, .top true none]

theorem guardedEvents_accounting : ∃ s : DownloadingBlockQueue (UInt8 × UInt8),
    Run (Guarded ClearsEmpty (Steps (queueStep pairsEnv))) {} guardedEvents s ∧
    s.blocks.length = 1 ∧
    s.blockQueueSize = (s.blocks.map fun b => (b.blockSize : Int) * blockSizeExpandCoeff).sum := by
  refine exists_guardedRun_of_exec (p := fun s => s.blocks.length = 1) (by decide +kernel)
    fun s hrun hlength => ⟨hlength, ?_⟩
  exact ((queue_accounting pairsEnv (hrun.imp fun _ _ _ h => h.2)).2 hrun).1

/-- A queue of one block is cleared. -/
theorem clear_keeps_size : ∃ s : DownloadingBlockQueue (UInt8 × UInt8),
    Run (Steps (queueStep pairsEnv)) {} [.push onePacket, .flushBufferToQueue none, .clear] s ∧
    s.blocks = [] ∧ 0 < s.blockQueueSize := by
  refine exists_run_of_exec (p := fun s => s.blocks.isEmpty = true ∧ 0 < s.blockQueueSize)
    (by decide +kernel) fun s _ h => ?_
  exact ⟨isEmpty_iff.mp h.1, h.2⟩

end Rcc.Sync
