import Rcc.Sync.DownloadingBlockQueue

/-!
# Rcc.Sync.FullQueue

What becomes of a `DownloadingBlockQueue` that is full, and of the shards that find it so.

`flushOneShard` refuses a shard once there are 256 blocks or more, and `clearFullQueueIfNotHas`
clears the queue if there are exactly 256. A shard has several blocks, so a flush can step over
256; the queue then refuses every shard and is never cleared (`full_queue_clears`).

`flushBufferToQueue` takes a shard out of the buffer before it knows whether the queue accepts it:
the shard that finds the queue full is in neither afterwards (`flush_keeps_shards`).
-/

namespace Rcc.Sync.DownloadingBlockQueue

open List QueuedBlock

open Rcc.Block (BlockEnv pairsEnv sealedBytes)

variable {Tx : Type} (env : BlockEnv Tx) (chainNumber : Option Int)

/-- The blocks that a shard brings: those of its items that decode and are newer than the chain.
There are no items if the shard is not the RLP of a list. -/
def shardBlocks (shard : List UInt8) : Option (List (QueuedBlock Tx)) :=
  match (Rlp.make shard .veryStrict).bind fun rlps => (Rlp.itemCount rlps).map (rlps, ·) with
  | .error _ => none
  | .ok (rlps, itemCount) =>
    some ((List.range itemCount).filterMap fun i =>
      (readBlock env rlps i).filter (isNewerBlock chainNumber))

/-- A condition on the queued blocks and the next shard, at each shard that the loop of
`flushBufferToQueue` takes out of the buffer. -/
def AtEach (p : List (QueuedBlock Tx) → List UInt8 → Prop) :
    List (QueuedBlock Tx) → List (List UInt8) → Prop
  | _, [] => True
  | blocks, shard :: rest =>
    p blocks shard ∧ (blocks.length < maxDownloadingBlockQueueSize →
      (shardBlocks env chainNumber shard).elim True fun bs => AtEach p (bs.reverse ++ blocks) rest)

variable (blocks : List (QueuedBlock Tx))

/-- The blocks of a shard that is accepted have room in the queue. -/
def Fits (shard : List UInt8) : Prop :=
  blocks.length < maxDownloadingBlockQueueSize →
    blocks.length + ((shardBlocks env chainNumber shard).getD []).length
      ≤ maxDownloadingBlockQueueSize

/-- The blocks of a shard that is refused are in the queue already. -/
def Queued (shard : List UInt8) : Prop :=
  maxDownloadingBlockQueueSize ≤ blocks.length →
    ∀ b ∈ (shardBlocks env chainNumber shard).getD [], b ∈ blocks

variable (s : DownloadingBlockQueue Tx)

theorem foldl_flushItem (rlps : List UInt8) (items : List Nat) :
    (items.foldl (fun s i => s.flushItem env chainNumber rlps i) s).blocks
      = (items.filterMap fun i =>
          (readBlock env rlps i).filter (isNewerBlock chainNumber)).reverse ++ s.blocks := by
  induction items generalizing s with
  | nil => rfl
  | cons i items ih =>
    rw [foldl_cons, ih, filterMap_cons, flushItem]
    cases readBlock env rlps i with
    | none => rfl
    | some b =>
      cases hnewer : isNewerBlock chainNumber b with
      | false => simp [hnewer, Option.filter]
      | true => simp [hnewer, Option.filter, pushBlock]

/-- The three things that can happen to the shard at the front of the buffer. -/
theorem flushBuffer_cons (shard : List UInt8) (rest : List (List UInt8)) :
    (maxDownloadingBlockQueueSize ≤ s.blocks.length ∧
      flushBuffer env chainNumber (shard :: rest) s = { s with buffer := rest }) ∨
    (s.blocks.length < maxDownloadingBlockQueueSize ∧ shardBlocks env chainNumber shard = none ∧
      flushBuffer env chainNumber (shard :: rest) s = { s with buffer := rest }) ∨
    (s.blocks.length < maxDownloadingBlockQueueSize ∧
      ∃ bs s₁, shardBlocks env chainNumber shard = some bs ∧ s₁.blocks = bs.reverse ++ s.blocks ∧
        flushBuffer env chainNumber (shard :: rest) s = flushBuffer env chainNumber rest s₁) := by
  rw [flushBuffer, flushOneShard, shardBlocks]
  by_cases hfull : s.blocks.length ≥ maxDownloadingBlockQueueSize
  · exact .inl ⟨hfull, by simp [hfull]⟩
  · rw [if_neg hfull]
    replace hfull := not_le.mp hfull
    generalize (Rlp.make shard .veryStrict).bind _ = items
    cases items with
    | error e => exact .inr (.inl ⟨hfull, rfl, rfl⟩)
    | ok items =>
      refine .inr (.inr ⟨hfull, _, _, rfl, ?_, if_pos rfl⟩)
      exact foldl_flushItem env chainNumber { s with buffer := rest } items.1 _

variable (shards : List (List UInt8))

/-- Blocks are only added, and shards only taken from the front. -/
theorem flushBuffer_suffix :
    s.blocks <:+ (flushBuffer env chainNumber shards s).blocks ∧
    (flushBuffer env chainNumber shards s).buffer <:+ shards := by
  induction shards generalizing s with
  | nil => exact ⟨suffix_rfl, suffix_rfl⟩
  | cons shard rest ih =>
    have hrest : rest <:+ shard :: rest := suffix_cons shard rest
    obtain ⟨_, h⟩ | ⟨_, _, h⟩ | ⟨_, bs, s₁, _, hblocks, h⟩ :=
      flushBuffer_cons env chainNumber s shard rest
    · exact h ▸ ⟨suffix_rfl, hrest⟩
    · exact h ▸ ⟨suffix_rfl, hrest⟩
    · rw [h]
      obtain ⟨hadd, htake⟩ := ih s₁
      have hs : s.blocks <:+ s₁.blocks := hblocks ▸ suffix_append _ _
      exact ⟨hs.trans hadd, htake.trans hrest⟩

/-- A flush keeps to the bound if and only if each shard that it accepts fits. -/
theorem length_flushBuffer_le_iff (hle : s.blocks.length ≤ maxDownloadingBlockQueueSize) :
    (flushBuffer env chainNumber shards s).blocks.length ≤ maxDownloadingBlockQueueSize ↔
      AtEach env chainNumber (Fits env chainNumber) s.blocks shards := by
  induction shards generalizing s with
  | nil => exact iff_of_true hle trivial
  | cons shard rest ih =>
    rw [AtEach, Fits]
    obtain ⟨hfull, h⟩ | ⟨_, hnone, h⟩ | ⟨hroom, bs, s₁, hsome, hblocks, h⟩ :=
      flushBuffer_cons env chainNumber s shard rest
    · rw [h]
      exact iff_of_true hle ⟨fun hlt => absurd hfull hlt.not_ge, fun hlt => absurd hfull hlt.not_ge⟩
    · rw [h, hnone]
      exact iff_of_true hle ⟨fun _ => hle, fun _ => trivial⟩
    · have hlength : s₁.blocks.length = s.blocks.length + bs.length := by
        rw [hblocks, length_append, length_reverse, add_comm]
      rw [h, hsome]
      simp only [hroom, forall_const, Option.getD_some, Option.elim_some, ← hblocks, ← hlength]
      constructor
      · intro hafter
        have hfits := (flushBuffer_suffix env chainNumber s₁ rest).1.length_le.trans hafter
        exact ⟨hfits, (ih s₁ hfits).mp hafter⟩
      · intro hcond
        exact (ih s₁ hcond.1).mpr hcond.2

/-- Of the shards, some at the front are processed, so that their blocks are in the queue, and the
others are left in the buffer. -/
def KeepsShards : Prop :=
  ∃ taken, shards = taken ++ s.buffer ∧
    ∀ shard ∈ taken, ∀ b ∈ (shardBlocks env chainNumber shard).getD [], b ∈ s.blocks

/-- A flush keeps the shards if and only if a shard that it refused brought nothing new. -/
theorem keepsShards_flushBuffer_iff :
    KeepsShards env chainNumber (flushBuffer env chainNumber shards s) shards ↔
      AtEach env chainNumber (Queued env chainNumber) s.blocks shards := by
  induction shards generalizing s with
  | nil => exact iff_of_true ⟨[], rfl, nofun⟩ trivial
  | cons shard rest ih =>
    rw [AtEach, Queued, KeepsShards]
    obtain ⟨hfull, h⟩ | ⟨hroom, hnone, h⟩ | ⟨hroom, bs, s₁, hsome, hblocks, h⟩ :=
      flushBuffer_cons env chainNumber s shard rest
    · rw [h]
      constructor
      · intro hkept
        obtain ⟨taken, htaken, hmem⟩ := hkept
        have hone : [shard] = taken := append_cancel_right htaken
        exact ⟨fun _ => hmem shard (hone ▸ mem_singleton_self shard),
          fun hlt => absurd hfull hlt.not_ge⟩
      · intro hcond
        exact ⟨[shard], rfl, fun x hx => mem_singleton.mp hx ▸ hcond.1 hfull⟩
    · rw [h, hnone]
      refine iff_of_true ⟨[shard], rfl, fun x hx => ?_⟩
        ⟨fun hge => absurd hroom hge.not_gt, fun _ => trivial⟩
      rw [mem_singleton.mp hx, hnone]
      exact nofun
    · have hshard : ∀ b ∈ bs, b ∈ (flushBuffer env chainNumber rest s₁).blocks := by
        intro b hb
        refine (flushBuffer_suffix env chainNumber s₁ rest).1.mem ?_
        rw [hblocks]
        exact mem_append_left _ (mem_reverse.mpr hb)
      rw [h, hsome, Option.elim_some, ← hblocks, ← ih s₁, KeepsShards]
      constructor
      · intro hkept
        obtain ⟨taken, htaken, hmem⟩ := hkept
        refine ⟨fun hge => absurd hroom hge.not_gt, fun _ => ?_⟩
        cases taken with
        | nil =>
          have hle := (flushBuffer_suffix env chainNumber s₁ rest).2.length_le
          rw [nil_append] at htaken
          rw [← htaken, length_cons] at hle
          exact absurd hle (Nat.not_succ_le_self _)
        | cons x taken =>
          exact ⟨taken, (List.cons.inj htaken).2, fun y hy => hmem y (mem_cons_of_mem x hy)⟩
      · intro hcond
        obtain ⟨taken, htaken, hmem⟩ := hcond.2 hroom
        refine ⟨shard :: taken, congrArg (shard :: ·) htaken, fun x hx => ?_⟩
        rcases mem_cons.mp hx with rfl | hx
        · rw [hsome]
          exact hshard
        · exact hmem x hx

/-! ## A full queue -/

/-- A queue that refuses shards and whose blocks are all behind the number is cleared. -/
def Clearable : Prop :=
  ∀ blockNumber : Int, maxDownloadingBlockQueueSize ≤ s.blocks.length →
    (∀ b ∈ s.blocks, blockNumber < b.number) →
    (s.clearFullQueueIfNotHas blockNumber).blocks = []

theorem clearable_iff : s.Clearable ↔ s.blocks.length ≤ maxDownloadingBlockQueueSize := by
  constructor
  · intro hclear
    by_contra hover
    obtain ⟨least, hleast⟩ := (finite_toSet (s.blocks.map number)).bddBelow
    have hbehind : ∀ b ∈ s.blocks, least - 1 < b.number := fun b hb =>
      Int.sub_one_lt_of_le (hleast (mem_map_of_mem hb))
    have hnil := hclear (least - 1) (not_le.mp hover).le hbehind
    rw [clearFullQueueIfNotHas, if_neg fun hneed => hover hneed.1.le] at hnil
    exact hover (hnil ▸ Nat.zero_le _)
  · intro hle blockNumber hge hbehind
    rw [clearFullQueueIfNotHas, if_pos ⟨hle.antisymm hge, hbehind⟩]
    rfl

/-- Every shard that the call accepts fits in the queue. -/
def RoomFor (e : QueueEvent) : Prop :=
  ∀ chainNumber ∈ flushes e, AtEach env chainNumber (Fits env chainNumber) s.blocks s.buffer

instance (p : List (QueuedBlock Tx) → List UInt8 → Prop)
    [∀ blocks shard, Decidable (p blocks shard)] (blocks : List (QueuedBlock Tx)) :
    ∀ shards, Decidable (AtEach env chainNumber p blocks shards)
  | [] => .isTrue trivial
  | shard :: rest =>
    have : Decidable ((shardBlocks env chainNumber shard).elim True fun bs =>
        AtEach env chainNumber p (bs.reverse ++ blocks) rest) :=
      match shardBlocks env chainNumber shard with
      | none => .isTrue trivial
      | some bs => instDecidableAtEach p (bs.reverse ++ blocks) rest
    instDecidableAnd

instance (shard : List UInt8) :
    Decidable (Fits env chainNumber blocks shard) := inferInstanceAs (Decidable (_ → _))

instance (e : QueueEvent) : Decidable (RoomFor env s e) := Option.decidableForallMem _

/-- What a call does to a queue that keeps to the bound. -/
theorem length_step_le_iff {s' : DownloadingBlockQueue Tx} {e : QueueEvent}
    (hle : s.blocks.length ≤ maxDownloadingBlockQueueSize) (hstep : queueStep env s e = some s') :
    s'.blocks.length ≤ maxDownloadingBlockQueueSize ↔ RoomFor env s e := by
  obtain ⟨chainNumber, hflush, -, rfl⟩ | ⟨hflush, h⟩ := (queueStep_cases hstep).2
  · simp only [RoomFor, hflush, Option.mem_def, Option.some.injEq, forall_eq']
    exact length_flushBuffer_le_iff env chainNumber s s.buffer hle
  · refine iff_of_true ?_ (by simp [RoomFor, hflush])
    obtain ⟨-, -, hblocks⟩ | ⟨i, b, -, -, -, hblocks⟩ | ⟨-, -, hblocks⟩ := h
    · rwa [hblocks]
    · rw [hblocks]
      exact (length_eraseIdx_le s.blocks i).trans hle
    · rw [hblocks]
      exact Nat.zero_le _

/-- **A full queue does not wedge.** As long as every shard that is accepted fits, a queue that
refuses shards is cleared if all its blocks are behind the next number; and it is after the next
call if and only if the shards accepted by that fit as well. -/
theorem full_queue_clears {es : List QueueEvent} {s : DownloadingBlockQueue Tx}
    (hrun : Run (Guarded (RoomFor env) (Steps (queueStep env))) {} es s) :
    s.Clearable ∧
    ∀ e s', queueStep env s e = some s' → (s'.Clearable ↔ RoomFor env s e) := by
  have hle : s.blocks.length ≤ maxDownloadingBlockQueueSize := by
    refine hrun.invariant (fun _ s => s.blocks.length ≤ maxDownloadingBlockQueueSize)
      (Nat.zero_le _) ?_
    intro _ s e s' hle hstep
    exact (length_step_le_iff env s hle hstep.2).mpr hstep.1
  refine ⟨s.clearable_iff.mpr hle, fun e s' hstep => ?_⟩
  rw [clearable_iff]
  exact length_step_le_iff env s hle hstep

/-- A packet with two blocks. -/
def twoPacket : List UInt8 :=
  Rlp.listOf [Rlp.rlp (.bytes sealedBytes), Rlp.rlp (.bytes sealedBytes)]

/-- 254 packets of one block and one of two fill the queue. -/
theorem full_queue_clears_twoPacket : ∃ s : DownloadingBlockQueue (UInt8 × UInt8),
    Run (Guarded (RoomFor pairsEnv) (Steps (queueStep pairsEnv))) {}
      (List.replicate 254 (.push onePacket) ++ [.push twoPacket, .flushBufferToQueue none]) s ∧
    s.blocks.length = 256 ∧ s.Clearable := by
  refine exists_guardedRun_of_exec (p := fun s => s.blocks.length = 256) (by decide +kernel)
    fun s hrun hlength => ⟨hlength, ?_⟩
  exact (full_queue_clears pairsEnv hrun).1

/-- 255 packets of one block and one of two are flushed at once. -/
def overfillEvents : List QueueEvent :=
  List.replicate 255 (.push onePacket) ++ [.push twoPacket, .flushBufferToQueue none]

theorem overfull_queue_stays : ∃ s : DownloadingBlockQueue (UInt8 × UInt8),
    Run (Steps (queueStep pairsEnv)) {} overfillEvents s ∧ ¬s.Clearable := by
  refine exists_run_of_exec (p := fun s => s.blocks.length = 257) (by decide +kernel)
    fun s _ hlength hclear => ?_
  have hle := s.clearable_iff.mp hclear
  rw [hlength] at hle
  exact absurd hle (by decide)

/-! ## The shards of a flush -/

/-- **The shards of a flush.** Every shard that `flushBufferToQueue` took from the buffer is
processed, and the others are left as they were, if and only if a shard that found the queue full
brought only blocks that were in it. -/
theorem flush_keeps_shards :
    KeepsShards env chainNumber (s.flushBufferToQueue env chainNumber) s.buffer ↔
      AtEach env chainNumber (Queued env chainNumber) s.blocks s.buffer :=
  keepsShards_flushBuffer_iff env chainNumber s s.buffer

/-- A packet with a block of number 8. -/
def nextPacket : List UInt8 :=
  match ({ header := { fields := { Block.childOf 1 with number := 8 } } } :
      Block.FullBlock (UInt8 × UInt8)).encode pairsEnv with
  | .ok (bytes, _) => Rlp.listOf [Rlp.rlp (.bytes bytes)]
  | .error _ => []

/-- The queue has 257 blocks of number 7 when the packet with block 8 is flushed. -/
theorem refused_shard_lost : ∃ s : DownloadingBlockQueue (UInt8 × UInt8),
    Run (Steps (queueStep pairsEnv)) {} (overfillEvents ++ [.push nextPacket]) s ∧
    ¬KeepsShards pairsEnv none (s.flushBufferToQueue pairsEnv none) s.buffer := by
  have hnumber : ((shardBlocks pairsEnv none nextPacket).getD []).map number = [8] := by
    decide +kernel
  refine exists_run_of_exec
    (p := fun s => s.blocks.map number = List.replicate 257 7 ∧ s.buffer = [nextPacket])
    (by decide +kernel) fun s _ h hkept => ?_
  obtain ⟨hblocks, hbuffer⟩ := h
  replace hkept := (keepsShards_flushBuffer_iff pairsEnv none s s.buffer).mp hkept
  rw [hbuffer, AtEach] at hkept
  have hfull : s.blocks.length = 257 := by
    rw [← length_map number, hblocks, length_replicate]
  obtain ⟨b, hb, hnext⟩ := mem_map.mp (hnumber ▸ mem_singleton_self 8)
  have hseven := mem_map_of_mem (f := number)
    (hkept.1 (hfull ▸ by decide) b hb)
  rw [hblocks, hnext] at hseven
  exact absurd (eq_of_mem_replicate hseven) (by decide)

end Rcc.Sync.DownloadingBlockQueue
