import Rcc.Lib.Run
import Rcc.P2p.Message
import Rcc.Rlp.Stream

/-!
# Rcc.Sync.DownloadBlocks

`DownloadBlocksContainer` (`libsync/SyncMsgEngine.cpp`): encoded blocks are collected in a batch and
sent to a peer in one packet, as long as the blocks of the batch take no more than `c_maxPayload`
bytes.

That is 2048 bytes less than a message may have, but the packet has a header for each block too, and
these are not counted. Every block is sent once; that the packet is not too long for a message needs
the condition that the headers have room as well (`packets_fit`).
-/

namespace Rcc.Sync

open List

open Rcc.P2p (Bytes MAX_MESSAGE_LENGTH)
open Rcc.Rlp
open BigEndian (bytesRequired)

def maxPayload : Nat := MAX_MESSAGE_LENGTH - 2048

/-- `BlocksPacket + c_syncPacketIDBase` -/
def blocksPacketId : UInt8 := 3

/-- `SyncBlocksPacket::encode`, and `singleEncode` for a single block: the packet id and the list of
the blocks. -/
def encodeBlocks (blockRLPs : List Bytes) : Except Error Bytes := do
  let s ← ({} : RlpStream).appendRaw [blocksPacketId] 1
  (← s.append (.list (blockRLPs.map .bytes))).result

/-- The members, and the blocks of the packets that have been sent. -/
structure DownloadBlocksContainer where
  blockRLPsBatch : List Bytes := []
  currentBatchSize : Nat := 0
  sent : List (List Bytes) := []
deriving DecidableEq

namespace DownloadBlocksContainer

variable (c : DownloadBlocksContainer)

def clearBatchAndSend : DownloadBlocksContainer :=
  if c.blockRLPsBatch.length = 0 then c
  else { blockRLPsBatch := [], currentBatchSize := 0, sent := c.sent ++ [c.blockRLPsBatch] }

variable (blockRLP : Bytes)

def sendBigBlock : DownloadBlocksContainer := { c with sent := c.sent ++ [[blockRLP]] }

/-- A block is added to the batch. -/
def emplaceBack : DownloadBlocksContainer :=
  { c with
    blockRLPsBatch := c.blockRLPsBatch ++ [blockRLP]
    currentBatchSize := c.currentBatchSize + blockRLP.length }

def batchAndSend : DownloadBlocksContainer :=
  if blockRLP.length > maxPayload then c.sendBigBlock blockRLP
  -- the batch is sent if it is full
  else if c.currentBatchSize + blockRLP.length > maxPayload then
    c.clearBatchAndSend.emplaceBack blockRLP
  else c.emplaceBack blockRLP

end DownloadBlocksContainer

/-! ## The length of a packet -/

variable {blocks : List Bytes}

theorem intsFit_blocks (blocks : List Bytes) : IntsFitAll (blocks.map .bytes) := by
  induction blocks with
  | nil => trivial
  | cons b blocks ih => exact ⟨trivial, ih⟩

theorem encodeBlocks_eq (hfits : (rlp (.list (blocks.map .bytes))).length < 2 ^ 64) :
    encodeBlocks blocks = .ok (blocksPacketId :: rlp (.list (blocks.map .bytes))) := by
  have happend := append_eq ⟨[blocksPacketId], []⟩ (.list (blocks.map .bytes))
    (intsFit_blocks blocks) hfits
  change (do (← RlpStream.append ⟨[blocksPacketId], []⟩ _).result) = _
  rw [happend]
  rfl

theorem maxPayload_eq : maxPayload = 104855552 := rfl

theorem length_lengthHeader_le {start l k : Nat} (hl : l < 256 ^ k) :
    (lengthHeader start l).length ≤ 1 + k := by
  rw [lengthHeader]
  split
  · simp
  · have := BigEndian.bytesRequired_le_iff.mpr hl
    rw [length_cons, BigEndian.length_encode]
    omega

/-- The blocks with their headers. -/
def framed (blocks : List Bytes) : Nat :=
  (blocks.map fun b => (lengthHeader 0x80 b.length).length + b.length).sum

/-- Only a block of one byte may do without its header. -/
theorem length_rlpAll_le : (rlpAll (blocks.map .bytes)).length ≤ framed blocks ∧
    ((∀ b ∈ blocks, 2 ≤ b.length) → (rlpAll (blocks.map .bytes)).length = framed blocks) := by
  induction blocks with
  | nil => simp [rlpAll, framed]
  | cons b blocks ih =>
    have hb : (rlpBytes b).length ≤ (lengthHeader 0x80 b.length).length + b.length ∧
        (2 ≤ b.length → (rlpBytes b).length = (lengthHeader 0x80 b.length).length + b.length) := by
      rw [rlpBytes]
      split
      · exact ⟨Nat.le_add_left _ _, fun hlong => by omega⟩
      · rw [length_append]
        exact ⟨le_rfl, fun _ => rfl⟩
    simp only [framed, map_cons, rlpAll, rlp, length_append, sum_cons, forall_mem_cons] at ih ⊢
    exact ⟨Nat.add_le_add hb.1 ih.1, fun hlong => by rw [hb.2 hlong.1, ih.2 hlong.2]⟩

/-- The packet has six bytes more at most: its id and the header of the list. -/
theorem length_packet_le (hframed : framed blocks + 6 ≤ MAX_MESSAGE_LENGTH) :
    ∃ packet, encodeBlocks blocks = .ok packet ∧ packet.length ≤ MAX_MESSAGE_LENGTH := by
  have hmessage : MAX_MESSAGE_LENGTH = 104857600 := rfl
  have hall := (@length_rlpAll_le blocks).1
  have hheader := @length_lengthHeader_le 0xc0 (rlpAll (blocks.map .bytes)).length 4 (by omega)
  have hlist : (rlp (.list (blocks.map .bytes))).length ≤ 104857599 := by
    rw [rlp, length_append]
    omega
  exact ⟨_, encodeBlocks_eq (by omega), by rw [length_cons]; omega⟩

/-! ## Runs -/

/-- The packet is a single block that is too long, or it fits in a message. -/
def Packed (blocks : List Bytes) : Prop :=
  (∃ b, blocks = [b] ∧ maxPayload < b.length) ∨
    ∃ packet, encodeBlocks blocks = .ok packet ∧ packet.length ≤ MAX_MESSAGE_LENGTH

namespace DownloadBlocksContainer

/-- If the block is added to the batch, there is room for its header too. -/
def HasRoom (c : DownloadBlocksContainer) (b : Bytes) : Prop :=
  c.currentBatchSize + b.length ≤ maxPayload →
    framed (c.blockRLPsBatch ++ [b]) + 6 ≤ MAX_MESSAGE_LENGTH

instance (c : DownloadBlocksContainer) (b : Bytes) : Decidable (c.HasRoom b) :=
  inferInstanceAs (Decidable (_ → _))

/-- What holds after the blocks `blocks` have been passed. -/
structure Accounted (blocks : List Bytes) (c : DownloadBlocksContainer) : Prop where
  size : c.blockRLPsBatch = [] → c.currentBatchSize = 0
  perm : (c.sent.flatten ++ c.blockRLPsBatch).Perm blocks

/-- The packets that have been sent are fine, and the one of the batch would be. -/
structure Framed (c : DownloadBlocksContainer) : Prop where
  batch : framed c.blockRLPsBatch + 6 ≤ MAX_MESSAGE_LENGTH
  packed : ∀ packet ∈ c.sent, Packed packet

variable {c : DownloadBlocksContainer} {b : Bytes}

theorem Accounted.clearBatchAndSend (h : Accounted blocks c) :
    Accounted blocks c.clearBatchAndSend ∧ c.clearBatchAndSend.blockRLPsBatch = [] ∧
      c.clearBatchAndSend.currentBatchSize = 0 := by
  rw [DownloadBlocksContainer.clearBatchAndSend]
  split_ifs with hempty
  · have hnil := eq_nil_of_length_eq_zero hempty
    exact ⟨h, hnil, h.size hnil⟩
  · exact ⟨⟨fun _ => rfl, by simpa using h.perm⟩, rfl, rfl⟩

theorem Framed.clearBatchAndSend (h : Framed c) : Framed c.clearBatchAndSend := by
  rw [DownloadBlocksContainer.clearBatchAndSend]
  split
  · exact h
  · refine ⟨show 6 ≤ MAX_MESSAGE_LENGTH by decide, fun packet hpacket => ?_⟩
    rcases mem_append.mp hpacket with hpacket | hpacket
    · exact h.packed packet hpacket
    · rw [mem_singleton.mp hpacket]
      exact .inr (length_packet_le h.batch)

theorem Accounted.emplaceBack (h : Accounted blocks c) :
    Accounted (blocks ++ [b]) (c.emplaceBack b) where
  size := by simp [DownloadBlocksContainer.emplaceBack]
  perm := by simpa [DownloadBlocksContainer.emplaceBack] using h.perm.append_right [b]

theorem Accounted.batchAndSend (h : Accounted blocks c) :
    Accounted (blocks ++ [b]) (c.batchAndSend b) := by
  rw [DownloadBlocksContainer.batchAndSend]
  split
  · refine ⟨h.size, ?_⟩
    have hperm := h.perm.append_right [b]
    simp only [sendBigBlock, flatten_append, append_assoc] at hperm ⊢
    exact (perm_append_comm.append_left _).trans hperm
  · split
    · exact h.clearBatchAndSend.1.emplaceBack
    · exact h.emplaceBack

theorem Framed.batchAndSend (hc : Accounted blocks c) (h : Framed c) (hroom : c.HasRoom b) :
    Framed (c.batchAndSend b) := by
  rw [DownloadBlocksContainer.batchAndSend]
  split
  · rename_i hbig
    refine ⟨h.batch, fun packet hpacket => ?_⟩
    rcases mem_append.mp hpacket with hpacket | hpacket
    · exact h.packed packet hpacket
    · exact .inl ⟨b, mem_singleton.mp hpacket, hbig⟩
  · rename_i hsmall
    split
    · refine ⟨?_, h.clearBatchAndSend.packed⟩
      -- a block alone has room
      have hle : b.length ≤ 104855552 := Nat.le_of_not_lt hsmall
      have hheader := @length_lengthHeader_le 0x80 b.length 4 (by omega)
      have hmessage : MAX_MESSAGE_LENGTH = 104857600 := rfl
      simp only [DownloadBlocksContainer.emplaceBack, hc.clearBatchAndSend.2.1, framed, nil_append,
        map_cons, map_nil, sum_cons, sum_nil]
      omega
    · exact ⟨hroom (Nat.le_of_not_lt ‹_›), h.packed⟩

/-- **Every block is sent in one packet, and packets fit in a message** as long as the headers of
the batches have room. At the end the destructor sends what is left. -/
theorem packets_fit (h : Run (Steps fun c b => some (c.batchAndSend b)) {} blocks c) :
    c.clearBatchAndSend.blockRLPsBatch = [] ∧ c.clearBatchAndSend.sent.flatten.Perm blocks ∧
      (Run (Guarded HasRoom (Steps fun c b => some (c.batchAndSend b))) {} blocks c →
        ∀ packet ∈ c.clearBatchAndSend.sent, Packed packet) := by
  have hstart : Accounted [] {} := ⟨fun _ => rfl, .rfl⟩
  have haccounted : Accounted blocks c := by
    refine h.invariant Accounted hstart ?_
    intro blocks c b c' hc hstep
    cases hstep
    exact hc.batchAndSend
  obtain ⟨hclear, hbatch, -⟩ := haccounted.clearBatchAndSend
  refine ⟨hbatch, ?_, fun hguarded => ?_⟩
  · have hperm := hclear.perm
    rwa [hbatch, append_nil] at hperm
  · have hframed : Accounted blocks c ∧ Framed c := by
      refine hguarded.invariant (fun blocks c => Accounted blocks c ∧ Framed c)
        ⟨hstart, by decide, nofun⟩ ?_
      rintro blocks c b c' ⟨hc, hframed⟩ ⟨hroom, hstep⟩
      cases hstep
      exact ⟨hc.batchAndSend, hframed.batchAndSend hc hroom⟩
    exact hframed.2.clearBatchAndSend.packed

/-- Two blocks go out in one packet. -/
theorem two_blocks_fit : ∃ c : DownloadBlocksContainer,
    c.clearBatchAndSend.sent = [[[0xc1, 1], [0xc0]]] ∧ c.clearBatchAndSend.blockRLPsBatch = [] ∧
      c.clearBatchAndSend.sent.flatten.Perm [[0xc1, 1], [0xc0]] ∧
      ∀ packet ∈ c.clearBatchAndSend.sent, Packed packet := by
  have hexec : exec (guardedStep HasRoom fun c b => some (c.batchAndSend b)) {}
      [[0xc1, 1], [0xc0]] = some ⟨[[0xc1, 1], [0xc0]], 3, []⟩ := by decide +kernel
  have hrun := guardedRun_of_exec hexec
  obtain ⟨hbatch, hperm, hpacked⟩ := packets_fit (hrun.imp fun _ _ _ h => h.2)
  exact ⟨_, rfl, hbatch, hperm, hpacked hrun⟩

/-! ## Too many headers -/

theorem foldl_replicate {n : Nat} (h : n * b.length ≤ maxPayload) :
    (List.replicate n b).foldl batchAndSend {} = ⟨List.replicate n b, n * b.length, []⟩ := by
  induction n with
  | zero => simp
  | succ n ih =>
    rw [Nat.succ_mul] at h
    rw [replicate_succ', foldl_concat, ih (by omega), batchAndSend, if_neg (by omega),
      if_neg (Nat.not_lt.mpr h), emplaceBack, Nat.succ_mul]

/-- Six hundred blocks of 174759 bytes are sent in one packet, and no message is so long. -/
theorem many_headers_overflow :
    ¬ ∀ packet ∈ ((List.replicate 600 (List.replicate 174759 0)).foldl batchAndSend
      {}).clearBatchAndSend.sent, Packed packet := by
  intro h
  have hlength : (List.replicate 174759 (0 : UInt8)).length = 174759 := length_replicate
  rw [foldl_replicate (by rw [hlength, maxPayload_eq]; decide)] at h
  generalize hblocks : List.replicate 600 (List.replicate 174759 (0 : UInt8)) = blocks at h
  have hcount : blocks.length = 600 := by rw [← hblocks, length_replicate]
  have hpacked := h blocks (by simp [DownloadBlocksContainer.clearBatchAndSend, hcount])
  have hall : (rlpAll (blocks.map .bytes)).length = 104857800 := by
    rw [length_rlpAll_le.2 (by
      intro b hb
      rw [← hblocks] at hb
      rw [eq_of_mem_replicate hb, hlength]
      decide), ← hblocks, framed, map_replicate, hlength, sum_replicate]
    decide +kernel
  rcases hpacked with ⟨b, hb, -⟩ | ⟨packet, hpacket, hfits⟩
  · rw [hb] at hcount
    cases hcount
  · have hheader := @length_lengthHeader_le 0xc0 (rlpAll (blocks.map .bytes)).length 4 (by omega)
    have hlist : (rlp (.list (blocks.map .bytes))).length =
        (lengthHeader 0xc0 (rlpAll (blocks.map .bytes)).length).length +
          (rlpAll (blocks.map .bytes)).length := by rw [rlp, length_append]
    rw [encodeBlocks_eq (by omega)] at hpacket
    cases hpacket
    have hmessage : MAX_MESSAGE_LENGTH = 104857600 := rfl
    rw [length_cons] at hfits
    omega

end DownloadBlocksContainer

end Rcc.Sync
