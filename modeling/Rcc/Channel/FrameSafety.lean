import Rcc.Channel.Message

/-!
# Rcc.Channel.FrameSafety

When the decoders of the frames stay inside the buffer.

All three check the announced length against a maximum and against what has arrived, and none
against the length of the header. The payload begins behind the header and ends at the announced
length, so with a smaller one it is no range of the buffer. The topic of a channel message, whose
length is announced by a byte of its own, is always one of the payload.
-/

namespace Rcc.Channel

open P2p

/-- Incomplete, an error, or a length between that of the header and what has arrived. -/
def Safe {M : Type} (headerLength : Nat) (buffer : Bytes) : DecodeResult M → Prop
  | .incomplete => True
  | .error => True
  | .done length _ => headerLength ≤ length ∧ length ≤ buffer.length
  | .outOfRange => False

/-- The length at the front of the buffer. -/
def announced (buffer : Bytes) : Nat := BigEndian.decode (buffer.take 4)

section Reads

variable {buffer : Bytes}

theorem isSome_range {first last : Nat} :
    (range buffer first last).isSome ↔ first ≤ last ∧ last ≤ buffer.length := by
  rw [range]
  split <;> simp_all

theorem readNumber_of_le {offset size : Nat} (h : offset + size ≤ buffer.length) :
    ∃ n, readNumber buffer offset size = some n := by
  obtain ⟨bytes, hbytes⟩ := Option.isSome_iff_exists.mp
    (isSome_range.mpr ⟨Nat.le_add_right offset size, h⟩)
  exact ⟨_, by rw [readNumber, hbytes]; rfl⟩

theorem readNumber_announced (h : 4 ≤ buffer.length) :
    readNumber buffer 0 4 = some (announced buffer) := by
  rw [readNumber, range, if_pos ⟨by omega, by omega⟩]
  rfl

/-- What is common to the decoders: they stay inside if the announced length covers the header. -/
theorem safe_decodeFrame_iff {M : Type} {headerLength maxLength : Nat} {read : Nat → Option M}
    (hheader : 4 ≤ headerLength) (hmax : headerLength ≤ maxLength)
    (hread : headerLength ≤ buffer.length → ∀ length ≤ buffer.length,
      ((read length).isSome ↔ headerLength ≤ length)) :
    Safe headerLength buffer (decodeFrame headerLength maxLength buffer read) ↔
      buffer.length < headerLength ∨ headerLength ≤ announced buffer := by
  rw [decodeFrame]
  split
  · rename_i hshort
    exact iff_of_true trivial (.inl hshort)
  rename_i hlong
  rw [readNumber_announced (by omega)]
  dsimp only
  split
  · exact iff_of_true trivial (.inr (by omega))
  split
  · exact iff_of_true trivial (.inr (by omega))
  have hsome := hread (by omega) (announced buffer) (by omega)
  cases hm : read (announced buffer) with
  | none =>
    rw [hm] at hsome
    refine iff_of_false id ?_
    rintro (h | h)
    · exact hlong h
    · simpa using hsome.mpr h
  | some m =>
    rw [hm] at hsome
    have := hsome.mp rfl
    exact iff_of_true ⟨this, by omega⟩ (.inr this)

/-! ## The three decoders -/

theorem safe_p2p_iff : Safe P2PMessage.HEADER_LENGTH buffer (P2PMessage.decode buffer) ↔
    buffer.length < P2PMessage.HEADER_LENGTH ∨ P2PMessage.HEADER_LENGTH ≤ announced buffer := by
  refine safe_decodeFrame_iff (by decide) (by decide) fun hheader length hlength => ?_
  simp only [P2PMessage.HEADER_LENGTH] at hheader ⊢
  obtain ⟨protocolID, hprotocolID⟩ := Option.isSome_iff_exists.mp
    ((@isSome_range buffer 4 8).mpr ⟨by decide, by omega⟩)
  obtain ⟨packetType, hpacketType⟩ := readNumber_of_le (by omega : 6 + 2 ≤ buffer.length)
  obtain ⟨seq, hseq⟩ := readNumber_of_le (by omega : 8 + 4 ≤ buffer.length)
  rw [hprotocolID, hpacketType, hseq, ← and_iff_left (a := 12 ≤ length) hlength,
    ← @isSome_range buffer]
  cases range buffer 12 length <;> simp

theorem safe_rc2_iff (cfg : Config) :
    Safe P2PMessageRC2.HEADER_LENGTH buffer (P2PMessageRC2.decode cfg buffer) ↔
      buffer.length < P2PMessageRC2.HEADER_LENGTH ∨
        P2PMessageRC2.HEADER_LENGTH ≤ announced buffer := by
  refine safe_decodeFrame_iff (by decide) (by decide) fun hheader length hlength => ?_
  simp only [P2PMessageRC2.HEADER_LENGTH] at hheader ⊢
  obtain ⟨cache, hcache⟩ := Option.isSome_iff_exists.mp
    ((@isSome_range buffer 0 length).mpr ⟨Nat.zero_le length, hlength⟩)
  obtain ⟨version, hversion⟩ := readNumber_of_le (by omega : 4 + 2 ≤ buffer.length)
  obtain ⟨protocolID, hprotocolID⟩ := readNumber_of_le (by omega : 6 + 4 ≤ buffer.length)
  obtain ⟨packetType, hpacketType⟩ := readNumber_of_le (by omega : 10 + 2 ≤ buffer.length)
  obtain ⟨seq, hseq⟩ := readNumber_of_le (by omega : 12 + 4 ≤ buffer.length)
  rw [hcache, hversion, hprotocolID, hpacketType, hseq, ← and_iff_left (a := 16 ≤ length) hlength,
    ← @isSome_range buffer]
  cases range buffer 16 length with
  | none => simp
  | some payload =>
    simp only [Option.bind_eq_bind, Option.bind_some]
    split <;> simp

theorem safe_channel_iff : Safe HEADER_LENGTH buffer (decodeAMOP buffer) ↔
    buffer.length < HEADER_LENGTH ∨ HEADER_LENGTH ≤ announced buffer := by
  refine safe_decodeFrame_iff (by decide) (by decide) fun hheader length hlength => ?_
  simp only [HEADER_LENGTH] at hheader ⊢
  obtain ⟨type, htype⟩ := readNumber_of_le (by omega : 4 + 2 ≤ buffer.length)
  obtain ⟨seq, hseq⟩ := Option.isSome_iff_exists.mp
    ((@isSome_range buffer 6 38).mpr ⟨by decide, by omega⟩)
  obtain ⟨result, hresult⟩ := readNumber_of_le (by omega : 38 + 4 ≤ buffer.length)
  rw [htype, hseq, hresult, ← and_iff_left (a := 42 ≤ length) hlength, ← @isSome_range buffer]
  cases range buffer 42 length <;> simp

end Reads

/-! ## Topics -/

variable (m : ChannelMessage)

/-- The accessors throw, or stay inside the payload. -/
def TopicSafe : Prop :=
  topic m ≠ .error .outOfRange ∧
    ∀ offset size, dataOffset m = .ok offset → dataSize m = .ok size →
      offset + size ≤ m.data.length

/-- A topic is never longer than the payload behind its length. -/
theorem topic_cases :
    (∃ e, topic m = .error e ∧ e ≠ .outOfRange) ∨
      ∃ t, topic m = .ok t ∧ 1 + t.length ≤ m.data.length ∧ t.length < 2 ^ 8 := by
  rw [topic]
  split
  · exact .inl ⟨_, rfl, nofun⟩
  cases hdata : m.data with
  | nil => exact .inl ⟨_, rfl, nofun⟩
  | cons topicLen rest =>
    dsimp only
    split
    · exact .inl ⟨_, rfl, nofun⟩
    have hbyte := topicLen.toNat_lt
    rw [stringOf]
    split_ifs with hcount
    · exact .inl ⟨_, rfl, nofun⟩
    · have hwrap : (topicLen.toNat + (2 ^ 64 - 1)) % 2 ^ 64 = topicLen.toNat - 1 := by omega
      rw [range, if_pos ⟨by omega, by omega⟩]
      refine .inr ⟨_, rfl, ?_⟩
      rw [List.length_take]
      omega

theorem topicSafe : TopicSafe m := by
  rcases topic_cases m with ⟨e, htopic, he⟩ | ⟨t, htopic, hle, hlt⟩
  · refine ⟨fun h => he (Except.error.inj (htopic.symm.trans h)), fun offset size hoffset _ => ?_⟩
    rw [dataOffset, htopic] at hoffset
    cases hoffset
  · refine ⟨by rw [htopic]; nofun, fun offset size hoffset hsize => ?_⟩
    rw [dataOffset, htopic] at hoffset
    rw [dataSize, htopic] at hsize
    cases hoffset
    cases hsize
    omega

/-- **Each decoder stays inside the buffer exactly if too little has arrived for a header or the
announced length is at least that of the header; the accessors of a topic always do.** -/
theorem decode_safe_iff (cfg : Config) (buffer : Bytes) :
    (Safe P2PMessage.HEADER_LENGTH buffer (P2PMessage.decode buffer) ↔
      buffer.length < P2PMessage.HEADER_LENGTH ∨ P2PMessage.HEADER_LENGTH ≤ announced buffer) ∧
    (Safe P2PMessageRC2.HEADER_LENGTH buffer (P2PMessageRC2.decode cfg buffer) ↔
      buffer.length < P2PMessageRC2.HEADER_LENGTH ∨
        P2PMessageRC2.HEADER_LENGTH ≤ announced buffer) ∧
    (Safe HEADER_LENGTH buffer (decodeAMOP buffer) ↔
      buffer.length < HEADER_LENGTH ∨ HEADER_LENGTH ≤ announced buffer) ∧
    ∀ m : ChannelMessage, TopicSafe m :=
  ⟨safe_p2p_iff, safe_rc2_iff cfg, safe_channel_iff, topicSafe⟩

/-- A header of zeros announces a message without a header. -/
theorem zeros_read_outside :
    P2PMessage.decode (List.replicate 12 0) = .outOfRange ∧
    (∀ cfg, P2PMessageRC2.decode cfg (List.replicate 16 0) = .outOfRange) ∧
    decodeAMOP (List.replicate 42 0) = .outOfRange := ⟨by decide, fun _ => rfl, by decide⟩

end Rcc.Channel
