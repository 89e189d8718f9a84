import Rcc.Lib.Framing
import Rcc.Lib.HeadTail
import Rcc.P2p.Message

/-!
# Rcc.P2p.Frames

What `P2PMessageRC2::decode` makes of a frame. The highest bit of the version says whether the
payload of the frame is compressed.

* `readFrame` — what the decoder reads from a frame;
* `decode_frame`, `decode_long_frame` — a frame in front of other data, by its length;
* `encode_of_dirty`, `readFrame_encoded` — what is encoded is what is read, unless the version
  already had the bit;
* `parse`, `stable_parse` — the decoder as the parser of a stream.
-/

namespace Rcc.P2p

open List BigEndian

open HeadTail

/-! ## Reading -/

section Reading

variable {data block : Bytes} {offset : Nat}

theorem range_of_holds (h : Holds data offset block) :
    range data offset (offset + block.length) = some block := by
  rw [range, if_pos ⟨by omega, h.le⟩, Nat.add_sub_cancel_left, h.take_drop]

theorem readNumber_of_holds {k n : Nat} (h : Holds data offset (fixed k n))
    (hn : n < 256 ^ k) : readNumber data offset k = some n := by
  have hrange := range_of_holds h
  rw [length_fixed] at hrange
  rw [readNumber, hrange, Option.map_some, decode_fixed hn]

theorem range_append {first last : Nat} (h : last ≤ data.length) (rest : Bytes) :
    range (data ++ rest) first last = range data first last := by
  have hle : last ≤ (data ++ rest).length := by
    rw [length_append]
    omega
  by_cases hfirst : first ≤ last
  · rw [range, range, if_pos ⟨hfirst, hle⟩, if_pos ⟨hfirst, h⟩, drop_append_of_le_length (by omega),
      take_append_of_le_length (by rw [length_drop]; omega)]
  · rw [range, range, if_neg (fun h => hfirst h.1), if_neg (fun h => hfirst h.1)]

theorem readNumber_append {size : Nat} (h : offset + size ≤ data.length) (rest : Bytes) :
    readNumber (data ++ rest) offset size = readNumber data offset size := by
  rw [readNumber, readNumber, range_append h]

end Reading

/-! ## The flag -/

/-- The version says that the payload is compressed. -/
def Flagged (version : UInt16) : Prop := version &&& CompressFlag = CompressFlag

instance (version : UInt16) : Decidable (Flagged version) := inferInstanceAs (Decidable (_ = _))

section Flag

variable {version : UInt16}

theorem toBitVec_compressFlag : CompressFlag.toBitVec = BitVec.twoPow 16 15 := rfl

theorem flagged_iff : Flagged version ↔ version.toBitVec.getLsbD 15 = true := by
  rw [Flagged, ← UInt16.toBitVec_inj, UInt16.toBitVec_and, toBitVec_compressFlag]
  constructor
  · intro h
    have h15 := congrArg (fun bits => BitVec.getLsbD bits 15) h
    simpa using h15
  · intro h
    ext i hi
    grind

theorem flagged_or (version : UInt16) : Flagged (version ||| CompressFlag) := by
  rw [flagged_iff]
  simp [toBitVec_compressFlag]

theorem or_and_not_flag (h : ¬ Flagged version) :
    (version ||| CompressFlag) &&& ~~~CompressFlag = version := by
  rw [flagged_iff] at h
  rw [← UInt16.toBitVec_inj]
  ext i hi
  simp only [UInt16.toBitVec_and, UInt16.toBitVec_or, UInt16.toBitVec_not, toBitVec_compressFlag,
    BitVec.getElem_and, BitVec.getElem_not, BitVec.getElem_twoPow]
  grind

theorem and_not_flag_ne (h : Flagged version) : version &&& ~~~CompressFlag ≠ version := by
  intro heq
  rw [← heq, flagged_iff] at h
  simp [toBitVec_compressFlag] at h

end Flag

namespace P2PMessageRC2

variable (cfg : Config)

/-! ## Frames -/

/-- What the decoder reads from the frame of this content and this payload. -/
def readFrame (content : Content) (payload : Bytes) : Content :=
  if cfg.compressEnabled ∧ Flagged content.version then
    { content with
      version := content.version &&& ~~~CompressFlag
      buffer := cfg.snappy.uncompress payload }
  else { content with buffer := payload }

variable (content : Content) (payload rest : Bytes)

theorem length_frame : (frame content payload).length = HEADER_LENGTH + payload.length := by
  simp only [frame, length_append, length_fixed, HEADER_LENGTH]
  omega

theorem holds_frame :
    Holds (frame content payload ++ rest) 0 (fixed 4 (HEADER_LENGTH + payload.length)) ∧
      Holds (frame content payload ++ rest) 4 (fixed 2 content.version.toNat) ∧
      Holds (frame content payload ++ rest) 6 (fixed 4 content.protocolID.toNat) ∧
      Holds (frame content payload ++ rest) 10 (fixed 2 content.packetType.toNat) ∧
      Holds (frame content payload ++ rest) 12 (fixed 4 content.seq.toNat) ∧
      Holds (frame content payload ++ rest) 16 payload := by
  have hframe := (holds_self (frame content payload ++ rest)).left
  have hversion := hframe.right
  have hprotocol := hversion.right
  have htype := hprotocol.right
  have hseq := htype.right
  have hpayload := hseq.right
  exact ⟨hframe.left, hversion.left, hprotocol.left, htype.left, hseq.left, hpayload⟩

variable {content payload}

/-- A frame whose length fits its field announces that length. -/
theorem readNumber_frame (hlength : HEADER_LENGTH + payload.length < 2 ^ 32) :
    readNumber (frame content payload ++ rest) 0 4 = some (HEADER_LENGTH + payload.length) :=
  readNumber_of_holds (holds_frame content payload rest).1 hlength

theorem decode_frame (hlength : HEADER_LENGTH + payload.length ≤ MAX_MESSAGE_LENGTH) :
    ∃ m, decode cfg (frame content payload ++ rest) = .done (HEADER_LENGTH + payload.length) m ∧
      m.toContent = readFrame cfg content payload := by
  have hmax : MAX_MESSAGE_LENGTH < 2 ^ 32 := by decide
  obtain ⟨-, hversion, hprotocol, htype, hseq, hpayload⟩ := holds_frame content payload rest
  have hcache := range_of_holds (holds_self (frame content payload ++ rest)).left
  rw [length_frame, Nat.zero_add] at hcache
  have hbuffer : HEADER_LENGTH + payload.length ≤ (frame content payload ++ rest).length := by
    rw [length_append, length_frame]
    omega
  rw [decode, decodeFrame, readNumber_frame rest (by omega)]
  simp only [if_neg (Nat.not_lt.mpr hlength), if_neg (Nat.not_lt.mpr hbuffer)]
  rw [hcache, readNumber_of_holds hversion content.version.toNat_lt,
    readNumber_of_holds hprotocol content.protocolID.toNat_lt,
    readNumber_of_holds htype content.packetType.toNat_lt,
    readNumber_of_holds hseq content.seq.toNat_lt, HEADER_LENGTH, range_of_holds hpayload]
  simp only [Option.bind_eq_bind, Option.bind_some, UInt16.ofNat_toNat, UInt32.ofNat_toNat]
  by_cases hflag : cfg.compressEnabled ∧ Flagged content.version
  · rw [readFrame, if_pos hflag]
    rw [Flagged] at hflag
    rw [if_pos hflag]
    exact ⟨_, rfl, rfl⟩
  · rw [readFrame, if_neg hflag]
    rw [Flagged] at hflag
    rw [if_neg hflag]
    exact ⟨_, rfl, rfl⟩

theorem decode_long_frame (hlong : MAX_MESSAGE_LENGTH < HEADER_LENGTH + payload.length)
    (hlength : HEADER_LENGTH + payload.length < 2 ^ 32) :
    decode cfg (frame content payload ++ rest) = .error := by
  have hbuffer : HEADER_LENGTH ≤ (frame content payload ++ rest).length := by
    rw [length_append, length_frame]
    omega
  rw [decode, decodeFrame, readNumber_frame rest hlength]
  exact if_pos hlong

/-! ## Encoding -/

variable {m : P2PMessageRC2}

/-- The payload of this content is sent compressed. -/
def Compresses (content : Content) : Prop :=
  cfg.compressEnabled ∧ cfg.compressThreshold < content.buffer.length ∧
    ¬ Flagged content.version ∧ 0 < (cfg.snappy.compress content.buffer).length

instance (content : Content) : Decidable (Compresses cfg content) :=
  inferInstanceAs (Decidable (_ ∧ _ ∧ _ ∧ _))

/-- What goes into the header of the frame of this content. -/
def markedAs (content : Content) : Content :=
  if Compresses cfg content then { content with version := content.version ||| CompressFlag }
  else content

/-- What goes behind the header. -/
def payloadOf (content : Content) : Bytes :=
  if Compresses cfg content then cfg.snappy.compress content.buffer else content.buffer

theorem length_payloadOf_le (content : Content) :
    (payloadOf cfg content).length ≤
      32 + content.buffer.length + content.buffer.length / 6 := by
  rw [payloadOf]
  split
  · exact cfg.snappy.bound content.buffer
  · omega

theorem compress_eq (m : P2PMessageRC2) :
    compress cfg m =
      if Compresses cfg m.toContent then
        some (cfg.snappy.compress m.buffer, { m with version := m.version ||| CompressFlag })
      else none := by
  rw [compress]
  by_cases henabled : cfg.compressEnabled = true
  · by_cases hthreshold : m.buffer.length ≤ cfg.compressThreshold
    · rw [if_pos (.inr hthreshold), if_neg fun h => Nat.not_lt.mpr hthreshold h.2.1]
    · rw [if_neg (by simp [henabled, hthreshold])]
      by_cases hflag : Flagged m.version
      · rw [if_pos (show _ = _ from hflag), if_neg fun h => h.2.2.1 hflag]
      · rw [if_neg (show ¬ _ = _ from hflag)]
        by_cases hempty : (cfg.snappy.compress m.buffer).length < 1
        · rw [if_pos hempty, if_neg fun h => Nat.not_lt.mpr (Nat.le_of_lt_succ hempty) h.2.2.2]
        · rw [if_neg hempty,
            if_pos ⟨henabled, Nat.not_le.mp hthreshold, hflag, Nat.not_lt.mp hempty⟩]
  · rw [if_pos (.inl (by simpa using henabled)), if_neg fun h => henabled h.1]

/-- A changed message is encoded anew, and its version marked. -/
theorem encode_of_dirty (h : m.dirty = true) :
    (encode cfg m).1 = frame (markedAs cfg m.toContent) (payloadOf cfg m.toContent) ∧
      (encode cfg m).2.toContent = markedAs cfg m.toContent ∧
      (encode cfg m).2.dirty = false ∧ (encode cfg m).2.cache = (encode cfg m).1 := by
  rw [encode, if_pos h, compress_eq, markedAs, payloadOf]
  by_cases hcompress : Compresses cfg m.toContent
  · rw [if_pos hcompress, if_pos hcompress, if_pos hcompress]
    exact ⟨rfl, rfl, rfl, rfl⟩
  · rw [if_neg hcompress, if_neg hcompress, if_neg hcompress]
    exact ⟨rfl, rfl, rfl, rfl⟩

/-- An unchanged one gives what it gave before. -/
theorem encode_of_clean (h : m.dirty = false) :
    (encode cfg m).1 = m.cache ∧ (encode cfg m).2.toContent = m.toContent ∧
      (encode cfg m).2.dirty = false ∧ (encode cfg m).2.cache = m.cache := by
  rw [encode, if_neg (by rw [h]; nofun)]
  exact ⟨rfl, rfl, h, rfl⟩

/-- Without the flag in its version, what is encoded is what is read. -/
theorem readFrame_encoded {content : Content}
    (h : ¬ (cfg.compressEnabled ∧ Flagged content.version)) :
    readFrame cfg (markedAs cfg content) (payloadOf cfg content) = content := by
  rw [markedAs, payloadOf]
  by_cases hcompress : Compresses cfg content
  · rw [if_pos hcompress, if_pos hcompress, readFrame,
      if_pos ⟨hcompress.1, flagged_or content.version⟩, or_and_not_flag hcompress.2.2.1,
      cfg.snappy.round_trip]
  · rw [if_neg hcompress, if_neg hcompress, readFrame, if_neg h]

/-- With it, the version comes back without it. -/
theorem readFrame_encoded_ne {content : Content}
    (h : cfg.compressEnabled ∧ Flagged content.version) :
    readFrame cfg (markedAs cfg content) (payloadOf cfg content) ≠ content := by
  have hcompress : ¬ Compresses cfg content := fun hc => hc.2.2.1 h.2
  rw [markedAs, if_neg hcompress, readFrame, if_pos h]
  intro heq
  exact and_not_flag_ne h.2 (congrArg Content.version heq)

/-! ## Frames in a stream -/

variable {data : Bytes}

/-- What the receiver makes of the data so far. -/
def parse (data : Bytes) : Framing.Parse Content :=
  match decode cfg data with
  | .incomplete => .more
  | .error => .bad
  | .outOfRange => .bad
  | .done length m => .item length m.toContent

/-- Once the decoder does not ask for more, more changes nothing but the delivered length. -/
theorem parse_append (rest : Bytes) (h : parse cfg data ≠ .more) :
    parse cfg (data ++ rest) = parse cfg data := by
  by_cases hheader : data.length < HEADER_LENGTH
  · exact absurd (by rw [parse, decode, decodeFrame, if_pos hheader]) h
  have hlength : 16 ≤ data.length := Nat.not_lt.mp hheader
  have hlonger : ¬ (data ++ rest).length < HEADER_LENGTH := by
    rw [length_append]
    omega
  rw [parse, parse, decode, decode, decodeFrame, decodeFrame, if_neg hheader, if_neg hlonger,
    readNumber_append (by omega)]
  rw [parse, decode, decodeFrame, if_neg hheader] at h
  cases hannounced : readNumber data 0 4 with
  | none => rfl
  | some length =>
    rw [hannounced] at h
    dsimp only at h ⊢
    by_cases hmax : length > MAX_MESSAGE_LENGTH
    · rw [if_pos hmax, if_pos hmax]
    by_cases hshort : data.length < length
    · rw [if_neg hmax, if_pos hshort] at h
      exact absurd rfl h
    have hcovered : ¬ (data ++ rest).length < length := by
      rw [length_append]
      omega
    rw [if_neg hmax, if_neg hmax, if_neg hshort, if_neg hcovered, range_append (by omega),
      range_append (by omega), readNumber_append (by omega), readNumber_append (by omega),
      readNumber_append (by omega), readNumber_append (by omega)]
    cases range data 0 length with
    | none => rfl
    | some cache =>
    cases readNumber data 4 2 with
    | none => rfl
    | some version =>
    cases readNumber data 6 4 with
    | none => rfl
    | some protocolID =>
    cases readNumber data 10 2 with
    | none => rfl
    | some packetType =>
    cases readNumber data 12 4 with
    | none => rfl
    | some seq =>
    cases range data HEADER_LENGTH length with
    | none => rfl
    | some payload =>
      simp only [Option.bind_eq_bind, Option.bind_some]
      by_cases hflag : cfg.compressEnabled = true ∧
          UInt16.ofNat version &&& CompressFlag = CompressFlag
      · rw [if_pos hflag, if_pos hflag]
        rfl
      · rw [if_neg hflag, if_neg hflag]
        rfl

theorem decodeFrame_done {M : Type} {headerLength maxLength length : Nat} {read : Nat → Option M}
    {m : M} (h : decodeFrame headerLength maxLength data read = .done length m) :
    read length = some m ∧ length ≤ data.length := by
  rw [decodeFrame] at h
  split at h
  · cases h
  split at h
  · cases h
  split at h
  · cases h
  split at h
  · cases h
  split at h
  · cases h
  next hshort _ _ hread =>
    cases h
    exact ⟨hread, Nat.not_lt.mp hshort⟩

theorem decode_done {length : Nat} (h : decode cfg data = .done length m) :
    HEADER_LENGTH ≤ length ∧ length ≤ data.length := by
  obtain ⟨hread, hle⟩ := decodeFrame_done h
  simp only [Option.bind_eq_bind, Option.bind_eq_some_iff] at hread
  obtain ⟨-, -, -, -, -, -, -, -, -, -, payload, hpayload, -⟩ := hread
  rw [range] at hpayload
  split at hpayload
  · next hrange => exact hrange
  · cases hpayload

theorem stable_parse : Framing.Stable (parse cfg) where
  pos := by
    intro data length content h
    rw [parse] at h
    split at h
    all_goals cases h
    next m hdecode =>
      obtain ⟨hheader, hle⟩ := decode_done cfg hdecode
      exact ⟨Nat.lt_of_lt_of_le (by decide) hheader, hle⟩
  item rest h := by rw [parse_append cfg rest (by rw [h]; nofun), h]
  bad rest h := by rw [parse_append cfg rest (by rw [h]; nofun), h]

end P2PMessageRC2

end Rcc.P2p
