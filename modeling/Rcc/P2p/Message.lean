import Rcc.Lib.BigEndian

/-!
# Rcc.P2p.Message

`libp2p/P2PMessage.cpp`, `libp2p/P2PMessageRC2.cpp`: the frames of the peer-to-peer network.
-/

namespace Rcc.P2p

open BigEndian

abbrev Bytes := List UInt8

/-! ## Reading a buffer -/

/-- The bytes from one index up to another. `none` is a range that is not one of the buffer. -/
def range (buffer : Bytes) (first last : Nat) : Option Bytes :=
  if first ≤ last ∧ last ≤ buffer.length then some ((buffer.drop first).take (last - first))
  else none

/-- `ntohs`, `ntohl` of the bytes at an offset. -/
def readNumber (buffer : Bytes) (offset size : Nat) : Option Nat :=
  (range buffer offset (offset + size)).map decode

/-- What `decode` ends with. -/
inductive DecodeResult (M : Type) where
  | incomplete
  | error
  | done (length : Nat) (message : M)
  /-- a read outside the buffer -/
  | outOfRange
  deriving DecidableEq

/-- What the decoders of this network and of the channels have in common: the announced length is
checked, and `read` reads the message of that length, or outside the buffer. -/
def decodeFrame {M : Type} (headerLength maxLength : Nat) (buffer : Bytes) (read : Nat → Option M) :
    DecodeResult M :=
  if buffer.length < headerLength then .incomplete
  else
    match readNumber buffer 0 4 with
    | none => .outOfRange
    | some length =>
      if length > maxLength then .error
      else if buffer.length < length then .incomplete
      else
        match read length with
        | none => .outOfRange
        | some message => .done length message

def MAX_MESSAGE_LENGTH : Nat := 100 * 1024 * 1024

/-! ## P2PMessage -/

/-- What a message carries. Of `PROTOCOL_ID`, an `int32_t`, these are the bits. -/
@[ext]
structure Content where
  version : UInt16 := 0
  protocolID : UInt32 := 0
  packetType : UInt16 := 0
  seq : UInt32 := 0
  buffer : Bytes := []
  deriving DecidableEq

namespace P2PMessage

def HEADER_LENGTH : Nat := 12

/-- `P2PMessage::decode`. This message has no version. The protocol id is read as an `int32_t` of
which `ntohs` keeps the first two bytes. -/
def decode (buffer : Bytes) : DecodeResult Content :=
  decodeFrame HEADER_LENGTH MAX_MESSAGE_LENGTH buffer fun length => do
    let protocolID ← range buffer 4 8
    let packetType ← readNumber buffer 6 2
    let seq ← readNumber buffer 8 4
    let payload ← range buffer HEADER_LENGTH length
    return { protocolID := .ofNat (BigEndian.decode (protocolID.take 2)),
             packetType := .ofNat packetType, seq := .ofNat seq, buffer := payload }

end P2PMessage

/-! ## P2PMessageRC2 -/

/-- `SnappyCompress`. -/
structure Compressor where
  compress : Bytes → Bytes
  uncompress : Bytes → Bytes
  round_trip : ∀ data, uncompress (compress data) = data
  /-- `snappy::MaxCompressedLength` -/
  bound : ∀ data, (compress data).length ≤ 32 + data.length + data.length / 6

structure Config where
  compressEnabled : Bool
  compressThreshold : Nat
  snappy : Compressor

def CompressFlag : UInt16 := 0x8000

/-- The members of `P2PMessageRC2`. -/
structure P2PMessageRC2 extends Content where
  length : UInt32 := 0
  cache : Bytes := []
  dirty : Bool := true
  deliveredLength : UInt32 := 0

namespace P2PMessageRC2

def HEADER_LENGTH : Nat := 16

variable (cfg : Config)

/-- The frame of a message. -/
def frame (content : Content) (payload : Bytes) : Bytes :=
  fixed 4 (HEADER_LENGTH + payload.length) ++
    (fixed 2 content.version.toNat ++ (fixed 4 content.protocolID.toNat ++
      (fixed 2 content.packetType.toNat ++ (fixed 4 content.seq.toNat ++ payload))))

variable (m : P2PMessageRC2)

/-- `encode(std::shared_ptr<bytes>)`. -/
def encodeBuffer (encodeBuffer : Bytes) : P2PMessageRC2 :=
  { m with
    length := .ofNat (HEADER_LENGTH + encodeBuffer.length)
    cache := frame m.toContent encodeBuffer
    dirty := false }

/-- The compressed data, if there is any, and the version marked. -/
def compress : Option (Bytes × P2PMessageRC2) :=
  if !cfg.compressEnabled ∨ m.buffer.length ≤ cfg.compressThreshold then none
  -- the packet has already been encoded
  else if m.version &&& CompressFlag = CompressFlag then none
  else
    let compressData := cfg.snappy.compress m.buffer
    if compressData.length < 1 then none
    else some (compressData, { m with version := m.version ||| CompressFlag })

/-- `encode(bytes&)`: the encoding, and the message after it. -/
def encode : Bytes × P2PMessageRC2 :=
  let m :=
    if m.dirty then
      match compress cfg m with
      | some (compressData, m) => encodeBuffer m compressData
      | none => encodeBuffer m m.buffer
    else m
  (m.cache, { m with deliveredLength := .ofNat m.cache.length })

def decode (buffer : Bytes) : DecodeResult P2PMessageRC2 :=
  decodeFrame HEADER_LENGTH MAX_MESSAGE_LENGTH buffer fun length => do
    let cache ← range buffer 0 length
    let version ← readNumber buffer 4 2
    let protocolID ← readNumber buffer 6 4
    let packetType ← readNumber buffer 10 2
    let seq ← readNumber buffer 12 4
    -- with a length below that of the header this goes backwards, or wraps around
    let payload ← range buffer HEADER_LENGTH length
    let m : P2PMessageRC2 :=
      { version := .ofNat version, protocolID := .ofNat protocolID,
        packetType := .ofNat packetType, seq := .ofNat seq, buffer := payload,
        length := .ofNat length, cache := cache, deliveredLength := .ofNat buffer.length }
    if cfg.compressEnabled ∧ m.version &&& CompressFlag = CompressFlag then
      return { m with
        buffer := cfg.snappy.uncompress payload
        version := m.version &&& ~~~CompressFlag }
    else return m

end P2PMessageRC2

end Rcc.P2p
