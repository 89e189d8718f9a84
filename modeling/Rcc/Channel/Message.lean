import Rcc.P2p.Message

/-!
# Rcc.Channel.Message

`libchannelserver/ChannelMessage.h`: the frames between a node and its clients, and the topic at the
front of the payload of some of them.
-/

namespace Rcc.Channel

open P2p (Bytes range readNumber DecodeResult decodeFrame)

inductive MessageType where
  | CLIENT_REGISTER_EVENT_LOG
  | CLIENT_UNREGISTER_EVENT_LOG
  | AMOP_REQUEST
  | AMOP_RESPONSE
  | TRANSACTION_NOTIFY
  deriving DecidableEq

/-- The types of messages with a topic. -/
def MessageType.code : MessageType → UInt16
  | .CLIENT_REGISTER_EVENT_LOG => 0x15
  | .CLIENT_UNREGISTER_EVENT_LOG => 0x16
  | .AMOP_REQUEST => 0x30
  | .AMOP_RESPONSE => 0x31
  | .TRANSACTION_NOTIFY => 0x1000

structure ChannelMessage where
  type : UInt16 := 0
  seq : Bytes := List.replicate 32 48
  result : UInt32 := 0
  data : Bytes := []
  deriving DecidableEq

def HEADER_LENGTH : Nat := 4 + 2 + 32 + 4
def MAX_LENGTH : Nat := 100 * 1024 * 1024

/-- `ChannelMessage::decodeAMOP`. -/
def decodeAMOP (buffer : Bytes) : DecodeResult ChannelMessage :=
  decodeFrame HEADER_LENGTH MAX_LENGTH buffer fun length => do
    let type ← readNumber buffer 4 2
    let seq ← range buffer 6 (6 + 32)
    let result ← readNumber buffer 38 4
    let data ← range buffer HEADER_LENGTH length
    return { type := .ofNat type, seq := seq, result := .ofNat result, data := data }

/-! ## Topics -/

inductive TopicError where
  /-- `ChannelException(-1, what)` -/
  | channelException (what : String)
  /-- the constructor of `std::string`, for a length that is no length -/
  | lengthError
  /-- a read outside the payload -/
  | outOfRange
  deriving DecidableEq

/-- `std::string(data + first, count)`, with the count as a `size_t`. -/
def stringOf (data : Bytes) (first count : Nat) : Except TopicError Bytes :=
  if count ≥ 2 ^ 62 then .error .lengthError
  else
    match range data first (first + count) with
    | some topic => .ok topic
    | none => .error .outOfRange

variable (m : ChannelMessage)

/-- `TopicChannelMessage::topic`. -/
def topic : Except TopicError Bytes :=
  if ¬ (m.type = MessageType.code .AMOP_REQUEST ∨ m.type = MessageType.code .AMOP_RESPONSE ∨
      m.type = MessageType.code .TRANSACTION_NOTIFY ∨
      m.type = MessageType.code .CLIENT_REGISTER_EVENT_LOG ∨
      m.type = MessageType.code .CLIENT_UNREGISTER_EVENT_LOG) then
    .error (.channelException ("type: " ++ toString m.type.toNat ++
      " Not ChannelMessage, ChannelMessage type must be 0x30, 0x31 or 0x1001 or 0x15 or 0x16"))
  else
    match m.data with
    | [] => .error (.channelException "ERROR, message length: 0")
    | topicLen :: _ =>
      if m.data.length < topicLen.toNat then
        .error (.channelException ("ERROR, topic length topicLen: " ++
          toString topicLen.toNat ++ " size:" ++ toString m.data.length))
      else
        -- `topicLen - 1` as a `size_t`
        stringOf m.data 1 ((topicLen.toNat + (2 ^ 64 - 1)) % 2 ^ 64)

/-- `TopicChannelMessage::data`, as an offset into the payload. -/
def dataOffset : Except TopicError Nat := do
  return 1 + (← topic m).length

/-- `TopicChannelMessage::dataSize`, a `size_t`. -/
def dataSize : Except TopicError Nat := do
  return (m.data.length + (2 ^ 64 - 1) + (2 ^ 64 - (← topic m).length)) % 2 ^ 64

end Rcc.Channel
