import Mathlib.Data.List.Chain
import Mathlib.Data.UInt
import Rcc.Rlp.Stream

/-!
# Rcc.Pbft.Forward

`handleMsg` forwards a message it has accepted, with one less to live (`forwardMsgByTTL`). The
lowest seven bits of a byte of the packet are the time to live, the eighth one marks a prepare
message with an empty block.

The byte is read by `toInt<uint8_t>`, which throws from 128 on. So a packet that is read has no
mark, and is forwarded without one. A packet with a time to live of 1 is not forwarded, but one with
0 is: it goes out with 255, which no receiver reads. Every other packet that is read is forwarded
with a time to live one smaller (`forwarding_dies_out`).
-/

namespace Rcc.Pbft.Forward

/-- What `PBFTMsgPacket` keeps in the byte. -/
structure PBFTMsgPacket where
  ttl : UInt8
  prepareWithEmptyBlock : Bool
  deriving DecidableEq

/-- `populate` on the item of the byte; `none` is that `toInt` throws. -/
def PBFTMsgPacket.populate (item : List UInt8) : Option PBFTMsgPacket :=
  match Rlp.toInt .uint8 item .strict with
  | .ok n =>
    let extendedTTL := UInt8.ofNat n
    some ⟨extendedTTL &&& 0x7f, extendedTTL &&& 0x80 ≠ 0⟩
  | .error _ => none

/-- `streamRLPFields` -/
def PBFTMsgPacket.toByte (p : PBFTMsgPacket) : UInt8 :=
  if p.prepareWithEmptyBlock then p.ttl ||| 0x80 else p.ttl

/-- What is read of a byte that was sent. -/
def PBFTMsgPacket.ofByte (extendedTTL : UInt8) : Option PBFTMsgPacket :=
  populate (Rlp.rlp (.int extendedTTL.toNat))

/-- A node and the message it has handled. -/
structure Handling where
  maxTTL : UInt8
  highestNumber : Int
  /-- what the handler has returned -/
  valid : Bool
  isPrepare : Bool
  uniqueKey : String
  height : Int
  /-- of the packet, by pointer -/
  forwardNodes : Option (List Nat)

namespace Handling

variable (h : Handling)

/-- `needForwardMsg`, without the optimisation that forwards by other means. -/
def needForwardMsg (p : PBFTMsgPacket) : Bool :=
  if h.forwardNodes.any List.isEmpty then false
  else if !h.valid || h.uniqueKey.isEmpty then false
  else if p.ttl = 1 then false
  else h.height > h.highestNumber || h.highestNumber - h.height < 10

/-- `createPBFTMsgPacket`; the time to live is an `unsigned` that is cut down to a byte. -/
def createPBFTMsgPacket (ttl : UInt32) : PBFTMsgPacket :=
  ⟨if ttl = 0 then h.maxTTL else ttl.toUInt8, false⟩

/-- `forwardMsgByTTL` and `broadcastMsg`: the byte that is sent. `handlePrepareMsg` has taken
`isEmpty` of the message from the packet. -/
def forwardMsgByTTL (p : PBFTMsgPacket) : UInt8 :=
  let packet := h.createPBFTMsgPacket (p.ttl.toUInt32 - 1)
  let isEmpty := h.isPrepare && p.prepareWithEmptyBlock
  PBFTMsgPacket.toByte (if isEmpty then { packet with prepareWithEmptyBlock := true } else packet)

/-- The byte that goes out for a byte that came in. -/
def forwards (byte : UInt8) : Option UInt8 :=
  (PBFTMsgPacket.ofByte byte).bind fun p =>
    if h.needForwardMsg p then some (h.forwardMsgByTTL p) else none

end Handling

/-- Some node forwards one for the other. -/
def Forwarded (byte byte' : UInt8) : Prop := ∃ h : Handling, h.forwards byte = some byte'

theorem forall_byte {P : UInt8 → Prop} (h : ∀ n < 256, P (.ofNat n)) (byte : UInt8) : P byte :=
  UInt8.ofNat_toNat (x := byte) ▸ h byte.toNat byte.toNat_lt

theorem ofByte_eq : ∀ byte : UInt8,
    PBFTMsgPacket.ofByte byte = if byte < 0x80 then some ⟨byte, false⟩ else none :=
  forall_byte (by decide +kernel)

theorem ofByte_eq_some {byte : UInt8} {p : PBFTMsgPacket} :
    PBFTMsgPacket.ofByte byte = some p ↔ byte < 0x80 ∧ p = ⟨byte, false⟩ := by
  rw [ofByte_eq, Option.ite_none_right_eq_some, Option.some.injEq, eq_comm (b := p)]

/-- A packet that is read goes out without the mark, and with its time to live less one. -/
theorem forwardMsgByTTL_eq (h : Handling) {byte : UInt8} (hne : byte ≠ 1) :
    h.forwardMsgByTTL ⟨byte, false⟩ = byte - 1 := by
  have hall : ∀ byte : UInt8, byte ≠ 1 →
      byte.toUInt32 - 1 ≠ 0 ∧ (byte.toUInt32 - 1).toUInt8 = byte - 1 :=
    forall_byte (by decide +kernel)
  obtain ⟨hsub, hsent⟩ := hall byte hne
  rw [Handling.forwardMsgByTTL, Handling.createPBFTMsgPacket, if_neg hsub, Bool.and_false, hsent]
  rfl

theorem Forwarded.eq_sub_one {byte byte' : UInt8} (h : Forwarded byte byte') :
    byte < 0x80 ∧ byte ≠ 1 ∧ byte' = byte - 1 := by
  obtain ⟨h, hsent⟩ := h
  obtain ⟨p, hp, hsent⟩ := Option.bind_eq_some_iff.mp hsent
  obtain ⟨hlt, rfl⟩ := ofByte_eq_some.mp hp
  obtain ⟨hneed, hsent⟩ := Option.ite_none_right_eq_some.mp hsent
  have hne : byte ≠ 1 := by
    intro hone
    rw [Handling.needForwardMsg, if_pos (c := byte = 1) hone] at hneed
    simp at hneed
  rw [forwardMsgByTTL_eq h hne] at hsent
  exact ⟨hlt, hne, (Option.some.inj hsent).symm⟩

theorem toNat_sub_one : ∀ byte : UInt8, byte ≠ 0 → (byte - 1).toNat + 1 = byte.toNat :=
  forall_byte (by decide +kernel)

/-- What is sent for a packet that has something to live has less to live, but not nothing. -/
theorem Forwarded.toNat_lt {byte byte' : UInt8} (h : Forwarded byte byte') (hpos : byte ≠ 0) :
    byte'.toNat + 1 = byte.toNat ∧ byte' ≠ 0 := by
  obtain ⟨-, hone, rfl⟩ := h.eq_sub_one
  have hsub := toNat_sub_one byte hpos
  refine ⟨hsub, fun hzero => hone (UInt8.toNat.inj ?_)⟩
  rw [← hsub, hzero]
  rfl

theorem length_lt_toNat {byte : UInt8} {path : List UInt8} (hpos : byte ≠ 0)
    (hpath : (byte :: path).IsChain Forwarded) : path.length < byte.toNat := by
  induction path generalizing byte with
  | nil => exact Nat.pos_of_ne_zero fun hzero => hpos (UInt8.toNat.inj hzero)
  | cons byte' path ih =>
    obtain ⟨hstep, hpath⟩ := List.isChain_cons_cons.mp hpath
    obtain ⟨hlt, hpos'⟩ := hstep.toNat_lt hpos
    have := ih hpos' hpath
    rw [List.length_cons]
    omega

/-- A node that forwards whatever it may. -/
def willing : Handling := ⟨2, 0, true, true, "key", 1, none⟩

/-- **Forwarding dies out.** A packet is read, and whatever nodes forward it, the receiver reads a
smaller time to live, exactly if the byte is between 1 and 127; and no packet is passed on more than
126 times. -/
theorem forwarding_dies_out (byte : UInt8) :
    ((∃ p, PBFTMsgPacket.ofByte byte = some p ∧ ∀ byte', Forwarded byte byte' →
        ∃ p', PBFTMsgPacket.ofByte byte' = some p' ∧ p'.ttl < p.ttl) ↔ 0 < byte ∧ byte < 0x80) ∧
    ∀ path : List UInt8, (byte :: path).IsChain Forwarded → path.length ≤ 126 := by
  refine ⟨⟨fun ⟨p, hp, h⟩ => ?_, fun ⟨hpos, hlt⟩ => ?_⟩, fun path hpath => ?_⟩
  · refine ⟨UInt8.pos_iff_ne_zero.mpr ?_, (ofByte_eq_some.mp hp).1⟩
    rintro rfl
    obtain ⟨p', hp', -⟩ := h 255 ⟨willing, by decide +kernel⟩
    exact absurd (ofByte_eq_some.mp hp').1 (by decide)
  · refine ⟨_, ofByte_eq_some.mpr ⟨hlt, rfl⟩, fun byte' h => ?_⟩
    have hless : byte' < byte := by
      have := (h.toNat_lt (UInt8.pos_iff_ne_zero.mp hpos)).1
      exact UInt8.lt_iff_toNat_lt.mpr (by omega)
    exact ⟨_, ofByte_eq_some.mpr ⟨UInt8.lt_trans hless hlt, rfl⟩, hless⟩
  cases path with
  | nil => exact Nat.zero_le _
  | cons byte' path =>
    obtain ⟨hstep, hpath'⟩ := List.isChain_cons_cons.mp hpath
    obtain ⟨hlt, -, hsub⟩ := hstep.eq_sub_one
    by_cases hpos : byte = 0
    · -- nobody reads the 255 that is sent for a 0
      subst hpos hsub
      cases path with
      | nil => exact Nat.le_of_ble_eq_true rfl
      | cons byte'' path =>
        exact absurd (List.isChain_cons_cons.mp hpath').1.eq_sub_one.1 (by decide)
    · have := length_lt_toNat hpos hpath
      have := UInt8.lt_iff_toNat_lt.mp hlt
      have : (0x80 : UInt8).toNat = 128 := rfl
      omega

/-- A packet with nothing left to live is forwarded, with a byte that the receiver cannot read. -/
theorem expired_packet_unreadable :
    PBFTMsgPacket.ofByte 0 = some ⟨0, false⟩ ∧ willing.forwards 0 = some 255 ∧
      PBFTMsgPacket.ofByte 255 = none := by decide +kernel

end Rcc.Pbft.Forward
