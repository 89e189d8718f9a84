import Rcc.Lib.Run
import Rcc.P2p.Stream

/-!
# Rcc.P2p.Reencode

One `P2PMessageRC2` that is changed and encoded again and again.

`encode` keeps the encoding and gives it out until a setter changes a field. An encoding that
compresses sets a bit of the version, and the bit stays when another field is changed afterwards; to
`compress` the message then looks as if it had already been compressed, and the plain payload goes
into a frame that is marked.
-/

namespace Rcc.P2p

open List

namespace P2PMessageRC2

/-! ## Setters -/

variable (m : P2PMessageRC2)

/-- `m_length` counts the header of the base class. -/
def setBuffer (buffer : Bytes) : P2PMessageRC2 :=
  { m with
    buffer := buffer
    length := .ofNat (P2PMessage.HEADER_LENGTH + buffer.length)
    dirty := true }

/-- `setField`: the message with the new value is changed only if the value is another. -/
def setField {T : Type} [DecidableEq T] (originValue newValue : T) (changed : P2PMessageRC2) :
    P2PMessageRC2 := if originValue ≠ newValue then { changed with dirty := true } else m

def setSeq (seq : UInt32) : P2PMessageRC2 := m.setField m.seq seq { m with seq := seq }

def setProtocolID (protocolID : UInt32) : P2PMessageRC2 :=
  m.setField m.protocolID protocolID { m with protocolID := protocolID }

def setPacketType (packetType : UInt16) : P2PMessageRC2 :=
  m.setField m.packetType packetType { m with packetType := packetType }

def setVersion (version : UInt16) : P2PMessageRC2 :=
  m.setField m.version version { m with version := version }

variable {m}

/-- The message is changed, or had the value. -/
theorem setField_cases {T : Type} [DecidableEq T] {originValue newValue : T}
    (changed : P2PMessageRC2) (update : Content → Content)
    (hchanged : changed.toContent = update m.toContent)
    (hsame : originValue = newValue → update m.toContent = m.toContent) :
    (m.setField originValue newValue changed).dirty = true ∧
        (m.setField originValue newValue changed).toContent = update m.toContent ∨
      m.setField originValue newValue changed = m ∧ update m.toContent = m.toContent := by
  by_cases h : originValue = newValue
  · exact .inr ⟨if_neg (not_not.mpr h), hsame h⟩
  · rw [setField, if_pos h]
    exact .inl ⟨rfl, hchanged⟩

end P2PMessageRC2

open P2PMessageRC2

/-! ## Calls -/

inductive Call where
  | setBuffer (buffer : Bytes)
  | setSeq (seq : UInt32)
  | setProtocolID (protocolID : UInt32)
  | setPacketType (packetType : UInt16)
  | setVersion (version : UInt16)
  | encode

/-- The message, the values it was given, and the encodings so far, each with the values of then. -/
structure Object where
  message : P2PMessageRC2 := {}
  held : Content := {}
  encodings : List (Bytes × Content) := []

def Object.call (cfg : Config) (o : Object) : Call → Object
  | .setBuffer buffer =>
    { o with message := o.message.setBuffer buffer, held := { o.held with buffer := buffer } }
  | .setSeq seq => { o with message := o.message.setSeq seq, held := { o.held with seq := seq } }
  | .setProtocolID protocolID =>
    { o with
      message := o.message.setProtocolID protocolID
      held := { o.held with protocolID := protocolID } }
  | .setPacketType packetType =>
    { o with
      message := o.message.setPacketType packetType
      held := { o.held with packetType := packetType } }
  | .setVersion version =>
    { o with
      message := o.message.setVersion version, held := { o.held with version := version } }
  | .encode =>
    { o with
      message := (o.message.encode cfg).2
      encodings := o.encodings ++ [((o.message.encode cfg).1, o.held)] }

/-- The encoding is decoded to these values, and is marked as compressed only if it is. -/
def Faithful (cfg : Config) (encoding : Bytes) (held : Content) : Prop :=
  (∃ m, decode cfg encoding = .done encoding.length m ∧ m.toContent = held) ∧
    ∃ header payload, encoding = frame header payload ∧
      (Flagged header.version → payload = cfg.snappy.compress held.buffer)

/-- A changed message is encoded only without the bit in its version and if it fits, and no version
with the bit is set. -/
def Unmarked (cfg : Config) (o : Object) : Call → Prop
  | .setVersion version => ¬ Flagged version
  | .encode => o.message.dirty = true →
      ¬ Flagged o.message.version ∧ Fits cfg o.message.toContent
  | _ => True

/-- The message has the values it was given, but perhaps for the bit, and while it is unchanged its
encoding is one of these values. -/
structure Object.Tidy (cfg : Config) (o : Object) : Prop where
  plain : ¬ Flagged o.held.version
  same : o.message.toContent = o.held ∨
    o.message.toContent = { o.held with version := o.held.version ||| CompressFlag }
  cached : o.message.dirty = false → Faithful cfg o.message.cache o.held
  past : ∀ e ∈ o.encodings, Faithful cfg e.1 e.2

variable {cfg : Config} {o : Object}

/-- A fresh encoding of a message without the bit. -/
theorem faithful_frame {content : Content} (hplain : ¬ Flagged content.version)
    (hfits : Fits cfg content) :
    Faithful cfg (frame (markedAs cfg content) (payloadOf cfg content)) content := by
  constructor
  · obtain ⟨m, hdecode, hm⟩ := decode_frame cfg [] hfits
    rw [append_nil, ← length_frame (markedAs cfg content)] at hdecode
    exact ⟨m, hdecode, hm.trans (readFrame_encoded cfg fun h => hplain h.2)⟩
  · refine ⟨_, _, rfl, fun hflag => ?_⟩
    rw [markedAs] at hflag
    rw [payloadOf]
    split at hflag
    · next hcompress => rw [if_pos hcompress]
    · exact absurd hflag hplain

theorem Object.Tidy.encode (h : o.Tidy cfg) (hguard : Unmarked cfg o .encode) :
    (o.call cfg .encode).Tidy cfg := by
  cases hdirty : o.message.dirty with
  | true =>
    obtain ⟨hplain, hfits⟩ := hguard hdirty
    obtain ⟨hencoding, hcontent, -, hcache⟩ := encode_of_dirty cfg hdirty
    have hsame : o.message.toContent = o.held := by
      refine h.same.resolve_right fun hmarked => hplain ?_
      rw [hmarked]
      exact flagged_or o.held.version
    rw [hsame] at hencoding hcontent hfits
    have hfaithful := faithful_frame h.plain hfits
    rw [← hencoding] at hfaithful
    refine ⟨h.plain, ?_, fun _ => ?_, ?_⟩
    · rw [markedAs] at hcontent
      split at hcontent
      · exact .inr hcontent
      · exact .inl hcontent
    · exact hcache ▸ hfaithful
    · exact forall_mem_append.mpr ⟨h.past, forall_mem_singleton.mpr hfaithful⟩
  | false =>
    obtain ⟨hencoding, hcontent, -, hcache⟩ := encode_of_clean cfg hdirty
    have hfaithful := h.cached hdirty
    refine ⟨h.plain, ?_, fun _ => ?_, ?_⟩
    · exact hcontent ▸ h.same
    · exact hcache ▸ hfaithful
    · refine forall_mem_append.mpr ⟨h.past, forall_mem_singleton.mpr ?_⟩
      exact hencoding ▸ hfaithful

/-- A setter of a field other than the version. -/
theorem Object.Tidy.set (h : o.Tidy cfg) (update : Content → Content) {message : P2PMessageRC2}
    (hversion : ∀ c version, update { c with version := version } =
      { update c with version := version })
    (hset : message.dirty = true ∧ message.toContent = update o.message.toContent ∨
      message = o.message ∧ update o.message.toContent = o.message.toContent) :
    Object.Tidy cfg { o with message := message, held := update o.held } := by
  have hheld : (update o.held).version = o.held.version := by
    have hself := congrArg Content.version (hversion o.held o.held.version)
    exact hself
  have hplain : ¬ Flagged (update o.held).version := hheld ▸ h.plain
  have hmarked : update { o.held with version := o.held.version ||| CompressFlag } =
      { update o.held with version := (update o.held).version ||| CompressFlag } := by
    rw [hversion, hheld]
  rcases hset with ⟨hdirty, hcontent⟩ | ⟨rfl, hcontent⟩
  · refine ⟨hplain, ?_, (by rw [hdirty]; nofun), h.past⟩
    rcases h.same with hsame | hsame
    · exact .inl (hcontent.trans (congrArg update hsame))
    · exact .inr (hcontent.trans ((congrArg update hsame).trans hmarked))
  · have hsame : update o.held = o.held := by
      rcases h.same with hsame | hsame
      · rwa [hsame] at hcontent
      · rw [hsame, hmarked] at hcontent
        obtain ⟨-, hprotocol, htype, hseq, hbuffer⟩ := Content.mk.inj hcontent
        exact Content.ext hheld hprotocol htype hseq hbuffer
    rw [hsame]
    exact h

/-- The version is set without the bit, also if an encoding has set it. -/
theorem Object.Tidy.setVersion (h : o.Tidy cfg) {version : UInt16} (hplain : ¬ Flagged version) :
    (o.call cfg (.setVersion version)).Tidy cfg := by
  have hcontent : ({ o.message.toContent with version := version } : Content) =
      { o.held with version := version } := by
    rcases h.same with hsame | hsame <;> rw [hsame]
  by_cases heq : o.message.version = version
  · have hsame : o.message.toContent = o.held := by
      refine h.same.resolve_right fun hmarked => hplain ?_
      rw [← heq, hmarked]
      exact flagged_or o.held.version
    have hheld : ({ o.held with version := version } : Content) = o.held := by
      rw [← heq, hsame]
    rw [Object.call, P2PMessageRC2.setVersion, setField, if_neg (not_not.mpr heq), hheld]
    exact h
  · rw [Object.call, P2PMessageRC2.setVersion, setField, if_pos heq]
    exact ⟨hplain, .inl hcontent, nofun, h.past⟩

theorem Object.Tidy.call (h : o.Tidy cfg) {call : Call} (hguard : Unmarked cfg o call) :
    (o.call cfg call).Tidy cfg := by
  cases call with
  | setBuffer buffer =>
    exact h.set (fun c => { c with buffer := buffer }) (fun _ _ => rfl) (.inl ⟨rfl, rfl⟩)
  | setSeq seq =>
    refine h.set (fun c => { c with seq := seq }) (fun _ _ => rfl) ?_
    exact setField_cases { o.message with seq := seq }
      (fun c => { c with seq := seq }) rfl
      fun (hsame : o.message.seq = seq) => by rw [← hsame]
  | setProtocolID protocolID =>
    refine h.set (fun c => { c with protocolID := protocolID }) (fun _ _ => rfl) ?_
    exact setField_cases { o.message with protocolID := protocolID }
      (fun c => { c with protocolID := protocolID }) rfl
      fun (hsame : o.message.protocolID = protocolID) => by rw [← hsame]
  | setPacketType packetType =>
    refine h.set (fun c => { c with packetType := packetType }) (fun _ _ => rfl) ?_
    exact setField_cases { o.message with packetType := packetType }
      (fun c => { c with packetType := packetType }) rfl
      fun (hsame : o.message.packetType = packetType) => by rw [← hsame]
  | setVersion version => exact h.setVersion hguard
  | encode => exact h.encode hguard

/-! ## Runs -/

theorem tidy_init : Object.Tidy cfg {} where
  plain := by decide
  same := .inl rfl
  cached := nofun
  past := nofun

/-- **While no changed message is encoded with the bit in its version, no version with the bit is
set and all frames fit, every encoding is decoded to the values the message had been given.** -/
theorem encodings_faithful {calls : List Call} {o : Object}
    (h : Run (Guarded (Unmarked cfg) (Steps fun o call => some (o.call cfg call))) {} calls o) :
    ∀ e ∈ o.encodings, Faithful cfg e.1 e.2 := by
  have htidy : o.Tidy cfg := by
    refine h.invariant (fun _ o => o.Tidy cfg) tidy_init fun _ o call o' ho hstep => ?_
    obtain ⟨hguard, hcall⟩ := hstep
    exact Option.some.inj hcall ▸ ho.call hguard
  exact htidy.past

instance (cfg : Config) (o : Object) (call : Call) : Decidable (Unmarked cfg o call) := by
  cases call <;> unfold Unmarked <;> infer_instance

/-- The version is set again between two encodings that compress. -/
def resetBetween : List Call := [.setBuffer [1, 2, 3], .encode, .setSeq 7, .setVersion 0, .encode]

theorem reset_between_faithful :
    let o := resetBetween.foldl (Object.call compressing) {}
    o.encodings.length = 2 ∧ ∀ e ∈ o.encodings, Faithful compressing e.1 e.2 :=
  ⟨rfl,
    encodings_faithful (@guardedRun_of_exec _ _ _ {} _ resetBetween (Unmarked compressing) _ rfl)⟩

/-- Without that, the second encoding is the plain payload marked as compressed, and its first byte
is lost. -/
theorem second_encoding_marked :
    let o := [Call.setBuffer [1, 2, 3], .encode, .setSeq 7, .encode].foldl
      (Object.call compressing) {}
    o.held = { seq := 7, buffer := [1, 2, 3] } ∧
      ∃ m, decode compressing (o.message.encode compressing).1 = .done 19 m ∧
        m.toContent = { seq := 7, buffer := [2, 3] } := ⟨rfl, _, rfl, rfl⟩

end Rcc.P2p
