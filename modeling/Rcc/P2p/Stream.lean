import Rcc.P2p.Frames

/-!
# Rcc.P2p.Stream

Messages sent over a byte stream, and the receive loop of `libnetwork/Session.cpp`.

The loop is `Framing.feed`: a piece is put behind what is left of the earlier ones and messages are
taken off its front; the decoder is a stable parser, so the pieces do not matter. What is left is
one frame after another. A frame longer than the maximum ends the session, and a version in which
the sender had set the bit of the compression comes back without it.
-/

namespace Rcc.P2p

open List

open Framing P2PMessageRC2

variable (cfg : Config)

/-- The encodings of these messages, one after another. -/
def send (contents : List Content) : Bytes :=
  (contents.map fun content => (encode cfg { toContent := content }).1).flatten

/-- `Session::doRead`: the messages handed over, `m_data`, and whether the session still reads. -/
def doRead (session : Drained UInt8 Content) (piece : Bytes) : Drained UInt8 Content :=
  feed (parse cfg) session piece

/-- What a new session makes of these pieces. -/
def receive (pieces : List Bytes) : Drained UInt8 Content :=
  pieces.foldl (doRead cfg) ⟨[], [], true⟩

variable (content : Content)

/-- The message is encoded into a frame that is not too long. -/
def Fits : Prop :=
  HEADER_LENGTH + (payloadOf cfg content).length ≤ MAX_MESSAGE_LENGTH

instance : Decidable (Fits cfg content) := inferInstanceAs (Decidable (_ ≤ _))

/-- What arrives of a message that fits. -/
def arriving : Content :=
  readFrame cfg (markedAs cfg content) (payloadOf cfg content)

variable {cfg} {content : Content} {contents : List Content}

theorem send_cons :
    send cfg (content :: contents) =
      frame (markedAs cfg content) (payloadOf cfg content) ++ send cfg contents := by
  rw [send, map_cons, (encode_of_dirty cfg rfl).1]
  rfl

theorem parse_of_fits (hfits : Fits cfg content) (rest : Bytes) :
    parse cfg (frame (markedAs cfg content) (payloadOf cfg content) ++ rest) =
      .item (HEADER_LENGTH + (payloadOf cfg content).length) (arriving cfg content) := by
  obtain ⟨m, hdecode, hm⟩ := decode_frame cfg rest hfits
  rw [parse, hdecode, arriving, ← hm]

theorem parse_of_not_fits (hmax : content.buffer.length ≤ MAX_MESSAGE_LENGTH)
    (hfits : ¬ Fits cfg content) (rest : Bytes) :
    parse cfg (frame (markedAs cfg content) (payloadOf cfg content) ++ rest) = .bad := by
  have hlength : HEADER_LENGTH + (payloadOf cfg content).length < 2 ^ 32 := by
    have hpayload := length_payloadOf_le cfg content
    rw [MAX_MESSAGE_LENGTH] at hmax
    rw [HEADER_LENGTH]
    omega
  rw [parse, decode_long_frame cfg rest (Nat.not_le.mp hfits) hlength]

theorem drain_send_cons (hfits : Fits cfg content) :
    drain (parse cfg) (send cfg (content :: contents)) =
      (drain (parse cfg) (send cfg contents)).push (arriving cfg content) := by
  rw [send_cons, drain_item (stable_parse cfg) (parse_of_fits hfits _), ← length_frame
    (markedAs cfg content), drop_left]

/-- Messages that all fit arrive one after another. -/
theorem drain_send (hfits : ∀ content ∈ contents, Fits cfg content) :
    drain (parse cfg) (send cfg contents) = ⟨contents.map (arriving cfg), [], true⟩ := by
  induction contents with
  | nil => exact drain_more rfl
  | cons content contents ih =>
    rw [drain_send_cons (hfits content mem_cons_self),
      ih fun c hc => hfits c (mem_cons_of_mem _ hc)]
    rfl

/-- The first that does not fit is the end. -/
theorem length_drain_send_lt
    (hmax : ∀ content ∈ contents, content.buffer.length ≤ MAX_MESSAGE_LENGTH)
    (hfits : ¬ ∀ content ∈ contents, Fits cfg content) :
    (drain (parse cfg) (send cfg contents)).values.length < contents.length := by
  induction contents with
  | nil => exact absurd nofun hfits
  | cons content contents ih =>
    by_cases hfirst : Fits cfg content
    · have hlater : ¬ ∀ c ∈ contents, Fits cfg c := fun h => hfits (forall_mem_cons.mpr ⟨hfirst, h⟩)
      have hlt := ih (fun c hc => hmax c (mem_cons_of_mem _ hc)) hlater
      rw [drain_send_cons hfirst]
      exact Nat.succ_lt_succ hlt
    · rw [send_cons, drain_bad (parse_of_not_fits (hmax content mem_cons_self) hfirst _)]
      exact Nat.succ_pos _

/-- However the stream is cut, messages that fit arrive. -/
theorem receive_of_fits {pieces : List Bytes} (hpieces : pieces.flatten = send cfg contents)
    (hfits : ∀ content ∈ contents, Fits cfg content) :
    (receive cfg pieces).values = contents.map (arriving cfg) ∧ (receive cfg pieces).rest = [] := by
  have hdrain := drain_send hfits
  obtain ⟨hvalues, -, hrest⟩ := feed_flatten (stable_parse cfg) rfl pieces
  rw [hpieces, hdrain] at hvalues hrest
  exact ⟨hvalues, hrest rfl⟩

/-- **The messages arrive as they were sent, and nothing is left, exactly if no frame is too long
and, with compression enabled, no version has the bit of the compression.** -/
theorem stream_delivers_iff (contents : List Content) (pieces : List Bytes)
    (hmax : ∀ content ∈ contents, content.buffer.length ≤ MAX_MESSAGE_LENGTH)
    (hpieces : pieces.flatten = send cfg contents) :
    ((receive cfg pieces).values = contents ∧ (receive cfg pieces).rest = []) ↔
      ∀ content ∈ contents, ¬ (cfg.compressEnabled ∧ Flagged content.version) ∧
        HEADER_LENGTH + (payloadOf cfg content).length ≤ MAX_MESSAGE_LENGTH := by
  by_cases hfits : ∀ content ∈ contents, Fits cfg content
  · obtain ⟨hvalues, hrest⟩ := receive_of_fits hpieces hfits
    rw [hvalues, hrest]
    constructor
    · rintro ⟨harrived, -⟩ content hmem
      refine ⟨fun hflag => readFrame_encoded_ne cfg hflag ?_, hfits content hmem⟩
      exact map_inj_left.mp (harrived.trans (map_id contents).symm) content hmem
    · intro h
      have hsame : contents.map (arriving cfg) = contents.map id :=
        map_inj_left.mpr fun content hmem => readFrame_encoded cfg (h content hmem).1
      exact ⟨hsame.trans (map_id contents), rfl⟩
  · refine iff_of_false ?_ fun h => hfits fun content hmem => (h content hmem).2
    rintro ⟨harrived, -⟩
    have hlt := length_drain_send_lt hmax hfits
    rw [← hpieces, ← (feed_flatten (stable_parse cfg) rfl pieces).1] at hlt
    exact Nat.lt_irrefl _ (harrived ▸ hlt)

/-! ## Two streams -/

/-- One byte in front of the data. -/
def tagged : Compressor where
  compress data := 0 :: data
  uncompress := List.tail
  round_trip _ := rfl
  bound data := by
    rw [length_cons]
    omega

def compressing : Config := ⟨true, 2, tagged⟩

/-- Two messages, one of them compressed, cut inside of the headers. -/
theorem two_messages_arrive :
    let contents : List Content := [{ seq := 7, buffer := [1, 2, 3] }, { version := 1 }]
    let data := send compressing contents
    (receive compressing [data.take 5, data.drop 5 |>.take 20, data.drop 25]).values = contents ∧
      (receive compressing [data.take 5, data.drop 5 |>.take 20, data.drop 25]).rest = [] :=
  (stream_delivers_iff _ _ (by decide) (by decide)).mpr (by decide)

/-- The highest bit of a version does not arrive. -/
theorem high_version_is_lost :
    (receive compressing [send compressing [{ version := 0x8001 }]]).values =
      [{ version := 1 }] := by
  have hfits : ∀ content ∈ [({ version := 0x8001 } : Content)], Fits compressing content := by
    decide
  rw [(receive_of_fits (append_nil _) hfits).1]
  decide

end Rcc.P2p
