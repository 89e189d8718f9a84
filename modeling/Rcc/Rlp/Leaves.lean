import Rcc.Rlp.Frame

/-!
# Rcc.Rlp.Leaves

Byte strings, integers and hashes: what `toBytes`, `toInt` and `toHash` return for the encoding of
a byte string, and that they return no single byte from `0x80` on, for which there is no encoding
that the reader takes.
-/

namespace Rcc.Rlp

open List Except BigEndian

open BigEndian (bytesRequired)

variable {b d p : List UInt8} {l n : Nat} {s : Strictness}

/-! ## Data -/

/-- An encoded byte string as the reader sees it. -/
structure DataOf (b d : List UInt8) : Prop where
  isNull : isNull d = false
  isData : isData d = true
  isList : isList d = false
  requireGood : requireGood d = .ok ()
  length : length d = .ok b.length
  payload : payload d = .ok b
  isInt : isInt d = .ok (decide (b.head? ≠ some 0))

theorem rlpBytes_of_ne_one (hb : b.length ≠ 1) : rlpBytes b = lengthHeader 0x80 b.length ++ b := by
  rw [rlpBytes, if_neg fun h => hb h.1]

theorem rlpBytes_byte {x : UInt8} (hx : x.toNat < 0x80) : rlpBytes [x] = [x] := by
  rw [rlpBytes, if_pos (by simpa using hx)]

/-- A header of data is good unless it is the one of a single byte. -/
theorem requireGood_header (hl : l ≠ 1) (hfits : l < maxLength) :
    requireGood (lengthHeader 0x80 l ++ p) = .ok () := by
  obtain ⟨x, ⟨hlt, hx, hhead⟩ | ⟨hge, hx, hpos, hle, hhead⟩⟩ :=
    lengthHeader_cases (show 0x80 ≤ 0xc0 by decide) hfits
  · rw [hhead]
    exact requireGood_cons (by omega)
  · rw [hhead]
    exact requireGood_cons (by omega)

/-- Whether data is an integer is a matter of its first byte. -/
theorem isInt_header (hl : l ≠ 1) (hfits : l < maxLength) :
    isInt (lengthHeader 0x80 l ++ p) =
      if l = 0 then .ok true
      else match p.head? with
        | none => .error .badRLP
        | some x => .ok (decide (x ≠ 0)) := by
  obtain ⟨x, ⟨hlt, hx, hhead⟩ | ⟨hge, hx, hpos, hle, hhead⟩⟩ :=
    lengthHeader_cases (show 0x80 ≤ 0xc0 by decide) hfits
  · rw [hhead, singleton_append, isInt, requireGood_cons (by omega),
      if_neg (show ¬x.toNat < 0x80 by omega)]
    by_cases hl0 : l = 0
    · rw [if_pos (show x.toNat = 0x80 by omega), if_pos hl0]
      rfl
    · rw [if_neg (show ¬x.toNat = 0x80 by omega), if_pos (show x.toNat ≤ 0xb7 by omega),
        if_neg hl0, List.getElem?_cons_succ, ← List.head?_eq_getElem?]
      cases p.head? <;> rfl
  · rw [hhead, cons_append]
    have hindex : (x :: (BigEndian.encode l ++ p))[1 + (x.toNat - 0xb7)]? = p.head? := by
      rw [Nat.add_comm 1, List.getElem?_cons_succ, hx, Nat.add_sub_cancel_left,
        List.getElem?_append_right (by simp), BigEndian.length_encode, Nat.sub_self,
        List.head?_eq_getElem?]
    rw [isInt, requireGood_cons (by omega), ok_bind, if_neg (show ¬x.toNat < 0x80 by omega),
      if_neg (show ¬x.toNat = 0x80 by omega), if_neg (show ¬x.toNat ≤ 0xb7 by omega),
      if_pos (show x.toNat < 0xc0 by omega), hindex, if_neg (by omega)]
    cases p.head? <;> rfl

theorem dataOf_rlpBytes (hb : PlainBytes b) (hfits : b.length < maxLength) :
    DataOf b (rlpBytes b) := by
  by_cases hone : b.length = 1
  · obtain ⟨x, rfl⟩ := length_eq_one_iff.mp hone
    have hx := hb x rfl
    have hgood : requireGood [x] = .ok () := requireGood_cons (by omega)
    rw [rlpBytes_byte hx]
    refine ⟨rfl, decide_eq_true (show x.toNat < 0xc0 by omega),
      decide_eq_false (show ¬0xc0 ≤ x.toNat by omega), hgood, ?_, payload_byte hx, ?_⟩
    · rw [Rcc.Rlp.length, hgood, if_pos hx]
      rfl
    · rw [Rcc.Rlp.isInt, hgood, ok_bind, if_pos hx]
      simp
      rfl
  · rw [rlpBytes_of_ne_one hone]
    have hflags := header_flags (p := b) (.inl rfl) hfits
    refine ⟨hflags.isNull, hflags.isData, hflags.isList, requireGood_header hone hfits,
      length_header (.inl ⟨rfl, hone⟩) hfits, payload_header (.inl ⟨rfl, hone⟩) hfits, ?_⟩
    rw [isInt_header hone hfits]
    cases b with
    | nil => rfl
    | cons x b => simp

theorem framed_rlpBytes (hb : PlainBytes b) (hfits : b.length < maxLength) :
    Framed (rlpBytes b) := by
  by_cases hone : b.length = 1
  · obtain ⟨x, rfl⟩ := length_eq_one_iff.mp hone
    rw [rlpBytes_byte (hb x rfl)]
    exact .byte x (hb x rfl)
  · rw [rlpBytes_of_ne_one hone]
    exact .data b hone hfits

/-- A framed item that is data is the encoding of its payload. -/
theorem Framed.eq_rlpBytes (h : Framed d) (hd : Rcc.Rlp.isData d = true)
    (hp : Rcc.Rlp.payload d = .ok b) : d = rlpBytes b ∧ PlainBytes b := by
  cases h with
  | byte x hx =>
    obtain rfl := ok.inj ((payload_byte hx).symm.trans hp)
    refine ⟨(rlpBytes_byte hx).symm, fun y hy => ?_⟩
    cases hy
    exact hx
  | data p hone hfits =>
    obtain rfl := ok.inj ((payload_header (.inl ⟨rfl, hone⟩) hfits).symm.trans hp)
    exact ⟨(rlpBytes_of_ne_one hone).symm, plainBytes_of_ne_one hone⟩
  | list p hfits =>
    have hflags := header_flags (p := p) (.inr rfl) hfits
    exact absurd (hflags.isData.symm.trans hd) (by decide)

/-! ## What is returned for an encoded byte string -/

theorem toBytes_dataOf (h : DataOf b d) : toBytes d s = .ok b := by
  rw [toBytes, h.isData, h.payload, h.length]
  simp only [Bool.not_true, if_false, ok_bind, lt_irrefl]
  rfl

theorem toHash_dataOf (h : DataOf b d) : toHash b.length d s = .ok b := by
  rw [toHash, h.requireGood, ok_bind, h.payload, ok_bind, h.isData]
  simp
  rfl

theorem toInt_dataOf {t : IntType} (h : DataOf (BigEndian.encode n) d) (ht : t.Holds n)
    (hn : bytesRequired n < 2 ^ 32) : toInt t d s = .ok n := by
  have hsize : ¬ bytesRequired n > t.maxSize := by
    rw [not_lt]
    cases t <;> first
      | exact bytesRequired_le_iff.mpr ht
      | exact Nat.le_pred_of_lt hn
  have hvalue : t.fromBigEndian (BigEndian.encode n) = n := by
    cases t <;> first
      | exact BigEndian.decode_encode n
      | simp only [IntType.fromBigEndian, BigEndian.decode_encode]; exact Nat.mod_eq_of_lt ht
  have hint : (!decide ((BigEndian.encode n).head? ≠ some 0) && !s.allowNonCanon || false || false)
      = false := by
    simp [BigEndian.head?_encode_ne]
  have hbig : (decide ((BigEndian.encode n).length > t.maxSize) && s.failIfTooBig) = false := by
    simp [hsize]
  rw [toInt, h.requireGood, ok_bind, h.isInt, ok_bind, h.isList, h.isNull, hint, h.payload]
  simp only [Bool.false_eq_true, ok_bind, hbig, hvalue]
  rfl

/-! ## What is returned is plain

The data need not be framed: whatever an `RLP` has been constructed on. -/

section

variable (hdata : isData d = true) (hp : payload d = .ok p)
include hdata hp

/-- The payload of data: a byte of its own, or what is behind a header that does not announce a
single byte. -/
theorem payload_inv :
    (∃ x rest, d = x :: rest ∧ x.toNat < 0x80 ∧ p = [x]) ∨
      ∃ l rest, d = lengthHeader 0x80 l ++ rest ∧ l ≠ 1 ∧ l < maxLength ∧
        (p = [] ∨ p = rest.take l ∧ p.length = l) := by
  cases d with
  | nil => cases hdata
  | cons x rest =>
    obtain ⟨l, hl, hp⟩ := bind_eq_ok.mp hp
    rw [ite_throw_eq_ok, pure_eq_ok] at hp
    rcases length_inv hl with ⟨hx, rfl⟩ | ⟨start, tail, hstart, heq, hmax⟩
    · refine .inl ⟨x, rest, rfl, hx, ?_⟩
      have hoffset : payloadOffset (x :: rest) = 0 := by
        rw [payloadOffset, show isSingleByte (x :: rest) = true from decide_eq_true hx]
        rfl
      rw [← hp.2, hoffset, cropped]
      rfl
    · have hflags := header_flags (p := tail) (hstart.imp_left And.left) hmax
      rw [heq] at hdata hp ⊢
      rcases hstart with ⟨rfl, hone⟩ | rfl
      · refine .inr ⟨l, tail, rfl, hone, hmax, ?_⟩
        rw [← hp.2, hflags.payloadOffset, cropped]
        split_ifs with hle
        · rw [length_append] at hle
          simp
          omega
        · exact .inl rfl
      · exact absurd (hflags.isData.symm.trans hdata) (by decide)

theorem payload_plain : PlainBytes p := by
  intro y hy
  rcases payload_inv hdata hp with ⟨x, rest, -, hx, rfl⟩ | ⟨l, rest, -, hone, -, hnil | ⟨-, hlen⟩⟩
  · simp at hy
    rwa [← hy]
  · simp [hnil] at hy
  · rw [hy] at hlen
    exact absurd hlen.symm hone

/-- What is taken for an integer has no leading zero. -/
theorem payload_head?_ne (hint : isInt d = .ok true) : p.head? ≠ some 0 := by
  rcases payload_inv hdata hp with
    ⟨x, rest, rfl, hx, rfl⟩ | ⟨l, rest, rfl, hone, hmax, rfl | ⟨hp, hlen⟩⟩
  · rw [isInt, requireGood_cons (by omega), if_pos hx] at hint
    simpa using pure_eq_ok.mp hint
  · simp
  · rw [isInt_header hone hmax] at hint
    by_cases hl : l = 0
    · simp [length_eq_zero_iff.mp (hlen.trans hl)]
    · rw [if_neg hl] at hint
      cases rest with
      | nil => cases hint
      | cons x rest =>
        obtain ⟨l, rfl⟩ := Nat.exists_eq_succ_of_ne_zero hl
        simpa [hp] using hint

end

/-- The flags with which a conversion throws what is too big or not canonical. -/
def Strictness.Throws (s : Strictness) : Prop :=
  s.throwOnFail = true ∧ s.failIfTooBig = true ∧ s.allowNonCanon = false

theorem Strictness.Throws.fail_ne_ok {α : Type} {x y : α} (hs : s.Throws) (error : Error) :
    s.fail error x ≠ .ok y := by
  rw [Strictness.fail, if_pos hs.1]
  exact throw_ne_ok

section
variable (hs : s.Throws)
include hs

theorem toBytes_inv (h : toBytes d s = .ok b) : isData d = true ∧ payload d = .ok b := by
  rw [toBytes] at h
  split_ifs at h with hdata
  · exact absurd h (hs.fail_ne_ok _)
  · obtain ⟨p, hp, h⟩ := bind_eq_ok.mp h
    obtain ⟨l, -, h⟩ := bind_eq_ok.mp h
    rw [ite_throw_eq_ok] at h
    exact ⟨by simpa using hdata, h.2 ▸ hp⟩

theorem toInt_inv {t : IntType} (h : toInt t d s = .ok n) :
    isData d = true ∧ payload d = .ok (BigEndian.encode n) ∧ bytesRequired n < 2 ^ 32 := by
  obtain ⟨⟨⟩, -, h⟩ := bind_eq_ok.mp h
  obtain ⟨int, hint, h⟩ := bind_eq_ok.mp h
  split_ifs at h with hnot
  · exact absurd h (hs.fail_ne_ok _)
  · simp only [hs.2.2, Bool.not_false, Bool.and_true, Bool.or_eq_true, not_or,
      Bool.not_eq_true', Bool.not_eq_false, Bool.not_eq_true] at hnot
    obtain ⟨⟨rfl, hlist⟩, hnull⟩ := hnot
    have hdata : isData d = true := by
      cases d with
      | nil => cases hnull
      | cons x d =>
        have hx : ¬0xc0 ≤ x.toNat := of_decide_eq_false hlist
        exact decide_eq_true (show x.toNat < 0xc0 by omega)
    obtain ⟨p, hp, h⟩ := bind_eq_ok.mp h
    rw [hs.2.1] at h
    split_ifs at h with hsize
    · exact absurd h (hs.fail_ne_ok _)
    · have hle : p.length ≤ t.maxSize := by simpa using hsize
      have hlt : decode p < 256 ^ t.maxSize :=
        (decode_lt p).trans_le (Nat.pow_le_pow_right (by norm_num) hle)
      have hvalue : t.fromBigEndian p = decode p := by
        cases t <;> first | rfl | exact Nat.mod_eq_of_lt hlt
      have hn : BigEndian.decode p = n := hvalue.symm.trans (pure_eq_ok.mp h)
      have henc : BigEndian.encode n = p := by
        rw [← hn, BigEndian.encode_decode (payload_head?_ne hdata hp hint)]
      refine ⟨hdata, henc ▸ hp, ?_⟩
      rw [← length_encode, henc]
      cases t <;> simp only [IntType.maxSize] at hle <;> omega

theorem toHash_inv {size : Nat} (h : toHash size d s = .ok b) :
    isData d = true ∧ ∃ p, payload d = .ok p ∧ p.length ≤ size ∧
      b = List.replicate (size - p.length) 0 ++ p ∧
        (s.failIfTooSmall = true → p.length = size) := by
  obtain ⟨⟨⟩, -, h⟩ := bind_eq_ok.mp h
  obtain ⟨p, hp, h⟩ := bind_eq_ok.mp h
  split_ifs at h with hnot
  · exact absurd h (hs.fail_ne_ok _)
  · simp [hs.2.1] at hnot
    obtain ⟨⟨hdata, hbig⟩, hsmall⟩ := hnot
    refine ⟨hdata, p, hp, hbig, ?_, fun hfail => ?_⟩
    · rw [← pure_eq_ok.mp h, Nat.min_eq_right hbig, take_length]
    · by_contra hne
      have := hsmall (by omega)
      simp [hfail] at this

end

end Rcc.Rlp
