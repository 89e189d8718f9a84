import Rcc.Lib.Except
import Rcc.Rlp.Stream

/-!
# Rcc.Rlp.Frame

Headers as the reader sees them. An item is *framed* if it is a byte below `0x80`, or a header and
as many bytes as it says; the reader takes the headers of `lengthHeader` and no others, except the
one for a single byte of data.

* `length_header`, `actualSize_framed` — what the reader makes of a framed item;
* `length_inv`, `sizeAsEncoded_inv` — whatever the reader accepts is framed.
-/

namespace Rcc.Rlp

open List Except BigEndian

open BigEndian (bytesRequired)

/-- Lengths from here on are refused: an offset has to fit beside them. -/
def maxLength : Nat := 2 ^ 64 - 1 - 0x100

/-- The bytes of one item. -/
inductive Framed : List UInt8 → Prop
  | byte (x : UInt8) (hx : x.toNat < 0x80) : Framed [x]
  | data (p : List UInt8) (hone : p.length ≠ 1) (hfits : p.length < maxLength) :
      Framed (lengthHeader 0x80 p.length ++ p)
  | list (p : List UInt8) (hfits : p.length < maxLength) : Framed (lengthHeader 0xc0 p.length ++ p)

variable {d p : List UInt8} {l k start : Nat}

/-! ## Reading a header -/

variable {x : UInt8}

theorem toNat_ofNat_of_lt {n : Nat} (hn : n < 256) : (UInt8.ofNat n).toNat = n :=
  UInt8.toNat_ofNat_of_lt hn

theorem lengthHeader_cases (hstart : start ≤ 0xc0) (hl : l < maxLength) :
    ∃ x : UInt8, l < 56 ∧ x.toNat = start + l ∧ lengthHeader start l = [x] ∨
      56 ≤ l ∧ x.toNat = start + 55 + bytesRequired l ∧ 0 < bytesRequired l ∧
        bytesRequired l ≤ 8 ∧ lengthHeader start l = x :: BigEndian.encode l := by
  rw [lengthHeader]
  split
  · exact ⟨_, .inl ⟨‹_›, toNat_ofNat_of_lt (by omega), rfl⟩⟩
  · have hlt : l < 2 ^ 64 := by
      rw [maxLength] at hl
      omega
    have hle := bytesRequired_le_of_lt hlt
    exact ⟨_, .inr ⟨by omega, toNat_ofNat_of_lt (by omega),
      bytesRequired_pos (by omega), hle, rfl⟩⟩

theorem longLength_encode (x : UInt8) (hlo : 56 ≤ l) (hl : l < maxLength) :
    longLength (bytesRequired l) 56 (x :: (BigEndian.encode l ++ p)) = .ok l := by
  have hpos : 0 < bytesRequired l := BigEndian.bytesRequired_pos (by omega)
  have hlt : l < 2 ^ 64 := by
    rw [maxLength] at hl
    omega
  have hhead : (x :: (BigEndian.encode l ++ p))[1]? ≠ some 0 := by
    have := BigEndian.head?_encode_ne l
    cases henc : BigEndian.encode l with
    | nil => simp [← length_encode, henc] at hpos
    | cons b bs => simpa [henc] using this
  have htake : ((x :: (BigEndian.encode l ++ p)).drop 1).take (bytesRequired l)
      = BigEndian.encode l := by
    rw [drop_one, tail_cons, ← BigEndian.length_encode, take_left]
  have hnot : ¬ l ≥ 2 ^ 64 - 1 - 0x100 := not_le.mpr hl
  rw [longLength, if_neg (by simp), if_neg hhead,
    if_neg (by have := bytesRequired_le_of_lt hlt; simp only [maxLengthBytes]; omega)]
  simp only [htake, BigEndian.decode_encode]
  rw [if_neg (by omega), if_neg hnot]
  rfl

theorem requireGood_cons (hx : x.toNat ≠ 0x81) : requireGood (x :: d) = .ok () := by
  rw [requireGood, if_pos hx]
  rfl

/-- The headers of data, but for the one of a single byte, and those of lists are understood. -/
theorem length_header (hstart : start = 0x80 ∧ l ≠ 1 ∨ start = 0xc0) (hl : l < maxLength) :
    length (lengthHeader start l ++ p) = .ok l := by
  obtain ⟨x, ⟨hlt, hx, hhead⟩ | ⟨hge, hx, hpos, hle, hhead⟩⟩ :=
    lengthHeader_cases (show start ≤ 0xc0 by omega) hl
  · rw [hhead, singleton_append, length, requireGood_cons (by omega)]
    simp only [hx, dataImmLenStart, dataIndLenZero, listStart, listIndLenZero]
    rcases hstart with ⟨rfl, -⟩ | rfl
    · rw [if_neg (by omega), if_pos (by omega), Nat.add_sub_cancel_left]
      rfl
    · rw [if_neg (by omega), if_neg (by omega), if_neg (by omega), if_pos (by omega),
        Nat.add_sub_cancel_left]
      rfl
  · rw [hhead, cons_append, length, requireGood_cons (by omega)]
    simp only [hx, dataImmLenStart, dataIndLenZero, listStart, listIndLenZero]
    rcases hstart with ⟨rfl, -⟩ | rfl
    · rw [if_neg (by omega), if_neg (by omega), if_pos (by omega), Nat.add_sub_cancel_left]
      exact longLength_encode _ hge hl
    · rw [if_neg (by omega), if_neg (by omega), if_neg (by omega), if_neg (by omega),
        Nat.add_sub_cancel_left]
      exact longLength_encode _ hge hl

theorem lengthHeader_ne_nil (start l : Nat) : lengthHeader start l ≠ [] := by
  rw [lengthHeader]
  split <;> simp

/-- What the first byte of a header says, `start` being where its kind starts. -/
structure HeaderFlags (start offset : Nat) (d : List UInt8) : Prop where
  isNull : isNull d = false
  isSingleByte : isSingleByte d = false
  isData : isData d = decide (start = 0x80)
  isList : isList d = decide (start = 0xc0)
  payloadOffset : payloadOffset d = offset

theorem headerFlags_cons (hstart : start = 0x80 ∨ start = 0xc0) (hlo : start ≤ x.toNat)
    (hhi : x.toNat < start + 64) : HeaderFlags start (1 + lengthSize (x :: d)) (x :: d) := by
  have hsingle : isSingleByte (x :: d) = false := decide_eq_false (show ¬x.toNat < 0x80 by omega)
  refine ⟨rfl, hsingle, decide_eq_decide.mpr (show x.toNat < 0xc0 ↔ start = 0x80 by omega),
    decide_eq_decide.mpr (show 0xc0 ≤ x.toNat ↔ start = 0xc0 by omega), ?_⟩
  rw [payloadOffset, hsingle]
  rfl

theorem header_flags (hstart : start = 0x80 ∨ start = 0xc0) (hl : l < maxLength) :
    HeaderFlags start (lengthHeader start l).length (lengthHeader start l ++ p) := by
  obtain ⟨x, ⟨hlt, hx, hhead⟩ | ⟨hge, hx, hpos, hle, hhead⟩⟩ :=
    lengthHeader_cases (show start ≤ 0xc0 by omega) hl
  · have hsize : lengthSize (x :: p) = 0 := by
      simp only [lengthSize, listStart, dataIndLenZero, listIndLenZero]
      rw [if_neg (by omega), if_neg (by omega)]
    have hflags := headerFlags_cons (d := p) hstart (hx ▸ Nat.le_add_right _ _) (by omega)
    rw [hsize] at hflags
    rw [hhead]
    exact hflags
  · have hsize : lengthSize (x :: (BigEndian.encode l ++ p)) = bytesRequired l := by
      simp only [lengthSize, hx, listStart, dataIndLenZero, listIndLenZero]
      rcases hstart with rfl | rfl
      · rw [if_pos (by omega), Nat.add_sub_cancel_left]
      · rw [if_neg (by omega), if_pos (by omega), Nat.add_sub_cancel_left]
    have hflags := headerFlags_cons (x := x) (d := BigEndian.encode l ++ p) hstart (by omega)
      (by omega)
    rw [hsize, Nat.add_comm] at hflags
    rw [hhead, length_cons, length_encode]
    exact hflags

/-! ## Framed items are accepted -/

theorem Framed.ne_nil (h : Framed d) : d ≠ [] := by
  cases h with
  | byte x hx => simp
  | data p hone hfits | list p hfits => simp [lengthHeader_ne_nil]

theorem Framed.length_pos (h : Framed d) : 0 < d.length := length_pos_iff.mpr h.ne_nil

/-- The size of an item, whatever comes behind it. -/
theorem actualSize_framed (h : Framed d) : actualSize (d ++ p) = .ok d.length := by
  have hlong (start : Nat) (q : List UInt8) (hstart : start = 0x80 ∧ q.length ≠ 1 ∨ start = 0xc0)
      (hfits : q.length < maxLength) :
      actualSize (lengthHeader start q.length ++ q ++ p)
        = .ok (lengthHeader start q.length ++ q).length := by
    obtain ⟨hnull, hsingle, hdata, hlist, hoffset⟩ :=
      header_flags (p := q ++ p) (hstart.imp_left And.left) hfits
    have hkind : (isData (lengthHeader start q.length ++ (q ++ p)) ||
        isList (lengthHeader start q.length ++ (q ++ p))) = true := by
      rw [hdata, hlist]
      rcases hstart with ⟨rfl, -⟩ | rfl <;> rfl
    rw [append_assoc, actualSize, hnull, hsingle, hkind, hoffset, length_header hstart hfits,
      length_append]
    rfl
  cases h with
  | byte x hx =>
    have hsingle : isSingleByte (x :: p) = true := decide_eq_true hx
    simp [actualSize, hsingle]
    rfl
  | data q hone hfits => exact hlong 0x80 q (.inl ⟨rfl, hone⟩) hfits
  | list q hfits => exact hlong 0xc0 q (.inr rfl) hfits

theorem checkSize_pass {s : Strictness} {applies : Bool} {wrong : Nat → Bool} {error : Error}
    (hsize : actualSize d = .ok k) (hright : wrong k = false) :
    checkSize s applies wrong error d = .ok d := by
  rw [checkSize]
  split
  · rw [hsize, ok_bind, hright]
    rfl
  · rfl

/-- The constructor accepts an item by itself, whatever the flags. -/
theorem make_framed (h : Framed d) (s : Strictness) : make d s = .ok d := by
  have hsize : actualSize d = .ok d.length := by simpa using actualSize_framed h (p := [])
  rw [make, checkSize_pass hsize (by simp), ok_bind, checkSize_pass hsize (by simp)]

theorem sizeAsEncoded_framed (h : Framed d) : sizeAsEncoded (d ++ p) = .ok d.length := by
  have hsize := actualSize_framed h (p := p)
  have hmake : make (d ++ p) .item = .ok (d ++ p) := by
    rw [make, checkSize, if_neg (by simp [Strictness.item]), pure_bind]
    refine checkSize_pass hsize ?_
    simp
  rw [sizeAsEncoded, hmake, ok_bind, hsize]

/-! ## What is accepted is framed -/

theorem longLength_inv {size limit : Nat} (h : longLength size limit (x :: d) = .ok l)
    (hsize : 0 < size) :
    ∃ rest, d = BigEndian.encode l ++ rest ∧ bytesRequired l = size ∧ limit ≤ l ∧
      l < maxLength := by
  rw [longLength, ite_throw_eq_ok, ite_throw_eq_ok, ite_throw_eq_ok] at h
  obtain ⟨hlen, hzero, -, h⟩ := h
  rw [ite_throw_eq_ok, ite_throw_eq_ok, pure_eq_ok] at h
  obtain ⟨hlimit, hmax, hl⟩ := h
  have henc : BigEndian.encode l = d.take size := by
    rw [← hl]
    refine BigEndian.encode_decode ?_
    cases d with
    | nil => simp
    | cons b d =>
      obtain ⟨size, rfl⟩ := Nat.exists_eq_add_of_lt hsize
      simpa using hzero
  have hreq : bytesRequired l = size := by
    rw [← length_encode, henc, length_take]
    simp at hlen
    omega
  refine ⟨d.drop size, ?_, hreq, by omega, ?_⟩
  · rw [henc, take_append_drop]
  · rw [maxLength]
    omega

theorem requireGood_inv (h : requireGood (x :: d) = .ok ()) : x.toNat ≠ 0x81 := by
  intro hx
  rw [requireGood, if_neg (by simp [hx])] at h
  split at h <;> exact throw_ne_ok h

/-- A header that is understood is one of `lengthHeader`. -/
theorem length_inv (h : length (x :: d) = .ok l) :
    x.toNat < 0x80 ∧ l = 1 ∨
      ∃ start rest, (start = 0x80 ∧ l ≠ 1 ∨ start = 0xc0) ∧ x :: d = lengthHeader start l ++ rest ∧
        l < maxLength := by
  obtain ⟨⟨⟩, hgood, h⟩ := bind_eq_ok.mp h
  have hne := requireGood_inv hgood
  have hshort (start : Nat) (hle : start ≤ x.toNat) (hlt : x.toNat < start + 56)
      (hl : x.toNat - start = l) : x :: d = lengthHeader start l ++ d ∧ l < maxLength := by
    have hx : UInt8.ofNat (start + l) = x := by
      rw [show start + l = x.toNat by omega, UInt8.ofNat_toNat]
    rw [lengthHeader, if_pos (by omega), hx, maxLength]
    exact ⟨rfl, by omega⟩
  have hlong (start : Nat) (hlt : start + 55 < x.toNat)
      (hl : longLength (x.toNat - (start + 55)) 56 (x :: d) = .ok l) :
      ∃ rest, x :: d = lengthHeader start l ++ rest ∧ l < maxLength ∧ 56 ≤ l := by
    obtain ⟨rest, rfl, hreq, hlimit, hmax⟩ := longLength_inv hl (by omega)
    have hx : UInt8.ofNat (start + 55 + bytesRequired l) = x := by
      rw [show start + 55 + bytesRequired l = x.toNat by omega, UInt8.ofNat_toNat]
    refine ⟨rest, ?_, hmax, hlimit⟩
    rw [lengthHeader, if_neg (by omega), hx, cons_append]
  simp only [dataImmLenStart, dataIndLenZero, listStart, listIndLenZero] at h
  split at h
  · exact .inl ⟨‹_›, (pure_eq_ok.mp h).symm⟩
  right
  split at h
  · have hl := pure_eq_ok.mp h
    exact ⟨0x80, d, .inl ⟨rfl, by omega⟩, hshort 0x80 (by omega) (by omega) hl⟩
  split at h
  · obtain ⟨rest, heq, hmax, hlimit⟩ := hlong 0x80 (by omega) h
    exact ⟨0x80, rest, .inl ⟨rfl, by omega⟩, heq, hmax⟩
  split at h
  · have hl := pure_eq_ok.mp h
    exact ⟨0xc0, d, .inr rfl, hshort 0xc0 (by omega) (by omega) hl⟩
  · obtain ⟨rest, heq, hmax, -⟩ := hlong 0xc0 (by omega) h
    exact ⟨0xc0, rest, .inr rfl, heq, hmax⟩

/-- A size that is found and is there: that many bytes are an item. -/
theorem actualSize_inv (hd : d ≠ []) (h : actualSize d = .ok k) (hk : k ≤ d.length) :
    Framed (d.take k) := by
  obtain ⟨x, d, rfl⟩ := exists_cons_of_ne_nil hd
  rw [actualSize, if_neg (by simp [isNull])] at h
  split at h
  · rename_i hsingle
    obtain rfl := pure_eq_ok.mp h
    exact .byte x (of_decide_eq_true hsingle)
  · rename_i hsingle
    split at h
    · obtain ⟨l, hl, hsum⟩ := bind_eq_ok.mp h
      replace hsum := pure_eq_ok.mp hsum
      rcases length_inv hl with ⟨hx, -⟩ | ⟨start, rest, hstart, heq, hmax⟩
      · exact absurd (decide_eq_true hx) hsingle
      · rw [heq] at hsum hk ⊢
        rw [(header_flags (hstart.imp_left And.left) hmax).payloadOffset] at hsum
        have hrest : (rest.take l).length = l := by
          rw [length_take]
          rw [length_append] at hk
          omega
        have htake : (lengthHeader start l ++ rest).take k =
            lengthHeader start l ++ rest.take l := by
          rw [← hsum, take_length_add_append]
        rw [htake]
        rcases hstart with ⟨rfl, hone⟩ | rfl
        · have hframed := Framed.data (rest.take l) (by omega) (by omega)
          rwa [hrest] at hframed
        · have hframed := Framed.list (rest.take l) (by omega)
          rwa [hrest] at hframed
    · rename_i hkind
      have : isData (x :: d) || isList (x :: d) := by
        simp only [isData, isList]
        simp
        omega
      exact absurd this hkind

theorem checkSize_inv {s : Strictness} {wrong : Nat → Bool} {error : Error} {r : List UInt8}
    (hs : s.throwOnFail = true) (h : checkSize s true wrong error d = .ok r) :
    r = d ∧ ∃ k, actualSize d = .ok k ∧ wrong k = false := by
  obtain ⟨k, hk, h⟩ := bind_eq_ok.mp h
  split at h
  · rw [Strictness.fail, if_pos hs] at h
    exact absurd h throw_ne_ok
  · exact ⟨(pure_eq_ok.mp h).symm, k, hk, Bool.eq_false_iff.mpr ‹_›⟩

/-- What the constructor accepts with `VeryStrict` is an item, or empty. -/
theorem make_veryStrict_inv {r : List UInt8} (h : make d .veryStrict = .ok r) :
    r = d ∧ (d = [] ∨ Framed d) := by
  obtain ⟨d', hbig, hsmall⟩ := bind_eq_ok.mp h
  obtain ⟨rfl, k, hk, hlt⟩ := checkSize_inv rfl hbig
  obtain ⟨rfl, k', hk', hgt⟩ := checkSize_inv rfl hsmall
  obtain rfl := ok.inj (hk.symm.trans hk')
  simp only [decide_eq_false_iff_not] at hlt hgt
  refine ⟨rfl, ?_⟩
  by_cases hnil : r = []
  · exact .inl hnil
  · have hframed := actualSize_inv hnil hk (by omega)
    rw [take_of_length_le (by omega)] at hframed
    exact .inr hframed

theorem sizeAsEncoded_inv (hd : d ≠ []) (h : sizeAsEncoded d = .ok k) :
    k ≤ d.length ∧ Framed (d.take k) := by
  obtain ⟨d', hmake, hk⟩ := bind_eq_ok.mp h
  obtain ⟨rfl, k', hk', hgt⟩ := checkSize_inv rfl hmake
  obtain rfl := ok.inj (hk.symm.trans hk')
  simp only [decide_eq_false_iff_not] at hgt
  exact ⟨by omega, actualSize_inv hd hk (by omega)⟩

/-! ## Payloads -/

theorem payload_byte (hx : x.toNat < 0x80) : payload [x] = .ok [x] := by
  have hlength : length [x] = .ok 1 := by
    rw [length, requireGood_cons (by omega), if_pos hx]
    rfl
  have hoffset : payloadOffset [x] = 0 := by
    rw [payloadOffset, show isSingleByte [x] = true from decide_eq_true hx]
    rfl
  rw [payload, hlength, hoffset]
  rfl

theorem payload_header (hstart : start = 0x80 ∧ p.length ≠ 1 ∨ start = 0xc0)
    (hfits : p.length < maxLength) : payload (lengthHeader start p.length ++ p) = .ok p := by
  rw [payload, length_header hstart hfits, ok_bind,
    (header_flags (hstart.imp_left And.left) hfits).payloadOffset, if_neg (by simp), cropped,
    if_pos (by simp), drop_left, take_length]
  rfl

end Rcc.Rlp
