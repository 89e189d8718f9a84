import Rcc.Rlp.Reader

/-!
# Rcc.Rlp.Stream

The class `RLPStream` of `libdevcore`, and what it computes.

A list is announced by `appendList` with the number of its items; its header is put in front of
them when the last of them has been appended (`noteAppended`). `rlp` is the encoding by recursion
on the tree instead, and `append_eq` says that the stream ends up with it.
-/

namespace Rcc.Rlp

open List BigEndian

open BigEndian (bytesRequired)

/-! ## The stream -/

/-- The bytes of a list are tested, not all the bytes there are. -/
local instance decidableForallByte (d : List UInt8) (p : UInt8 → Prop) [DecidablePred p] :
    Decidable (∀ b ∈ d, p b) := List.decidableBAll p d

/-- The output and the open lists, innermost first: the items still missing and where the list
starts in the output. -/
structure RlpStream where
  out : List UInt8 := []
  listStack : List (Nat × Nat) := []
  deriving DecidableEq

/-- The loop of `pushInt` on the bytes before the pointer, last one first:
`for (; _i; _i >>= 8) *(b--) = (byte)_i`. -/
def writeBack : List UInt8 → Nat → Except Error (List UInt8)
  | [], i => if i = 0 then pure [] else throw .outOfBounds
  | b :: bs, i =>
    if i = 0 then pure (b :: bs)
    else return UInt8.ofNat i :: (← writeBack bs (i / 256))

variable (out : List UInt8)

/-- `br` bytes more, and `i` written over the end. -/
def pushInt (i br : Nat) : Except Error (List UInt8) :=
  (writeBack (out ++ List.replicate br 0).reverse i).map List.reverse

def pushCount (count base : Nat) : Except Error (List UInt8) :=
  let br := bytesRequired count
  if br + base > 0xff then throw .rlpException
  else pushInt (out ++ [UInt8.ofNat (br + base)]) count br

/-- A header: the length itself or, by `pushCount`, the number of its bytes and these. -/
def pushHeader (count immLenCount immLenStart indLenZero : Nat) :
    Except Error (List UInt8) :=
  if count < immLenCount then pure (out ++ [UInt8.ofNat (count + immLenStart)])
  else pushCount out count indLenZero

/-- The header of an integer of `br` bytes. -/
def pushIntHeader (br : Nat) : Except Error (List UInt8) :=
  if br < dataImmLenCount then pure (out ++ [UInt8.ofNat (br + dataImmLenStart)])
  else
    let brbr := bytesRequired br
    if dataIndLenZero + brbr > 0xff then throw .rlpException
    else pushInt (out ++ [UInt8.ofNat (dataIndLenZero + brbr)]) br brbr

/-- The header of a finished list whose items take `s` bytes. -/
def listHeader (s : Nat) : Except Error (List UInt8) :=
  if s < listImmLenCount then pure [UInt8.ofNat (listStart + s)]
  else if listIndLenZero + bytesRequired s ≤ 0xff then
    pure (UInt8.ofNat (listIndLenZero + bytesRequired s) :: encode s)
  else throw .rlpException

/-- The loop of `noteAppended`: a list that has all of its items gets its header and is an item of
the list around it. -/
def noteItems (out : List UInt8) : Nat → List (Nat × Nat) → Except Error RlpStream
  | _, [] => pure ⟨out, []⟩
  | itemCount, (missing, p) :: rest =>
    if missing < itemCount then throw .rlpException
    else if missing - itemCount ≠ 0 then pure ⟨out, (missing - itemCount, p) :: rest⟩
    else do
      let header ← listHeader (out.length - p)
      noteItems (out.take p ++ header ++ out.drop p) 1 rest

namespace RlpStream

def noteAppended (itemCount : Nat) (s : RlpStream) : Except Error RlpStream :=
  if itemCount = 0 then pure s else noteItems s.out itemCount s.listStack

variable (bytes : List UInt8)

def appendRaw (itemCount : Nat) (s : RlpStream) : Except Error RlpStream :=
  { s with out := s.out ++ bytes }.noteAppended itemCount

/-- `appendList` of items that are encoded already. -/
def appendEncodedList (s : RlpStream) : Except Error RlpStream := do
  let out ← pushHeader s.out bytes.length listImmLenCount listStart listIndLenZero
  { s with out }.appendRaw bytes 1

/-- `appendList` of the next `items` items. -/
def appendList (items : Nat) (s : RlpStream) : Except Error RlpStream :=
  if items ≠ 0 then pure { s with listStack := (items, s.out.length) :: s.listStack }
  else s.appendEncodedList []

/-- A header and the bytes. -/
def appendData (d : List UInt8) (s : RlpStream) : Except Error RlpStream := do
  let out ← pushHeader s.out d.length dataImmLenCount dataImmLenStart dataIndLenZero
  { s with out }.appendRaw d 0

/-- `append` of a byte string; `compact` leaves out leading zeros. -/
def appendBytes (compact : Bool) (s : RlpStream) : Except Error RlpStream := do
  let d := if compact then bytes.dropWhile (· = 0) else bytes
  let s' ←
    if d.length = 1 ∧ ∀ b ∈ d, b.toNat < dataImmLenStart then pure { s with out := s.out ++ d }
    else s.appendData d
  s'.noteAppended 1

/-- `append` of an integer; the number of its bytes is an `unsigned`. -/
def appendInt (i : Nat) (s : RlpStream) : Except Error RlpStream :=
  if i = 0 then { s with out := s.out ++ [UInt8.ofNat dataImmLenStart] }.noteAppended 1
  else if i < dataImmLenStart then { s with out := s.out ++ [UInt8.ofNat i] }.noteAppended 1
  else do
    let br := bytesRequired i % 2 ^ 32
    let out ← pushInt (← pushIntHeader s.out br) i br
    { s with out }.noteAppended 1

end RlpStream

/-! ## Trees -/

/-- A tree of byte strings, integers, hashes and lists. -/
inductive Value
  | bytes (b : List UInt8)
  | int (n : Nat)
  /-- a `FixedHash<N>`, `N` being the length -/
  | hash (h : List UInt8)
  | list (items : List Value)

mutual

/-- A tree is appended: `appendList` with the number of items, then the items. -/
def RlpStream.append (s : RlpStream) : Value → Except Error RlpStream
  | .bytes b => s.appendBytes b false
  | .int n => s.appendInt n
  | .hash h => s.appendBytes h false
  | .list items => do
    RlpStream.appendAll (← s.appendList items.length) items

def RlpStream.appendAll (s : RlpStream) : List Value → Except Error RlpStream
  | [] => pure s
  | v :: vs => do
    RlpStream.appendAll (← s.append v) vs

end

/-- `out()`, which insists on all lists being complete. -/
def RlpStream.result (s : RlpStream) : Except Error (List UInt8) :=
  if s.listStack.isEmpty then pure s.out else throw .rlpException

/-- A tree through a new stream. -/
def encode (v : Value) : Except Error (List UInt8) := do
  (← ({} : RlpStream).append v).result

/-! ## The encoding by recursion -/

/-- A header for `l` bytes: the length itself, or the number of its bytes and these. -/
def lengthHeader (start l : Nat) : List UInt8 :=
  if l < 56 then [UInt8.ofNat (start + l)]
  else UInt8.ofNat (start + 55 + bytesRequired l) :: BigEndian.encode l

/-- A single byte below `0x80` is its own encoding. -/
def rlpBytes (b : List UInt8) : List UInt8 :=
  if b.length = 1 ∧ ∀ x ∈ b, x.toNat < 0x80 then b else lengthHeader 0x80 b.length ++ b

mutual

def rlp : Value → List UInt8
  | .bytes b => rlpBytes b
  | .int n => rlpBytes (BigEndian.encode n)
  | .hash h => rlpBytes h
  | .list items => lengthHeader 0xc0 (rlpAll items).length ++ rlpAll items

def rlpAll : List Value → List UInt8
  | [] => []
  | v :: vs => rlp v ++ rlpAll vs

end

theorem length_le_rlpBytes (b : List UInt8) : b.length ≤ (rlpBytes b).length := by
  rw [rlpBytes]
  split
  · exact le_rfl
  · simp

/-! ## Trees that are read back

A byte string of a single byte from `0x80` on is not, and the number of bytes of an integer has to
fit in an `unsigned`. -/

def PlainBytes (b : List UInt8) : Prop := ∀ x, b = [x] → x.toNat < 0x80

theorem plainBytes_of_ne_one {b : List UInt8} (hb : b.length ≠ 1) : PlainBytes b := by
  rintro x rfl
  exact absurd rfl hb

mutual

def Value.Plain : Value → Prop
  | .bytes b => PlainBytes b
  | .int n => PlainBytes (BigEndian.encode n) ∧ bytesRequired n < 2 ^ 32
  | .hash h => PlainBytes h
  | .list items => PlainAll items

def PlainAll : List Value → Prop
  | [] => True
  | v :: vs => v.Plain ∧ PlainAll vs

end

mutual

/-- The number of bytes of an integer fits in an `unsigned`. -/
def Value.IntsFit : Value → Prop
  | .int n => bytesRequired n < 2 ^ 32
  | .list items => IntsFitAll items
  | _ => True

def IntsFitAll : List Value → Prop
  | [] => True
  | v :: vs => v.IntsFit ∧ IntsFitAll vs

end

mutual

theorem Value.Plain.intsFit : (v : Value) → v.Plain → v.IntsFit
  | .bytes _, _ => trivial
  | .int _, h => h.2
  | .hash _, _ => trivial
  | .list items, h => PlainAll.intsFitAll items h

theorem PlainAll.intsFitAll : (vs : List Value) → PlainAll vs → IntsFitAll vs
  | [], _ => trivial
  | v :: vs, h => ⟨Value.Plain.intsFit v h.1, PlainAll.intsFitAll vs h.2⟩

end

instance : DecidablePred PlainBytes
  | [] => isTrue (plainBytes_of_ne_one (by simp))
  | [x] => decidable_of_iff (x.toNat < 0x80) (by simp [PlainBytes])
  | _ :: _ :: _ => isTrue (plainBytes_of_ne_one (by simp))

mutual

def Value.decPlain : (v : Value) → Decidable v.Plain
  | .bytes b => inferInstanceAs (Decidable (PlainBytes b))
  | .int n => inferInstanceAs (Decidable (PlainBytes (BigEndian.encode n) ∧ _))
  | .hash h => inferInstanceAs (Decidable (PlainBytes h))
  | .list items => decPlainAll items

def decPlainAll : (vs : List Value) → Decidable (PlainAll vs)
  | [] => isTrue trivial
  | v :: vs => @instDecidableAnd _ _ v.decPlain (decPlainAll vs)

end

instance : DecidablePred PlainAll := decPlainAll

/-! ## The stream computes the encoding -/

variable {l : Nat}

theorem writeBack_eq (rest : List UInt8) (i : Nat) :
    writeBack (List.replicate (bytesRequired i) 0 ++ rest) i =
      .ok ((BigEndian.encode i).reverse ++ rest) := by
  induction i using Nat.strong_induction_on with
  | h i ih =>
    rcases Nat.eq_zero_or_pos i with rfl | hpos
    · cases rest <;> simp [bytesRequired] <;> rfl
    · have hne : i ≠ 0 := by omega
      rw [bytesRequired_succ hne, replicate_succ, cons_append, writeBack,
        if_neg hne, ih (i / 256) (by omega), encode_eq_concat hne]
      simp

variable (out : List UInt8)

theorem pushInt_eq (i : Nat) :
    pushInt out i (bytesRequired i) = .ok (out ++ BigEndian.encode i) := by
  rw [pushInt, reverse_append, reverse_replicate, writeBack_eq]
  simp [Except.map]

theorem pushCount_eq {out : List UInt8} {count base : Nat}
    (hfits : bytesRequired count + base ≤ 0xff) :
    pushCount out count base =
      .ok (out ++ UInt8.ofNat (base + bytesRequired count) :: BigEndian.encode count) := by
  rw [pushCount, if_neg (by omega), pushInt_eq, Nat.add_comm base]
  simp

theorem bytesRequired_le_of_lt (hl : l < 2 ^ 64) : bytesRequired l ≤ 8 :=
  bytesRequired_le_iff.mpr (by norm_num; exact hl)

theorem pushHeader_eq {start : Nat} (hstart : start ≤ 0xc0) (hl : l < 2 ^ 64) :
    pushHeader out l 56 start (start + 55) = .ok (out ++ lengthHeader start l) := by
  have := bytesRequired_le_of_lt hl
  rw [pushHeader, lengthHeader]
  split
  · rw [Nat.add_comm]
    rfl
  · rw [pushCount_eq (by omega)]

theorem pushIntHeader_eq (hl : l < 2 ^ 64) :
    pushIntHeader out l = .ok (out ++ lengthHeader 0x80 l) := by
  have := bytesRequired_le_of_lt hl
  simp only [pushIntHeader, lengthHeader, dataImmLenStart, dataIndLenZero]
  split
  · rw [Nat.add_comm]
    rfl
  · rw [if_neg (by omega), pushInt_eq]
    simp

theorem listHeader_eq (hl : l < 2 ^ 64) : listHeader l = .ok (lengthHeader 0xc0 l) := by
  have := bytesRequired_le_of_lt hl
  simp only [listHeader, lengthHeader, listStart, listIndLenZero]
  split
  · rfl
  · rw [if_pos (by omega)]
    rfl

theorem rlpBytes_encode_of_lt {i : Nat} (hne : i ≠ 0) (hlt : i < 0x80) :
    rlpBytes (BigEndian.encode i) = [UInt8.ofNat i] := by
  rw [BigEndian.encode_of_lt hne (by omega), rlpBytes]
  simp
  omega

theorem rlpBytes_encode {i : Nat} (hge : 0x80 ≤ i) :
    rlpBytes (BigEndian.encode i) = lengthHeader 0x80 (bytesRequired i) ++ BigEndian.encode i := by
  rw [rlpBytes, if_neg, BigEndian.length_encode]
  rintro ⟨hlen, hsmall⟩
  obtain ⟨x, hx⟩ := length_eq_one_iff.mp hlen
  have hval := decode_encode i
  have := hsmall x (by simp [hx])
  rw [hx, decode_singleton] at hval
  omega

namespace RlpStream

variable {s : RlpStream}

theorem appendData_eq (b : List UInt8) (hb : b.length < 2 ^ 64) :
    s.appendData b = .ok { s with out := s.out ++ (lengthHeader 0x80 b.length ++ b) } := by
  have hheader := pushHeader_eq s.out (show 0x80 ≤ 0xc0 by norm_num) hb
  rw [appendData, hheader, ← append_assoc]
  rfl

theorem appendBytes_eq (b : List UInt8) (hb : b.length < 2 ^ 64) :
    s.appendBytes b false = { s with out := s.out ++ rlpBytes b }.noteAppended 1 := by
  simp only [appendBytes, Bool.false_eq_true, if_false, appendData_eq b hb, rlpBytes]
  split <;> rfl

theorem appendInt_eq (i : Nat) (hi : bytesRequired i < 2 ^ 32) :
    s.appendInt i = { s with out := s.out ++ rlpBytes (BigEndian.encode i) }.noteAppended 1 := by
  simp only [appendInt, dataImmLenStart]
  split
  · subst i
    rfl
  · rename_i hne
    split
    · rename_i hlt
      rw [rlpBytes_encode_of_lt hne hlt]
    · rw [Nat.mod_eq_of_lt hi, pushIntHeader_eq _ (by omega), rlpBytes_encode (by omega),
        ← append_assoc]
      show (pushInt _ i (bytesRequired i) >>= _) = _
      rw [pushInt_eq]
      rfl

theorem noteAppended_one : s.noteAppended 1 = noteItems s.out 1 s.listStack := rfl

/-- The last item of a list: the header goes in front of the items. -/
theorem noteItems_complete {out : List UInt8} {p : Nat} {rest : List (Nat × Nat)}
    (hfits : out.length - p < 2 ^ 64) :
    noteItems out 1 ((1, p) :: rest) =
      noteItems (out.take p ++ lengthHeader 0xc0 (out.length - p) ++ out.drop p) 1 rest := by
  rw [noteItems, if_neg (by omega), listHeader_eq hfits]
  rfl

theorem appendList_nil : s.appendList 0 = { s with out := s.out ++ [0xc0] }.noteAppended 1 := by
  simp [appendList, appendEncodedList, appendRaw]
  rfl

end RlpStream

open RlpStream

mutual

/-- **The stream computes the encoding.** -/
theorem append_eq (s : RlpStream) (v : Value) (hv : v.IntsFit) (hfits : (rlp v).length < 2 ^ 64) :
    s.append v = { s with out := s.out ++ rlp v }.noteAppended 1 := by
  match v with
  | .bytes b => exact appendBytes_eq b (lt_of_le_of_lt (length_le_rlpBytes b) hfits)
  | .int n => exact appendInt_eq n hv
  | .hash h => exact appendBytes_eq h (lt_of_le_of_lt (length_le_rlpBytes h) hfits)
  | .list [] =>
    rw [RlpStream.append, length_nil, appendList_nil]
    exact bind_pure _
  | .list (v :: vs) =>
    rw [rlp, length_append] at hfits
    have hall := appendAll_eq s.out s.out.length s.listStack (v :: vs) (by simp) hv le_rfl
      (by rw [length_append]; omega)
    rw [take_left, drop_left, length_append, Nat.add_sub_cancel_left, append_assoc] at hall
    exact hall

/-- The items of an open list, all that are missing. -/
theorem appendAll_eq (out : List UInt8) (p : Nat) (rest : List (Nat × Nat)) (items : List Value)
    (hne : items ≠ []) (hitems : IntsFitAll items) (hp : p ≤ out.length)
    (hfits : (out ++ rlpAll items).length - p < 2 ^ 64) :
    RlpStream.appendAll ⟨out, (items.length, p) :: rest⟩ items =
      noteItems ((out ++ rlpAll items).take p ++
        lengthHeader 0xc0 ((out ++ rlpAll items).length - p) ++ (out ++ rlpAll items).drop p)
        1 rest := by
  match items with
  | [v] =>
    have hout : out ++ rlpAll [v] = out ++ rlp v := by simp [rlpAll]
    rw [hout] at hfits ⊢
    have hlen : (out ++ rlp v).length = out.length + (rlp v).length := length_append
    rw [RlpStream.appendAll, append_eq _ v hitems.1 (by omega), noteAppended_one,
      length_singleton, noteItems_complete hfits]
    exact bind_pure _
  | v :: w :: vs =>
    have hout : out ++ rlpAll (v :: w :: vs) = (out ++ rlp v) ++ rlpAll (w :: vs) := by
      simp [rlpAll]
    rw [hout] at hfits ⊢
    have hlen : ((out ++ rlp v) ++ rlpAll (w :: vs)).length
        = out.length + (rlp v).length + (rlpAll (w :: vs)).length := by
      simp only [length_append]
    rw [RlpStream.appendAll, append_eq _ v hitems.1 (by omega), noteAppended_one, length_cons]
    exact appendAll_eq (out ++ rlp v) p rest (w :: vs) (by simp) hitems.2
      (by rw [length_append]; omega) hfits

end

theorem encode_eq {v : Value} (hv : v.Plain) (hfits : (rlp v).length < 2 ^ 64) :
    encode v = .ok (rlp v) := by
  rw [encode, append_eq _ v hv.intsFit hfits]
  rfl

example : encode (.list [.bytes [1], .list [], .int 1024]) = .ok [0xc5, 1, 0xc0, 0x82, 4, 0] := by
  decide +kernel

end Rcc.Rlp
