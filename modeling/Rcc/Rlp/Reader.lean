import Mathlib.Data.List.Basic
import Rcc.Lib.BigEndian

/-!
# Rcc.Rlp.Reader

The class `RLP` of `libdevcore`: reading byte strings in RLP format.

An `RLP` refers to bytes and remembers where its last subscript ended; here it is the bytes
(`List UInt8`) it refers to, and the memory is passed along by itself (`Cache`). A null reference
is the empty one. Exceptions are the errors of `Except`, and so are `outOfBounds`, a read outside
the data, and `diverges`, a loop that does not come to its end.
-/

namespace Rcc.Rlp

inductive Error
  | badRLP | badCast | oversizeRLP | undersizeRLP
  /-- `RLPException` of `RLPStream` -/
  | rlpException
  | outOfBounds | diverges
  deriving DecidableEq

/-- The conversion flags. -/
structure Strictness where
  allowNonCanon : Bool := false
  throwOnFail : Bool := false
  failIfTooBig : Bool := false
  failIfTooSmall : Bool := false
  deriving DecidableEq

def Strictness.strict : Strictness := { throwOnFail := true, failIfTooBig := true }

def Strictness.veryStrict : Strictness :=
  { throwOnFail := true, failIfTooBig := true, failIfTooSmall := true }

/-! ## Headers -/

/-- `c_rlpMaxLengthBytes` -/
abbrev maxLengthBytes : Nat := 8

/-- `c_rlpDataImmLenStart` -/
abbrev dataImmLenStart : Nat := 0x80

/-- `c_rlpListStart` -/
abbrev listStart : Nat := 0xc0

/-- `c_rlpDataImmLenCount`: what is between the two starts, less the lengths of lengths -/
abbrev dataImmLenCount : Nat := 56

/-- `c_rlpDataIndLenZero`: the last immediate length of data -/
abbrev dataIndLenZero : Nat := 0xb7

/-- `c_rlpListImmLenCount` -/
abbrev listImmLenCount : Nat := 56

/-- `c_rlpListIndLenZero`: the last immediate length of a list -/
abbrev listIndLenZero : Nat := 0xf7

variable (d : List UInt8)

def isNull : Bool := d.isEmpty

def isData : List UInt8 → Bool
  | [] => false
  | n :: _ => n.toNat < listStart

def isList : List UInt8 → Bool
  | [] => false
  | n :: _ => listStart ≤ n.toNat

def isSingleByte : List UInt8 → Bool
  | [] => false
  | n :: _ => n.toNat < dataImmLenStart

def requireGood : Except Error Unit :=
  match d with
  | [] => throw .badRLP
  | n :: _ =>
    if n.toNat ≠ dataImmLenStart + 1 then pure ()
    else if d.length < 2 then throw .badRLP
    -- `m_data[1] < c_rlpDataImmLenStart` is a condition of the log line alone
    else throw .badRLP

/-- The length behind a long header: `lengthSize` bytes, no leading zero, not below `limit`. -/
def longLength (lengthSize limit : Nat) (d : List UInt8) : Except Error Nat :=
  if d.length ≤ lengthSize then throw .badRLP
  else if d[1]? = some 0 then throw .badRLP
  else if lengthSize > maxLengthBytes then throw .undersizeRLP
  else
    let ret := BigEndian.decode ((d.drop 1).take lengthSize)
    if ret < limit then throw .badRLP
    else if ret ≥ 2 ^ 64 - 1 - 0x100 then throw .undersizeRLP
    else pure ret

def length : Except Error Nat :=
  match d with
  | [] => pure 0
  | n :: _ => do
    requireGood d
    if n.toNat < dataImmLenStart then pure 1
    else if n.toNat ≤ dataIndLenZero then pure (n.toNat - dataImmLenStart)
    else if n.toNat < listStart then
      longLength (n.toNat - dataIndLenZero) dataImmLenCount d
    else if n.toNat ≤ listIndLenZero then pure (n.toNat - listStart)
    else longLength (n.toNat - listIndLenZero) listImmLenCount d

def lengthSize : List UInt8 → Nat
  | [] => 0
  | n :: _ =>
    if n.toNat < listStart ∧ dataIndLenZero < n.toNat then n.toNat - dataIndLenZero
    else if listStart ≤ n.toNat ∧ listIndLenZero < n.toNat then n.toNat - listIndLenZero
    else 0

def payloadOffset : Nat := if isSingleByte d then 0 else 1 + lengthSize d

def actualSize : Except Error Nat :=
  if isNull d then pure 0
  else if isSingleByte d then pure 1
  else if isData d || isList d then return payloadOffset d + (← length d)
  else pure 0

/-- A failed conversion: an exception or the default value. -/
def Strictness.fail {α : Type} (s : Strictness) (error : Error) (default : α) : Except Error α :=
  if s.throwOnFail then throw error else pure default

variable (s : Strictness)

/-- One of the two checks of the constructor; without `ThrowOnFail` the reference is reset. -/
def checkSize (applies : Bool) (wrong : Nat → Bool) (error : Error)
    (d : List UInt8) : Except Error (List UInt8) :=
  if applies then do
    if wrong (← actualSize d) then s.fail error [] else pure d
  else pure d

/-- The constructor. -/
def make : Except Error (List UInt8) := do
  let data ← checkSize s s.failIfTooBig (fun size => size < d.length) .oversizeRLP d
  checkSize s s.failIfTooSmall (fun size => size > d.length) .undersizeRLP data

/-- The flags under which an item is looked at. -/
def Strictness.item : Strictness := { throwOnFail := true, failIfTooSmall := true }

def sizeAsEncoded : Except Error Nat := do
  actualSize (← make d .item)

/-- `vector_ref::cropped`: empty if anything is out of bounds. -/
def cropped (first count : Nat) : List UInt8 :=
  if first + count ≤ d.length then (d.drop first).take count else []

def payload : Except Error (List UInt8) := do
  let l ← length d
  if l > d.length then throw .badRLP else return cropped d (payloadOffset d) l

/-! ## Leaves -/

def isInt : Except Error Bool :=
  match d with
  | [] => pure false
  | n :: _ => do
    requireGood d
    if n.toNat < dataImmLenStart then pure (decide (n ≠ 0))
    else if n.toNat = dataImmLenStart then pure true
    else if n.toNat ≤ dataIndLenZero then
      match d[1]? with
      | none => throw .badRLP
      | some b => pure (decide (b ≠ 0))
    else if n.toNat < listStart then
      match d[1 + (n.toNat - dataIndLenZero)]? with
      | none => throw .badRLP
      | some b => pure (decide (b ≠ 0))
    else pure false

def toBytes : Except Error (List UInt8) :=
  if !isData d then s.fail .badCast []
  else do
    let p ← payload d
    -- `length()` bytes from the beginning of the payload
    if p.length < (← length d) then throw .outOfBounds else pure p

/-- The integer types `toInt` is used with. -/
inductive IntType
  | uint8 | uint16 | uint32 | uint64 | u160 | u256 | bigint
  deriving DecidableEq

/-- `intTraits<_T>::maxSize` -/
def IntType.maxSize : IntType → Nat
  | uint8 => 1
  | uint16 => 2
  | uint32 => 4
  | uint64 => 8
  | u160 => 20
  | u256 => 32
  | bigint => 2 ^ 32 - 1

/-- The numbers a type can hold. -/
def IntType.Holds (n : Nat) : IntType → Prop
  | bigint => True
  | t => n < 256 ^ t.maxSize

/-- `fromBigEndian<_T>`; what a type of fixed size cannot hold is shifted out. -/
def IntType.fromBigEndian (p : List UInt8) : IntType → Nat
  | bigint => BigEndian.decode p
  | t => BigEndian.decode p % 256 ^ t.maxSize

def toInt (t : IntType) (d : List UInt8) (s : Strictness) : Except Error Nat := do
  requireGood d
  if (!(← isInt d) && !s.allowNonCanon) || isList d || isNull d then s.fail .badCast 0
  else
    let p ← payload d
    if p.length > t.maxSize && s.failIfTooBig then s.fail .badCast 0
    else return t.fromBigEndian p

/-- `toHash` to a hash of `size` bytes; a shorter payload is put at its end. -/
def toHash (size : Nat) (d : List UInt8) (s : Strictness) : Except Error (List UInt8) := do
  requireGood d
  let p ← payload d
  if !isData d || (p.length > size && s.failIfTooBig) || (p.length < size && s.failIfTooSmall) then
    s.fail .badCast (List.replicate size 0)
  else
    return List.replicate (size - min size p.length) 0 ++ p.take (min size p.length)

/-! ## Lists -/

/-- The loop of `items`: item by item off the front. -/
def itemsLoop : Nat → List UInt8 → Except Error Nat
  | _, [] => pure 0
  | 0, _ => throw .diverges
  | fuel + 1, d => do
    let size ← sizeAsEncoded d
    return (← itemsLoop fuel (d.drop size)) + 1

/-- Every item has a byte at least. -/
def items : Except Error Nat :=
  if isList d then do
    let p ← payload d
    itemsLoop p.length p
  else pure 0

/-- `itemCount`, and `itemCountStrict` for a list. -/
def itemCount : Except Error Nat := if isList d then items d else pure 0

/-- An iterator: where the current item starts in the data of its parent, the size of the item,
and how much of the payload is left behind it. -/
structure Iterator where
  pos : Nat
  size : Nat
  remaining : Nat

namespace Iterator

variable (d : List UInt8)

def start : Except Error Iterator :=
  if isList d then do
    let p ← payload d
    let size ← sizeAsEncoded p
    return ⟨payloadOffset d, size, p.length - size⟩
  else pure ⟨d.length, 0, 0⟩

variable (it : Iterator)

/-- `it == end()`: the same address and the same size. -/
def AtEnd : Prop := it.pos = d.length ∧ it.size = 0

instance : Decidable (it.AtEnd d) := inferInstanceAs (Decidable (_ ∧ _))

def current : List UInt8 := (d.drop it.pos).take it.size

def next : Except Error Iterator :=
  if it.remaining ≠ 0 then do
    let size ← sizeAsEncoded ((d.drop (it.pos + it.size)).take it.remaining)
    return ⟨it.pos + it.size, size, it.remaining - min it.remaining size⟩
  else pure ⟨it.pos + it.size, 0, 0⟩

/-- The loop over the items from `it` on, with `f` for its body. -/
def loop {α : Type} (f : List UInt8 → Except Error α) : Nat → Iterator → Except Error (List α)
  | 0, it => if it.AtEnd d then pure [] else throw .diverges
  | fuel + 1, it =>
    if it.AtEnd d then pure []
    else do
      let x ← f (← make (it.current d) .veryStrict)
      return x :: (← loop f fuel (← it.next d))

end Iterator

/-- `for (auto it = begin(); it != end(); it++)`: the items do not outnumber the bytes. -/
def forEach {α : Type} (f : List UInt8 → Except Error α) (d : List UInt8) :
    Except Error (List α) := do
  Iterator.loop d f (d.length + 1) (← Iterator.start d)

def toList : Except Error (List (List UInt8)) :=
  if !isList d then s.fail .badCast [] else forEach pure d

/-- `toVector<T>`, where `convert` is `RLP::convert<T>`. -/
def toVector {α : Type} (convert : List UInt8 → Strictness → Except Error α) (d : List UInt8)
    (s : Strictness) : Except Error (List α) :=
  if isList d then do
    let _ ← itemCount d
    forEach (convert · s) d
  else s.fail .badCast []

/-- The list-indexing cache. -/
structure Cache where
  lastIndex : Nat := 2 ^ 64 - 1
  lastEnd : Nat := 0
  lastItem : List UInt8 := []

/-- The loop of `operator[]`, at most `n` rounds of it. -/
def Cache.advance (d : List UInt8) : Cache → Nat → Except Error Cache
  | c, 0 => pure c
  | c, n + 1 =>
    if c.lastItem.isEmpty then pure c
    else do
      let rest := (← payload d).drop c.lastEnd
      let item := rest.take (← sizeAsEncoded rest)
      Cache.advance d ⟨c.lastIndex + 1, c.lastEnd + item.length, item⟩ n

/-- To an index before the last one the search starts anew. -/
def Cache.rewind (i : Nat) (c : Cache) : Except Error Cache :=
  if i < c.lastIndex then do
    let p ← payload d
    let size ← sizeAsEncoded p
    return ⟨0, size, p.take size⟩
  else pure c

/-- `operator[]` -/
def index (i : Nat) (c : Cache) : Except Error (List UInt8 × Cache) := do
  let c ← c.rewind d i
  let c ← c.advance d (i - c.lastIndex)
  return (← make c.lastItem .item, c)

/-- One subscript after the other on the same `RLP`. -/
def indexAll (d : List UInt8) : List Nat → Cache → Except Error (List (List UInt8))
  | [], _ => pure []
  | i :: is, c => do
    let (item, c) ← index d i c
    return item :: (← indexAll d is c)

end Rcc.Rlp
