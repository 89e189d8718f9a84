import Rcc.Rlp.Reader

/-!
# Rcc.Abi.Codec

`libethcore/ABI.h`, `libethcore/ABI.cpp`: the encoding of arguments and results of contracts.

The overloads and the templates are functions by recursion over the types they are instantiated
with. `std::vector<bool>` is among these types, though no element of it can be handed to
`deserialise`.
-/

namespace Rcc.Abi

abbrev Bytes := List UInt8

def MAX_BYTE_LENGTH : Nat := 32

/-! ## Types and values -/

inductive Ty where
  | u256
  | s256
  | bool
  | address
  | string32
  | string
  | bytes
  | array (T : Ty) (N : Nat)
  | vector (T : Ty)
  deriving DecidableEq

abbrev U256 := Fin (2 ^ 256)

/-- `s256` has a sign and 256 bits. -/
abbrev S256 := { z : Int // z.natAbs < 2 ^ 256 }

/-- The `max_size` of `bytes`; that of other vectors is not larger. -/
def maxSize : Nat := 2 ^ 63 - 1

/-- The values of a type. A string is the bytes it consists of. -/
@[reducible] def Ty.Value : Ty → Type
  | .u256 => U256
  | .s256 => S256
  | .bool => Bool
  | .address => { b : Bytes // b.length = 20 }
  | .string32 => { b : Bytes // b.length = 32 }
  | .string => Bytes
  | .bytes => Bytes
  | .array T N => { xs : List T.Value // xs.length = N }
  | .vector T => { xs : List T.Value // xs.length ≤ maxSize }

/-- The arguments of a call. -/
@[reducible] def Args : List Ty → Type
  | [] => Unit
  | T :: Ts => T.Value × Args Ts

def removeDimension : Ty → Ty
  | .array T _ => removeDimension T
  | T => T

def abiStringType : Ty → Bool
  | .string => true
  | _ => false

def abiDynamicArray : Ty → Bool
  | .bytes => true
  | .vector _ => true
  | _ => false

def abiDynamicType (T : Ty) : Bool :=
  abiStringType (removeDimension T) || abiDynamicArray (removeDimension T)

/-- `Length`, the words a type takes in the head. -/
def length : Ty → Nat
  | .array T N => if abiDynamicType (.array T N) then 1 else N * length T
  | _ => 1

/-- `Offset`, the words of the head. -/
def offset (Ts : List Ty) : Nat := (Ts.map length).sum

/-! ## Encoding -/

/-- `h256(u256(n)).asBytes()`. -/
def word (n : Nat) : Bytes := BigEndian.fixed 32 n

/-- `_in.convert_to<u256>()`: the two's complement. -/
def toU256 (z : S256) : U256 :=
  ⟨(z.1 % 2 ^ 256).toNat, by
    have := Int.emod_nonneg z.1 (by norm_num : (2 ^ 256 : Int) ≠ 0)
    have := Int.emod_lt_of_pos z.1 (by norm_num : (0 : Int) < 2 ^ 256)
    omega⟩

def serialiseBytes (s : Bytes) : Bytes :=
  word s.length ++ (s ++
    List.replicate ((s.length + 31) / MAX_BYTE_LENGTH * MAX_BYTE_LENGTH - s.length) 0)

/-- The variables of the loops in which arrays are serialised. -/
structure Elements where
  offsetBytes : Bytes
  content : Bytes := []
  length : Nat

def Elements.add (dynamic : Bool) (e : Elements) (out : Bytes) : Elements :=
  if dynamic then
    ⟨e.offsetBytes ++ word e.length, e.content ++ out, e.length + out.length⟩
  else { e with content := e.content ++ out }

def serialise : (T : Ty) → T.Value → Bytes
  | .u256, n => word n.val
  | .s256, z => word (toU256 z).val
  | .bool, b => word (if b then 1 else 0)
  | .address, a => List.replicate 12 0 ++ a.1
  | .string32, s => s.1
  | .string, s => serialiseBytes s
  | .bytes, s => serialiseBytes s
  | .array T N, xs =>
    let e := (xs.1.map (serialise T)).foldl (Elements.add (abiDynamicType T))
      { offsetBytes := [], length := N * MAX_BYTE_LENGTH }
    e.offsetBytes ++ e.content
  | .vector T, xs =>
    let e := (xs.1.map (serialise T)).foldl (Elements.add (abiDynamicType T))
      { offsetBytes := word xs.1.length, length := xs.1.length * MAX_BYTE_LENGTH }
    e.offsetBytes ++ e.content

/-- The members `abiIn` works on. -/
structure Encoder where
  offset : Nat
  fixed : Bytes := []
  dynamic : Bytes := []

def abiInAux : (Ts : List Ty) → Args Ts → Encoder → Encoder
  | [], _, e => e
  | T :: Ts, (t, u), e =>
    let out := serialise T t
    if abiDynamicType T then
      abiInAux Ts u ⟨e.offset + out.length, e.fixed ++ word e.offset, e.dynamic ++ out⟩
    else abiInAux Ts u { e with fixed := e.fixed ++ out }

/-- `abiIn("", t...)`. `none` is the `length_error` of a vector that would get too long; no vector
on the way is longer than the last. -/
def abiIn (Ts : List Ty) (t : Args Ts) : Option Bytes :=
  let e := abiInAux Ts t { offset := offset Ts * MAX_BYTE_LENGTH }
  let out := e.fixed ++ e.dynamic
  if out.length ≤ maxSize then some out else none

/-! ## Decoding

Offsets and lengths come from the data here, and are computed with in 64 bits. -/

/-- `std::size_t`. -/
def sizeT (n : Nat) : Nat := n % 2 ^ 64

/-- `validOffset`, which throws. -/
def validOffset (data : Bytes) (pos : Nat) : Option Unit :=
  if pos ≥ data.length then none else some ()

/-- `deserialise(u256&)`. -/
def deserialiseU256 (data : Bytes) (pos : Nat) : Option Nat := do
  validOffset data (sizeT (pos + MAX_BYTE_LENGTH - 1))
  return BigEndian.decode (Rlp.cropped data pos MAX_BYTE_LENGTH)

/-- The conversion in `deserialise(s256&)`. -/
def toS256 (u : U256) : S256 :=
  if h : u.val > 0x8fffffffffffffffffffffffffffffffffffffffffffffffffffffffffffffff then
    ⟨-((2 ^ 256 - 1 - u.val) + 1), by have := u.isLt; omega⟩
  else ⟨u.val, by have := u.isLt; omega⟩

def deserialiseBytes (data : Bytes) (pos : Nat) : Option Bytes := do
  let len := sizeT (← deserialiseU256 data pos)
  validOffset data (sizeT (pos + MAX_BYTE_LENGTH + len - 1))
  return Rlp.cropped data (sizeT (pos + MAX_BYTE_LENGTH)) len

/-- `data.cropped(pos, size).populate(out)`. -/
def populate (size : Nat) (data : Bytes) (pos : Nat) : { b : Bytes // b.length = size } :=
  ⟨(Rlp.cropped data pos size ++ List.replicate size 0).take size, by simp⟩

/-- Where the `u`-th element of an array at `pos` stands. -/
def elementOffset (T : Ty) (data : Bytes) (pos u : Nat) : Option Nat :=
  if abiDynamicType T then do
    let thisEleOffset ← deserialiseU256 data (sizeT (pos + u * offset [T] * MAX_BYTE_LENGTH))
    return sizeT (pos + sizeT thisEleOffset)
  else some (sizeT (pos + u * offset [T] * MAX_BYTE_LENGTH))

/-- The loop over the elements, from the `u`-th on. -/
def elements {α : Type} (read : Nat → Option α) (u : Nat) :
    (k : Nat) → Option { xs : List α // xs.length = k }
  | 0 => some ⟨[], rfl⟩
  | k + 1 => do
    let x ← read u
    let xs ← elements read (u + 1) k
    return ⟨x :: xs.1, congrArg (· + 1) xs.2⟩

/-- The elements of a vector, which `resize` makes room for, or throws. -/
def resized {α : Type} (read : Nat → Option α) (length : Nat) :
    Option { xs : List α // xs.length ≤ maxSize } :=
  if h : length ≤ maxSize then do
    let xs ← elements read 0 length
    return ⟨xs.1, xs.2.symm ▸ h⟩
  else none

def deserialise : (T : Ty) → Bytes → Nat → Option T.Value
  | .u256, data, pos => do
    return Fin.ofNat (2 ^ 256) (← deserialiseU256 data pos)
  | .s256, data, pos => do
    return toS256 (Fin.ofNat (2 ^ 256) (← deserialiseU256 data pos))
  | .bool, data, pos => do
    return decide ((← deserialiseU256 data pos) > 0)
  | .address, data, pos => do
    validOffset data (sizeT (pos + MAX_BYTE_LENGTH - 1))
    return populate 20 data (sizeT (pos + MAX_BYTE_LENGTH - 20))
  | .string32, data, pos => do
    validOffset data (sizeT (pos + MAX_BYTE_LENGTH - 1))
    return populate 32 data pos
  | .string, data, pos => deserialiseBytes data pos
  | .bytes, data, pos => deserialiseBytes data pos
  | .array T N, data, pos =>
    elements (fun u => do deserialise T data (← elementOffset T data pos u)) 0 N
  | .vector T, data, pos => do
    let length := sizeT (← deserialiseU256 data pos)
    let pos := sizeT (pos + MAX_BYTE_LENGTH)
    resized (fun u => do deserialise T data (← elementOffset T data pos u)) length

def abiOutAux (data : Bytes) : (Ts : List Ty) → Nat → Option (Args Ts)
  | [], _ => some ()
  | T :: Ts, pos => do
    let thisOffset ← if abiDynamicType T then sizeT <$> deserialiseU256 data pos else some pos
    let t ← deserialise T data thisOffset
    let u ← abiOutAux data Ts (sizeT (pos + offset [T] * MAX_BYTE_LENGTH))
    return (t, u)

/-- `abiOut`; `none` is `false`. -/
def abiOut (Ts : List Ty) (data : Bytes) : Option (Args Ts) := abiOutAux data Ts 0

end Rcc.Abi
