import Rcc.Lib.Layout
import Rcc.Lib.Except

/-!
# Rcc.Block.TxsParallelParser

The format in which a block carries its transactions, so that they can be decoded in parallel:

    [txNum] [[0], [offset1], [offset2] ...] [[txByte0], [txByte1], [txByte2] ...]

* `encode`, `encodeBytes` — the two overloads of `TxsParallelParser::encode`;
* `decode` — `TxsParallelParser::decode`.

The iterations of the parallel loops write to slots of their own, so they are maps here. Words
are written as the memory of a little-endian machine holds them.
-/

namespace Rcc.Block

open List

open Layout

abbrev Bytes := List UInt8

/-- The values of an `Offset_t`. -/
abbrev offsetRange : Nat := 4294967296

/-- The codec of a single transaction: `Transaction::rlp(WithSignature)` and
`Transaction::decode`, which throws on what is no list with fields. -/
structure Codec (Tx : Type) where
  rlp : Tx → Bytes
  decode : Bytes → Option Tx
  decode_rlp : ∀ tx, decode (rlp tx) = some tx
  decode_short : ∀ bytes, bytes.length < 2 → decode bytes = none

inductive ParserError
  /-- The number of transactions is read from behind the data. -/
  | outOfBounds
  | objectStart
  | noObjects
  | offset
  | transaction
deriving DecidableEq, Repr

def toBytes (num : Nat) : Bytes := word num

/-- The loop that adds up the sizes: `offsets[i + 1] += offsets[i]`. -/
def addUp (offset : Nat) : List Nat → List Nat
  | [] => [offset]
  | size :: sizes => offset :: addUp ((offset + size) % offsetRange) sizes

variable {Tx : Type} (codec : Codec Tx) (txs : List Tx)

/-- `encode(std::shared_ptr<Transactions>)`. -/
def encode : Bytes :=
  let txNum := txs.length % offsetRange
  if txNum = 0 then []
  else
    let txRLPs := (txs.take txNum).map codec.rlp
    let offsets := addUp 0 (txRLPs.map fun txByte => txByte.length % offsetRange)
    toBytes txNum ++ (offsets.flatMap toBytes ++ txRLPs.flatten)

/-- The variables of the loop of the other overload. -/
structure Encoder where
  offsets : List Nat := []
  offset : Nat := 0
  txBytes : Bytes := []

def Encoder.add (e : Encoder) (txByte : Bytes) : Encoder :=
  ⟨e.offsets ++ [e.offset], (e.offset + txByte.length) % offsetRange, e.txBytes ++ txByte⟩

/-- `encode(std::vector<bytes> const&)`. -/
def encodeBytes (txs : List Bytes) : Bytes :=
  let txNum := txs.length % offsetRange
  if txNum = 0 then []
  else
    let e := (txs.take txNum).foldl Encoder.add {}
    -- write the end
    let offsets := e.offsets ++ [e.offset]
    toBytes txNum ++ (offsets.flatMap toBytes ++ e.txBytes)

/-- `vector_ref::cropped`, which is empty where the range does not fit. -/
def cropped (bytes : Bytes) (offset size : Nat) : Bytes :=
  if offset + size ≤ bytes.length then slice bytes offset size else []

/-- One iteration of the parallel loop. -/
def decodeOne (offsets txBytes : Bytes) (maxOffset i : Nat) : Except ParserError Tx :=
  let offset := readWord (slice offsets (4 * i) 4)
  let next := readWord (slice offsets (4 * (i + 1)) 4)
  let size := (next + (offsetRange - offset)) % offsetRange
  if maxOffset < offset then .error .offset
  else
    match codec.decode (cropped txBytes offset size) with
    | some tx => .ok tx
    | none => .error .transaction

/-- What becomes of the vector of transactions. -/
def decode (bytes : Bytes) : Except ParserError (List Tx) :=
  if bytes.length = 0 then .ok txs
  else if bytes.length < 4 then .error .outOfBounds
  else
    let txNum := readWord (slice bytes 0 4)
    let objectStart := 4 * ((txNum + 2) % offsetRange)
    if bytes.length ≤ objectStart then .error .objectStart
    else
      let txBytes := bytes.drop objectStart
      if (txNum + 1) % offsetRange = 0 ∨ txBytes.length = 0 then .error .noObjects
      else
        let maxOffset := bytes.length - objectStart - 1
        (List.range txNum).mapM (decodeOne codec (bytes.drop 4) txBytes maxOffset)

/-! ### The offsets -/

theorem length_addUp (offset : Nat) (sizes : List Nat) :
    (addUp offset sizes).length = sizes.length + 1 := by
  induction sizes generalizing offset with
  | nil => rfl
  | cons size sizes ih => rw [addUp, length_cons, ih, length_cons]

/-- The offsets are the beginnings of the parts, if they fit. -/
theorem addUp_getElem? {parts : List Bytes} {offset i : Nat} (hi : i ≤ parts.length)
    (hfit : offset + start parts i < offsetRange) :
    (addUp offset (parts.map fun p => p.length % offsetRange))[i]?
      = some (offset + start parts i) := by
  induction parts generalizing offset i with
  | nil =>
    obtain rfl : i = 0 := by simpa using hi
    rfl
  | cons part parts ih =>
    cases i with
    | zero => rfl
    | succ i =>
      rw [start_cons_succ, ← Nat.add_assoc] at hfit
      have hpart : part.length % offsetRange = part.length := Nat.mod_eq_of_lt (by omega)
      have hoff : (offset + part.length) % offsetRange = offset + part.length :=
        Nat.mod_eq_of_lt (by omega)
      rw [map_cons, addUp, hpart, hoff, start_cons_succ, ← Nat.add_assoc]
      exact ih (by simpa using hi) hfit

/-- The loop of the second overload, from any of its states on. -/
theorem foldl_add (e : Encoder) (parts : List Bytes) :
    let e' := parts.foldl Encoder.add e
    e'.offsets ++ [e'.offset]
        = e.offsets ++ addUp e.offset (parts.map fun p => p.length % offsetRange) ∧
      e'.txBytes = e.txBytes ++ parts.flatten := by
  induction parts generalizing e with
  | nil => simp [addUp]
  | cons part parts ih =>
    obtain ⟨hoffsets, hbytes⟩ := ih (e.add part)
    refine ⟨hoffsets.trans ?_, hbytes.trans ?_⟩
    · rw [map_cons, addUp]
      simp [Encoder.add]
    · simp [Encoder.add]

theorem encodeBytes_map : encodeBytes (txs.map codec.rlp) = encode codec txs := by
  obtain ⟨hoffsets, hbytes⟩ := foldl_add {} ((txs.take (txs.length % offsetRange)).map codec.rlp)
  rw [encodeBytes, encode, length_map, ← map_take]
  simp only [hoffsets, hbytes, nil_append]

/-! ### Decoding -/

theorem two_le_length_rlp (tx : Tx) : 2 ≤ (codec.rlp tx).length := by
  by_contra h
  have hnone := codec.decode_short (codec.rlp tx) (by omega)
  rw [codec.decode_rlp] at hnone
  cases hnone

theorem two_mul_length_le : 2 * txs.length ≤ ((txs.map codec.rlp).map List.length).sum := by
  induction txs with
  | nil => simp
  | cons tx txs ih =>
    have htx := two_le_length_rlp codec tx
    simp only [map_cons, sum_cons, length_cons]
    omega

theorem decodeOne_eq {txs : List Tx} {rest : Bytes} {i : Nat} {tx : Tx}
    (hfit : ((txs.map codec.rlp).map List.length).sum < offsetRange) (htx : txs[i]? = some tx) :
    decodeOne codec ((addUp 0 ((txs.map codec.rlp).map fun p => p.length % offsetRange)).flatMap
      toBytes ++ rest) (txs.map codec.rlp).flatten ((txs.map codec.rlp).flatten.length - 1) i
      = .ok tx := by
  set parts := txs.map codec.rlp with hparts
  have hpart : parts[i]? = some (codec.rlp tx) := by simp [hparts, htx]
  have hi : i < parts.length := (List.getElem?_eq_some_iff.mp hpart).1
  have hend := start_add_length_le hpart
  have htwo := two_le_length_rlp codec tx
  rw [← length_flatten] at hfit
  change _ < 4294967296 at hfit
  have hstart : readWord (slice ((addUp 0 (parts.map fun p => p.length % offsetRange)).flatMap
      toBytes ++ rest) (4 * i) 4) = start parts i := by
    have hget := addUp_getElem? hi.le (show 0 + _ < 4294967296 by omega)
    rw [Nat.zero_add] at hget
    exact read_words hget (by omega) rest
  have hnext : readWord (slice ((addUp 0 (parts.map fun p => p.length % offsetRange)).flatMap
      toBytes ++ rest) (4 * (i + 1)) 4) = start parts i + (codec.rlp tx).length := by
    have hget := addUp_getElem? (i := i + 1) hi
      (show 0 + _ < 4294967296 by rw [start_succ hpart]; omega)
    rw [Nat.zero_add, start_succ hpart] at hget
    exact read_words hget (by omega) rest
  have hsize : (start parts i + (codec.rlp tx).length + (offsetRange - start parts i))
      % offsetRange = (codec.rlp tx).length := by
    show (_ + (4294967296 - _)) % 4294967296 = _
    omega
  rw [decodeOne, hstart, hnext, hsize, if_neg (by omega), cropped, if_pos hend,
    slice_flatten hpart, codec.decode_rlp]

/-- How the parts of the format are found. -/
theorem decode_layout {n : Nat} {table objects : Bytes} (hn : n + 2 < 4294967296)
    (htable : table.length = 4 * (n + 1)) (hobjects : 0 < objects.length) :
    decode codec txs (toBytes n ++ (table ++ objects))
      = (List.range n).mapM (decodeOne codec (table ++ objects) objects (objects.length - 1)) := by
  have hlen : (toBytes n ++ (table ++ objects)).length = 4 * (n + 2) + objects.length := by
    rw [length_append, length_append, toBytes, length_word]
    omega
  have hread : readWord (slice (toBytes n ++ (table ++ objects)) 0 4) = n := by
    rw [← length_word n, toBytes, slice_isPrefix, readWord_word (by omega)]
  have hstart : 4 * ((n + 2) % offsetRange) = 4 * (n + 2) := by rw [Nat.mod_eq_of_lt hn]
  have hobj : (toBytes n ++ (table ++ objects)).drop (4 * (n + 2)) = objects := by
    rw [← append_assoc, drop_left']
    rw [length_append, toBytes, length_word]
    omega
  have htail : (toBytes n ++ (table ++ objects)).drop 4 = table ++ objects :=
    drop_left' (length_word n)
  have hmax : 4 * (n + 2) + objects.length - 4 * (n + 2) - 1 = objects.length - 1 := by omega
  have hrange : ¬((n + 1) % offsetRange = 0 ∨ objects.length = 0) := by
    rw [Nat.mod_eq_of_lt (show n + 1 < 4294967296 by omega)]
    omega
  simp only [decode, hread, hstart, hobj, hlen, htail, hmax]
  rw [if_neg (by omega), if_neg (by omega), if_neg (by omega), if_neg hrange]

theorem decode_encode_of_lt (hfit : ((txs.map codec.rlp).map List.length).sum < 4294967296) :
    decode codec [] (encode codec txs) = .ok txs := by
  have htwo := two_mul_length_le codec txs
  have hnum : txs.length % offsetRange = txs.length :=
    Nat.mod_eq_of_lt (show _ < 4294967296 by omega)
  obtain rfl | hne := eq_or_ne txs []
  · rfl
  have hpos : 0 < txs.length := length_pos_iff.mpr hne
  simp only [encode, hnum, hpos.ne', ↓reduceIte, take_length]
  rw [decode_layout codec [] (by omega)]
  · exact Except.mapM_range_eq fun i tx htx => decodeOne_eq codec hfit htx
  · rw [show toBytes = word from rfl, length_words, length_addUp, length_map, length_map]
  · rw [length_flatten]
    omega

/-- The vector is only kept if there are no bytes. -/
theorem decode_of_ne_nil {bytes : Bytes} (hne : bytes ≠ []) :
    decode codec txs bytes = decode codec [] bytes := by
  simp only [decode, length_eq_zero_iff, hne, if_false]

/-- Decoding what was encoded gives the transactions back, and the overload for transactions
that are already encoded produces the same bytes. -/
theorem parallel_round_trip (codec : Codec Tx) (txs : List Tx)
    (hfit : (txs.map fun tx => (codec.rlp tx).length).sum < 2 ^ 32) :
    decode codec [] (encode codec txs) = .ok txs ∧
      encodeBytes (txs.map codec.rlp) = encode codec txs := by
  refine ⟨decode_encode_of_lt codec txs ?_, encodeBytes_map codec txs⟩
  rw [map_map]
  exact hfit

/-- Transactions of two bytes. -/
def pairCodec : Codec (UInt8 × UInt8) where
  rlp tx := [tx.1, tx.2]
  decode
    | [a, b] => some (a, b)
    | _ => none
  decode_rlp _ := rfl
  decode_short
    | [], _ => rfl
    | [_], _ => rfl

theorem two_pairs_round_trip :
    encode pairCodec [(1, 2), (3, 4)]
        = [2, 0, 0, 0, 0, 0, 0, 0, 2, 0, 0, 0, 4, 0, 0, 0, 1, 2, 3, 4] ∧
      decode pairCodec [] (encode pairCodec [(1, 2), (3, 4)]) = .ok [(1, 2), (3, 4)] :=
  ⟨by decide, (parallel_round_trip pairCodec [(1, 2), (3, 4)] (by decide)).1⟩

end Rcc.Block
