import Rcc.Abi.Codec
import Rcc.Lib.HeadTail

/-!
# Rcc.Abi.RoundTrip

What `abiOut` makes of what `abiIn` has written.

Arrays and tuples are records of heads and tails, so a value is found wherever its encoding has
been put (`deserialise_serialise`), and everything is read as it was written except for signed
numbers. These are taken for negative from `0x9000…` on and not from `0x8000…` on: the smallest
`2 ^ 252` of them come back as positive numbers.
-/

namespace Rcc.Abi

open HeadTail Elements

/-! ## Words -/

@[simp] theorem length_word (n : Nat) : (word n).length = 32 := BigEndian.length_fixed 32 n

theorem sizeT_of_le {n size : Nat} (hn : n ≤ size) (hsize : size ≤ maxSize) : sizeT n = n :=
  Nat.mod_eq_of_lt (by unfold maxSize at hsize; omega)

section Reading

variable {data : Bytes} {pos : Nat} {block : Bytes}

theorem cropped_of_holds (h : Holds data pos block) :
    Rlp.cropped data pos block.length = block := by
  rw [Rlp.cropped, if_pos h.le, h.take_drop]

theorem populate_of_holds {size : Nat} (h : Holds data pos block) (hsize : block.length = size) :
    populate size data pos = ⟨block, hsize⟩ := by
  subst hsize
  apply Subtype.ext
  show (Rlp.cropped data pos block.length ++ _).take block.length = block
  rw [cropped_of_holds h, List.take_left]

variable (hdata : data.length ≤ maxSize)

include hdata

theorem validOffset_of_holds {k : Nat} (h : Holds data pos block) (hk : k < block.length) :
    validOffset data (sizeT (pos + k)) = some () := by
  have hle := h.le
  rw [sizeT_of_le (by omega) hdata, validOffset, if_neg (by omega)]

theorem deserialiseU256_of_holds {n : Nat} (h : Holds data pos (word n)) (hn : n < 2 ^ 256) :
    deserialiseU256 data pos = some n := by
  have hcrop := cropped_of_holds h
  rw [length_word] at hcrop
  rw [deserialiseU256, MAX_BYTE_LENGTH, Nat.add_sub_assoc (by norm_num),
    validOffset_of_holds hdata h (by simp), hcrop, word, BigEndian.decode_fixed (by omega)]
  rfl

theorem deserialiseBytes_of_holds {s : Bytes} (h : Holds data pos (serialiseBytes s)) :
    deserialiseBytes data pos = some s := by
  have hle := h.right.left.le
  rw [length_word] at hle
  have hlen : s.length ≤ data.length := by omega
  have hvalid : validOffset data (sizeT (pos + 32 + s.length - 1)) = some () := by
    rw [sizeT_of_le (by omega) hdata, validOffset, if_neg (by omega)]
  have hcrop := cropped_of_holds h.right.left
  rw [length_word] at hcrop
  have hsize : s.length < 2 ^ 256 := by unfold maxSize at hdata; omega
  simp only [deserialiseBytes, deserialiseU256_of_holds hdata h.left hsize, MAX_BYTE_LENGTH,
    sizeT_of_le hlen hdata, sizeT_of_le (by omega : pos + 32 ≤ data.length) hdata, hvalid, hcrop,
    Option.bind_eq_bind, Option.bind_some]
  rfl

end Reading

/-! ## Records -/

variable (T : Ty)

/-- The elements of an array as the parts of a record. -/
def parts (xs : List T.Value) : List (Bool × Bytes) :=
  xs.map fun x => (abiDynamicType T, serialise T x)

theorem foldl_add_dynamic (outs : List Bytes) (e : Elements) :
    (outs.foldl (add true) e).offsetBytes =
        e.offsetBytes ++ heads word e.length (outs.map (true, ·)) ∧
      (outs.foldl (add true) e).content =
        e.content ++ tails (outs.map (true, ·)) := by
  induction outs generalizing e with
  | nil => simp [heads, tails]
  | cons out outs ih =>
    obtain ⟨hoffset, hcontent⟩ := ih (e.add true out)
    simp only [List.foldl_cons, hoffset, hcontent]
    simp [add, heads, tails]

theorem foldl_add_static (outs : List Bytes) (e : Elements) :
    (outs.foldl (add false) e).offsetBytes = e.offsetBytes ∧ (outs.foldl (add false) e).content =
        e.content ++ heads word e.length (outs.map (false, ·)) ∧
      tails (outs.map (false, ·)) = [] := by
  induction outs generalizing e with
  | nil => simp [heads, tails]
  | cons out outs ih =>
    obtain ⟨hoffset, hcontent, htails⟩ := ih (e.add false out)
    simp only [List.foldl_cons, hoffset, hcontent]
    simp [add, heads, tails, htails]

/-- The loop makes a record of the elements. -/
theorem elements_eq_record (xs : List T.Value) (offsetBytes : Bytes) (length : Nat) :
    let e := (xs.map (serialise T)).foldl (add (abiDynamicType T))
      { offsetBytes := offsetBytes, length := length }
    e.offsetBytes ++ e.content =
      offsetBytes ++ (heads word length (parts T xs) ++ tails (parts T xs)) := by
  have hparts : parts T xs = (xs.map (serialise T)).map (abiDynamicType T, ·) := by simp [parts]
  rw [hparts]
  cases abiDynamicType T with
  | false =>
    obtain ⟨hoffset, hcontent, htails⟩ := foldl_add_static (xs.map (serialise T))
      { offsetBytes := offsetBytes, length := length }
    simp only [hoffset, hcontent, htails, List.nil_append, List.append_nil]
  | true =>
    obtain ⟨hoffset, hcontent⟩ := foldl_add_dynamic (xs.map (serialise T))
      { offsetBytes := offsetBytes, length := length }
    simp only [hoffset, hcontent, List.nil_append, List.append_assoc]

theorem serialise_array (N : Nat) (xs : Ty.Value (.array T N)) :
    serialise (.array T N) xs =
      heads word (N * MAX_BYTE_LENGTH) (parts T xs.1) ++ tails (parts T xs.1) := by
  exact elements_eq_record T xs.1 [] _

theorem serialise_vector (xs : Ty.Value (.vector T)) :
    serialise (.vector T) xs = word xs.1.length ++
      (heads word (xs.1.length * MAX_BYTE_LENGTH) (parts T xs.1) ++ tails (parts T xs.1)) := by
  exact elements_eq_record T xs.1 _ _

/-! ## Sizes -/

@[simp] theorem abiDynamicType_array (N : Nat) :
    abiDynamicType (.array T N) = abiDynamicType T := rfl

theorem length_of_dynamic {T : Ty} (h : abiDynamicType T = true) : length T = 1 := by
  cases T with
  | array T N => simp only [length, h, if_true]
  | _ => rfl

theorem length_heads_parts {T : Ty} {width : Nat}
    (hwidth : ∀ v, headSize 32 (abiDynamicType T, serialise T v) = width) (xs : List T.Value)
    (offset : Nat) : (heads word offset (parts T xs)).length = xs.length * width := by
  have hsizes : (parts T xs).map (headSize 32) = xs.map fun _ => width := by
    rw [parts, List.map_map]
    exact List.map_congr_left fun x _ => hwidth x
  rw [length_heads word length_word, hsizes, List.map_const', List.sum_replicate, smul_eq_mul]

/-- A type that is not dynamic takes its words, whatever the value. -/
theorem length_serialise {T : Ty} (h : abiDynamicType T = false) (v : T.Value) :
    (serialise T v).length = length T * MAX_BYTE_LENGTH := by
  induction T with
  | u256 | s256 | bool => exact length_word _
  | address => simp [serialise, length, MAX_BYTE_LENGTH, v.2]
  | string32 => exact v.2
  | string | bytes | vector T => cases h
  | array T N ih =>
    have hT : abiDynamicType T = false := h
    have htails : tails (parts T v.1) = [] := tails_of_in_place fun part hpart => by
      obtain ⟨x, _, rfl⟩ := List.mem_map.mp hpart
      exact hT
    have hwidth : ∀ x, headSize 32 (abiDynamicType T, serialise T x) =
        length T * MAX_BYTE_LENGTH := fun x => by simp [headSize, hT, ih hT x]
    rw [serialise_array, htails, List.append_nil, length_heads_parts hwidth, v.2, length,
      if_neg (by simp [hT]), Nat.mul_assoc]

theorem headSize_serialise (v : T.Value) :
    headSize 32 (abiDynamicType T, serialise T v) = length T * 32 := by
  cases h : abiDynamicType T with
  | false => exact length_serialise h v
  | true => rw [length_of_dynamic h]; rfl

/-! ## There and back -/

/-- A value as it comes back. -/
def received : (T : Ty) → T.Value → T.Value
  | .s256, z => toS256 (toU256 z)
  | .array T _, xs => ⟨xs.1.map (received T), by simp [xs.2]⟩
  | .vector T, xs => ⟨xs.1.map (received T), by simp [xs.2]⟩
  | .u256, v => v
  | .bool, v => v
  | .address, v => v
  | .string32, v => v
  | .string, v => v
  | .bytes, v => v

section Decoding

variable {data : Bytes} (hdata : data.length ≤ maxSize) {T : Ty} {pos u : Nat}

include hdata

theorem elementOffset_dynamic (h : abiDynamicType T = true) {offset : Nat} {out : Bytes}
    (hhead : Holds data (pos + u * 32) (word offset)) (hout : Holds data (pos + offset) out) :
    elementOffset T data pos u = some (pos + offset) := by
  have hhead' := hhead.le
  have hout' := hout.le
  have hoffset : Abi.offset [T] = 1 := by simp [Abi.offset, length_of_dynamic h]
  have hword : offset < 2 ^ 256 := by unfold maxSize at hdata; omega
  simp only [elementOffset, h, if_true, hoffset, Nat.mul_one, MAX_BYTE_LENGTH,
    sizeT_of_le (by omega : pos + u * 32 ≤ data.length) hdata,
    deserialiseU256_of_holds hdata hhead hword, Option.bind_eq_bind, Option.bind_some,
    sizeT_of_le (by omega : offset ≤ data.length) hdata,
    sizeT_of_le (by omega : pos + offset ≤ data.length) hdata]
  rfl

theorem elementOffset_static (h : abiDynamicType T = false) {out : Bytes}
    (hout : Holds data (pos + u * (length T * 32)) out) :
    elementOffset T data pos u = some (pos + u * (length T * 32)) := by
  have hout' := hout.le
  have hoffset : u * Abi.offset [T] * MAX_BYTE_LENGTH = u * (length T * 32) := by
    simp [Abi.offset, MAX_BYTE_LENGTH, Nat.mul_assoc]
  rw [elementOffset, h, if_neg (by simp), hoffset, sizeT_of_le (by omega) hdata]

/-- The loop over the elements, by induction on those that are left. -/
theorem elements_of_located
    (ih : ∀ v pos, Holds data pos (serialise T v) → deserialise T data pos = some (received T v))
    (xs : List T.Value) {offset : Nat}
    (hloc : Located word data pos (pos + u * (length T * 32)) offset (parts T xs)) :
    elements (fun u => do deserialise T data (← elementOffset T data pos u)) u xs.length =
      some ⟨xs.map (received T), by simp⟩ := by
  induction xs generalizing u offset with
  | nil => rfl
  | cons x xs ihxs =>
    -- the head of the next element stands behind that of this one
    have hnext : pos + u * (length T * 32) + length T * 32 = pos + (u + 1) * (length T * 32) := by
      ring
    have hone : ∃ offset', (do deserialise T data (← elementOffset T data pos u)) =
        some (received T x) ∧
        Located word data pos (pos + (u + 1) * (length T * 32)) offset' (parts T xs) := by
      cases hdyn : abiDynamicType T with
      | false =>
        simp only [parts, List.map_cons, hdyn, Located] at hloc
        have hlen : (serialise T x).length = length T * 32 := length_serialise hdyn x
        rw [hlen, hnext] at hloc
        refine ⟨offset, ?_, by simpa only [parts, hdyn] using hloc.2⟩
        rw [elementOffset_static hdata hdyn hloc.1]
        exact ih x _ hloc.1
      | true =>
        simp only [parts, List.map_cons, hdyn, Located, length_word] at hloc
        have hlen : length T = 1 := length_of_dynamic hdyn
        rw [hlen] at hloc hnext ⊢
        obtain ⟨hhead, hout, hrest⟩ := hloc
        refine ⟨_, ?_, by simpa only [parts, hdyn, ← hnext] using hrest⟩
        rw [elementOffset_dynamic hdata hdyn (by simpa using hhead) hout]
        exact ih x _ hout
    obtain ⟨offset', hread, hrest⟩ := hone
    simp only [List.length_cons, elements, hread, ihxs hrest]
    rfl

omit hdata in
/-- A record of elements, put anywhere, leads to its elements. -/
theorem located_elements {xs : List T.Value}
    (h : Holds data pos (heads word (xs.length * MAX_BYTE_LENGTH) (parts T xs) ++
      tails (parts T xs))) :
    Located word data pos pos (xs.length * MAX_BYTE_LENGTH) (parts T xs) := by
  refine located word h.left ?_
  rintro ⟨part, hmem, hpart⟩
  obtain ⟨x, _, rfl⟩ := List.mem_map.mp hmem
  have hright := h.right
  rwa [length_heads_parts (headSize_serialise T), length_of_dynamic hpart, Nat.one_mul] at hright

/-- **A value is read wherever its encoding has been put.** -/
theorem deserialise_serialise (T : Ty) (v : T.Value) (pos : Nat)
    (h : Holds data pos (serialise T v)) : deserialise T data pos = some (received T v) := by
  induction T generalizing pos with
  | u256 =>
    rw [deserialise, deserialiseU256_of_holds hdata h v.isLt]
    simp [received]
  | s256 =>
    rw [deserialise, deserialiseU256_of_holds hdata h (toU256 v).isLt]
    simp [received]
  | bool =>
    rw [deserialise, deserialiseU256_of_holds hdata h (by split <;> norm_num)]
    cases v <;> rfl
  | address =>
    have haddr : Holds data (pos + 12) v.1 := h.right
    have hend := haddr.le
    have hpos : sizeT (pos + 32 - 20) = pos + 12 := sizeT_of_le (by omega) hdata
    have hlen : (serialise .address v).length = 32 := length_serialise rfl v
    rw [deserialise, MAX_BYTE_LENGTH, hpos, Nat.add_sub_assoc (by norm_num),
      validOffset_of_holds hdata h (by omega), populate_of_holds haddr v.2]
    rfl
  | string32 =>
    rw [deserialise, MAX_BYTE_LENGTH, Nat.add_sub_assoc (by norm_num),
      validOffset_of_holds hdata h (by rw [serialise, v.2]; norm_num), populate_of_holds h v.2]
    rfl
  | string | bytes => exact deserialiseBytes_of_holds hdata h
  | array T N ih =>
    obtain ⟨xs, rfl⟩ := v
    rw [serialise_array] at h
    have hloc := located_elements h
    exact elements_of_located hdata (fun v pos => ih v pos) xs (u := 0) (by simpa using hloc)
  | vector T ih =>
    obtain ⟨xs, hxs⟩ := v
    rw [serialise_vector] at h
    have hle := h.left.le
    rw [length_word] at hle
    have hlength : xs.length < 2 ^ 256 := by unfold maxSize at hxs; omega
    have hbody := h.right
    have hread := elements_of_located hdata (fun v pos => ih v pos) xs (u := 0)
      (by simpa using located_elements hbody)
    rw [deserialise, deserialiseU256_of_holds hdata h.left hlength]
    simp only [MAX_BYTE_LENGTH, Option.bind_eq_bind, Option.bind_some, sizeT_of_le hle hdata,
      sizeT_of_le hxs le_rfl] at hread ⊢
    simp only [resized, dif_pos hxs, Option.bind_eq_bind, hread]
    rfl

end Decoding

/-! ## Tuples -/

/-- The arguments as the parts of a record. -/
def argParts : (Ts : List Ty) → Args Ts → List (Bool × Bytes)
  | [], _ => []
  | T :: Ts, (t, u) => (abiDynamicType T, serialise T t) :: argParts Ts u

variable (Ts : List Ty) (t : Args Ts)

theorem abiInAux_eq (e : Encoder) :
    (abiInAux Ts t e).fixed = e.fixed ++ heads word e.offset (argParts Ts t) ∧
      (abiInAux Ts t e).dynamic = e.dynamic ++ tails (argParts Ts t) := by
  induction Ts generalizing e with
  | nil => simp [abiInAux, argParts, heads, tails]
  | cons T Ts ih =>
    cases h : abiDynamicType T <;>
      simp [abiInAux, argParts, h, heads, tails, ih]

theorem length_heads_args (offset : Nat) :
    (heads word offset (argParts Ts t)).length = Abi.offset Ts * MAX_BYTE_LENGTH := by
  rw [length_heads word length_word]
  induction Ts with
  | nil => rfl
  | cons T Ts ih =>
    obtain ⟨t, u⟩ := t
    rw [argParts, List.map_cons, List.sum_cons, ih u, headSize_serialise, Abi.offset, Abi.offset,
      List.map_cons, List.sum_cons, Nat.add_mul]
    rfl

def receivedArgs : (Ts : List Ty) → Args Ts → Args Ts
  | [], _ => ()
  | T :: Ts, (t, u) => (received T t, receivedArgs Ts u)

theorem abiOutAux_of_located {data : Bytes} (hdata : data.length ≤ maxSize) (Ts : List Ty)
    (t : Args Ts) {head offset : Nat} (hloc : Located word data 0 head offset (argParts Ts t)) :
    abiOutAux data Ts head = some (receivedArgs Ts t) := by
  induction Ts generalizing head offset with
  | nil => rfl
  | cons T Ts ih =>
    obtain ⟨t, u⟩ := t
    have hnext : Abi.offset [T] * MAX_BYTE_LENGTH = length T * 32 := by
      simp [Abi.offset, MAX_BYTE_LENGTH]
    cases hdyn : abiDynamicType T with
    | false =>
      simp only [argParts, hdyn] at hloc
      obtain ⟨hout, hrest⟩ := hloc
      have hend := hout.le
      rw [length_serialise hdyn, MAX_BYTE_LENGTH] at hrest hend
      simp only [abiOutAux, hdyn, Bool.false_eq_true, Option.bind_eq_bind, Option.bind_some,
        deserialise_serialise hdata T t head hout, hnext, sizeT_of_le hend hdata, ih u hrest]
      rfl
    | true =>
      simp only [argParts, hdyn, Located, length_word] at hloc
      obtain ⟨hhead, hout, hrest⟩ := hloc
      have hend := hhead.le
      have hout' := hout.le
      rw [length_word] at hend
      rw [Nat.zero_add] at hout hout'
      have hoffset : offset < 2 ^ 256 := by unfold maxSize at hdata; omega
      simp only [abiOutAux, hdyn, if_true, deserialiseU256_of_holds hdata hhead hoffset,
        Option.map_eq_map, Option.map_some, Option.bind_eq_bind, Option.bind_some,
        sizeT_of_le (by omega : offset ≤ data.length) hdata,
        deserialise_serialise hdata T t offset hout, hnext, length_of_dynamic hdyn,
        Nat.one_mul, sizeT_of_le hend hdata, ih u hrest]
      rfl

/-- What has been written is read, with every signed number as it comes back. -/
theorem abiOut_abiIn {Ts : List Ty} {t : Args Ts} {data : Bytes} (h : abiIn Ts t = some data) :
    abiOut Ts data = some (receivedArgs Ts t) := by
  obtain ⟨hfixed, hdynamic⟩ := abiInAux_eq Ts t { offset := offset Ts * MAX_BYTE_LENGTH }
  simp only [abiIn, hfixed, hdynamic, Option.ite_none_right_eq_some, Option.some.injEq] at h
  obtain ⟨hsize, rfl⟩ := h
  have hself := holds_self (heads word (offset Ts * MAX_BYTE_LENGTH) (argParts Ts t) ++
    tails (argParts Ts t))
  have htails := hself.right
  rw [length_heads_args] at htails
  exact abiOutAux_of_located hsize Ts t (located word hself.left fun _ => htails)

/-! ## Signed numbers -/

/-- Neither one of the smallest `2 ^ 252` of the range nor far above it. -/
def Legible (z : S256) : Prop := -2 ^ 255 + 2 ^ 252 ≤ z.1 ∧ z.1 < 2 ^ 255 + 2 ^ 252

theorem toS256_val (u : U256) : (toS256 u).1 =
    if u.val > 0x8fffffffffffffffffffffffffffffffffffffffffffffffffffffffffffffff then
      (u.val : Int) - 2 ^ 256 else (u.val : Int) := by
  unfold toS256
  split
  · ring
  · rfl

theorem toU256_val (z : S256) :
    ((toU256 z).val : Int) = if 0 ≤ z.1 then z.1 else z.1 + 2 ^ 256 := by
  obtain ⟨z, hz⟩ := z
  show ((z % 2 ^ 256).toNat : Int) = if 0 ≤ z then z else z + 2 ^ 256
  split <;> omega

theorem toS256_toU256_iff (z : S256) : toS256 (toU256 z) = z ↔ Legible z := by
  have hu := toU256_val z
  rw [Subtype.ext_iff, toS256_val, Legible]
  split at hu <;> split <;> omega

/-- Every signed number in the value is legible. -/
def Readable : (T : Ty) → T.Value → Prop
  | .s256, z => Legible z
  | .array T _, xs => ∀ x ∈ xs.1, Readable T x
  | .vector T, xs => ∀ x ∈ xs.1, Readable T x
  | _, _ => True

theorem received_eq_iff (v : T.Value) : received T v = v ↔ Readable T v := by
  -- a list comes back as it was if each of its elements does
  have hmap : ∀ {T : Ty} (xs : List T.Value), (∀ v, received T v = v ↔ Readable T v) →
      (xs.map (received T) = xs ↔ ∀ x ∈ xs, Readable T x) := by
    intro T xs ih
    induction xs with
    | nil => simp
    | cons x xs ihxs => simp [ih x, ihxs]
  induction T with
  | s256 => exact toS256_toU256_iff v
  | array T N ih | vector T ih => exact Subtype.ext_iff.trans (hmap v.1 ih)
  | _ => exact iff_of_true rfl trivial

def ReadableArgs : (Ts : List Ty) → Args Ts → Prop
  | [], _ => True
  | T :: Ts, (t, u) => Readable T t ∧ ReadableArgs Ts u

theorem receivedArgs_eq_iff :
    receivedArgs Ts t = t ↔ ReadableArgs Ts t := by
  induction Ts with
  | nil => exact iff_of_true rfl trivial
  | cons T Ts ih =>
    rw [receivedArgs, Prod.mk.injEq, received_eq_iff, ih, ReadableArgs]

/-- **`abiOut` always returns true on what `abiIn` has written, and yields the values written
exactly if every signed number among them is legible.** -/
theorem abiOut_abiIn_iff (data : Bytes) (h : abiIn Ts t = some data) :
    (abiOut Ts data).isSome ∧ (abiOut Ts data = some t ↔ ReadableArgs Ts t) := by
  rw [abiOut_abiIn h, Option.some.injEq, receivedArgs_eq_iff]
  exact ⟨rfl, Iff.rfl⟩

/-- A string, and two pairs of numbers. -/
def sampleTypes : List Ty := [.string, .vector (.array .s256 2)]

def sampleArgs : Args sampleTypes :=
  ([97, 98, 99],
    ⟨[⟨[⟨-1, by decide⟩, ⟨5, by decide⟩], rfl⟩, ⟨[⟨0, by decide⟩, ⟨-7, by decide⟩], rfl⟩],
      by decide⟩, ())

theorem sample_round_trip : ∃ data, abiIn sampleTypes sampleArgs = some data ∧
    abiOut sampleTypes data = some sampleArgs := by
  obtain ⟨data, h⟩ : ∃ data, abiIn sampleTypes sampleArgs = some data :=
    Option.isSome_iff_exists.mp (by decide +kernel)
  refine ⟨data, h, (abiOut_abiIn_iff sampleTypes sampleArgs data h).2.mpr ⟨trivial, ?_, trivial⟩⟩
  simp only [Readable, Legible, List.forall_mem_cons]
  norm_num

/-- The smallest number of the range comes back with the other sign. -/
def smallest : Args [.s256] := (⟨-2 ^ 255, by decide⟩, ())

theorem smallest_comes_back_positive :
    abiIn [.s256] smallest = some (word (2 ^ 255)) ∧
    (abiOut [.s256] (word (2 ^ 255))).map (fun t => t.1.1) = some (2 ^ 255) ∧
    abiOut [.s256] (word (2 ^ 255)) ≠ some smallest := by
  have hback : (abiOut [.s256] (word (2 ^ 255))).map (fun t => t.1.1) = some (2 ^ 255) := by
    decide +kernel
  refine ⟨by decide +kernel, hback, fun h => ?_⟩
  rw [h] at hback
  exact absurd hback (by decide)

end Rcc.Abi
