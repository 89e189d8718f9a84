import Rcc.Abi.RoundTrip

/-!
# Rcc.Abi.DynamicData

Where `abiOut` reads a string or bytes parameter from, for data of any kind.

The head of the parameter is inside the data (`deserialise_of_abiOutAux`). The offset in it and the
length at that offset are 256-bit numbers, of which the decoder takes the low 64 bits, adds in 64
bits, and compares the last position alone with the size of the data. So a length of `2 ^ 64`
decodes as an empty string, and so does an offset shortly before `2 ^ 64`, where the sums wrap
around (`dynamic_inside_iff`).
-/

namespace Rcc.Abi

open List

open HeadTail

/-- The argument behind those of the types `Ts₁`. -/
def Args.get {T : Ty} {Ts₂ : List Ty} : (Ts₁ : List Ty) → Args (Ts₁ ++ T :: Ts₂) → T.Value
  | [], (t, _) => t
  | _ :: Ts₁, (_, u) => Args.get Ts₁ u

/-- The 256-bit number at a position. -/
def wordAt (data : Bytes) (pos : Nat) : Nat :=
  BigEndian.decode (Rlp.cropped data pos MAX_BYTE_LENGTH)

/-- The string `v` of the head at `pos` is in the data: its offset, its length there, and behind
that as many bytes as announced, which are `v`. -/
structure Inside (data : Bytes) (pos : Nat) (v : Bytes) : Prop where
  offset : pos + 32 ≤ data.length
  length : wordAt data pos + 32 ≤ data.length
  content : Holds data (wordAt data pos + 32) v
  announced : v.length = wordAt data (wordAt data pos)

theorem offset_singleton (T : Ty) : offset [T] = length T := Nat.add_zero _

section

variable {data : Bytes} {pos : Nat}

/-- Where the argument of a head is decoded. -/
def thisOffset (T : Ty) (data : Bytes) (pos : Nat) : Option Nat :=
  if abiDynamicType T then sizeT <$> deserialiseU256 data pos else some pos

theorem abiOutAux_cons {T : Ty} {Ts : List Ty} {args : Args (T :: Ts)}
    (h : abiOutAux data (T :: Ts) pos = some args) :
    ∃ start, thisOffset T data pos = some start ∧ deserialise T data start = some args.1 ∧
      abiOutAux data Ts (sizeT (pos + length T * 32)) = some args.2 := by
  have hbind : abiOutAux data (T :: Ts) pos = (thisOffset T data pos).bind fun start =>
      (deserialise T data start).bind fun t =>
        (abiOutAux data Ts (sizeT (pos + length T * 32))).bind fun u => some (t, u) := by
    rw [abiOutAux, thisOffset]
    split <;> rfl
  rw [hbind] at h
  obtain ⟨start, hstart, h⟩ := Option.bind_eq_some_iff.mp h
  obtain ⟨t, ht, h⟩ := Option.bind_eq_some_iff.mp h
  obtain ⟨u, hu, h⟩ := Option.bind_eq_some_iff.mp h
  cases h
  exact ⟨start, hstart, ht, hu⟩

variable (hdata : data.length ≤ maxSize)

include hdata

theorem word_inside (hpos : pos ≤ data.length)
    (h : (validOffset data (sizeT (pos + MAX_BYTE_LENGTH - 1))).isSome) :
    pos + 32 ≤ data.length := by
  have hsize : sizeT (pos + MAX_BYTE_LENGTH - 1) = pos + 31 :=
    Nat.mod_eq_of_lt (by unfold maxSize MAX_BYTE_LENGTH at *; omega)
  rw [validOffset] at h
  split at h
  · cases h
  · omega

theorem deserialiseU256_inside {n : Nat} (hpos : pos ≤ data.length)
    (h : deserialiseU256 data pos = some n) : pos + 32 ≤ data.length ∧ n = wordAt data pos := by
  obtain ⟨_, hvalid, h⟩ := Option.bind_eq_some_iff.mp h
  cases h
  exact ⟨word_inside hdata hpos (hvalid ▸ rfl), rfl⟩

omit hdata in
/-- The elements of an array that lie one behind the other. -/
theorem elements_inside {α : Type} {read : Nat → Option α} {width u k : Nat}
    (hread : ∀ u x, pos + u * width ≤ data.length → read u = some x →
      pos + (u + 1) * width ≤ data.length) {xs : { xs : List α // xs.length = k }}
    (hpos : pos + u * width ≤ data.length) (h : elements read u k = some xs) :
    pos + (u + k) * width ≤ data.length := by
  induction k generalizing u with
  | zero => exact hpos
  | succ k ih =>
    obtain ⟨x, hx, h⟩ := Option.bind_eq_some_iff.mp h
    obtain ⟨xs, hxs, -⟩ := Option.bind_eq_some_iff.mp h
    have hrest := ih (hread u x hpos hx) hxs
    rwa [Nat.add_right_comm] at hrest

/-- What is decoded of a type of fixed size is in the data. -/
theorem static_inside {T : Ty} (hT : abiDynamicType T = false) {v : T.Value}
    (hpos : pos ≤ data.length) (h : deserialise T data pos = some v) :
    pos + length T * 32 ≤ data.length := by
  induction T generalizing pos with
  | u256 | s256 | bool =>
    obtain ⟨n, hn, -⟩ := Option.bind_eq_some_iff.mp h
    exact (deserialiseU256_inside hdata hpos hn).1
  | address | string32 =>
    obtain ⟨_, hvalid, -⟩ := Option.bind_eq_some_iff.mp h
    exact word_inside hdata hpos (hvalid ▸ rfl)
  | string | bytes | vector => cases hT
  | array T N ih =>
    have hlength : length (.array T N) = N * length T := if_neg (by simp [hT])
    rw [hlength, Nat.mul_assoc, ← Nat.zero_add N]
    refine elements_inside (fun u x hu hx => ?_) (by simpa using hpos) h
    obtain ⟨pos', hpos', hx⟩ := Option.bind_eq_some_iff.mp hx
    rw [elementOffset, if_neg (by rw [abiDynamicType_array] at hT; simp [hT])] at hpos'
    cases hpos'
    rw [offset_singleton, Nat.mul_assoc, MAX_BYTE_LENGTH, sizeT_of_le hu hdata] at hx
    rw [Nat.add_mul, Nat.one_mul, ← Nat.add_assoc]
    exact ih hT hu hx

/-- The head of an argument is in the data, and the argument is decoded at the offset in it. -/
theorem deserialise_of_abiOutAux {T : Ty} (hT : abiDynamicType T = true) {Ts₁ Ts₂ : List Ty}
    {args : Args (Ts₁ ++ T :: Ts₂)} (hpos : pos ≤ data.length)
    (h : abiOutAux data (Ts₁ ++ T :: Ts₂) pos = some args) :
    pos + offset Ts₁ * 32 + 32 ≤ data.length ∧
    deserialise T data (sizeT (wordAt data (pos + offset Ts₁ * 32))) = some (args.get Ts₁) := by
  induction Ts₁ generalizing pos with
  | nil =>
    obtain ⟨start, hstart, ht, -⟩ := abiOutAux_cons h
    rw [thisOffset, if_pos hT] at hstart
    obtain ⟨n, hn, rfl⟩ := Option.map_eq_some_iff.mp hstart
    obtain ⟨hhead, rfl⟩ := deserialiseU256_inside hdata hpos hn
    exact ⟨hhead, ht⟩
  | cons S Ts₁ ih =>
    obtain ⟨start, hstart, ht, hu⟩ := abiOutAux_cons h
    have hnext : pos + length S * 32 ≤ data.length := by
      rw [thisOffset] at hstart
      split_ifs at hstart with hS
      · obtain ⟨n, hn, -⟩ := Option.map_eq_some_iff.mp hstart
        rw [length_of_dynamic hS]
        exact (deserialiseU256_inside hdata hpos hn).1
      · cases hstart
        exact static_inside hdata (Bool.of_not_eq_true hS) hpos ht
    rw [sizeT_of_le hnext hdata] at hu
    have hsum : pos + offset (S :: Ts₁) * 32 = pos + length S * 32 + offset Ts₁ * 32 := by
      rw [offset, map_cons, sum_cons, ← offset, Nat.add_mul, Nat.add_assoc]
    rw [hsum]
    exact ih hnext hu

/-- A string that has been decoded is in the data if and only if nothing wraps around. -/
theorem inside_iff {v : Bytes} (hpos : pos + 32 ≤ data.length)
    (h : deserialiseBytes data (sizeT (wordAt data pos)) = some v) :
    Inside data pos v ↔
      wordAt data pos + 32 + wordAt data (wordAt data pos) ≤ 2 ^ 64 := by
  have hmax : maxSize < 2 ^ 64 := by decide
  constructor
  · intro hin
    have hle := hin.content.le
    rw [hin.announced] at hle
    omega
  · intro hwrap
    have hoffset : sizeT (wordAt data pos) = wordAt data pos := Nat.mod_eq_of_lt (by omega)
    rw [hoffset] at h
    generalize hoff : wordAt data pos = off at *
    obtain ⟨n, hn, h⟩ := Option.bind_eq_some_iff.mp h
    obtain ⟨_, hfirst, hn⟩ := Option.bind_eq_some_iff.mp hn
    obtain ⟨_, hlast, h⟩ := Option.bind_eq_some_iff.mp h
    cases hn
    cases h
    rw [← wordAt] at hlast ⊢
    have hlen : sizeT (wordAt data off) = wordAt data off := Nat.mod_eq_of_lt (by omega)
    rw [hlen] at hlast ⊢
    have hend : off + 32 + wordAt data off ≤ data.length := by
      have hsum : sizeT (off + MAX_BYTE_LENGTH + wordAt data off - 1) =
          off + 31 + wordAt data off :=
        (Nat.mod_eq_of_lt (by unfold MAX_BYTE_LENGTH; omega)).trans
          (by unfold MAX_BYTE_LENGTH; omega)
      rw [validOffset] at hlast
      split at hlast
      · cases hlast
      · omega
    have hcrop : Rlp.cropped data (sizeT (off + MAX_BYTE_LENGTH)) (wordAt data off) =
        (data.drop (off + 32)).take (wordAt data off) := by
      have hstart : sizeT (off + MAX_BYTE_LENGTH) = off + 32 :=
        Nat.mod_eq_of_lt (by unfold MAX_BYTE_LENGTH; omega)
      rw [hstart, Rlp.cropped, if_pos hend]
    rw [hcrop]
    refine ⟨hpos, by rw [hoff]; omega, ⟨data.take (off + 32),
      data.drop (off + 32 + wordAt data off), ?_, ?_⟩, ?_⟩
    · rw [← drop_drop (i := wordAt data off), take_append_drop, take_append_drop]
    · rw [length_take]
      omega
    · rw [hoff, length_take, length_drop]
      omega

end

/-- **What a string or bytes parameter is decoded from.** If `abiOut` succeeds, the offset of the
parameter, its length and its bytes are in the data, and the bytes are as many as announced, if and
only if the sums of offset and length, taken as the numbers they are, stay below `2 ^ 64`. -/
theorem dynamic_inside_iff (Ts₁ Ts₂ : List Ty) (data : Bytes) (hdata : data.length ≤ maxSize) :
    let head := offset Ts₁ * 32
    (∀ args, abiOut (Ts₁ ++ .string :: Ts₂) data = some args → (Inside data head (args.get Ts₁) ↔
        wordAt data head + 32 + wordAt data (wordAt data head) ≤ 2 ^ 64)) ∧
    ∀ args, abiOut (Ts₁ ++ .bytes :: Ts₂) data = some args →
      (Inside data head (args.get Ts₁) ↔
        wordAt data head + 32 + wordAt data (wordAt data head) ≤ 2 ^ 64) := by
  constructor
  all_goals
    intro args h
    obtain ⟨hhead, hv⟩ := deserialise_of_abiOutAux hdata rfl (Nat.zero_le _) h
    rw [Nat.zero_add] at hhead hv
    exact inside_iff hdata hhead hv

/-- A number, and a string behind it. -/
def numberAndName : Bytes := word 7 ++ (word 64 ++ (word 2 ++ [104, 105]))

theorem numberAndName_inside : ∃ args,
    abiOut ([.u256] ++ .string :: []) numberAndName = some args ∧
    Inside numberAndName 32 (args.get [.u256]) := by
  have hsome : (abiOut ([.u256] ++ .string :: []) numberAndName).isSome := by decide +kernel
  obtain ⟨args, hargs⟩ := Option.isSome_iff_exists.mp hsome
  refine ⟨args, hargs, ((dynamic_inside_iff [.u256] [] numberAndName (by decide)).1 args
    hargs).mpr ?_⟩
  decide +kernel

/-- A string of `2 ^ 64` bytes is read as an empty one, and so is one at an offset of
`2 ^ 64 - 16`. -/
theorem wrapped_decoded :
    abiOut [.string] (word 32 ++ word (2 ^ 64)) = some ([], ()) ∧
    ¬ Inside (word 32 ++ word (2 ^ 64)) 0 [] ∧
    abiOut [.bytes] (word (2 ^ 64 - 16)) = some ([], ()) ∧
    ¬ Inside (word (2 ^ 64 - 16)) 0 [] := by
  refine ⟨by decide +kernel, fun h => ?_, by decide +kernel, fun h => ?_⟩
  · exact absurd h.announced (by decide +kernel)
  · exact absurd h.length (by decide +kernel)

end Rcc.Abi
