import Rcc.Rlp.Frame

/-!
# Rcc.Rlp.Items

The items of a list: its payload cut into framed items, however it is read. Counting, iterating
and subscripting all find the same items, and they find some only if the payload is nothing but
items.
-/

namespace Rcc.Rlp

open List Iterator Except

variable {d p : List UInt8} {xs : List (List UInt8)} {n : Nat} {α : Type}

/-- A list with these items. -/
def listOf (xs : List (List UInt8)) : List UInt8 :=
  lengthHeader 0xc0 xs.flatten.length ++ xs.flatten

section
variable (hfits : xs.flatten.length < maxLength)
include hfits

theorem listOf_flags : HeaderFlags 0xc0 (lengthHeader 0xc0 xs.flatten.length).length (listOf xs) :=
  header_flags (.inr rfl) hfits

theorem listOf_isList : isList (listOf xs) = true := (listOf_flags hfits).isList

theorem payload_listOf : payload (listOf xs) = .ok xs.flatten := payload_header (.inr rfl) hfits

end

/-! ## Counting -/

theorem itemsLoop_succ (hd : d ≠ []) : itemsLoop (n + 1) d = (do
    let size ← sizeAsEncoded d
    return (← itemsLoop n (d.drop size)) + 1) := by
  cases d with
  | nil => exact absurd rfl hd
  | cons a d => rfl

theorem itemsLoop_flatten (hxs : ∀ x ∈ xs, Framed x) (hn : xs.length ≤ n) :
    itemsLoop n xs.flatten = .ok xs.length := by
  induction xs generalizing n with
  | nil => cases n <;> rfl
  | cons x xs ih =>
    obtain ⟨n, rfl⟩ : ∃ m, n = m + 1 := ⟨n - 1, by simp at hn; omega⟩
    have hx := hxs x (by simp)
    have hne : x ++ xs.flatten ≠ [] := by simp [hx.ne_nil]
    rw [flatten_cons, itemsLoop_succ hne, sizeAsEncoded_framed hx, ok_bind,
      drop_left, ih (fun y hy => hxs y (by simp [hy])) (by simpa using hn)]
    rfl

theorem itemsLoop_inv {count : Nat} (h : itemsLoop n d = .ok count) :
    ∃ xs : List (List UInt8), d = xs.flatten ∧ (∀ x ∈ xs, Framed x) ∧ xs.length = count := by
  induction n generalizing d count with
  | zero =>
    cases d with
    | nil => exact ⟨[], rfl, by simp, pure_eq_ok.mp h⟩
    | cons a d => exact absurd h throw_ne_ok
  | succ n ih =>
    cases d with
    | nil => exact ⟨[], rfl, by simp, pure_eq_ok.mp h⟩
    | cons a d =>
      obtain ⟨k, hk, h⟩ := bind_eq_ok.mp h
      obtain ⟨m, hm, hcount⟩ := bind_eq_ok.mp h
      obtain ⟨hle, hframed⟩ := sizeAsEncoded_inv (by simp) hk
      obtain ⟨xs, hxs, hall, hlen⟩ := ih hm
      refine ⟨(a :: d).take k :: xs, ?_, ?_, ?_⟩
      · rw [flatten_cons, ← hxs, take_append_drop]
      · simpa using ⟨hframed, hall⟩
      · have := pure_eq_ok.mp hcount
        simp
        omega

theorem length_le_flatten (hxs : ∀ x ∈ xs, Framed x) : xs.length ≤ xs.flatten.length := by
  induction xs with
  | nil => simp
  | cons x xs ih =>
    have hpos := (hxs x (by simp)).length_pos
    have := ih fun y hy => hxs y (by simp [hy])
    simp only [length_cons, flatten_cons, length_append]
    omega

theorem itemCount_listOf (hxs : ∀ x ∈ xs, Framed x) (hfits : xs.flatten.length < maxLength) :
    itemCount (listOf xs) = .ok xs.length := by
  rw [itemCount, items, if_pos (listOf_isList hfits), if_pos (listOf_isList hfits),
    payload_listOf hfits]
  exact itemsLoop_flatten hxs (length_le_flatten hxs)

/-! ## Iterating -/

namespace Iterator

variable {before x rest : List UInt8}

/-- The iterator at the first of the items `xs`, `before` being in front of them. -/
def facing (before : List UInt8) (xs : List (List UInt8)) : Iterator :=
  ⟨before.length, (xs.headD []).length, xs.tail.flatten.length⟩

theorem facing_cons (before x : List UInt8) :
    facing before (x :: xs) = ⟨before.length, x.length, xs.flatten.length⟩ := rfl

theorem next_facing (hxs : ∀ y ∈ xs, Framed y) :
    (facing before (x :: xs)).next (before ++ (x ++ xs.flatten))
      = .ok (facing (before ++ x) xs) := by
  have hpos : before.length + x.length = (before ++ x).length := by simp
  cases xs with
  | nil => simp [facing]; rfl
  | cons y ys =>
    have hy := hxs y (by simp)
    have hrest : 0 < (y ++ ys.flatten).length := by
      have := hy.length_pos
      simp
      omega
    have hslice : ((before ++ (x ++ (y ++ ys.flatten))).drop (before.length + x.length)).take
        (y ++ ys.flatten).length = y ++ ys.flatten := by
      rw [← append_assoc, hpos, drop_left, take_length]
    rw [facing_cons, flatten_cons, next, if_pos (Nat.ne_of_gt hrest), hslice,
      sizeAsEncoded_framed hy, ok_bind, facing_cons]
    simp
    rfl

/-- The loop visits the items one after the other. -/
theorem loop_facing (f : List UInt8 → Except Error α) (hxs : ∀ x ∈ xs, Framed x)
    (hn : xs.length ≤ n) : loop (before ++ xs.flatten) f n (facing before xs) = xs.mapM f := by
  induction xs generalizing before n with
  | nil =>
    have hend : (facing before []).AtEnd (before ++ List.flatten []) := by
      simp [facing, AtEnd]
    cases n <;> rw [loop, if_pos hend] <;> rfl
  | cons x xs ih =>
    obtain ⟨n, rfl⟩ : ∃ m, n = m + 1 := ⟨n - 1, by simp at hn; omega⟩
    have hx := hxs x (by simp)
    have hnot : ¬(facing before (x :: xs)).AtEnd (before ++ List.flatten (x :: xs)) := by
      simp [facing, AtEnd, hx.ne_nil]
    have hcurrent : (facing before (x :: xs)).current (before ++ List.flatten (x :: xs))
        = x := by
      simp [facing, current]
    have hnext : (facing before (x :: xs)).next (before ++ (x ++ xs.flatten)) = _ :=
      next_facing fun y hy => hxs y (by simp [hy])
    have hrec : loop (before ++ x ++ xs.flatten) f n (facing (before ++ x) xs) = _ :=
      ih (fun y hy => hxs y (by simp [hy])) (by simpa using hn)
    rw [append_assoc] at hrec
    rw [loop, if_neg hnot, hcurrent, make_framed hx, mapM_cons]
    rw [flatten_cons, hnext]
    simp only [ok_bind, hrec]

theorem AtEnd.eq_nil {size remaining : Nat}
    (h : (⟨before.length, size, remaining⟩ : Iterator).AtEnd (before ++ rest)) : rest = [] := by
  have hpos : before.length = (before ++ rest).length := h.1
  rw [length_append] at hpos
  exact length_eq_zero_iff.mp (by omega)

/-- The next iterator, of whatever is left: its item is framed, or nothing is left. -/
theorem next_inv {it : Iterator}
    (h : (⟨before.length, x.length, rest.length⟩ : Iterator).next (before ++ (x ++ rest)) =
      .ok it) :
    ∃ x' rest', rest = x' ++ rest' ∧ it = ⟨(before ++ x).length, x'.length, rest'.length⟩ ∧
      (Framed x' ∨ x' = [] ∧ rest' = []) := by
  have hpos : before.length + x.length = (before ++ x).length := by simp
  rw [next] at h
  split_ifs at h with hne
  · have hslice : ((before ++ (x ++ rest)).drop (before.length + x.length)).take rest.length
        = rest := by
      rw [← append_assoc, hpos, drop_left, take_length]
    rw [hslice] at h
    obtain ⟨k, hk, h⟩ := bind_eq_ok.mp h
    obtain ⟨hle, hframed⟩ := sizeAsEncoded_inv (length_pos_iff.mp (Nat.pos_of_ne_zero hne)) hk
    refine ⟨rest.take k, rest.drop k, (take_append_drop k rest).symm, ?_, .inl hframed⟩
    have hremaining : rest.length - min rest.length k = rest.length - k := by omega
    rw [← pure_eq_ok.mp h, hpos, length_take, length_drop, hremaining, Nat.min_eq_left hle]
  · have : rest = [] := length_eq_zero_iff.mp (not_not.mp hne)
    refine ⟨[], [], by simp [this], ?_, .inr ⟨rfl, rfl⟩⟩
    rw [← pure_eq_ok.mp h, hpos]
    rfl

/-- A loop that comes to its end has cut all that was left into items. -/
theorem loop_inv {ys : List (List UInt8)} (hx : Framed x ∨ x = [] ∧ rest = [])
    (h : loop (before ++ (x ++ rest)) pure n ⟨before.length, x.length, rest.length⟩ = .ok ys) :
    x ++ rest = ys.flatten ∧ ∀ y ∈ ys, Framed y := by
  induction n generalizing before x rest ys with
  | zero =>
    rw [loop] at h
    split at h
    · rename_i hend
      rw [hend.eq_nil, ← pure_eq_ok.mp h]
      simp
    · exact absurd h throw_ne_ok
  | succ n ih =>
    rw [loop] at h
    split at h
    · rename_i hend
      rw [hend.eq_nil, ← pure_eq_ok.mp h]
      simp
    · rename_i hnot
      have hframed : Framed x := by
        rcases hx with hx | ⟨rfl, rfl⟩
        · exact hx
        · exact absurd ⟨by simp, rfl⟩ hnot
      have hcurrent : current (before ++ (x ++ rest)) ⟨before.length, x.length, rest.length⟩
          = x := by
        simp [current]
      rw [hcurrent, make_framed hframed, ok_bind, pure_bind] at h
      obtain ⟨it, hit, hloop⟩ := bind_eq_ok.mp h
      obtain ⟨tail, htail, hys⟩ := bind_eq_ok.mp hloop
      obtain ⟨x', rest', rfl, rfl, hx'⟩ := next_inv hit
      rw [← append_assoc] at htail
      obtain ⟨hflat, hall⟩ := ih hx' htail
      rw [← pure_eq_ok.mp hys, hflat]
      exact ⟨by simp, by simpa using ⟨hframed, hall⟩⟩

end Iterator

/-- Iterating over a list comes to its end only if its payload is nothing but items. -/
theorem forEach_inv {ys : List (List UInt8)} (hfits : p.length < maxLength)
    (h : forEach pure (lengthHeader 0xc0 p.length ++ p) = .ok ys) :
    p = ys.flatten ∧ ∀ y ∈ ys, Framed y := by
  have hflags := header_flags (p := p) (.inr rfl) hfits
  have hlist : isList (lengthHeader 0xc0 p.length ++ p) = true := hflags.isList
  obtain ⟨it, hstart, hloop⟩ := bind_eq_ok.mp h
  rw [start, if_pos hlist, payload_header (.inr rfl) hfits, ok_bind, hflags.payloadOffset] at hstart
  obtain ⟨k, hk, hit⟩ := bind_eq_ok.mp hstart
  obtain ⟨x, rest, hsplit, hlen, hx⟩ : ∃ x rest, p = x ++ rest ∧ k = x.length ∧
      (Framed x ∨ x = [] ∧ rest = []) := by
    by_cases hp : p = []
    · subst hp
      exact ⟨[], [], rfl, (ok.inj hk).symm, .inr ⟨rfl, rfl⟩⟩
    · obtain ⟨hle, hframed⟩ := sizeAsEncoded_inv hp hk
      exact ⟨p.take k, p.drop k, (take_append_drop k p).symm, by simp; omega, .inl hframed⟩
  have hrest : p.length - k = rest.length := by
    rw [hsplit, length_append]
    omega
  rw [← pure_eq_ok.mp hit, hrest, hlen] at hloop
  subst hsplit
  exact loop_inv hx hloop

theorem forEach_listOf (f : List UInt8 → Except Error α) (hxs : ∀ x ∈ xs, Framed x)
    (hfits : xs.flatten.length < maxLength) : forEach f (listOf xs) = xs.mapM f := by
  have hle := length_le_flatten hxs
  have hstart : start (listOf xs)
      = .ok (facing (lengthHeader 0xc0 xs.flatten.length) xs) := by
    rw [start, if_pos (listOf_isList hfits), payload_listOf hfits, ok_bind,
      (listOf_flags hfits).payloadOffset]
    cases xs with
    | nil => rfl
    | cons x xs =>
      rw [flatten_cons, sizeAsEncoded_framed (hxs x (by simp)), ok_bind]
      simp [facing]
      rfl
  rw [forEach, hstart]
  exact loop_facing f hxs (by rw [listOf, length_append]; omega)

/-! ## Subscripting -/

/-- The cache stands at item `i`. -/
structure Cache.StandsAt (xs : List (List UInt8)) (i : Nat) (c : Cache) : Prop where
  lastIndex : c.lastIndex = i
  lastEnd : c.lastEnd = (xs.take (i + 1)).flatten.length
  lastItem : xs[i]? = some c.lastItem

/-- The payload behind the first `i` items. -/
theorem drop_flatten (xs : List (List UInt8)) (i : Nat) :
    xs.flatten.drop (xs.take i).flatten.length = (xs.drop i).flatten := by
  conv_lhs => rw [← take_append_drop i xs, flatten_append]
  simp

section
variable (hxs : ∀ x ∈ xs, Framed x) (hfits : xs.flatten.length < maxLength) {c : Cache} {i : Nat}

include hxs hfits

/-- One round of the loop goes from an item to the next. -/
theorem advance_standsAt (hc : c.StandsAt xs i) (hn : i + n < xs.length) :
    ∃ c', c.advance (listOf xs) n = .ok c' ∧ c'.StandsAt xs (i + n) := by
  induction n generalizing c i with
  | zero => exact ⟨c, rfl, hc⟩
  | succ n ih =>
    obtain ⟨x, hx⟩ : ∃ x, xs[i + 1]? = some x := ⟨_, List.getElem?_eq_getElem (by omega)⟩
    have hframed := hxs x (mem_of_getElem? hx)
    have hrest : xs.flatten.drop c.lastEnd = x ++ (xs.drop (i + 2)).flatten := by
      rw [hc.lastEnd, drop_flatten, drop_eq_getElem?_toList_append, hx]
      simp
    have hitem : c.lastItem.isEmpty = false := by
      have := (hxs _ (mem_of_getElem? hc.lastItem)).ne_nil
      simpa using this
    rw [Cache.advance, hitem]
    simp only [Bool.false_eq_true, payload_listOf hfits, ok_bind, hrest,
      sizeAsEncoded_framed hframed, take_left]
    obtain ⟨c', hc', hat⟩ := ih (c := ⟨c.lastIndex + 1, c.lastEnd + x.length, x⟩) (i := i + 1)
      ⟨by rw [hc.lastIndex], by
        rw [hc.lastEnd, take_add_one (i := i + 1), hx]
        simp, hx⟩ (by omega)
    exact ⟨c', hc', by rwa [show i + (n + 1) = i + 1 + n by omega]⟩

theorem rewind_standsAt (hi : i < xs.length) (hc : c = {} ∨ ∃ j, c.StandsAt xs j) :
    ∃ c' j, c.rewind (listOf xs) i = .ok c' ∧ j ≤ i ∧ c'.StandsAt xs j := by
  have hlen := length_le_flatten hxs
  rw [Cache.rewind]
  split_ifs with hge
  · cases xs with
    | nil => simp at hi
    | cons x rest =>
      refine ⟨⟨0, x.length, x⟩, 0, ?_, Nat.zero_le _, rfl, by simp, rfl⟩
      rw [payload_listOf hfits, ok_bind, flatten_cons,
        sizeAsEncoded_framed (hxs x (by simp)), ok_bind, take_left]
      rfl
  · rcases hc with rfl | ⟨j, hj⟩
    · rw [maxLength] at hfits
      simp only at hge
      omega
    · exact ⟨c, j, rfl, by rw [hj.lastIndex] at hge; omega, hj⟩

/-- A subscript finds its item, whatever has been asked for before. -/
theorem index_listOf (hi : i < xs.length) (hc : c = {} ∨ ∃ j, c.StandsAt xs j) :
    ∃ c', index (listOf xs) i c = .ok (xs[i], c') ∧ c'.StandsAt xs i := by
  obtain ⟨c₁, j, hrewind, hj, hat⟩ := rewind_standsAt hxs hfits hi hc
  obtain ⟨c₂, hadvance, hat'⟩ := advance_standsAt hxs hfits hat (n := i - j) (by omega)
  rw [show j + (i - j) = i by omega] at hat'
  have hitem : c₂.lastItem = xs[i] := by
    have := hat'.lastItem
    rw [List.getElem?_eq_getElem hi] at this
    exact (Option.some.inj this).symm
  refine ⟨c₂, ?_, hat'⟩
  rw [index, hrewind, ok_bind, hat.lastIndex, hadvance, ok_bind, hitem,
    make_framed (hxs _ (getElem_mem hi))]
  rfl

theorem indexAll_listOf {is : List Nat} (his : ∀ i ∈ is, i < xs.length)
    (hc : c = {} ∨ ∃ j, c.StandsAt xs j) :
    indexAll (listOf xs) is c = .ok (is.map fun i => xs.getD i []) := by
  induction is generalizing c with
  | nil => rfl
  | cons i is ih =>
    have hi := his i (by simp)
    obtain ⟨c', hindex, hat⟩ := index_listOf hxs hfits hi hc
    rw [indexAll, hindex, ok_bind]
    simp only
    rw [ih (fun j hj => his j (by simp [hj])) (.inr ⟨i, hat⟩)]
    simp [List.getElem?_eq_getElem hi]

end

end Rcc.Rlp
