import Rcc.Rlp.Items
import Rcc.Rlp.Leaves

/-!
# Rcc.Rlp.RoundTrip

Trees through the stream and back.

* `round_trip_iff` — a tree that has been encoded is read back, at every position and by every
  reader, exactly if it is plain;
* `decode_canonical` — whatever the strictest reader reads as a tree is what the stream writes for
  this tree.
-/

namespace Rcc.Rlp

open List

open BigEndian (bytesRequired)

variable {s : Strictness} {d : List UInt8}

/-! ## Reading a tree -/

/-- All that the reader can say about a list whose items are `items`. -/
structure HasItems (s : Strictness) (d : List UInt8) (items : List (List UInt8)) : Prop where
  itemCount : itemCount d = .ok items.length
  toList : toList d s = .ok items
  toVector : ∀ {α : Type} (convert : List UInt8 → Strictness → Except Error α),
    toVector convert d s = items.mapM (convert · s)
  index : ∀ is : List Nat, (∀ i ∈ is, i < items.length) →
    indexAll d is {} = .ok (is.map fun i => items.getD i [])

mutual

/-- Every reader returns the tree's value, at every position. -/
def Agrees (s : Strictness) : List UInt8 → Value → Prop
  | d, .bytes b => toBytes d s = .ok b
  | d, .int n => ∀ t : IntType, t.Holds n → toInt t d s = .ok n
  | d, .hash h => toHash h.length d s = .ok h
  | d, .list items => ∃ ds, HasItems s d ds ∧ AgreesAll s ds items

def AgreesAll (s : Strictness) : List (List UInt8) → List Value → Prop
  | [], [] => True
  | d :: ds, v :: vs => Agrees s d v ∧ AgreesAll s ds vs
  | _, _ => False

end

/-- The items of a list, by its iterators or by subscripts. -/
def ReadsItems (s : Strictness) (d : List UInt8) (items : List (List UInt8)) : Prop :=
  isList d = true ∧ (toList d s = .ok items ∨
    itemCount d = .ok items.length ∧ indexAll d (List.range items.length) {} = .ok items)

mutual

/-- Some reader returns the tree's value, at every position. -/
def Reads (s : Strictness) : List UInt8 → Value → Prop
  | d, .bytes b => toBytes d s = .ok b
  | d, .int n => ∃ t : IntType, toInt t d s = .ok n
  | d, .hash h => toHash h.length d s = .ok h
  | d, .list items => ∃ ds, ReadsItems s d ds ∧ ReadsAll s ds items

def ReadsAll (s : Strictness) : List (List UInt8) → List Value → Prop
  | [], [] => True
  | d :: ds, v :: vs => Reads s d v ∧ ReadsAll s ds vs
  | _, _ => False

end

/-! ## There and back -/

theorem rlpAll_eq_flatten (vs : List Value) : rlpAll vs = (vs.map rlp).flatten := by
  induction vs with
  | nil => rfl
  | cons v vs ih => rw [rlpAll, ih, map_cons, flatten_cons]

theorem rlp_list (vs : List Value) : rlp (.list vs) = listOf (vs.map rlp) := by
  rw [rlp, rlpAll_eq_flatten, listOf]

theorem hasItems_listOf {xs : List (List UInt8)} (hxs : ∀ x ∈ xs, Framed x)
    (hfits : xs.flatten.length < maxLength) : HasItems s (listOf xs) xs where
  itemCount := itemCount_listOf hxs hfits
  toList := by
    rw [toList, listOf_isList hfits, if_neg (by simp), forEach_listOf pure hxs hfits]
    exact mapM_pure.trans (by rw [map_id']; rfl)
  toVector convert := by
    rw [toVector, if_pos (listOf_isList hfits), itemCount_listOf hxs hfits, Except.ok_bind,
      forEach_listOf _ hxs hfits]
  index is his := indexAll_listOf hxs hfits his (.inl rfl)

theorem lt_maxLength_of_lt {l : Nat} (hl : l < 2 ^ 63) : l < maxLength := by
  rw [maxLength]
  omega

mutual

/-- A plain tree is framed by its encoding, and every reader agrees with it. -/
theorem agrees_rlp (s : Strictness) (v : Value) (hv : v.Plain) (hfits : (rlp v).length < 2 ^ 63) :
    Framed (rlp v) ∧ Agrees s (rlp v) v := by
  match v with
  | .bytes b =>
    have hb := lt_maxLength_of_lt ((length_le_rlpBytes b).trans_lt hfits)
    exact ⟨framed_rlpBytes hv hb, toBytes_dataOf (dataOf_rlpBytes hv hb)⟩
  | .int n =>
    have hb := lt_maxLength_of_lt ((length_le_rlpBytes _).trans_lt hfits)
    exact ⟨framed_rlpBytes hv.1 hb, fun t ht => toInt_dataOf (dataOf_rlpBytes hv.1 hb) ht hv.2⟩
  | .hash h =>
    have hb := lt_maxLength_of_lt ((length_le_rlpBytes h).trans_lt hfits)
    exact ⟨framed_rlpBytes hv hb, toHash_dataOf (dataOf_rlpBytes hv hb)⟩
  | .list vs =>
    have hall : (rlpAll vs).length < 2 ^ 63 := by
      rw [rlp, length_append] at hfits
      omega
    obtain ⟨hframed, hagrees⟩ := agreesAll_rlp s vs hv hall
    rw [rlpAll_eq_flatten] at hall
    rw [rlp_list]
    exact ⟨.list _ (lt_maxLength_of_lt hall),
      _, hasItems_listOf hframed (lt_maxLength_of_lt hall), hagrees⟩

theorem agreesAll_rlp (s : Strictness) (vs : List Value) (hvs : PlainAll vs)
    (hfits : (rlpAll vs).length < 2 ^ 63) :
    (∀ x ∈ vs.map rlp, Framed x) ∧ AgreesAll s (vs.map rlp) vs := by
  match vs with
  | [] => exact ⟨by simp, trivial⟩
  | v :: vs =>
    rw [rlpAll, length_append] at hfits
    obtain ⟨hframed, hagrees⟩ := agrees_rlp s v hvs.1 (by omega)
    obtain ⟨hall, hagreesAll⟩ := agreesAll_rlp s vs hvs.2 (by omega)
    exact ⟨by simpa using ⟨hframed, by simpa using hall⟩, hagrees, hagreesAll⟩

end

theorem plain_hash {h p : List UInt8} (hp : PlainBytes p)
    (heq : h = List.replicate (h.length - p.length) 0 ++ p) (hle : p.length ≤ h.length) :
    PlainBytes h := by
  rintro x rfl
  match p, hle with
  | [], _ =>
    simp at heq
    simp [heq]
  | [y], _ =>
    simp at heq
    exact heq ▸ hp y rfl

mutual

theorem plain_of_agrees (hs : s.Throws) (d : List UInt8) (v : Value) (h : Agrees s d v) :
    v.Plain := by
  match v with
  | .bytes b =>
    obtain ⟨hdata, hp⟩ := toBytes_inv hs h
    exact payload_plain hdata hp
  | .int n =>
    obtain ⟨hdata, hp, hn⟩ := toInt_inv hs (h .bigint trivial)
    exact ⟨payload_plain hdata hp, hn⟩
  | .hash b =>
    obtain ⟨hdata, p, hp, hle, heq, -⟩ := toHash_inv hs h
    exact plain_hash (payload_plain hdata hp) heq hle
  | .list vs =>
    obtain ⟨ds, -, hall⟩ := h
    exact plainAll_of_agreesAll hs ds vs hall

theorem plainAll_of_agreesAll (hs : s.Throws) (ds : List (List UInt8)) (vs : List Value)
    (h : AgreesAll s ds vs) : PlainAll vs := by
  match ds, vs, h with
  | _, [], _ => trivial
  | d :: ds, v :: vs, h => exact ⟨plain_of_agrees hs d v h.1, plainAll_of_agreesAll hs ds vs h.2⟩

end

theorem throws_strict : Strictness.strict.Throws := ⟨rfl, rfl, rfl⟩

theorem throws_veryStrict : Strictness.veryStrict.Throws := ⟨rfl, rfl, rfl⟩

/-- **Round trip.** A tree that fits in memory is encoded, and read back at every position without
an exception, exactly if it is plain. -/
theorem round_trip_iff (s : Strictness) (hs : s = .strict ∨ s = .veryStrict) (v : Value)
    (hfits : (rlp v).length < 2 ^ 63) :
    (∃ b d, encode v = .ok b ∧ make b s = .ok d ∧ Agrees s d v) ↔ v.Plain := by
  constructor
  · rintro ⟨b, d, -, -, h⟩
    rcases hs with rfl | rfl
    · exact plain_of_agrees throws_strict d v h
    · exact plain_of_agrees throws_veryStrict d v h
  · intro hv
    obtain ⟨hframed, hagrees⟩ := agrees_rlp s v hv hfits
    exact ⟨rlp v, rlp v, encode_eq hv (by omega), make_framed hframed s, hagrees⟩

/-- **No boundary between items can be read in two ways.** Plain trees whose encodings, one behind
another, are the same bytes have the same encodings one by one. -/
theorem rlpAll_separates {vs ws : List Value} (hvs : PlainAll vs) (hws : PlainAll ws)
    (hfits : (rlpAll vs).length < 2 ^ 63) (h : rlpAll vs = rlpAll ws) :
    vs.map rlp = ws.map rlp := by
  -- the iterators find the items again behind the header of a list
  have hitems {us : List Value} (hus : PlainAll us) (hlt : (rlpAll us).length < 2 ^ 63) :
      toList (rlp (.list us)) .strict = .ok (us.map rlp) := by
    have hframed := (agreesAll_rlp .strict us hus hlt).1
    rw [rlpAll_eq_flatten] at hlt
    rw [rlp_list]
    exact (hasItems_listOf hframed (lt_maxLength_of_lt hlt)).toList
  have hread := hitems hvs hfits
  rw [rlp, h, ← rlp, hitems hws (h ▸ hfits)] at hread
  exact (Except.ok.inj hread).symm

theorem mixed_items_separate :
    rlpAll [.int 7, .bytes [2, 3]] = rlpAll [.bytes [7], .int 515] ∧
      [.int 7, .bytes [2, 3]].map rlp = [.bytes [7], .int 515].map rlp :=
  ⟨by decide, rlpAll_separates (by decide) (by decide) (by decide) (by decide)⟩

/-- A byte string, an integer, a hash and an empty list, in a list. -/
def sampleTree : Value := .list [.bytes [1, 2, 0x80], .int 1024, .hash [0, 0, 7, 8], .list []]

theorem sampleTree_round_trip :
    ∃ b d, encode sampleTree = .ok b ∧ make b .strict = .ok d ∧ Agrees .strict d sampleTree := by
  have hplain : sampleTree.Plain :=
    ⟨plainBytes_of_ne_one (by decide), ⟨plainBytes_of_ne_one (by decide), by decide⟩,
      plainBytes_of_ne_one (by decide), trivial, trivial⟩
  exact (round_trip_iff .strict (.inl rfl) sampleTree (by decide)).mpr hplain

/-- The byte string `0x80` is encoded as `0x81 0x80`, and no reader takes that. -/
theorem single_byte_unreadable :
    encode (.bytes [0x80]) = .ok [0x81, 0x80] ∧
      make [0x81, 0x80] .strict = .error .badRLP ∧
      make [0x81, 0x80] .veryStrict = .error .badRLP := by decide +kernel

/-! ## Canonical encodings -/

theorem map_getD_range {α : Type} (xs : List α) (x : α) :
    (List.range xs.length).map (xs.getD · x) = xs := by
  refine ext_getElem (by simp) fun i hi hi' => ?_
  simp [List.getElem?_eq_getElem hi']

/-- The items that are found, in whatever way, are those of the payload. -/
theorem ReadsItems.eq_listOf {xs : List (List UInt8)} (hd : Framed d) (h : ReadsItems s d xs) :
    d = listOf xs ∧ ∀ x ∈ xs, Framed x := by
  obtain ⟨hlist, hitems⟩ := h
  obtain ⟨p, hfits, rfl⟩ : ∃ p, p.length < maxLength ∧ d = lengthHeader 0xc0 p.length ++ p := by
    cases hd with
    | byte x hx => exact absurd (of_decide_eq_true hlist) (show ¬0xc0 ≤ x.toNat by omega)
    | data p hone hfits =>
      exact absurd ((header_flags (p := p) (.inl rfl) hfits).isList.symm.trans hlist)
        (by decide)
    | list p hfits => exact ⟨p, hfits, rfl⟩
  rcases hitems with hiter | ⟨hcount, hindex⟩
  · rw [toList, hlist] at hiter
    obtain ⟨rfl, hall⟩ := forEach_inv hfits hiter
    exact ⟨rfl, hall⟩
  · rw [itemCount, items, if_pos hlist, if_pos hlist, payload_header (.inr rfl) hfits] at hcount
    obtain ⟨ys, rfl, hall, hlen⟩ := itemsLoop_inv hcount
    have hys : indexAll (listOf ys) (List.range ys.length) {} = _ :=
      indexAll_listOf hall hfits (fun i hi => mem_range.mp hi) (.inl rfl)
    rw [map_getD_range, hlen] at hys
    obtain rfl := Except.ok.inj (hys.symm.trans hindex)
    exact ⟨rfl, hall⟩

mutual

/-- A framed item that the strictest reader reads as a tree is the tree's encoding. -/
theorem eq_rlp_of_reads (d : List UInt8) (v : Value) (hd : Framed d) (h : Reads .veryStrict d v) :
    d = rlp v ∧ v.Plain := by
  match v with
  | .bytes b =>
    obtain ⟨hdata, hp⟩ := toBytes_inv throws_veryStrict h
    exact hd.eq_rlpBytes hdata hp
  | .int n =>
    obtain ⟨t, h⟩ := h
    obtain ⟨hdata, hp, hn⟩ := toInt_inv throws_veryStrict h
    obtain ⟨heq, hplain⟩ := hd.eq_rlpBytes hdata hp
    exact ⟨heq, hplain, hn⟩
  | .hash b =>
    obtain ⟨hdata, p, hp, hle, heq, hsize⟩ := toHash_inv throws_veryStrict h
    rw [hsize rfl, Nat.sub_self, replicate_zero] at heq
    exact hd.eq_rlpBytes hdata (heq ▸ hp)
  | .list vs =>
    obtain ⟨ds, hitems, hall⟩ := h
    obtain ⟨rfl, hframed⟩ := hitems.eq_listOf hd
    obtain ⟨rfl, hplain⟩ := eq_map_rlp_of_readsAll ds vs hframed hall
    exact ⟨(rlp_list vs).symm, hplain⟩

theorem eq_map_rlp_of_readsAll (ds : List (List UInt8)) (vs : List Value) (hds : ∀ d ∈ ds, Framed d)
    (h : ReadsAll .veryStrict ds vs) : ds = vs.map rlp ∧ PlainAll vs := by
  match ds, vs, h with
  | [], [], _ => exact ⟨rfl, trivial⟩
  | d :: ds, v :: vs, h =>
    obtain ⟨rfl, hplain⟩ := eq_rlp_of_reads d v (hds d (by simp)) h.1
    obtain ⟨rfl, hall⟩ := eq_map_rlp_of_readsAll ds vs (fun d hd => hds d (by simp [hd])) h.2
    exact ⟨rfl, hplain, hall⟩

end

theorem Framed.length_lt (h : Framed d) : d.length < 2 ^ 64 := by
  have hheader (start l : Nat) (hstart : start ≤ 0xc0) (hl : l < maxLength) :
      (lengthHeader start l).length ≤ 9 := by
    obtain ⟨x, ⟨-, -, hhead⟩ | ⟨-, -, -, hle, hhead⟩⟩ := lengthHeader_cases hstart hl
    · simp [hhead]
    · simp [hhead]
      omega
  cases h with
  | byte x hx => simp
  | data p hone hfits =>
    have := hheader 0x80 p.length (by decide) hfits
    rw [maxLength] at hfits
    rw [length_append]
    omega
  | list p hfits =>
    have := hheader 0xc0 p.length le_rfl hfits
    rw [maxLength] at hfits
    rw [length_append]
    omega

/-- An empty reference is no tree. -/
theorem not_reads_nil (v : Value) : ¬Reads .veryStrict [] v := by
  intro h
  cases v with
  | bytes b => exact absurd (toBytes_inv throws_veryStrict h).1 (by decide)
  | int n =>
    obtain ⟨t, h⟩ := h
    exact absurd (toInt_inv throws_veryStrict h).1 (by decide)
  | hash b => exact absurd (toHash_inv throws_veryStrict h).1 (by decide)
  | list vs =>
    obtain ⟨ds, ⟨hlist, -⟩, -⟩ := h
    exact absurd hlist (by decide)

/-- **Canonical.** The bytes that the strictest reader accepts and reads as a tree are those that
the stream writes for it, so that no others are read as this tree. -/
theorem decode_canonical {b d : List UInt8} {v : Value} (hmake : make b .veryStrict = .ok d)
    (hreads : Reads .veryStrict d v) :
    encode v = .ok b ∧
      ∀ b' d', make b' .veryStrict = .ok d' → Reads .veryStrict d' v → b' = b := by
  have heq : ∀ b d, make b .veryStrict = .ok d → Reads .veryStrict d v →
      Framed b ∧ b = rlp v ∧ v.Plain := by
    intro b d hmake hreads
    obtain ⟨rfl, rfl | hframed⟩ := make_veryStrict_inv hmake
    · exact absurd hreads (not_reads_nil v)
    · exact ⟨hframed, eq_rlp_of_reads d v hframed hreads⟩
  obtain ⟨hframed, hb, hplain⟩ := heq b d hmake hreads
  refine ⟨?_, fun b' d' hmake' hreads' => (heq b' d' hmake' hreads').2.1.trans hb.symm⟩
  rw [hb, encode_eq hplain (hb ▸ hframed.length_lt)]

theorem list_of_two_canonical :
    make [0xc4, 0x82, 4, 0, 7] .veryStrict = .ok [0xc4, 0x82, 4, 0, 7] ∧
      encode (.list [.int 1024, .bytes [7]]) = .ok [0xc4, 0x82, 4, 0, 7] := by
  have hmake : make [0xc4, 0x82, 4, 0, 7] .veryStrict = .ok [0xc4, 0x82, 4, 0, 7] := by decide
  have hreads : Reads .veryStrict [0xc4, 0x82, 4, 0, 7] (.list [.int 1024, .bytes [7]]) :=
    ⟨[[0x82, 4, 0], [7]], ⟨by decide, .inl (by decide)⟩, ⟨.uint64, by decide⟩,
      show toBytes [7] .veryStrict = .ok [7] by decide, trivial⟩
  exact ⟨hmake, (decode_canonical hmake hreads).1⟩

-- With `Strict`, the flags `toHash` has by default, a hash that is too short is filled up.
example : toHash 2 [0x80] .strict = .ok [0, 0] ∧ toHash 2 [0x82, 0, 0] .strict = .ok [0, 0] := by
  decide

end Rcc.Rlp
