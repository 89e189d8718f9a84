import Rcc.Lib.Memo
import Rcc.Rlp.RoundTrip

/-!
# Rcc.Block.BlockHeader

The class `BlockHeader` of `libethcore`: its fields, their encoding and what reads it, and the
memo of the hash.

* `Fields.encode` — `BlockHeader::encode`;
* `BlockHeader.populate` — `BlockHeader::populate`, which leaves the fields before a bad one
  assigned when it throws;
* `populate_encode` — the fields are read back from their encoding.
-/

namespace Rcc.Block

open List Rcc.Rlp

/-- `crypto::Hash` and, where the sources have none of their own, constants and casts. -/
structure Crypto where
  Hash : List UInt8 → List UInt8
  /-- `EmptyTrie` -/
  emptyTrie : List UInt8
  /-- `(byte)_i` of a negative `bigint` -/
  negativeByte : Int → UInt8

/-- `h256()` -/
def noHash : List UInt8 := List.replicate 32 0

def invalid256 : Nat := 2 ^ 256 - 1

/-- The fields of a header. -/
structure Fields where
  parentHash : List UInt8 := noHash
  stateRoot : List UInt8 := noHash
  transactionsRoot : List UInt8 := noHash
  receiptsRoot : List UInt8 := noHash
  dbHash : List UInt8 := noHash
  logBloom : List UInt8 := List.replicate 256 0
  number : Int := 0
  gasLimit : Nat := 0
  gasUsed : Nat := 0
  timestamp : Nat := 2 ^ 64 - 1
  extraData : List (List UInt8) := []
  sealer : Nat := invalid256
  sealerList : List (List UInt8) := []
  deriving DecidableEq

/-- `RLPStream::append(bigint)`; a negative number is below `0x80`. -/
def Crypto.rlpNumber (c : Crypto) (n : Int) : List UInt8 :=
  if n < 0 then [c.negativeByte n] else rlp (.int n.toNat)

namespace Fields

/-- What `streamRLPFields` appends. -/
def items (c : Crypto) (f : Fields) : List (List UInt8) :=
  [rlp (.hash f.parentHash), rlp (.hash f.stateRoot), rlp (.hash f.transactionsRoot),
    rlp (.hash f.receiptsRoot), rlp (.hash f.dbHash), rlp (.hash f.logBloom),
    c.rlpNumber f.number, rlp (.int f.gasLimit), rlp (.int f.gasUsed), rlp (.int f.timestamp),
    rlp (.list (f.extraData.map .bytes)), rlp (.int f.sealer), rlp (.list (f.sealerList.map .hash))]

def encode (c : Crypto) (f : Fields) : List UInt8 := listOf (f.items c)

end Fields

/-! ## Reading -/

/-- `RLP::LaissezFaire` -/
def laissezFaire : Strictness := { allowNonCanon := true }

/-- `toInt<int64_t>` of eight bytes at most; from `2 ^ 63` on the result is negative. -/
def toPositiveInt64 (d : List UInt8) : Except Error Nat := do
  let i ← toInt .uint64 d .strict
  if 2 ^ 63 ≤ i then throw .badCast else pure i

/-- What an item of the header assigns. -/
abbrev FieldReader := List UInt8 → Except Error (Fields → Fields)

/-- The assignments of `populate`, in their order. -/
def readers : List FieldReader :=
  [fun d => (toHash 32 d .veryStrict).map fun v f => { f with parentHash := v },
    fun d => (toHash 32 d .veryStrict).map fun v f => { f with stateRoot := v },
    fun d => (toHash 32 d .veryStrict).map fun v f => { f with transactionsRoot := v },
    fun d => (toHash 32 d .veryStrict).map fun v f => { f with receiptsRoot := v },
    fun d => (toHash 32 d .veryStrict).map fun v f => { f with dbHash := v },
    fun d => (toHash 256 d .veryStrict).map fun v f => { f with logBloom := v },
    fun d => (toPositiveInt64 d).map fun v f => { f with number := v },
    fun d => (toInt .u256 d .strict).map fun v f => { f with gasLimit := v },
    fun d => (toInt .u256 d .strict).map fun v f => { f with gasUsed := v },
    fun d => (toInt .uint64 d .strict).map fun v f => { f with timestamp := v },
    fun d => (toVector Rlp.toBytes d laissezFaire).map fun v f => { f with extraData := v },
    fun d => (toInt .u256 d .strict).map fun v f => { f with sealer := v },
    fun d => (toVector (toHash 64) d laissezFaire).map
      fun v f => { f with sealerList := v }]

/-- `_header[field = field]` and its assignment, from `field` on. -/
def populateLoop (d : List UInt8) : List FieldReader → Nat → Cache → Fields →
    Fields × Option Error
  | [], _, _, f => (f, none)
  | read :: rest, field, cache, f =>
    match index d field cache with
    | .error e => (f, some e)
    | .ok (item, cache) =>
      match read item with
      | .error e => (f, some e)
      | .ok assign => populateLoop d rest (field + 1) cache (assign f)

/-- What becomes of the fields, and the exception. -/
def populate (d : List UInt8) (f : Fields) : Fields × Option Error := populateLoop d readers 0 {} f

inductive BlockDataType
  | headerData | blockData
  deriving DecidableEq

inductive HeaderError
  | rlp (error : Error)
  | invalidBlockFormat
  deriving DecidableEq

/-- A reader's exception passes through. -/
def ofRlp {α : Type} : Except Error α → Except HeaderError α := Except.mapError .rlp

/-- `extractBlock`, with the first item. -/
def extractBlock (block : List UInt8) : Except HeaderError (List UInt8 × List UInt8) := do
  let root ← ofRlp (make block .veryStrict)
  if !isList root then throw .invalidBlockFormat
  let (header, _) ← ofRlp (index root 0 {})
  if !isList header then throw .invalidBlockFormat
  return (root, header)

/-- The header a constructor reads, as an `RLP`. -/
def headerRlp (data : List UInt8) : BlockDataType → Except HeaderError (List UInt8)
  | .headerData => ofRlp (make data .veryStrict)
  | .blockData => (extractBlock data).map Prod.snd

/-! ## The fields read back -/

variable {f : Fields}

/-- The items as trees. -/
def Fields.values (f : Fields) : List Value :=
  [.hash f.parentHash, .hash f.stateRoot, .hash f.transactionsRoot, .hash f.receiptsRoot,
    .hash f.dbHash, .hash f.logBloom, .int f.number.toNat, .int f.gasLimit, .int f.gasUsed,
    .int f.timestamp, .list (f.extraData.map .bytes), .int f.sealer, .list (f.sealerList.map .hash)]

/-- Fields of their types that the reader takes. By `plain`, no number is between 128 and 255:
these are written as two bytes, which the reader refuses (see `Rlp.Value.Plain`). -/
@[mk_iff] structure Fields.WellFormed (f : Fields) : Prop where
  parentHash : f.parentHash.length = 32
  stateRoot : f.stateRoot.length = 32
  transactionsRoot : f.transactionsRoot.length = 32
  receiptsRoot : f.receiptsRoot.length = 32
  dbHash : f.dbHash.length = 32
  logBloom : f.logBloom.length = 256
  number : 0 ≤ f.number ∧ f.number < 2 ^ 63
  gasLimit : f.gasLimit < 2 ^ 256
  gasUsed : f.gasUsed < 2 ^ 256
  timestamp : f.timestamp < 2 ^ 64
  sealer : f.sealer < 2 ^ 256
  sealerList : ∀ id ∈ f.sealerList, id.length = 64
  plain : PlainAll f.values
  fits : (rlp (.list f.values)).length < 2 ^ 63

instance (f : Fields) : Decidable f.WellFormed := decidable_of_iff' _ (Fields.wellFormed_iff f)

theorem items_eq (c : Crypto) (hf : f.WellFormed) : f.items c = f.values.map rlp := by
  have hnumber : c.rlpNumber f.number = rlp (.int f.number.toNat) := if_neg (not_lt.mpr hf.number.1)
  rw [Fields.items, hnumber]
  rfl

section
variable {xs : List (List UInt8)} (hxs : ∀ x ∈ xs, Framed x)
  (hfits : xs.flatten.length < maxLength)
include hxs hfits

/-- If every reader takes its item, all the assignments are made. -/
theorem populateLoop_eq {rs : List FieldReader} {gs : List (Fields → Fields)} {i : Nat}
    {cache : Cache} (hlen : i + rs.length ≤ xs.length)
    (hread : List.zipWith (fun (r : FieldReader) x => r x) rs (xs.drop i) = gs.map .ok)
    (hcache : cache = {} ∨ ∃ j, cache.StandsAt xs j) :
    populateLoop (listOf xs) rs i cache f = (gs.foldl (fun f g => g f) f, none) := by
  induction rs generalizing gs i cache f with
  | nil =>
    obtain rfl : gs = [] := by simpa using hread.symm
    rfl
  | cons r rs ih =>
    rw [length_cons] at hlen
    have hi : i < xs.length := by omega
    rw [drop_eq_getElem_cons hi] at hread
    cases gs with
    | nil => cases hread
    | cons g gs =>
      obtain ⟨hr, hrest⟩ := List.cons.inj hread
      obtain ⟨cache', hindex, hat⟩ := index_listOf hxs hfits hi hcache
      simp only [populateLoop, hindex, hr]
      exact ih (by omega) hrest (Or.inr ⟨i, hat⟩)

end

section
variable {α : Type} {s : Strictness} {tree : α → Value}
  {convert : List UInt8 → Strictness → Except Error α}

theorem mapM_of_agreesAll {vs : List α} {ds : List (List UInt8)}
    (hconvert : ∀ d, ∀ v ∈ vs, Agrees s d (tree v) → convert d s = .ok v)
    (h : AgreesAll s ds (vs.map tree)) : ds.mapM (convert · s) = .ok vs := by
  induction vs generalizing ds with
  | nil =>
    cases ds with
    | nil => rfl
    | cons d ds => exact h.elim
  | cons v vs ih =>
    cases ds with
    | nil => exact h.elim
    | cons d ds =>
      rw [mapM_cons, hconvert d v (by simp) h.1, ih (fun d v hv => hconvert d v (by simp [hv])) h.2]
      rfl

theorem toVector_rlp {vs : List α}
    (hconvert : ∀ d, ∀ v ∈ vs, Agrees s d (tree v) → convert d s = .ok v)
    (hplain : Value.Plain (.list (vs.map tree)))
    (hfits : (rlp (.list (vs.map tree))).length < 2 ^ 63) :
    toVector convert (rlp (.list (vs.map tree))) s = .ok vs := by
  obtain ⟨-, ds, hitems, hall⟩ := agrees_rlp s _ hplain hfits
  rw [hitems.toVector, mapM_of_agreesAll hconvert hall]

end

theorem holds_u256 {n : Nat} (hn : n < 2 ^ 256) : IntType.u256.Holds n := by
  rw [IntType.Holds, IntType.maxSize]
  · exact hn.trans_eq (by norm_num)
  · intro h
    cases h

theorem holds_uint64 {n : Nat} (hn : n < 2 ^ 64) : IntType.uint64.Holds n := by
  rw [IntType.Holds, IntType.maxSize]
  · exact hn.trans_eq (by norm_num)
  · intro h
    cases h

theorem length_rlp_le {v : Value} {vs : List Value} (hv : v ∈ vs) :
    (rlp v).length ≤ (rlp (.list vs)).length := by
  have hsum : (rlp v).length ≤ ((vs.map rlp).map List.length).sum :=
    single_le_sum (by simp) _ (by simpa using ⟨v, hv, rfl⟩)
  rw [rlp_list, listOf, length_append, length_flatten]
  omega

theorem plain_of_mem {v : Value} {vs : List Value} (h : PlainAll vs) (hv : v ∈ vs) : v.Plain := by
  induction vs with
  | nil => cases hv
  | cons w vs ih =>
    rcases mem_cons.mp hv with rfl | hv
    · exact h.1
    · exact ih h.2 hv

namespace Fields.WellFormed

variable (hf : f.WellFormed) (s : Strictness)
include hf

theorem agrees {v : Value} (hv : v ∈ f.values) : Framed (rlp v) ∧ Agrees s (rlp v) v :=
  agrees_rlp s v (plain_of_mem hf.plain hv) (lt_of_le_of_lt (length_rlp_le hv) hf.fits)

theorem toHash_item {h : List UInt8} {n : Nat} (hh : .hash h ∈ f.values) (hn : h.length = n) :
    toHash n (rlp (.hash h)) s = .ok h := by
  have := (hf.agrees s hh).2
  rw [Agrees, hn] at this
  exact this

theorem toInt_item {n : Nat} {t : IntType} (hn : .int n ∈ f.values) (ht : t.Holds n) :
    toInt t (rlp (.int n)) s = .ok n := by
  have := (hf.agrees s hn).2
  exact this t ht

theorem toVector_item {α : Type} {tree : α → Value} {vs : List α}
    {convert : List UInt8 → Strictness → Except Error α}
    (hconvert : ∀ d, ∀ v ∈ vs, Agrees s d (tree v) → convert d s = .ok v)
    (hvs : .list (vs.map tree) ∈ f.values) :
    toVector convert (rlp (.list (vs.map tree))) s = .ok vs :=
  toVector_rlp hconvert (plain_of_mem hf.plain hvs)
    (lt_of_le_of_lt (length_rlp_le hvs) hf.fits)

end Fields.WellFormed

/-- **The fields are read back**, whatever they have been before. -/
theorem populate_encode (c : Crypto) (hf : f.WellFormed) (old : Fields) :
    populate (f.encode c) old = (f, none) := by
  have hframed : ∀ x ∈ f.values.map rlp, Framed x := by
    intro x hx
    obtain ⟨v, hv, rfl⟩ := mem_map.mp hx
    exact (hf.agrees .strict hv).1
  have hfits : (f.values.map rlp).flatten.length < maxLength := by
    refine lt_maxLength_of_lt (lt_of_le_of_lt ?_ hf.fits)
    rw [rlp_list, listOf, length_append]
    exact Nat.le_add_left _ _
  have hnumber : toPositiveInt64 (rlp (.int f.number.toNat)) = .ok f.number.toNat := by
    have hlt : f.number.toNat < 2 ^ 63 := by
      have := hf.number
      omega
    rw [toPositiveInt64, hf.toInt_item .strict (by simp [Fields.values])
      (holds_uint64 (hlt.trans (by decide))), Except.ok_bind, if_neg (not_le.mpr hlt)]
    rfl
  have hextra : toVector Rlp.toBytes (rlp (.list (f.extraData.map .bytes))) laissezFaire
      = .ok f.extraData :=
    hf.toVector_item laissezFaire (fun d b _ h => by rwa [Agrees] at h)
      (by simp [Fields.values])
  have hsealers : toVector (toHash 64) (rlp (.list (f.sealerList.map .hash))) laissezFaire
      = .ok f.sealerList :=
    hf.toVector_item laissezFaire
      (fun d b hb h => by rwa [Agrees, hf.sealerList b hb] at h) (by simp [Fields.values])
  have hread : List.zipWith (fun (r : FieldReader) x => r x) readers ((f.values.map rlp).drop 0) =
      [({ · with parentHash := f.parentHash }), ({ · with stateRoot := f.stateRoot }),
        ({ · with transactionsRoot := f.transactionsRoot }),
        ({ · with receiptsRoot := f.receiptsRoot }), ({ · with dbHash := f.dbHash }),
        ({ · with logBloom := f.logBloom }), ({ · with number := f.number.toNat }),
        ({ · with gasLimit := f.gasLimit }), ({ · with gasUsed := f.gasUsed }),
        ({ · with timestamp := f.timestamp }), ({ · with extraData := f.extraData }),
        ({ · with sealer := f.sealer }), ({ · with sealerList := f.sealerList })].map .ok := by
    simp only [readers, Fields.values, map_cons, drop_zero, zipWith_cons_cons, zipWith_nil_left]
    rw [hf.toHash_item _ (by simp [Fields.values]) hf.parentHash,
      hf.toHash_item _ (by simp [Fields.values]) hf.stateRoot,
      hf.toHash_item _ (by simp [Fields.values]) hf.transactionsRoot,
      hf.toHash_item _ (by simp [Fields.values]) hf.receiptsRoot,
      hf.toHash_item _ (by simp [Fields.values]) hf.dbHash,
      hf.toHash_item _ (by simp [Fields.values]) hf.logBloom, hnumber,
      hf.toInt_item _ (by simp [Fields.values]) (holds_u256 hf.gasLimit),
      hf.toInt_item _ (by simp [Fields.values]) (holds_u256 hf.gasUsed),
      hf.toInt_item _ (by simp [Fields.values]) (holds_uint64 hf.timestamp), hextra,
      hf.toInt_item _ (by simp [Fields.values]) (holds_u256 hf.sealer), hsealers]
    rfl
  rw [Fields.encode, items_eq c hf, populate,
    populateLoop_eq hframed hfits (by simp [Fields.values, readers]) hread (Or.inl rfl)]
  simp only [foldl_cons, foldl_nil, Int.toNat_of_nonneg hf.number.1]

end Rcc.Block
