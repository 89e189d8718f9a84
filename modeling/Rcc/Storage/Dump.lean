import Mathlib.Data.List.Lex
import Mathlib.Data.String.Basic
import Rcc.Lib.BigEndian
import Rcc.Lib.Layout
import Rcc.Lib.TiedSort
import Rcc.Storage.Overlay

/-!
# Rcc.Storage.Dump

`MemoryTable2::dump` (`libstorage/MemoryTable2.cpp`): the entries a block has changed are
collected by several threads, sorted with `EntryLessNoLock`, copied into one buffer by several
threads, and the buffer is hashed.

`HashedTable.Dump` is the relation between a table and what a dump may leave, for every order in
which the threads collect and copy and every way the sort breaks ties. The offsets make the order
of the copies irrelevant (`data_eq`). The order of tied entries is not irrelevant: the comparator
does not read the status, which is copied.

The characters of a string stand for its bytes.
-/

namespace Rcc.Storage

open List

abbrev h256 := Fin (2 ^ 256)

/-! ### Entries as bytes -/

namespace Entry

variable {version : Version}

/-- The fields of the entry in the order of a `std::map`. -/
def sortedFields (e : Entry) : List (String × String) :=
  e.fields.entries.insertionSort fun f g => f.1 ≤ g.1

/-- `(char)entry->getStatus()`. -/
def statusByte (e : Entry) : Char := Char.ofNat (e.status % 256).toNat

/-- The size of a field in the buffer. -/
def hashSize (version : Version) (f : String × String) : Nat :=
  if isHashField version f.1 then f.1.length + f.2.length else 0

/-- `capacityOfHashField`. The program keeps this number in a counter, which `setField` adjusts. -/
def capacityOfHashField (version : Version) (e : Entry) : Nat :=
  (e.fields.entries.map (hashSize version)).sum

/-- What is copied for a field. -/
def fieldPieces (version : Version) (f : String × String) : List (List Char) :=
  if isHashField version f.1 then [f.1.toList, f.2.toList] else []

/-- What is copied for an entry, piece by piece: the name and the value of each hash field, then
the status. -/
def pieces (version : Version) (e : Entry) : List (List Char) :=
  e.sortedFields.flatMap (fieldPieces version) ++ [[e.statusByte]]

theorem sortedFields_perm (e : Entry) : e.sortedFields.Perm e.fields.entries :=
  perm_insertionSort _ _

theorem length_flatten_pieces (e : Entry) :
    (e.pieces version).flatten.length = e.capacityOfHashField version + 1 := by
  have hfields : ∀ l : List (String × String),
      (l.flatMap (fieldPieces version)).flatten.length = (l.map (hashSize version)).sum := by
    intro l
    induction l with
    | nil => rfl
    | cons f l ih =>
      rw [flatMap_cons, flatten_append, length_append, ih, map_cons]
      by_cases hhash : isHashField version f.1 = true
      · simp [fieldPieces, hashSize, hhash, String.length_toList]
      · simp [fieldPieces, hashSize, hhash]
  rw [pieces, flatten_append, length_append, hfields]
  exact congrArg (· + 1) (e.sortedFields_perm.map (hashSize version)).sum_eq

end Entry

/-! ### The comparator -/

/-- The loop at the end of `EntryLessNoLock`. -/
def fieldsLess : List (String × String) → List (String × String) → Bool
  | l :: ls, r :: rs =>
    if l.1 ≠ r.1 then l.1 < r.1
    else if l.2 ≠ r.2 then l.2 < r.2
    else fieldsLess ls rs
  | _, _ => false

variable (info : TableInfo)

/-- `EntryLessNoLock::operator()`. -/
def entryLess (lhs rhs : Entry) : Bool :=
  if lhs.ID ≠ rhs.ID then lhs.ID < rhs.ID
  else if lhs.getField info.key ≠ rhs.getField info.key then
    lhs.getField info.key < rhs.getField info.key
  else if lhs.fields.entries.length ≠ rhs.fields.entries.length then
    lhs.fields.entries.length < rhs.fields.entries.length
  else fieldsLess lhs.sortedFields rhs.sortedFields

/-- What the comparator reads of an entry, as one key. -/
def sortKey (e : Entry) : ℕ ×ₗ String ×ₗ ℕ ×ₗ List (String ×ₗ String) :=
  toLex (e.ID, toLex (e.getField info.key, toLex (e.fields.entries.length,
    e.sortedFields.map toLex)))

theorem fieldsLess_iff {l r : List (String × String)} (hlen : l.length = r.length) :
    fieldsLess l r = true ↔ l.map toLex < r.map toLex := by
  induction l generalizing r with
  | nil =>
    obtain rfl := length_eq_zero_iff.mp hlen.symm
    simp [fieldsLess]
  | cons f l ih =>
    cases r with
    | nil => cases hlen
    | cons g r =>
      rw [map_cons, map_cons, cons_lt_cons_iff, Prod.Lex.toLex_lt_toLex,
        ← ih (Nat.succ.inj hlen), fieldsLess]
      by_cases hname : f.1 = g.1
      · by_cases hvalue : f.2 = g.2
        · simp [Prod.ext hname hvalue]
        · have hne : toLex f ≠ toLex g := fun h => hvalue (congrArg Prod.snd h)
          simp [hname, hvalue, hne]
      · have hne : toLex f ≠ toLex g := fun h => hname (congrArg Prod.fst h)
        simp [hname, hne]

/-- The comparator orders by the key it reads. -/
theorem entryLess_iff (lhs rhs : Entry) :
    entryLess info lhs rhs = true ↔ sortKey info lhs < sortKey info rhs := by
  rw [sortKey, sortKey, Prod.Lex.toLex_lt_toLex, Prod.Lex.toLex_lt_toLex,
    Prod.Lex.toLex_lt_toLex, entryLess]
  by_cases hid : lhs.ID = rhs.ID
  · by_cases hkey : lhs.getField info.key = rhs.getField info.key
    · by_cases hsize : lhs.fields.entries.length = rhs.fields.entries.length
      · have hlen : lhs.sortedFields.length = rhs.sortedFields.length := by
          rw [lhs.sortedFields_perm.length_eq, rhs.sortedFields_perm.length_eq, hsize]
        simp [hid, hkey, hsize, fieldsLess_iff hlen]
      · simp [hid, hkey, hsize]
    · simp [hid, hkey]
  · simp [hid]

/-! ### The buffer -/

/-- `genDataOffset`: where each entry starts, and where the last one ends. -/
def genDataOffset (version : Version) (startOffset : Nat) : List Entry → List Nat
  | [] => [startOffset]
  | e :: es =>
    startOffset :: genDataOffset version (startOffset + e.capacityOfHashField version + 1) es

variable (version : Version)

/-- The copies `parallelGenData` makes: each goes to its place, in whatever order. -/
def parallelGenData (offsetVec : List Nat) (entries : List Entry) :
    List (Nat × List Char) :=
  (offsetVec.zip entries).flatMap fun x => Layout.tile x.1 (x.2.pieces version)

namespace TableData

variable (d : TableData)

def entries : List Entry := d.dirtyEntries ++ d.newEntries

/-- The size of the buffer. -/
def allSize : Nat :=
  (d.entries.map fun e => e.capacityOfHashField version + 1).sum

def insertDataStartOffset : Nat :=
  ((genDataOffset version 0 d.dirtyEntries)[d.dirtyEntries.length]?).getD 0

/-- All copies of the two `parallelGenData`. -/
def copies : List (Nat × List Char) :=
  parallelGenData version (genDataOffset version 0 d.dirtyEntries) d.dirtyEntries ++
    parallelGenData version (genDataOffset version (d.insertDataStartOffset version) d.newEntries)
      d.newEntries

/-- `data` is what the buffer may hold once all copies are made. -/
def Copied (data : List Char) : Prop :=
  ∃ ws : List (Nat × List Char), ws.Perm (d.copies version) ∧
    data = ws.foldl (fun b w => Layout.write b w.1 w.2)
      (List.replicate (d.allSize version) (Char.ofNat 0))

/-- The bytes of the entries one after another. -/
def bytes : List Char :=
  d.entries.flatMap fun e => (e.pieces version).flatten

end TableData

section

variable {version : Version}

theorem getElem?_genDataOffset (start : Nat) (es : List Entry) :
    (genDataOffset version start es)[es.length]? =
      some (start + (es.map fun e => e.capacityOfHashField version + 1).sum) := by
  induction es generalizing start with
  | nil => rfl
  | cons e es ih =>
    rw [genDataOffset, length_cons, List.getElem?_cons_succ, ih, map_cons, sum_cons]
    congr 1
    omega

theorem parallelGenData_eq_tile (start : Nat) (es : List Entry) :
    parallelGenData version (genDataOffset version start es) es =
      Layout.tile start (es.flatMap (Entry.pieces version)) := by
  induction es generalizing start with
  | nil => rfl
  | cons e es ih =>
    rw [flatMap_cons, Layout.tile_append, e.length_flatten_pieces, ← ih]
    rfl

theorem length_flatten_flatMap_pieces (es : List Entry) :
    (es.flatMap (Entry.pieces version)).flatten.length =
      (es.map fun e => e.capacityOfHashField version + 1).sum := by
  induction es with
  | nil => rfl
  | cons e es ih =>
    rw [flatMap_cons, flatten_append, length_append, ih, map_cons,
      sum_cons, e.length_flatten_pieces]

namespace TableData

/-- The places leave no gap between the dirty and the new entries. -/
theorem copies_eq_tile (d : TableData) :
    d.copies version = Layout.tile 0 (d.entries.flatMap (Entry.pieces version)) := by
  rw [copies, insertDataStartOffset, getElem?_genDataOffset, Option.getD_some,
    parallelGenData_eq_tile, parallelGenData_eq_tile, entries, flatMap_append,
    Layout.tile_append, length_flatten_flatMap_pieces]

/-- **Whatever the order of the copies, the buffer holds the entries one after another.** -/
theorem data_eq {d : TableData} {data : List Char} (h : d.Copied version data) :
    data = d.bytes version := by
  obtain ⟨ws, hws, rfl⟩ := h
  rw [copies_eq_tile] at hws
  rw [Layout.foldl_write_tile hws]
  · rw [bytes, flatten_eq_flatMap, flatMap_assoc]
    simp only [flatten_eq_flatMap]
  · rw [length_replicate, length_flatten_flatMap_pieces, allSize]

theorem copied_bytes (version : Version) (d : TableData) : d.Copied version (d.bytes version) := by
  refine ⟨d.copies version, List.Perm.refl _, ?_⟩
  exact (data_eq ⟨d.copies version, List.Perm.refl _, rfl⟩).symm

end TableData
end

/-! ### The table -/

/-- The dirty entry with an id, unless it is not dumped. -/
def Pending.dumpedDirty (p : Pending) (id : Nat) : List Entry :=
  (p.dirty id).toList.filter (!·.deleted)

/-- The new entries of a key that are dumped. -/
def Pending.dumpedNew (p : Pending) (key : String) : List Entry :=
  (p.newEntries key).filter (!·.deleted)

namespace MemoryTable2

/-- What a call answers. -/
def answer (db : Backend) (t : MemoryTable2) : TableCall → Except StorageError Outcome
  | .insert key fields force options => t.insert key { fields, force } options
  | .update key fields condition options => t.update version db key { fields } condition options
  | .remove key condition options => .ok (t.remove version db key condition options)

/-- What the threads and the sorts may leave in `m_tableData`. -/
structure Collects (t : MemoryTable2) (d : TableData) : Prop where
  info : d.info = t.info
  dirty : Gathers t.pending.dumpedDirty d.dirtyEntries
  new : Gathers t.pending.dumpedNew d.newEntries
  dirty_sorted : d.dirtyEntries.Pairwise fun l r => entryLess t.info r l = false
  new_sorted : d.newEntries.Pairwise fun l r => entryLess t.info r l = false

end MemoryTable2

/-- A table with the hash of its last dump. -/
structure HashedTable where
  table : MemoryTable2
  hashDirty : Bool := false
  hash : h256 := 0
  tableData : Option TableData := none
  /-- a rollback has come since the hash was computed; the program does not keep this -/
  rolledBack : Bool := false

namespace HashedTable

/-- A call, which asks for a new hash if it recorded a change. -/
def call (version : Version) (db : Backend) (t : HashedTable) (c : TableCall) : HashedTable :=
  { t with
    table := t.table.call version db c
    hashDirty := t.hashDirty || (t.table.answer version db c).toOption.any (·.change.isSome) }

/-- `rollback`, which leaves the flag of the hash as it is. -/
def rollback (t : HashedTable) (change : Change) : HashedTable :=
  { t with table := ⟨t.table.info, t.table.pending.rollback change⟩, rolledBack := true }

/-- `dump`, with `H` the hash function of the version. -/
inductive Dump (version : Version) (H : List Char → h256) (t : HashedTable) : HashedTable → Prop
  | unchanged (h : t.hashDirty = false) : Dump version H t t
  | ignored {d : TableData} (h : t.hashDirty = true) (hc : t.table.info.enableConsensus = false)
      (info : d.info = t.table.info) (dirty : Gathers t.table.pending.dumpedDirty d.dirtyEntries)
      (new : Gathers t.table.pending.dumpedNew d.newEntries) :
      Dump version H t
        { t with hashDirty := false, hash := 0, tableData := some d, rolledBack := false }
  | hashed {d : TableData} {data : List Char} (h : t.hashDirty = true)
      (hc : t.table.info.enableConsensus = true) (collects : t.table.Collects d)
      (copied : d.Copied version data) :
      Dump version H t
        { t with hashDirty := false, hash := H data, tableData := some d, rolledBack := false }

/-- The table of a block before the first call. -/
def fresh (info : TableInfo) : HashedTable where
  table := { info }

end HashedTable

inductive TableEvent
  | call (c : TableCall)
  | rollback (change : Change)
  | dump

/-- What may happen to a table in a block. -/
inductive HashedTable.Step (version : Version) (db : Backend) (H : List Char → h256)
    (t : HashedTable) : TableEvent → HashedTable → Prop
  | call (c : TableCall) : Step version db H t (.call c) (t.call version db c)
  | rollback (change : Change) : Step version db H t (.rollback change) (t.rollback change)
  | dump {s : HashedTable} (h : t.Dump version H s) : Step version db H t .dump s

end Rcc.Storage
