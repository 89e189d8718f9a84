import Rcc.Lib.Wire
import Rcc.Storage.Table

/-!
# Rcc.Storage.BinLog

The records of the binary log (`libstorage/BinLogHandler.cpp`, `encodeBlock` and `decodeBlock`):
the tables a block has changed, written as one byte string with its length in front and a
checksum at its end.

The encoder and the decoder compute the size of the presence flags and skip the system fields each
on its own. `reads_tableData` follows the two side by side; `decodeBlock_encodeBlock` is the round
trip. The key of a table is written in front of its other fields and is not among the fields of
the table that is read.

As in `Rcc.Storage.Dump`, the characters of a string stand for its bytes. A decoder that reads
beyond the end of its buffer gives `none`.
-/

namespace Rcc.Storage.BinLog

open List

open Wire

/-! ### Writing -/

def writeUINT32 (ui : Nat) : List Char := bigEndian 4 ui

def writeUINT64 (ui : Nat) : List Char := bigEndian 8 ui

@[simp] theorem length_writeUINT32 (ui : Nat) : (writeUINT32 ui).length = 4 := length_bigEndian 4 ui

@[simp] theorem length_writeUINT64 (ui : Nat) : (writeUINT64 ui).length = 8 := length_bigEndian 8 ui

theorem number_writeUINT32 {ui : Nat} (h : ui < 2 ^ 32) : number (writeUINT32 ui) = ui :=
  number_bigEndian (h.trans_eq (by norm_num))

theorem number_writeUINT64 {ui : Nat} (h : ui < 2 ^ 64) : number (writeUINT64 ui) = ui :=
  number_bigEndian (h.trans_eq (by norm_num))

def writeString (str : String) : List Char := writeUINT32 str.length ++ str.toList

/-- The fields that are not written with the others. -/
def isSysField (key : String) : Bool := key == STATUS || key == NUM_FIELD || key == ID_FIELD

def dataFields (vecField : List String) : List String := vecField.filter (!isSysField ·)

/-- The bytes of the presence flags. The list of fields has the three system fields in it. -/
def flagSize (vecField : List String) : Nat := (vecField.length - 3) / 8 + 1

def usedFlag (vecField : List String) (e : Entry) : List Nat :=
  bitmap (flagSize vecField) ((dataFields vecField).map e.fieldExist)

/-- One round of the loop of `encodeEntries`. -/
def encodeEntry (vecField : List String) (e : Entry) : List Char :=
  writeUINT64 e.ID ++ [Char.ofNat (e.status % 256).toNat] ++
    (usedFlag vecField e).map Char.ofNat ++
    (dataFields vecField).flatMap fun key =>
      match e.fields.get? key with
      | some value => writeString value
      | none => []

def encodeEntries (vecField : List String) (entries : List Entry) : List Char :=
  writeUINT32 entries.length ++ entries.flatMap (encodeEntry vecField)

/-- The key and the other fields, as they are written. -/
def vecField (info : TableInfo) : List String := info.key :: info.fields.filter (· ≠ info.key)

variable (table : TableData)

def encodeTable : List Char :=
  [Char.ofNat (table.info.name.length % 256)] ++ table.info.name.toList ++
    writeString (",".intercalate (vecField table.info)) ++
    encodeEntries (vecField table.info) table.dirtyEntries ++
    encodeEntries (vecField table.info) table.newEntries

/-- The buffer of `encodeBlock` before the checksum is added. -/
def blockData (num : Int) (datas : List TableData) : List Char :=
  writeUINT64 (num % 2 ^ 64).toNat ++ writeUINT32 datas.length ++ datas.flatMap encodeTable

variable (crc32 : List Char → Nat)

/-- The buffer before the length is put in front. -/
def blockBuffer (num : Int) (datas : List TableData) : List Char :=
  blockData num datas ++ writeUINT32 (crc32 (blockData num datas))

def encodeBlock (num : Int) (datas : List TableData) : List Char :=
  writeUINT32 (blockBuffer crc32 num datas).length ++ blockBuffer crc32 num datas

/-! ### Reading -/

def readUINT32 : Reader Nat := do
  let bs ← take 4
  pure (number bs)

def readUINT64 : Reader Nat := do
  let bs ← take 8
  pure (number bs)

/-- `*((uint8_t*)&buffer[offset])`. -/
def readByte : Reader Nat := do
  let bs ← take 1
  pure (number bs)

def readChars (size : Nat) : Reader String := do
  let bs ← take size
  pure (String.ofList bs)

def readString : Reader String := do
  let strLen ← readUINT32
  readChars strLen

/-- The loop over the fields of an entry, from the `fieldIdx`-th on. -/
def decodeFields (usedFlag : List Nat) : Nat → List String → Entry → Reader Entry
  | _, [], entry => pure entry
  | fieldIdx, key :: keys, entry =>
    if getBit usedFlag fieldIdx then do
      let value ← readString
      decodeFields usedFlag (fieldIdx + 1) keys (entry.setField key value)
    else decodeFields usedFlag (fieldIdx + 1) keys entry

/-- One round of the loop of `decodeEntries`. -/
def decodeEntry (vecField : List String) (force : Bool) : Reader Entry := do
  let ID ← readUINT64
  let status ← readByte
  let flags ← take (flagSize vecField)
  decodeFields (flags.map Char.toNat) 0 (dataFields vecField) { ID, status, force }

def decodeEntries (vecField : List String) (force : Bool) : Reader (List Entry) := do
  let entryCount ← readUINT32
  many (decodeEntry vecField force) entryCount

/-- `boost::split` at commas with `token_compress_on`: commas in a row separate once. -/
def splitFields (fields : String) : List String :=
  let tokens := (fields.toList.splitOn ',').map String.ofList
  tokens.take 1 ++ ((tokens.drop 1).dropLast.filter (· ≠ "")) ++ (tokens.drop 1).getLast?.toList

def decodeTable : Reader TableInfo := do
  let tableNameLen ← readByte
  let name ← readChars tableNameLen
  let fields ← readString
  let vecField := splitFields fields
  pure { name, key := vecField.headD "", fields := vecField.drop 1 }

def SYS_HASH_2_BLOCK : String := "_sys_hash_2_block_"
def SYS_BLOCK_2_NONCES : String := "_sys_block_2_nonces_"

def forced (name : String) : Bool := name == SYS_BLOCK_2_NONCES || name == SYS_HASH_2_BLOCK

/-- One round of the loop of `decodeBlock`. -/
def decodeTableData : Reader TableData := do
  let info ← decodeTable
  let dirtyEntries ← decodeEntries (info.key :: info.fields) (forced info.name)
  let newEntries ← decodeEntries (info.key :: info.fields) (forced info.name)
  pure ⟨info, dirtyEntries, newEntries⟩

inductive DecodeBlockResult
  | success
  | lessThanSpecifiedRange
  | greaterThanSpecifiedRange
  | blockDataLengthError
  deriving DecidableEq

/-- The tables of a block. -/
def decodeDatas : Reader (List TableData) := do
  let dataSize ← readUINT32
  many decodeTableData dataSize

/-- What is left of `decodeBlock` when the number is in the range. The four bytes behind the
tables are the checksum, which is not compared. -/
def decodeInRange (buffer : List Char) (binLogNum : Int) (offset : Nat) :
    Option (DecodeBlockResult × Int × List TableData) := do
  let (datas, offset) ← decodeDatas buffer offset
  if buffer.length = (offset + 4) % 2 ^ 32 then some (.success, binLogNum, datas)
  else some (.blockDataLengthError, binLogNum, datas)

def decodeBlock (buffer : List Char) (startNum endNum : Int) :
    Option (DecodeBlockResult × Int × List TableData) := do
  let (num, offset) ← readUINT64 buffer 0
  let binLogNum : Int := (num : Int).bmod (2 ^ 64)
  if binLogNum ≤ startNum then some (.lessThanSpecifiedRange, binLogNum, [])
  else if endNum < binLogNum then some (.greaterThanSpecifiedRange, binLogNum, [])
  else decodeInRange buffer binLogNum offset

/-! ### What can be written -/

/-- A schema the log can hold. -/
structure WellFormed (info : TableInfo) : Prop where
  name : info.name.length ≤ 255
  nodup : info.fields.Nodup
  mem : ∀ field ∈ [info.key, STATUS, NUM_FIELD, ID_FIELD], field ∈ info.fields
  names : ∀ field ∈ info.fields, field ≠ "" ∧ ',' ∉ field.toList

/-- The id and the status of an entry are in the range of their types. -/
structure InRange (e : Entry) : Prop where
  ID : e.ID < 2 ^ 64
  status : 0 ≤ e.status ∧ e.status < 256

/-- A table the log can hold. -/
structure Writable (table : TableData) : Prop where
  info : WellFormed table.info
  entries : ∀ e ∈ table.dirtyEntries ++ table.newEntries, InRange e

/-- An entry as it is read back: its data fields, in the order of the schema. -/
def readEntry (vecField : List String) (force : Bool) (e : Entry) : Entry where
  ID := e.ID
  status := e.status
  force := force
  fields := Dictionary.setAll ∅ ((dataFields vecField).filterMap fun key =>
    (e.fields.get? key).map (key, ·))

/-- A table as it is read back. -/
def readTable : TableData where
  info := { name := table.info.name, key := table.info.key,
            fields := table.info.fields.filter (· ≠ table.info.key) }
  dirtyEntries := table.dirtyEntries.map
    (readEntry (vecField table.info) (forced table.info.name))
  newEntries := table.newEntries.map (readEntry (vecField table.info) (forced table.info.name))

/-! ### There and back -/

section

variable {info : TableInfo}

/-- A buffer that can be addressed is short. -/
theorem reads_of_length_lt {α : Type} {r : Reader α} {bs : List Char} {a : α}
    (h : bs.length < 2 ^ 32 → Reads r bs a) : Reads r bs a := by
  intro before after hlen
  refine h ?_ before after hlen
  simp only [length_append] at hlen
  omega

theorem reads_UINT32 {ui : Nat} (h : ui < 2 ^ 32) : Reads readUINT32 (writeUINT32 ui) ui := by
  have hread : Reads readUINT32 (writeUINT32 ui) (number (writeUINT32 ui)) :=
    (reads_take (writeUINT32 ui)).bind_pure number
  rwa [number_writeUINT32 h] at hread

theorem reads_UINT64 {ui : Nat} (h : ui < 2 ^ 64) : Reads readUINT64 (writeUINT64 ui) ui := by
  have hread : Reads readUINT64 (writeUINT64 ui) (number (writeUINT64 ui)) :=
    (reads_take (writeUINT64 ui)).bind_pure number
  rwa [number_writeUINT64 h] at hread

theorem reads_byte {n : Nat} (h : n < 256) : Reads readByte [Char.ofNat n] n := by
  have hread : Reads readByte [Char.ofNat n] (number [Char.ofNat n]) :=
    (reads_take [Char.ofNat n]).bind_pure number
  have hn : number [Char.ofNat n] = n := by simp [number, toNat_ofNat h]
  rwa [hn] at hread

theorem reads_chars (str : String) : Reads (readChars str.length) str.toList str := by
  have hread : Reads (readChars str.toList.length) str.toList (String.ofList str.toList) :=
    (reads_take str.toList).bind_pure String.ofList
  rwa [String.ofList_toList, String.length_toList] at hread

theorem reads_string (str : String) : Reads readString (writeString str) str :=
  reads_of_length_lt fun hlen => by
    rw [writeString, length_append, String.length_toList] at hlen
    exact (reads_UINT32 (by omega)).bind (reads_chars str)

/-- The loop over the fields reads the values the flags announce. -/
theorem reads_fields (e : Entry) {flags : List Nat} {keys : List String} {i : Nat}
    (hflags : ∀ j key, keys[j]? = some key → getBit flags (i + j) = e.fieldExist key)
    (entry : Entry) :
    Reads (decodeFields flags i keys entry) (keys.flatMap fun key =>
        match e.fields.get? key with
        | some value => writeString value
        | none => []) { entry with
        fields := entry.fields.setAll (keys.filterMap fun key =>
          (e.fields.get? key).map (key, ·)) } := by
  induction keys generalizing i entry with
  | nil => exact reads_pure entry
  | cons key keys ih =>
    have hhead : getBit flags i = e.fieldExist key := hflags 0 key rfl
    have htail : ∀ j k, keys[j]? = some k → getBit flags (i + 1 + j) = e.fieldExist k := by
      intro j k hk
      have := hflags (j + 1) k hk
      rwa [← Nat.add_assoc, Nat.add_right_comm] at this
    rw [decodeFields, flatMap_cons, hhead, Entry.fieldExist]
    cases hvalue : e.fields.get? key with
    | none =>
      rw [filterMap_cons_none (by rw [hvalue]; rfl)]
      exact ih htail entry
    | some value =>
      rw [filterMap_cons_some (by rw [hvalue]; rfl)]
      exact (reads_string value).bind (ih htail (entry.setField key value))

section

variable (h : WellFormed info)
include h

theorem nodup_vecField : (vecField info).Nodup := nodup_cons.mpr ⟨by simp, h.nodup.filter _⟩

/-- Three of the fields are system fields. -/
theorem length_dataFields : (dataFields (vecField info)).length = (vecField info).length - 3 := by
  have hmem : ∀ field, field ∈ (vecField info).filter isSysField ↔
      field ∈ [STATUS, NUM_FIELD, ID_FIELD] := by
    intro field
    have hsys : isSysField field = true ↔ field ∈ [STATUS, NUM_FIELD, ID_FIELD] := by
      simp [isSysField, or_assoc]
    rw [mem_filter, hsys]
    refine and_iff_right_of_imp fun hfield => ?_
    by_cases hkey : field = info.key
    · exact hkey ▸ mem_cons_self
    · exact mem_cons_of_mem _ (mem_filter.mpr
        ⟨h.mem field (mem_cons_of_mem _ hfield), by simpa using hkey⟩)
  have hperm : ((vecField info).filter isSysField).Perm [STATUS, NUM_FIELD, ID_FIELD] :=
    (perm_ext_iff_of_nodup ((nodup_vecField h).filter _) (by decide)).mpr hmem
  have hlen := length_eq_length_filter_add (l := vecField info) isSysField
  rw [hperm.length_eq, length_cons, length_cons, length_singleton] at hlen
  rw [dataFields]
  omega

theorem reads_entry {e : Entry} (he : InRange e) (force : Bool) :
    Reads (decodeEntry (vecField info) force) (encodeEntry (vecField info) e)
      (readEntry (vecField info) force e) := by
  have hbyte : (e.status % 256).toNat = e.status.toNat := by
    have := he.status
    omega
  have hstatus : ((e.status.toNat : Nat) : Int) = e.status := Int.toNat_of_nonneg he.status.1
  have hflags : ((usedFlag (vecField info) e).map Char.ofNat).map Char.toNat =
      usedFlag (vecField info) e := by
    rw [map_map]
    refine (map_congr_left fun f hf => ?_).trans (map_id _)
    exact toNat_ofNat (bitmap_lt _ _ f hf)
  have hbits : ∀ j key, (dataFields (vecField info))[j]? = some key →
      getBit (usedFlag (vecField info) e) (0 + j) = e.fieldExist key := by
    intro j key hkey
    have hsize : ((dataFields (vecField info)).map e.fieldExist).length ≤
        8 * flagSize (vecField info) := by
      rw [length_map, length_dataFields h, flagSize]
      omega
    rw [usedFlag, Nat.zero_add, getBit_bitmap hsize, getD_eq_getElem?_getD, List.getElem?_map, hkey]
    rfl
  have hfields := reads_fields e hbits { ID := e.ID, status := e.status.toNat, force }
  rw [hstatus] at hfields
  rw [encodeEntry, hbyte, append_assoc]
  refine (reads_UINT64 he.ID).bind ((reads_byte (by have := he.status; omega)).bind ?_)
  have hsize : ((usedFlag (vecField info) e).map Char.ofNat).length =
      flagSize (vecField info) := by
    rw [length_map, usedFlag, length_bitmap]
  have htake := reads_take ((usedFlag (vecField info) e).map Char.ofNat)
  rw [hsize] at htake
  refine htake.bind ?_
  rw [hflags, hstatus]
  exact hfields

theorem reads_entries {es : List Entry} (hes : ∀ e ∈ es, InRange e) (force : Bool) :
    Reads (decodeEntries (vecField info) force) (encodeEntries (vecField info) es)
      (es.map (readEntry (vecField info) force)) := by
  refine reads_of_length_lt fun hlen => ?_
  have hcount : es.length ≤ (es.flatMap (encodeEntry (vecField info))).length :=
    length_le_length_flatMap fun e _ => by simp [encodeEntry]
  rw [encodeEntries, length_append] at hlen
  exact (reads_UINT32 (by omega)).bind (reads_many fun e he => reads_entry h (hes e he) force)

/-- The names come apart at the commas. -/
theorem splitFields_intercalate :
    splitFields (",".intercalate (vecField info)) = vecField info := by
  have hcomma : ∀ l ∈ (vecField info).map String.toList, ',' ∉ l := by
    intro l hl
    obtain ⟨field, hfield, rfl⟩ := mem_map.mp hl
    rcases mem_cons.mp hfield with rfl | hfield
    · exact (h.names _ (h.mem _ mem_cons_self)).2
    · exact (h.names _ (mem_filter.mp hfield).1).2
  have htokens : ((",".intercalate (vecField info)).toList.splitOn ',').map String.ofList =
      vecField info := by
    rw [String.toList_intercalate]
    refine (congrArg _ (splitOn_intercalate ',' hcomma (by simp [vecField]))).trans ?_
    rw [map_map]
    exact (map_congr_left fun f _ => String.ofList_toList).trans (map_id _)
  have hnonempty : ((info.fields.filter (· ≠ info.key)).dropLast.filter (· ≠ "")) =
      (info.fields.filter (· ≠ info.key)).dropLast :=
    filter_eq_self.mpr fun field hfield => by
      have hmem := (mem_filter.mp (mem_of_mem_dropLast hfield)).1
      simpa using (h.names field hmem).1
  rw [splitFields, htokens, vecField, drop_one, tail_cons, hnonempty]
  refine congrArg (info.key :: ·) ?_
  cases hlast : (info.fields.filter (· ≠ info.key)).getLast? with
  | none =>
    rw [List.getLast?_eq_none_iff.mp hlast]
    rfl
  | some field => exact dropLast_append_getLast? field hlast

theorem reads_table :
    Reads decodeTable ([Char.ofNat (info.name.length % 256)] ++ info.name.toList ++
        writeString (",".intercalate (vecField info)))
      { name := info.name, key := info.key, fields := info.fields.filter (· ≠ info.key) } := by
  have hname := h.name
  rw [Nat.mod_eq_of_lt (by omega)]
  refine (reads_byte (by omega)).bind ((reads_chars info.name).bind ?_)
  have := (reads_string (",".intercalate (vecField info))).bind_pure fun fields =>
    ({ name := info.name, key := (splitFields fields).headD "",
       fields := (splitFields fields).drop 1 } : TableInfo)
  rwa [splitFields_intercalate h] at this

end

theorem reads_tableData {table : TableData} (h : Writable table) :
    Reads decodeTableData (encodeTable table) (readTable table) := by
  have hdirty := reads_entries h.info (fun e he => h.entries e (mem_append_left _ he))
    (forced table.info.name)
  have hnew := reads_entries h.info (fun e he => h.entries e (mem_append_right _ he))
    (forced table.info.name)
  rw [encodeTable, append_assoc _ (encodeEntries _ table.dirtyEntries)]
  exact (reads_table h.info).bind (hdirty.bind (hnew.bind_pure _))

end

section

variable {crc32 : List Char → Nat} {num : Int} {datas : List TableData}

theorem length_blockBuffer (crc32 : List Char → Nat) (num : Int) (datas : List TableData) :
    (blockBuffer crc32 num datas).length = (datas.flatMap encodeTable).length + 16 := by
  simp only [blockBuffer, blockData, length_append, length_writeUINT32, length_writeUINT64]
  omega

theorem reads_datas (hdatas : ∀ table ∈ datas, Writable table) :
    Reads decodeDatas (writeUINT32 datas.length ++ datas.flatMap encodeTable)
      (datas.map readTable) := by
  refine reads_of_length_lt fun hlen => ?_
  have hcount : datas.length ≤ (datas.flatMap encodeTable).length :=
    length_le_length_flatMap fun table _ => by simp [encodeTable]
  rw [length_append] at hlen
  exact (reads_UINT32 (by omega)).bind
    (reads_many fun table ht => reads_tableData (hdatas table ht))

/-- The tables are read up to the checksum. -/
theorem decodeInRange_blockBuffer (hdatas : ∀ table ∈ datas, Writable table)
    (hlen : (blockBuffer crc32 num datas).length < 2 ^ 32) :
    decodeInRange (blockBuffer crc32 num datas) num 8 =
      some (.success, num, datas.map readTable) := by
  have hbuffer : blockBuffer crc32 num datas = writeUINT64 (num % 2 ^ 64).toNat ++
      (writeUINT32 datas.length ++ datas.flatMap encodeTable) ++
      writeUINT32 (crc32 (blockData num datas)) := by simp [blockBuffer, blockData]
  have hread := reads_datas hdatas (writeUINT64 (num % 2 ^ 64).toNat)
    (writeUINT32 (crc32 (blockData num datas))) (hbuffer ▸ hlen)
  rw [← hbuffer, length_writeUINT64] at hread
  have hend : (blockBuffer crc32 num datas).length =
      ((writeUINT64 (num % 2 ^ 64).toNat ++
        (writeUINT32 datas.length ++ datas.flatMap encodeTable)).length + 4) % 2 ^ 32 := by
    rw [← Nat.mod_eq_of_lt hlen, hbuffer, length_append, length_writeUINT32]
  simp only [decodeInRange, hread, Option.bind_eq_bind, Option.bind_some, if_pos hend]

/-- **What `decodeBlock` makes of a written block**, in the range or not. -/
theorem decodeBlock_blockBuffer (hnum : -2 ^ 63 ≤ num ∧ num < 2 ^ 63)
    (hdatas : ∀ table ∈ datas, Writable table)
    (hlen : (blockBuffer crc32 num datas).length < 2 ^ 32) (startNum endNum : Int) :
    decodeBlock (blockBuffer crc32 num datas) startNum endNum =
      if num ≤ startNum then some (.lessThanSpecifiedRange, num, [])
      else if endNum < num then some (.greaterThanSpecifiedRange, num, [])
      else some (.success, num, datas.map readTable) := by
  have hbuffer : blockBuffer crc32 num datas = [] ++ writeUINT64 (num % 2 ^ 64).toNat ++
      (writeUINT32 datas.length ++ datas.flatMap encodeTable ++
      writeUINT32 (crc32 (blockData num datas))) := by simp [blockBuffer, blockData]
  have hmod : (num % 2 ^ 64).toNat < 2 ^ 64 := by omega
  have hread := reads_UINT64 hmod [] _ (hbuffer ▸ hlen)
  rw [← hbuffer, nil_append, length_writeUINT64] at hread
  have hback : (((num % 2 ^ 64).toNat : Nat) : Int).bmod (2 ^ 64) = num := by
    rw [Int.bmod_def]
    omega
  rw [decodeBlock, show (0 : Nat) = ([] : List Char).length from rfl, hread]
  simp only [Option.bind_eq_bind, Option.bind_some, hback, decodeInRange_blockBuffer hdatas hlen]

end

/-! ### The round trip -/

/-- The entry that is read has the id, the status and the data fields of the one written. -/
structure SameEntry (fields : List String) (e e' : Entry) : Prop where
  ID : e'.ID = e.ID
  status : e'.status = e.status
  fields : ∀ key ∈ fields, isSysField key = false → e'.fields.get? key = e.fields.get? key

/-- The table that is read has the name, the key, the other fields and the entries of the one
written. -/
structure SameTable (table table' : TableData) : Prop where
  name : table'.info.name = table.info.name
  key : table'.info.key = table.info.key
  fields : table'.info.fields = table.info.fields.filter (· ≠ table.info.key)
  dirtyEntries : List.Forall₂ (SameEntry table.info.fields) table.dirtyEntries table'.dirtyEntries
  newEntries : List.Forall₂ (SameEntry table.info.fields) table.newEntries table'.newEntries

theorem sameEntry_readEntry (info : TableInfo) (force : Bool) (e : Entry) :
    SameEntry info.fields e (readEntry (vecField info) force e) where
  ID := rfl
  status := rfl
  fields key hkey hsys := by
    have hmem : key ∈ dataFields (vecField info) := by
      rw [dataFields, mem_filter, vecField, mem_cons, mem_filter, hsys]
      by_cases h : key = info.key <;> simp [h, hkey]
    rw [readEntry]
    cases hvalue : e.fields.get? key with
    | none =>
      refine (Dictionary.get?_setAll_of_not_mem (fun hin => ?_) _).trans rfl
      obtain ⟨a, ha, rfl⟩ := mem_map.mp hin
      obtain ⟨k, -, hk⟩ := mem_filterMap.mp ha
      obtain ⟨v, hv, rfl⟩ := Option.map_eq_some_iff.mp hk
      rw [hvalue] at hv
      cases hv
    | some value =>
      refine (Dictionary.get?_setAll_of_agree (fun a ha => ?_) ?_ _).trans hvalue
      · obtain ⟨k, -, hk⟩ := mem_filterMap.mp ha
        obtain ⟨v, hv, rfl⟩ := Option.map_eq_some_iff.mp hk
        exact hv
      · exact mem_map.mpr ⟨(key, value), mem_filterMap.mpr ⟨key, hmem, by
          rw [hvalue]; rfl⟩, rfl⟩

theorem sameTable_readTable : SameTable table (readTable table) where
  name := rfl
  key := rfl
  fields := rfl
  dirtyEntries := forall₂_map_right_iff.mpr (forall₂_same.mpr fun e _ =>
    sameEntry_readEntry table.info _ e)
  newEntries := forall₂_map_right_iff.mpr (forall₂_same.mpr fun e _ =>
    sameEntry_readEntry table.info _ e)

/-- A table with one stored and one new record. -/
def accounts : TableData where
  info := { name := "u_accounts", key := "name",
            fields := ["value", "memo", STATUS, "name", NUM_FIELD, ID_FIELD] }
  dirtyEntries := [{ ID := 100001, status := 1,
                     fields := .ofList [("name", "alice"), ("value", "5"), (NUM_FIELD, "3")] }]
  newEntries := [{ fields := .ofList [("memo", ""), ("name", "bob")] }]

theorem writable_accounts : Writable accounts where
  info :=
    { name := by decide +kernel
      nodup := by decide +kernel
      mem := by decide +kernel
      names := by decide +kernel }
  entries := by
    intro e he
    have hentries : e.ID < 2 ^ 64 ∧ 0 ≤ e.status ∧ e.status < 256 := by
      revert e
      decide +kernel
    exact ⟨hentries.1, hentries.2⟩

/-- **The tables of a block are read as they were written**, behind the length that stands in
front of the block. -/
theorem decodeBlock_encodeBlock (num : Int)
    (hnum : -2 ^ 63 ≤ num ∧ num < 2 ^ 63) (datas : List TableData)
    (hdatas : ∀ table ∈ datas, Writable table)
    (hlen : (encodeBlock crc32 num datas).length < 2 ^ 32) (startNum endNum : Int)
    (hrange : startNum < num ∧ num ≤ endNum) :
    ∃ datas', decodeBlock ((encodeBlock crc32 num datas).drop 4) startNum endNum =
        some (.success, num, datas') ∧ List.Forall₂ SameTable datas datas' := by
  have hdrop : (encodeBlock crc32 num datas).drop 4 = blockBuffer crc32 num datas := by
    exact drop_left' (length_bigEndian 4 _)
  rw [encodeBlock, length_append] at hlen
  refine ⟨datas.map readTable, ?_, forall₂_map_right_iff.mpr (forall₂_same.mpr
    fun table _ => sameTable_readTable table)⟩
  rw [hdrop, decodeBlock_blockBuffer hnum hdatas (by omega), if_neg (by omega), if_neg (by omega)]

theorem accounts_round_trip : ∃ datas',
    decodeBlock ((encodeBlock (fun _ => 0) 7 [accounts]).drop 4) 6 10 =
      some (.success, 7, datas') ∧ List.Forall₂ SameTable [accounts] datas' :=
  decodeBlock_encodeBlock (fun _ => 0) 7 (by decide) [accounts]
    (by simpa using writable_accounts) (by decide +kernel) 6 10 (by decide)

/-- The fields of the table that is read do not contain its key, and a system field that an entry
has among its fields is not written. Of a status, only the last byte is. -/
theorem key_and_system_fields_not_read : Writable accounts ∧
    (encodeBlock (fun _ => 0) 7 [accounts]).length < 2 ^ 32 ∧
    (decodeBlock ((encodeBlock (fun _ => 0) 7 [accounts]).drop 4) 6 10).map (fun r =>
        (r.2.2.map (·.info.fields), r.2.2.map (·.dirtyEntries.map (·.fields.get? NUM_FIELD)))) =
      some ([["value", "memo", STATUS, NUM_FIELD, ID_FIELD]], [[none]]) ∧
    accounts.info.fields ≠ ["value", "memo", STATUS, NUM_FIELD, ID_FIELD] ∧
    accounts.dirtyEntries.map (·.fields.get? NUM_FIELD) = [some "3"] ∧
    (decodeBlock ((encodeBlock (fun _ => 0) 7
        [{ accounts with newEntries := [{ status := 256 }] }]).drop 4) 6 10).map
      (fun r => r.2.2.map (·.newEntries.map (·.status))) = some [[0]] :=
  ⟨writable_accounts, by decide +kernel, by decide +kernel, by decide +kernel,
    by decide +kernel, by decide +kernel⟩

end Rcc.Storage.BinLog
