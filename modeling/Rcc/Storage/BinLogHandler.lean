import Rcc.Storage.BinLog

/-!
# Rcc.Storage.BinLogHandler

The files of the binary log (`libstorage/BinLogHandler.cpp`). A file is named after the first block
in it and holds a version and the records of blocks that follow each other. The handler goes on to
a new file when the old one is full and after each start.

`Log` keeps, beside the handler, where each record was put, so that one can say of a record
whether it is completely on disk. `Logged` ties the files to the blocks written, whatever the
splits (`logged_run`).

Left out: the check of the free disk space and failing system calls. `std::sort` is given a
comparison that is not strict, which does not matter for the different names of files.
-/

namespace Rcc.Storage.BinLog

open List

open Wire

abbrev BlockDataMap := Dictionary Int (List TableData)

def BINLOG_VERSION : Nat := 1

/-- The handler and its directory. -/
structure BinLogHandler where
  /-- `m_path` is relative to the working directory -/
  relative : Bool
  binarylogSize : Nat
  /-- the content of each file, by the number in its name -/
  files : Dictionary Int (List Char) := ∅
  /-- `m_fd`: the file being written and the position in it -/
  fd : Option (Int × Nat) := none
  writtenBytesLength : Nat := 0

inductive LogError
  /-- `dev::StorageError` -/
  | storageError
  /-- a read beyond the end of a buffer, or a loop that does not end -/
  | undefined
  deriving DecidableEq

namespace BinLogHandler

/-! ### Writing -/

/-- `open` with `O_CREAT | O_WRONLY`: what an existing file holds stays. -/
def openFile (num : Int) (h : BinLogHandler) : BinLogHandler :=
  { h with
    files := if (h.files.get? num).isSome then h.files else h.files.set num []
    fd := some (num, 0) }

variable (buffer : List Char) (h : BinLogHandler)

/-- `write(m_fd, ...)`. -/
def writeFd : BinLogHandler :=
  match h.fd with
  | none => h
  | some (name, position) =>
    { h with
      files := h.files.set name (Layout.write ((h.files.get? name).getD []) position buffer)
      fd := some (name, position + buffer.length) }

def initNewBinaryFile (num : Int) (h : BinLogHandler) : BinLogHandler :=
  { (h.openFile num).writeFd (writeUINT32 BINLOG_VERSION) with writtenBytesLength := 4 }

/-- A new file is begun with the first write and when the old one is full. -/
def needsNewFile (size : Nat) : Bool :=
  h.writtenBytesLength == 0 || h.binarylogSize < h.writtenBytesLength + size

/-- The record of a block, behind what has been written. -/
def writeRecord : BinLogHandler :=
  { h.writeFd buffer with
    writtenBytesLength := (h.writtenBytesLength + buffer.length) % 2 ^ 32 }

@[simp] theorem files_writeRecord :
    (h.writeRecord buffer).files = (h.writeFd buffer).files := rfl

@[simp] theorem fd_writeRecord :
    (h.writeRecord buffer).fd = (h.writeFd buffer).fd := rfl

@[simp] theorem written_writeRecord :
    (h.writeRecord buffer).writtenBytesLength =
      (h.writtenBytesLength + buffer.length) % 2 ^ 32 := rfl

def writeBlocktoBinLog (crc32 : List Char → Nat) (num : Int) (datas : List TableData)
    (h : BinLogHandler) : BinLogHandler :=
  let buffer := encodeBlock crc32 num datas
  (if h.needsNewFile buffer.length then h.initNewBinaryFile num else h).writeRecord buffer

/-- `checkBinLogSize` removes the files without a block. It puts the working directory in front
of their path, so it finds them if the path is relative. -/
def checkBinLogSize : BinLogHandler :=
  { h with files := if h.relative then h.files.filter fun f => 4 < f.2.length else h.files }

/-- The handler that is constructed with the next start. -/
def restart : BinLogHandler :=
  { h.checkBinLogSize with fd := none, writtenBytesLength := 0 }

/-! ### Reading -/

/-- The next bytes of an open file, and what comes behind them. -/
def readFile (size : Nat) (file : List Char) : Option (List Char × List Char) :=
  if size ≤ file.length then some (file.take size, file.drop size) else none

variable (content : List Char)

/-- `binlog.length`. -/
def fileLength : Nat := content.length % 2 ^ 32

/-- A `uint64_t` as the `int64_t` it is returned as. -/
def toInt64 (ui : Nat) : Int := (ui : Int).bmod (2 ^ 64)

/-- `getBinLogContext`: the version, and what comes behind it. -/
def getBinLogContext : Option (Nat × List Char) :=
  if fileLength content < 4 then none
  else (readFile 4 content).map fun r => (number r.1, r.2)

def getFirstBlockNumInBinLog : Int :=
  match (getBinLogContext content).bind fun r => (readFile 4 r.2).bind fun r => readFile 8 r.2 with
  | some (blockNum, _) => toInt64 (number blockNum)
  | none => -1

/-- The loop of `getLastBlockNum`. -/
def lastBlockLoop (content : List Char) : Nat → Nat → Nat → Except LogError Int
  | 0, _, _ => .error .undefined
  | fuel + 1, offset, blockNum =>
    if offset < fileLength content then
      match readFile 4 (content.drop offset) with
      | none => .ok (-1)
      | some (blockLen, file) =>
        if fileLength content < offset + 4 + number blockLen then .ok (toInt64 blockNum)
        else
          match readFile 8 file with
          | none => .ok (toInt64 blockNum)
          | some (blockNum, _) =>
            lastBlockLoop content fuel ((offset + (4 + number blockLen)) % 2 ^ 32) (number blockNum)
    else .ok (toInt64 blockNum)

/-- The files, the newest first. -/
def sortedFiles : List (Int × List Char) :=
  h.files.entries.insertionSort fun a b => b.1 ≤ a.1

def getLastBlockNum : Except LogError Int :=
  match h.sortedFiles with
  | [] => .ok (-1)
  | (name, content) :: _ =>
    if getFirstBlockNumInBinLog content ≠ name then .error .storageError
    else if (getBinLogContext content).isNone then .ok (-1)
    else lastBlockLoop content (content.length + 1) 4 0

/-- `getBlockData`; the rest of the file stands at the position the stream has reached. -/
def getBlockData (startNum endNum : Int) (length : Nat) :
    Nat → Nat → List Char → BlockDataMap → Except LogError (Bool × BlockDataMap)
  | 0, _, _, _ => .error .undefined
  | fuel + 1, offset, file, blocksData =>
    if offset < length then
      match readFile 4 file with
      | none => .ok (false, blocksData)
      | some (blockLen, file) =>
        let offset := (offset + 4) % 2 ^ 32
        if length < (offset + number blockLen) % 2 ^ 32 then .ok (false, blocksData)
        else
          match readFile (number blockLen) file with
          | none => .ok (false, blocksData)
          | some (buffer, file) =>
            let offset := (offset + number blockLen) % 2 ^ 32
            match decodeBlock buffer startNum endNum with
            | none => .error .undefined
            | some (.success, num, datas) =>
              getBlockData startNum endNum length fuel offset file
                (blocksData.set num datas)
            | some (.lessThanSpecifiedRange, _, _) =>
              getBlockData startNum endNum length fuel offset file blocksData
            | some (.greaterThanSpecifiedRange, _, _) => .ok (true, blocksData)
            | some (.blockDataLengthError, _, _) => .ok (false, blocksData)
    else .ok (true, blocksData)

def readBinLog (startNum endNum : Int) (content : List Char) (blocksData : BlockDataMap) :
    Except LogError (Bool × BlockDataMap) :=
  match getBinLogContext content with
  | none => .ok (false, blocksData)
  | some (version, file) =>
    if version = BINLOG_VERSION then
      getBlockData startNum endNum (fileLength content) (content.length + 1) 4 file blocksData
    else .ok (false, blocksData)

/-- The loop of `getMissingBlocksFromBinLog` over the files. -/
def scanFiles (startNum endNum : Int) :
    List (Int × List Char) → BlockDataMap → Except LogError BlockDataMap
  | [], blocksData => .ok blocksData
  | (name, content) :: files, blocksData =>
    if getFirstBlockNumInBinLog content ≠ name then .error .storageError
    else if endNum < name then scanFiles startNum endNum files blocksData
    else
      match readBinLog startNum endNum content blocksData with
      | .error e => .error e
      | .ok (_, blocksData) =>
        if name ≤ startNum then .ok blocksData
        else scanFiles startNum endNum files blocksData

def getMissingBlocksFromBinLog (startNum endNum : Int) (h : BinLogHandler) :
    Except LogError BlockDataMap :=
  if endNum ≤ startNum then .ok ∅ else scanFiles startNum endNum h.sortedFiles ∅

end BinLogHandler

/-! ### Histories -/

/-- A record, with the file it is in and the place where it ends. -/
structure Placed where
  num : Int
  datas : List TableData
  file : Int
  stop : Nat
  deriving DecidableEq

/-- What happens to a log. -/
inductive LogEvent
  | write (num : Int) (datas : List TableData)
  | restart

/-- The handler, and the records it has written. -/
structure Log where
  handler : BinLogHandler
  records : List Placed := []

namespace Log

def step (crc32 : List Char → Nat) (log : Log) : LogEvent → Log
  | .write num datas =>
    let h := log.handler.writeBlocktoBinLog crc32 num datas
    ⟨h, (h.fd.map fun fd => ⟨num, datas, fd.1, fd.2⟩).toList ++ log.records⟩
  | .restart => { log with handler := log.handler.restart }

def run (crc32 : List Char → Nat) (log : Log) (events : List LogEvent) : Log :=
  events.foldl (step crc32) log

end Log

/-- The block numbers follow each other. -/
def Consecutive : Int → List LogEvent → Prop
  | _, [] => True
  | next, .write num _ :: events => num = next ∧ Consecutive (next + 1) events
  | next, .restart :: events => Consecutive next events

instance decidableConsecutive : (next : Int) → (events : List LogEvent) →
    Decidable (Consecutive next events)
  | _, [] => isTrue trivial
  | next, .write num _ :: events =>
    have := decidableConsecutive (next + 1) events
    inferInstanceAs (Decidable (num = next ∧ Consecutive (next + 1) events))
  | next, .restart :: events => decidableConsecutive next events

/-! ### Blocks and files -/

abbrev Block := Int × List TableData

/-- The numbers of the blocks follow each other. -/
def Numbered : Int → List Block → Prop
  | _, [] => True
  | n, b :: bs => b.1 = n ∧ Numbered (n + 1) bs

section

variable {n : Int} {bs bs' : List Block} {b : Block}

theorem numbered_append :
    Numbered n (bs ++ bs') ↔ Numbered n bs ∧ Numbered (n + bs.length) bs' := by
  induction bs generalizing n with
  | nil => simp [Numbered]
  | cons b bs ih =>
    rw [cons_append, Numbered, Numbered, ih, and_assoc, length_cons, Nat.cast_add,
      Nat.cast_one, add_assoc n 1, add_comm (1 : Int)]

theorem Numbered.range (h : Numbered n bs) (hb : b ∈ bs) : n ≤ b.1 ∧ b.1 < n + bs.length := by
  obtain ⟨before, after, rfl⟩ := append_of_mem hb
  have hnum := (numbered_append.mp h).2.1
  simp only [length_append, length_cons]
  omega

end

section

variable (crc32 : List Char → Nat)

def record (b : Block) : List Char := encodeBlock crc32 b.1 b.2

/-- What a file with the given blocks holds. -/
def fileBytes (bs : List Block) : List Char :=
  writeUINT32 BINLOG_VERSION ++ bs.flatMap (record crc32)

theorem fileBytes_concat (bs : List Block) (b : Block) :
    fileBytes crc32 (bs ++ [b]) = fileBytes crc32 bs ++ record crc32 b := by
  simp [fileBytes]

theorem length_record (b : Block) : 20 ≤ (record crc32 b).length := by
  rw [record, encodeBlock, length_append, length_writeUINT32, length_blockBuffer]
  omega

theorem length_fileBytes_of_ne_nil {bs : List Block} (h : bs ≠ []) :
    24 ≤ (fileBytes crc32 bs).length := by
  obtain ⟨b, bs, rfl⟩ := exists_cons_of_ne_nil h
  have := length_record crc32 b
  simp only [fileBytes, flatMap_cons, length_append, length_writeUINT32]
  omega

end

/-- The blocks of the files, the newest file first; `next` is the number to be written next. -/
def Stacked (first : Int) : Int → List (List Block) → Prop
  | next, [] => next = first
  | next, seg :: segs =>
    seg ≠ [] ∧ Numbered (next - seg.length) seg ∧ Stacked first (next - seg.length) segs

/-- The files of blocks whose last number is before `next`. -/
def filesOf (crc32 : List Char → Nat) : Int → List (List Block) → List (Int × List Char)
  | _, [] => []
  | next, seg :: segs =>
    (next - seg.length, fileBytes crc32 seg) :: filesOf crc32 (next - seg.length) segs

/-- A record is where its block is in the files. -/
def PlacedIn (crc32 : List Char → Nat) (p : Placed) : Int → List (List Block) → Prop
  | _, [] => False
  | next, seg :: segs =>
    (∃ before after, seg = before ++ (p.num, p.datas) :: after ∧ p.file = next - seg.length ∧
      p.stop = (fileBytes crc32 (before ++ [(p.num, p.datas)])).length) ∨
    PlacedIn crc32 p (next - seg.length) segs

section

variable {crc32 : List Char → Nat} {first next : Int} {segs : List (List Block)}
  {seg : List Block}

theorem Stacked.first_le (h : Stacked first next segs) : first ≤ next := by
  induction segs generalizing next with
  | nil => exact le_of_eq (Eq.symm h)
  | cons seg segs ih =>
    have := ih h.2.2
    omega

theorem Stacked.filesOf_lt (h : Stacked first next segs) :
    ∀ f ∈ filesOf crc32 next segs, f.1 < next := by
  induction segs generalizing next with
  | nil => exact fun f hf => absurd hf not_mem_nil
  | cons seg segs ih =>
    have hpos := length_pos_iff.mpr h.1
    intro f hf
    rcases mem_cons.mp hf with rfl | hf
    · omega
    · have := ih h.2.2 f hf
      omega

theorem Stacked.length_filesOf (h : Stacked first next segs) :
    ∀ f ∈ filesOf crc32 next segs, 24 ≤ f.2.length := by
  induction segs generalizing next with
  | nil => exact fun f hf => absurd hf not_mem_nil
  | cons seg segs ih =>
    intro f hf
    rcases mem_cons.mp hf with rfl | hf
    · exact length_fileBytes_of_ne_nil crc32 h.1
    · exact ih h.2.2 f hf

end

/-! ### What the handler has written -/

/-- The handler writes at the end of the file named `name`, which holds the blocks `seg`; the
other files are `older`, the newest first. -/
structure WritesTo (crc32 : List Char → Nat) (name : Int) (seg : List Block)
    (older : List (Int × List Char)) (h : BinLogHandler) : Prop where
  files : h.files.entries = older.reverse ++ [(name, fileBytes crc32 seg)]
  fd : h.fd = some (name, (fileBytes crc32 seg).length)
  written : h.writtenBytesLength = (fileBytes crc32 seg).length

/-- The files hold the blocks `segs`, and each record is where the log says. -/
structure Logged (crc32 : List Char → Nat) (first next : Int) (segs : List (List Block))
    (log : Log) : Prop where
  stacked : Stacked first next segs
  files : log.handler.files.entries = (filesOf crc32 next segs).reverse
  fd : log.handler.writtenBytesLength = 0 ∨ ∃ seg rest, segs = seg :: rest ∧
    WritesTo crc32 (next - seg.length) seg (filesOf crc32 (next - seg.length) rest) log.handler
  records : ∀ p, p ∈ log.records ↔ PlacedIn crc32 p next segs

section

variable {crc32 : List Char → Nat} {first next name : Int} {segs : List (List Block)}
  {seg : List Block} {older : List (Int × List Char)} {h : BinLogHandler} {log : Log}

open BinLogHandler

variable {p : Placed}

/-- `write` at the end of the file. -/
theorem writeFd_concat {l : List (Int × List Char)} {content : List Char}
    (hfiles : h.files.entries = l ++ [(name, content)]) (hfd : h.fd = some (name, content.length))
    (buffer : List Char) :
    (h.writeFd buffer).files.entries = l ++ [(name, content ++ buffer)] ∧
      (h.writeFd buffer).fd = some (name, (content ++ buffer).length) := by
  have hget : h.files.get? name = some content :=
    Dictionary.get?_eq_some_iff.mpr (hfiles ▸ mem_append_right _ mem_cons_self)
  rw [writeFd, hfd]
  refine ⟨?_, by rw [length_append]⟩
  show (h.files.set name _).entries = _
  rw [hget, Option.getD_some, Layout.write_end, Dictionary.entries_set_concat hfiles]

theorem writesTo_initNewBinaryFile (hfiles : h.files.entries = older.reverse)
    (hname : ∀ f ∈ older, f.1 ≠ name) :
    WritesTo crc32 name [] older (h.initNewBinaryFile name) := by
  have hkey : name ∉ h.files.keys := by
    rw [Dictionary.keys, hfiles]
    intro hmem
    obtain ⟨f, hf, hfn⟩ := mem_map.mp hmem
    exact hname f (mem_reverse.mp hf) hfn
  have hopen : (h.openFile name).files.entries = older.reverse ++ [(name, [])] := by
    show (if _ then h.files else h.files.set name []).entries = _
    rw [if_neg (mt Dictionary.mem_keys_iff.mpr hkey), Dictionary.entries_set_of_not_mem hkey,
      hfiles]
  obtain ⟨hentries, hfd⟩ := writeFd_concat hopen rfl (writeUINT32 BINLOG_VERSION)
  have hbytes : fileBytes crc32 [] = [] ++ writeUINT32 BINLOG_VERSION := by simp [fileBytes]
  exact ⟨by rw [hbytes]; exact hentries, by rw [hbytes]; exact hfd, by rw [hbytes]; rfl⟩

theorem WritesTo.write (hw : WritesTo crc32 name seg older h) {num : Int} {datas : List TableData}
    (hsize : (fileBytes crc32 (seg ++ [(num, datas)])).length < 2 ^ 32) :
    WritesTo crc32 name (seg ++ [(num, datas)]) older
      (h.writeRecord (encodeBlock crc32 num datas)) := by
  obtain ⟨hentries, hfd⟩ := writeFd_concat hw.files hw.fd (encodeBlock crc32 num datas)
  have hbytes := fileBytes_concat crc32 seg (num, datas)
  rw [record] at hbytes
  refine ⟨by rw [files_writeRecord, hbytes, hentries], by rw [fd_writeRecord, hbytes, hfd], ?_⟩
  rw [written_writeRecord, hw.written, ← length_append, ← hbytes, Nat.mod_eq_of_lt hsize]

theorem length_concat_sub (next : Int) (seg : List Block) (b : Block) :
    next + 1 - ((seg ++ [b]).length : Int) = next - seg.length := by
  rw [length_append, length_singleton]
  omega

/-- The records of a file that has got one more block. -/
theorem placedIn_concat {b : Block} :
    PlacedIn crc32 p (next + 1) ((seg ++ [b]) :: segs) ↔
      ((p.num, p.datas) = b ∧ p.file = next - seg.length ∧
        p.stop = (fileBytes crc32 (seg ++ [b])).length) ∨ PlacedIn crc32 p next (seg :: segs) := by
  rw [PlacedIn, PlacedIn, length_concat_sub, ← or_assoc]
  refine or_congr_left ⟨?_, ?_⟩
  · rintro ⟨before, after, hseg, hfile, hstop⟩
    rcases eq_nil_or_concat after with rfl | ⟨after, b', rfl⟩
    · obtain ⟨rfl, hb⟩ := append_inj' hseg rfl
      obtain rfl := (List.cons.inj hb).1
      exact .inl ⟨rfl, hfile, hstop⟩
    · rw [concat_eq_append, ← cons_append, ← append_assoc] at hseg
      exact .inr ⟨before, after, (append_inj' hseg rfl).1, hfile, hstop⟩
  · rintro (⟨rfl, hfile, hstop⟩ | ⟨before, after, rfl, hfile, hstop⟩)
    · exact ⟨seg, [], rfl, hfile, hstop⟩
    · exact ⟨before, after ++ [b], by simp, hfile, hstop⟩

/-- The block that is written, and the segments it makes. -/
theorem Logged.write (hlog : Logged crc32 first next segs log) {datas : List TableData}
    (hsize : ∀ p ∈ (log.step crc32 (.write next datas)).records, p.stop < 2 ^ 32) :
    ∃ segs', Logged crc32 first (next + 1) segs' (log.step crc32 (.write next datas)) := by
  -- where the handler stands once it has opened a new file if it needs one
  obtain ⟨seg, rest, hw, hnumbered, hstacked, hrecords⟩ : ∃ seg rest,
      WritesTo crc32 (next - (seg : List Block).length) seg
        (filesOf crc32 (next - seg.length) rest)
        (if log.handler.needsNewFile (encodeBlock crc32 next datas).length then
          log.handler.initNewBinaryFile next else log.handler) ∧
      Numbered (next - seg.length) seg ∧ Stacked first (next - seg.length) rest ∧
      ∀ p, p ∈ log.records ↔ PlacedIn crc32 p next (seg :: rest) := by
    by_cases hnew : log.handler.needsNewFile (encodeBlock crc32 next datas).length = true
    · refine ⟨[], segs, ?_, trivial, by simpa using hlog.stacked, fun p => ?_⟩
      · rw [if_pos hnew, length_nil, Nat.cast_zero, sub_zero]
        exact writesTo_initNewBinaryFile hlog.files fun f hf => (hlog.stacked.filesOf_lt f hf).ne
      · rw [hlog.records, PlacedIn]
        simp
    · rw [if_neg hnew]
      have hwritten : log.handler.writtenBytesLength ≠ 0 := by
        intro hzero
        exact hnew (by simp [needsNewFile, hzero])
      obtain ⟨seg, rest, rfl, hw⟩ := hlog.fd.resolve_left hwritten
      exact ⟨seg, rest, hw, hlog.stacked.2.1, hlog.stacked.2.2, hlog.records⟩
  have hrecords' : ∀ p, p ∈ (log.step crc32 (.write next datas)).records ↔
      PlacedIn crc32 p (next + 1) ((seg ++ [(next, datas)]) :: rest) := by
    intro p
    have hfd := (writeFd_concat hw.files hw.fd (encodeBlock crc32 next datas)).2
    rw [placedIn_concat, ← hrecords, fileBytes_concat, record]
    rw [Log.step, BinLogHandler.writeBlocktoBinLog]
    simp only [fd_writeRecord]
    rw [hfd, mem_append, Option.map_some, Option.toList_some, mem_singleton]
    refine or_congr_left ⟨?_, ?_⟩
    · rintro rfl
      exact ⟨rfl, rfl, rfl⟩
    · obtain ⟨num, datas', file, stop⟩ := p
      rintro ⟨hb, hfile, hstop⟩
      simp only [Prod.mk.injEq] at hb hfile hstop ⊢
      rw [hb.1, hb.2, hfile, hstop]
  have hstop := hsize ⟨next, datas, next - seg.length, _⟩
    ((hrecords' _).mpr (placedIn_concat.mpr (.inl ⟨rfl, rfl, rfl⟩)))
  have hw' := hw.write hstop
  refine ⟨(seg ++ [(next, datas)]) :: rest, ⟨by simp, ?_, ?_⟩, ?_, ?_, hrecords'⟩
  · rw [length_concat_sub, numbered_append]
    exact ⟨hnumbered, by omega, trivial⟩
  · rwa [length_concat_sub]
  · rw [filesOf, length_concat_sub, reverse_cons]
    exact hw'.files
  · exact .inr ⟨_, rest, rfl, by rwa [length_concat_sub]⟩

theorem Logged.restart (hlog : Logged crc32 first next segs log) :
    Logged crc32 first next segs (log.step crc32 .restart) := by
  refine ⟨hlog.stacked, ?_, .inl rfl, hlog.records⟩
  show (if log.handler.relative then _ else log.handler.files).entries = _
  split
  · -- no file is short enough to be removed
    refine Eq.trans (filter_eq_self.mpr fun f hf => ?_) hlog.files
    rw [hlog.files, mem_reverse] at hf
    have := hlog.stacked.length_filesOf f hf
    simp only [decide_eq_true_eq]
    omega
  · exact hlog.files

theorem mem_records_step (crc32 : List Char → Nat) (e : LogEvent) (hp : p ∈ log.records) :
    p ∈ (log.step crc32 e).records := by
  cases e with
  | write num datas => exact mem_append_right _ hp
  | restart => exact hp

theorem mem_records_run (crc32 : List Char → Nat) (events : List LogEvent) (hp : p ∈ log.records) :
    p ∈ (log.run crc32 events).records := by
  induction events generalizing log with
  | nil => exact hp
  | cons e events ih => exact ih (mem_records_step crc32 e hp)

/-- **The files hold the blocks that were written**, in whatever way they were split. -/
theorem logged_run {events : List LogEvent} (hlog : Logged crc32 first next segs log)
    (hevents : Consecutive next events)
    (hsize : ∀ p ∈ (log.run crc32 events).records, p.stop < 2 ^ 32) :
    ∃ next' segs', Logged crc32 first next' segs' (log.run crc32 events) := by
  induction events generalizing log next segs with
  | nil => exact ⟨next, segs, hlog⟩
  | cons e events ih =>
    cases e with
    | write num datas =>
      obtain ⟨rfl, hevents⟩ := hevents
      obtain ⟨segs', hlog'⟩ := hlog.write fun p hp => hsize p (mem_records_run crc32 events hp)
      exact ih hlog' hevents hsize
    | restart => exact ih hlog.restart hevents hsize

theorem logged_fresh (crc32 : List Char → Nat) (first : Int) (relative : Bool)
    (binarylogSize : Nat) : Logged crc32 first first [] ⟨{ relative, binarylogSize }, []⟩ where
  stacked := rfl
  files := rfl
  fd := .inl rfl
  records _ := iff_of_false not_mem_nil id

end

end Rcc.Storage.BinLog
