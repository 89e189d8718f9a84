import Rcc.Storage.BinLogHandler

/-!
# Rcc.Storage.BinLogRecovery

What is read from the binary log after a crash has cut the last file.

A file that is cut holds its version, whole records, and what is left of the next record. The
descending scan for missing blocks gets along with that once the first block number can be read.
The search for the last block does not: it fails if less than a length is left of the record
(`lastBlockLoop_eq`), and if no record of the file is whole it never looks at the file before. So
the log recovers from the cuts described by `CleanCut`, and from no others (`recovers_iff`).
-/

namespace Rcc.Storage.BinLog

open List BinLogHandler Dictionary Wire

/-! ### Reading records -/

/-- A block that can be written and read. -/
structure Recordable (crc32 : List Char → Nat) (b : Block) : Prop where
  num : 0 ≤ b.1 ∧ b.1 < 2 ^ 63
  datas : ∀ table ∈ b.2, Writable table
  size : (record crc32 b).length < 2 ^ 32

section

variable {crc32 : List Char → Nat} {b : Block} {bs : List Block} {size : Nat} {content : List Char}

theorem readFile_append {part : List Char} (h : part.length = size) (rest : List Char) :
    readFile size (part ++ rest) = some (part, rest) := by
  rw [readFile, if_pos (by rw [length_append]; omega), take_left' h, drop_left' h]

theorem readFile_eq_none {file : List Char} (h : file.length < size) :
    readFile size file = none := if_neg (by omega)

theorem fileLength_eq (h : content.length < 2 ^ 32) :
    fileLength content = content.length := Nat.mod_eq_of_lt h

/-- The bytes of a record: its length, the number of the block, and the rest. -/
theorem record_eq (crc32 : List Char → Nat) (b : Block) :
    ∃ rest, blockBuffer crc32 b.1 b.2 = writeUINT64 (b.1 % 2 ^ 64).toNat ++ rest ∧
      record crc32 b = writeUINT32 (blockBuffer crc32 b.1 b.2).length ++
        (writeUINT64 (b.1 % 2 ^ 64).toNat ++ rest) := by
  refine ⟨writeUINT32 b.2.length ++ b.2.flatMap encodeTable ++
    writeUINT32 (crc32 (blockData b.1 b.2)), ?_, ?_⟩
  · simp [blockBuffer, blockData]
  · simp [record, encodeBlock, blockBuffer, blockData]

theorem length_record_eq (crc32 : List Char → Nat) (b : Block) :
    (record crc32 b).length = 4 + (blockBuffer crc32 b.1 b.2).length := by
  rw [record, encodeBlock, length_append, length_writeUINT32]

theorem Recordable.number_length (hb : Recordable crc32 b) :
    number (writeUINT32 (blockBuffer crc32 b.1 b.2).length) =
      (blockBuffer crc32 b.1 b.2).length := by
  have hsize := hb.size
  rw [length_record_eq] at hsize
  exact number_writeUINT32 (by omega)

theorem Recordable.toInt64_number (hb : Recordable crc32 b) :
    toInt64 (number (writeUINT64 (b.1 % 2 ^ 64).toNat)) = b.1 := by
  have hnum := hb.num
  have hlt : (b.1 % 2 ^ 64).toNat < 2 ^ 64 := by omega
  have hback : (((b.1 % 2 ^ 64).toNat : Nat) : Int).bmod (2 ^ 64) = b.1 := by
    rw [Int.bmod_def]
    omega
  rw [number_writeUINT64 hlt]
  exact hback

/-- The version is read from any file that is long enough. -/
theorem getBinLogContext_append {rest : List Char}
    (h : content = writeUINT32 BINLOG_VERSION ++ rest) (hsize : content.length < 2 ^ 32) :
    getBinLogContext content = some (BINLOG_VERSION, rest) := by
  have hlen : 4 ≤ content.length := by rw [h, length_append, length_writeUINT32]; omega
  rw [getBinLogContext, fileLength_eq hsize, h, readFile_append (length_writeUINT32 _)]
  rfl

/-- The first block number, once its bytes are there. -/
theorem getFirstBlockNum_eq (hb : Recordable crc32 b) {rest : List Char} (hsize : 16 ≤ size)
    (hlt : size < 2 ^ 32) :
    getFirstBlockNumInBinLog
      ((writeUINT32 BINLOG_VERSION ++ (record crc32 b ++ rest)).take size) = b.1 := by
  obtain ⟨tail, -, hrecord⟩ := record_eq crc32 b
  -- sixteen bytes are the version, the length and the number
  have hcut : (writeUINT32 BINLOG_VERSION ++ (record crc32 b ++ rest)).take size =
      writeUINT32 BINLOG_VERSION ++ (writeUINT32 (blockBuffer crc32 b.1 b.2).length ++
        (writeUINT64 (b.1 % 2 ^ 64).toNat ++ (tail ++ rest).take (size - 16))) := by
    have hassoc : writeUINT32 BINLOG_VERSION ++ (record crc32 b ++ rest) =
        (writeUINT32 BINLOG_VERSION ++ (writeUINT32 (blockBuffer crc32 b.1 b.2).length ++
          writeUINT64 (b.1 % 2 ^ 64).toNat)) ++ (tail ++ rest) := by
      rw [hrecord]
      simp
    have hlen : (writeUINT32 BINLOG_VERSION ++ (writeUINT32 (blockBuffer crc32 b.1 b.2).length ++
        writeUINT64 (b.1 % 2 ^ 64).toNat)).length = 16 := by simp
    rw [hassoc, take_append, take_of_length_le (by omega)]
    simp
  have hshort : ((writeUINT32 BINLOG_VERSION ++ (record crc32 b ++ rest)).take size).length <
      2 ^ 32 := Nat.lt_of_le_of_lt (length_take_le _ _) hlt
  rw [getFirstBlockNumInBinLog, getBinLogContext_append hcut hshort]
  simp only [Option.bind_some]
  exact hb.toInt64_number

/-- With fewer bytes there is no first block number. -/
theorem getFirstBlockNum_of_short (h : content.length < 16) :
    getFirstBlockNumInBinLog content = -1 := by
  have hnone : ((getBinLogContext content).bind fun r =>
      (readFile 4 r.2).bind fun r => readFile 8 r.2) = none := by
    rw [getBinLogContext]
    split
    · rfl
    · by_cases h4 : 4 ≤ content.length
      · rw [readFile, if_pos h4, Option.map_some, Option.bind_some]
        simp only
        by_cases h8 : 4 ≤ (content.drop 4).length
        · rw [readFile, if_pos h8]
          refine readFile_eq_none ?_
          rw [length_drop, length_drop]
          omega
        · rw [readFile_eq_none (by omega), Option.bind_none]
      · rw [readFile_eq_none (by omega)]
        rfl
  rw [getFirstBlockNumInBinLog, hnone]

/-! ### The last block -/

variable {torn : List Char}

/-- What is left of the record of `next`. -/
def TornRecord (crc32 : List Char → Nat) (next : Option Block) (torn : List Char) : Prop :=
  Layout.Torn (next.map (record crc32)) torn

/-- Whole records, and what is left of another one. -/
structure Records (crc32 : List Char → Nat) (bs : List Block) (torn : List Char) : Prop where
  whole : ∀ b ∈ bs, Recordable crc32 b
  next : ∃ next, TornRecord crc32 next torn ∧ ∀ b ∈ next, Recordable crc32 b

theorem Records.tail (h : Records crc32 (b :: bs) torn) :
    Records crc32 bs torn := ⟨fun c hc => h.whole c (mem_cons_of_mem _ hc), h.next⟩

/-- The length of a torn record, if it can be read, is more than is left. -/
theorem Records.readFile (h : Records crc32 bs torn) (hlen : 4 ≤ torn.length) :
    ∃ blockLen, readFile 4 torn = some (blockLen, torn.drop 4) ∧
      torn.length < 4 + number blockLen ∧ number blockLen < 2 ^ 32 := by
  obtain ⟨next, rfl | ⟨part, hpart, hprefix, hlt⟩, hnext⟩ := h.next
  · simp at hlen
  · obtain ⟨b, rfl, rfl⟩ := Option.map_eq_some_iff.mp hpart
    have hb := hnext b rfl
    refine ⟨writeUINT32 (blockBuffer crc32 b.1 b.2).length, ?_, ?_⟩
    · have htake : torn.take 4 = writeUINT32 (blockBuffer crc32 b.1 b.2).length := by
        rw [prefix_iff_eq_take.mp hprefix, take_take, Nat.min_eq_left hlen, record]
        exact take_left' (length_writeUINT32 _)
      rw [BinLogHandler.readFile, if_pos hlen, htake]
    · have hsize := hb.size
      rw [hb.number_length]
      rw [length_record_eq] at hlt hsize
      omega

theorem record_ne_nil (crc32 : List Char → Nat) (b : Block) : record crc32 b ≠ [] := by
  have := length_record crc32 b
  exact length_pos_iff.mp (by omega)

theorem length_le_length_records (crc32 : List Char → Nat) (bs : List Block) :
    bs.length ≤ (bs.flatMap (record crc32)).length :=
  length_le_length_flatMap fun b _ => record_ne_nil crc32 b

/-- The number of the last block, or the one before. -/
def lastNum (before : Int) (bs : List Block) : Int := (bs.getLast?.map Prod.fst).getD before

@[simp] theorem lastNum_nil (before : Int) : lastNum before [] = before := rfl

theorem lastNum_cons (before : Int) (b : Block) (bs : List Block) :
    lastNum before (b :: bs) = lastNum b.1 bs := by
  cases bs with
  | nil => rfl
  | cons c bs => rw [lastNum, List.getLast?_cons_cons]; rfl

/-- **The search for the last block goes through the whole records.** What is left of the next
record does not matter unless its length is cut. -/
theorem lastBlockLoop_eq {before : List Char} (h : Records crc32 bs torn)
    (hcontent : content = before ++ (bs.flatMap (record crc32) ++ torn))
    (hsize : content.length < 2 ^ 32) {fuel : Nat} (hfuel : bs.length < fuel) (n : Nat) :
    lastBlockLoop content fuel before.length n =
      .ok (if 0 < torn.length ∧ torn.length < 4 then -1 else lastNum (toInt64 n) bs) := by
  induction bs generalizing before fuel n with
  | nil =>
    obtain ⟨fuel, rfl⟩ := Nat.exists_eq_succ_of_ne_zero (Nat.ne_of_gt hfuel)
    have hdrop : content.drop before.length = torn := by
      rw [hcontent, drop_left, flatMap_nil, nil_append]
    have hlen : content.length = before.length + torn.length := by
      rw [hcontent, flatMap_nil, nil_append, length_append]
    rw [lastBlockLoop, fileLength_eq hsize, hdrop]
    by_cases hzero : torn.length = 0
    · rw [if_neg (by omega), if_neg (by omega), lastNum_nil]
    · rw [if_pos (by omega)]
      by_cases hfour : torn.length < 4
      · rw [readFile_eq_none hfour, if_pos ⟨by omega, hfour⟩]
      · obtain ⟨blockLen, hread, hlong, -⟩ := h.readFile (by omega)
        rw [hread, if_neg (by omega)]
        simp only
        rw [if_pos (by omega), lastNum_nil]
  | cons b bs ih =>
    obtain ⟨fuel, rfl⟩ := Nat.exists_eq_succ_of_ne_zero (Nat.ne_zero_of_lt hfuel)
    have hb := h.whole b mem_cons_self
    obtain ⟨tail, hbuffer, hrecord⟩ := record_eq crc32 b
    have hlenb := length_record_eq crc32 b
    have hcontent' : content = (before ++ record crc32 b) ++
        (bs.flatMap (record crc32) ++ torn) := by rw [hcontent]; simp
    have hlen : content.length = before.length + (record crc32 b).length +
        (bs.flatMap (record crc32) ++ torn).length := by
      rw [hcontent', length_append, length_append]
    have hdrop : content.drop before.length =
        writeUINT32 (blockBuffer crc32 b.1 b.2).length ++ (writeUINT64 (b.1 % 2 ^ 64).toNat ++
          (tail ++ (bs.flatMap (record crc32) ++ torn))) := by
      rw [hcontent, flatMap_cons, hrecord]
      simp
    have hoffset : (before.length + (4 + (blockBuffer crc32 b.1 b.2).length)) % 2 ^ 32 =
        (before ++ record crc32 b).length := by
      rw [length_append, hlenb]
      exact Nat.mod_eq_of_lt (by omega)
    rw [lastBlockLoop, fileLength_eq hsize, if_pos (by omega), hdrop,
      readFile_append (length_writeUINT32 _)]
    simp only [hb.number_length]
    rw [if_neg (by omega), readFile_append (length_writeUINT64 _)]
    simp only
    rw [hoffset, ih h.tail hcontent' (Nat.lt_of_succ_lt_succ hfuel), hb.toInt64_number,
      lastNum_cons]

end

/-! ### The missing blocks -/

/-- `blocksData'` has the blocks of `bs` in the range, and otherwise what `blocksData` has. -/
structure Fetched (startNum endNum : Int) (bs : List Block)
    (blocksData blocksData' : BlockDataMap) : Prop where
  found : ∀ b ∈ bs, startNum < b.1 → b.1 ≤ endNum →
    blocksData'.get? b.1 = some (b.2.map readTable)
  other : ∀ num, (∀ b ∈ bs, b.1 = num → ¬ (startNum < num ∧ num ≤ endNum)) →
    blocksData'.get? num = blocksData.get? num

section

variable {crc32 : List Char → Nat} {b : Block} {bs bs' : List Block} {startNum endNum : Int}
  {m m₁ m₂ : BlockDataMap} {n : Int}

/-- Blocks out of the range. -/
theorem fetched_none (h : ∀ b ∈ bs, ¬ (startNum < b.1 ∧ b.1 ≤ endNum)) :
    Fetched startNum endNum bs m m :=
  ⟨fun b hb hlt hle => absurd ⟨hlt, hle⟩ (h b hb), fun _ _ => rfl⟩

theorem fetched_set (startNum endNum : Int) (b : Block) (m : BlockDataMap) :
    Fetched startNum endNum [b] m (if startNum < b.1 ∧ b.1 ≤ endNum then
      m.set b.1 (b.2.map readTable) else m) := by
  constructor
  · intro b' hb' hlt hle
    obtain rfl := mem_singleton.mp hb'
    rw [if_pos ⟨hlt, hle⟩, get?_set_self]
  · intro num hnum
    split_ifs with hrange
    · refine get?_set_ne _ ?_ _
      rintro rfl
      exact hnum b mem_cons_self rfl hrange
    · rfl

/-- First the blocks of one list, then those of another without their numbers. -/
theorem Fetched.append (h : Fetched startNum endNum bs m m₁)
    (h' : Fetched startNum endNum bs' m₁ m₂) (hne : ∀ b ∈ bs, ∀ b' ∈ bs', b'.1 ≠ b.1) :
    Fetched startNum endNum (bs ++ bs') m m₂ := by
  constructor
  · intro b hb hlt hle
    rcases mem_append.mp hb with hb | hb
    · rw [h'.other b.1 fun b' hb' hnum => absurd hnum (hne b hb b' hb'), h.found b hb hlt hle]
    · exact h'.found b hb hlt hle
  · intro num hnum
    rw [h'.other num fun b' hb' => hnum b' (mem_append_right _ hb'),
      h.other num fun b' hb' => hnum b' (mem_append_left _ hb')]

/-- **The records of a file are fetched**, up to the first one behind the range. -/
theorem getBlockData_eq {torn : List Char} {length offset : Nat} (h : Records crc32 bs torn)
    (hnumbered : Numbered n bs)
    (hlength : length = offset + (bs.flatMap (record crc32) ++ torn).length)
    (hsize : length < 2 ^ 32) {fuel : Nat} (hfuel : bs.length < fuel) (m : BlockDataMap) :
    ∃ r m', getBlockData startNum endNum length fuel offset (bs.flatMap (record crc32) ++ torn) m =
      .ok (r, m') ∧ Fetched startNum endNum bs m m' := by
  induction bs generalizing n offset fuel m with
  | nil =>
    obtain ⟨fuel, rfl⟩ := Nat.exists_eq_succ_of_ne_zero (Nat.ne_of_gt hfuel)
    rw [flatMap_nil, nil_append] at hlength ⊢
    have hnone : Fetched startNum endNum [] m m := fetched_none fun b hb => by cases hb
    rw [getBlockData]
    by_cases hzero : torn.length = 0
    · rw [if_neg (by omega)]
      exact ⟨true, m, rfl, hnone⟩
    · rw [if_pos (by omega)]
      by_cases hfour : torn.length < 4
      · rw [readFile_eq_none hfour]
        exact ⟨false, m, rfl, hnone⟩
      · obtain ⟨blockLen, hread, hlong, -⟩ := h.readFile (by omega)
        have hshort : readFile (number blockLen) (torn.drop 4) = none :=
          readFile_eq_none (by rw [length_drop]; omega)
        rw [hread]
        simp only [hshort]
        refine ⟨false, m, ?_, hnone⟩
        split <;> rfl
  | cons b bs ih =>
    obtain ⟨fuel, rfl⟩ := Nat.exists_eq_succ_of_ne_zero (Nat.ne_zero_of_lt hfuel)
    have hb := h.whole b mem_cons_self
    have hfile : (b :: bs).flatMap (record crc32) ++ torn =
        writeUINT32 (blockBuffer crc32 b.1 b.2).length ++ (blockBuffer crc32 b.1 b.2 ++
          (bs.flatMap (record crc32) ++ torn)) := by
      rw [flatMap_cons, record, encodeBlock]
      simp
    have hlen : ((b :: bs).flatMap (record crc32) ++ torn).length =
        4 + ((blockBuffer crc32 b.1 b.2).length + (bs.flatMap (record crc32) ++ torn).length) := by
      rw [hfile, length_append, length_writeUINT32, length_append]
    have hoffset : (offset + 4) % 2 ^ 32 = offset + 4 := Nat.mod_eq_of_lt (by omega)
    have hoffset' : (offset + 4 + (blockBuffer crc32 b.1 b.2).length) % 2 ^ 32 =
        offset + 4 + (blockBuffer crc32 b.1 b.2).length := Nat.mod_eq_of_lt (by omega)
    have hshort : (blockBuffer crc32 b.1 b.2).length < 2 ^ 32 := by
      omega
    have hdecode := decodeBlock_blockBuffer ⟨by have := hb.num; omega, hb.num.2⟩ hb.datas hshort
    -- the rest of the file, and what it adds to whatever was fetched of this record
    have hlength' : length = offset + 4 + (blockBuffer crc32 b.1 b.2).length +
        (bs.flatMap (record crc32) ++ torn).length := by omega
    have hrest := ih h.tail hnumbered.2 hlength' (Nat.lt_of_succ_lt_succ hfuel)
    have hne : ∀ c ∈ [b], ∀ c' ∈ bs, c'.1 ≠ c.1 := by
      intro c hc c' hc'
      obtain rfl := mem_singleton.mp hc
      have := hnumbered.2.range hc'
      have := hnumbered.1
      omega
    rw [getBlockData, if_pos (by omega), hfile, readFile_append (length_writeUINT32 _)]
    simp only [hb.number_length, hoffset, hoffset', readFile_append rfl, hdecode]
    rw [if_neg (by omega)]
    have hset := fetched_set startNum endNum b m
    by_cases hless : b.1 ≤ startNum
    · rw [if_pos hless]
      obtain ⟨r, m', hm', hfetched⟩ := hrest m
      rw [if_neg (by omega)] at hset
      exact ⟨r, m', hm', hset.append hfetched hne⟩
    · rw [if_neg hless]
      by_cases hgreater : endNum < b.1
      · rw [if_pos hgreater]
        refine ⟨true, m, rfl, fetched_none fun c hc => ?_⟩
        have := hnumbered.range hc
        have := hnumbered.1
        omega
      · rw [if_neg hgreater]
        obtain ⟨r, m', hm', hfetched⟩ := hrest (m.set b.1 (b.2.map readTable))
        rw [if_pos (by omega)] at hset
        exact ⟨r, m', hm', hset.append hfetched hne⟩

theorem readBinLog_eq {content torn : List Char}
    (hcontent : content = writeUINT32 BINLOG_VERSION ++ (bs.flatMap (record crc32) ++ torn))
    (hsize : content.length < 2 ^ 32) (h : Records crc32 bs torn) (hnumbered : Numbered n bs)
    (m : BlockDataMap) :
    ∃ r m', readBinLog startNum endNum content m = .ok (r, m') ∧
      Fetched startNum endNum bs m m' := by
  have hlen : content.length = 4 + (bs.flatMap (record crc32) ++ torn).length := by
    rw [hcontent, length_append, length_writeUINT32]
  have hcount := length_le_length_records crc32 bs
  rw [readBinLog, getBinLogContext_append hcontent hsize, fileLength_eq hsize]
  refine getBlockData_eq h hnumbered hlen hsize ?_ m
  rw [hlen, length_append]
  omega

/-- One file of the descending scan. It is passed over if it begins behind the range, and the
scan ends with it if it begins before. -/
theorem scanFiles_cons {name : Int} {content : List Char} {files : List (Int × List Char)}
    {older : List Block} (hfirst : getFirstBlockNumInBinLog content = name)
    (hfile : ∀ m, ∃ r m', readBinLog startNum endNum content m = .ok (r, m') ∧
      Fetched startNum endNum bs m m')
    (holder : ∀ m, ∃ m', scanFiles startNum endNum files m = .ok m' ∧
      Fetched startNum endNum older m m')
    (hname : ∀ b ∈ bs, name ≤ b.1) (hlt : ∀ b ∈ older, b.1 < name) (m : BlockDataMap) :
    ∃ m', scanFiles startNum endNum ((name, content) :: files) m = .ok m' ∧
      Fetched startNum endNum (bs ++ older) m m' := by
  have hne : ∀ b ∈ bs, ∀ b' ∈ older, b'.1 ≠ b.1 := fun b hb b' hb' =>
    (Int.lt_of_lt_of_le (hlt b' hb') (hname b hb)).ne
  rw [scanFiles, if_neg (not_not_intro hfirst)]
  by_cases hend : endNum < name
  · rw [if_pos hend]
    obtain ⟨m', hm', hfetched⟩ := holder m
    refine ⟨m', hm', (fetched_none fun b hb => ?_).append hfetched hne⟩
    have := hname b hb
    omega
  · rw [if_neg hend]
    obtain ⟨r, m₁, hm₁, hfetched⟩ := hfile m
    rw [hm₁]
    simp only
    by_cases hstart : name ≤ startNum
    · rw [if_pos hstart]
      refine ⟨m₁, rfl, hfetched.append (fetched_none fun b hb => ?_) hne⟩
      have := hlt b hb
      omega
    · rw [if_neg hstart]
      obtain ⟨m₂, hm₂, hfetched'⟩ := holder m₁
      exact ⟨m₂, hm₂, hfetched.append hfetched' hne⟩

theorem fileBytes_eq (crc32 : List Char → Nat) (bs : List Block) : fileBytes crc32 bs =
    writeUINT32 BINLOG_VERSION ++ (bs.flatMap (record crc32) ++ []) := by
  rw [append_nil, fileBytes]

theorem tornRecord_nil : TornRecord crc32 none [] := .inl rfl

theorem records_nil (h : ∀ b ∈ bs, Recordable crc32 b) : Records crc32 bs [] :=
  ⟨h, none, tornRecord_nil, fun b hb => by cases hb⟩

theorem getFirstBlockNum_fileBytes (hne : bs ≠ []) (hnumbered : Numbered n bs)
    (hbs : ∀ b ∈ bs, Recordable crc32 b) {size : Nat} (hsize : 16 ≤ size) (hlt : size < 2 ^ 32) :
    getFirstBlockNumInBinLog ((fileBytes crc32 bs).take size) = n := by
  obtain ⟨b, bs, rfl⟩ := exists_cons_of_ne_nil hne
  rw [fileBytes, flatMap_cons, getFirstBlockNum_eq (hbs b mem_cons_self) hsize hlt]
  exact hnumbered.1

theorem Stacked.mem_flatten_lt {first next : Int} {segs : List (List Block)}
    (h : Stacked first next segs) : ∀ b ∈ segs.flatten, first ≤ b.1 ∧ b.1 < next := by
  induction segs generalizing next with
  | nil => simp
  | cons seg segs ih =>
    intro b hb
    have hfirst := h.2.2.first_le
    rcases mem_append.mp (flatten_cons ▸ hb) with hb | hb
    · have := h.2.1.range hb
      omega
    · have := ih h.2.2 b hb
      omega

/-- **Whole files are fetched.** -/
theorem scanFiles_filesOf {first next : Int} {segs : List (List Block)}
    (h : Stacked first next segs) (hbs : ∀ b ∈ segs.flatten, Recordable crc32 b)
    (hsize : ∀ f ∈ filesOf crc32 next segs, f.2.length < 2 ^ 32) (m : BlockDataMap) :
    ∃ m', scanFiles startNum endNum (filesOf crc32 next segs) m = .ok m' ∧
      Fetched startNum endNum segs.flatten m m' := by
  induction segs generalizing next m with
  | nil => exact ⟨m, rfl, fetched_none fun b hb => by cases hb⟩
  | cons seg segs ih =>
    obtain ⟨hseg, hrest⟩ := forall_mem_append.mp hbs
    have hlen := hsize _ mem_cons_self
    have hfirst := getFirstBlockNum_fileBytes h.1 h.2.1 hseg
      (Nat.le_trans (by norm_num) (length_fileBytes_of_ne_nil crc32 h.1)) hlen
    rw [take_length] at hfirst
    refine scanFiles_cons hfirst
      (readBinLog_eq (fileBytes_eq crc32 seg) hlen (records_nil hseg) h.2.1)
      (ih h.2.2 hrest fun f hf => hsize f (mem_cons_of_mem _ hf))
      (fun b hb => (h.2.1.range hb).1) (fun b hb => (h.2.2.mem_flatten_lt b hb).2) m

end

/-! ### The cut -/

/-- What a crash leaves: the newest file is cut. -/
def BinLogHandler.truncate (size : Nat) (h : BinLogHandler) : BinLogHandler :=
  match h.sortedFiles with
  | [] => h
  | (name, content) :: _ => { h with files := h.files.set name (content.take size) }

def Log.truncate (size : Nat) (log : Log) : Log := { log with handler := log.handler.truncate size }

/-- The record is completely on disk. -/
def Complete (h : BinLogHandler) (p : Placed) : Prop :=
  ∃ content, h.files.get? p.file = some content ∧ p.stop ≤ content.length

/-- A log that, once reopened, answers with what is completely on disk. -/
structure Log.Recovers (log : Log) : Prop where
  last : ∃ n, log.handler.restart.getLastBlockNum = .ok n ∧
    ((∃ p ∈ log.records, Complete log.handler p ∧ p.num = n) ∧
        (∀ p ∈ log.records, Complete log.handler p → p.num ≤ n) ∨
      n = -1 ∧ ∀ p ∈ log.records, ¬ Complete log.handler p)
  missing : ∀ startNum endNum, ∃ blocksData,
    log.handler.restart.getMissingBlocksFromBinLog startNum endNum = .ok blocksData ∧
    (∀ p ∈ log.records, Complete log.handler p → startNum < p.num → p.num ≤ endNum →
      ∃ datas, blocksData.get? p.num = some datas ∧ List.Forall₂ SameTable p.datas datas) ∧
    ∀ num, (blocksData.get? num).isSome →
      (startNum < num ∧ num ≤ endNum) ∧ ∃ p ∈ log.records, Complete log.handler p ∧ p.num = num

/-- The cuts of the newest file from which the log recovers: the file is removed; or some record
of it is whole, and of the next one nothing is left or at least its length; or no record of it is
whole, its first block number is, and the block before is the block 0. -/
def CleanCut (log : Log) (size : Nat) : Prop :=
  ∀ f ∈ log.handler.sortedFiles.head?,
    (size ≤ 4 ∧ log.handler.relative = true) ∨
    (∃ p ∈ log.records, p.file = f.1 ∧ p.stop ≤ size ∧ (p.stop = size ∨ p.stop + 4 ≤ size) ∧
      ∀ q ∈ log.records, q.file = f.1 → q.stop ≤ size → q.stop ≤ p.stop) ∨
    (16 ≤ size ∧ f.1 = 1 ∧ (∃ p ∈ log.records, p.num = 0) ∧
      ∀ p ∈ log.records, p.file = f.1 → size < p.stop)

instance (log : Log) (size : Nat) : Decidable (CleanCut log size) := Option.decidableForallMem _

section

variable {crc32 : List Char → Nat} {first next : Int} {segs rest : List (List Block)}
  {seg whole : List Block} {log : Log} {torn : List Char} {size : Nat} {h : BinLogHandler} {n : Int}

theorem sortedFiles_of_perm {l : List (Int × List Char)} (hperm : h.files.entries.Perm l)
    (hl : l.Pairwise fun a b => b.1 < a.1) : h.sortedFiles = l := by
  have hsorted := perm_insertionSort (fun a b : Int × List Char => b.1 ≤ a.1) h.files.entries
  refine List.Perm.eq_of_pairwise ?_ (pairwise_insertionSort _ _) (hl.imp le_of_lt)
    (hsorted.trans hperm)
  intro a b ha hb hab hba
  have hget := get?_eq_some_iff.mpr (hsorted.mem_iff.mp ha)
  have hget' := get?_eq_some_iff.mpr (hperm.mem_iff.mpr hb)
  rw [le_antisymm hba hab, hget'] at hget
  exact Prod.ext (le_antisymm hba hab) (Option.some.inj hget).symm

theorem Stacked.pairwise_filesOf (h : Stacked first next segs) :
    (filesOf crc32 next segs).Pairwise fun a b => b.1 < a.1 := by
  induction segs generalizing next with
  | nil => exact List.Pairwise.nil
  | cons seg segs ih => exact pairwise_cons.mpr ⟨fun f hf => h.2.2.filesOf_lt f hf, ih h.2.2⟩

theorem Logged.sortedFiles (hlog : Logged crc32 first next segs log) :
    log.handler.sortedFiles = filesOf crc32 next segs :=
  sortedFiles_of_perm (hlog.files ▸ reverse_perm _) hlog.stacked.pairwise_filesOf

/-- The blocks whose records are whole after the cut, and what is left of the next record. -/
structure CutAt (crc32 : List Char → Nat) (seg whole : List Block) (torn : List Char)
    (size : Nat) : Prop where
  begins : whole <+: seg
  next : ∃ next, TornRecord crc32 next torn ∧ ∀ b ∈ next, b ∈ seg
  bytes : 4 ≤ size → (fileBytes crc32 seg).take size =
    writeUINT32 BINLOG_VERSION ++ (whole.flatMap (record crc32) ++ torn)
  stop : ∀ before b after, seg = before ++ b :: after →
    ((fileBytes crc32 (before ++ [b])).length ≤ size ↔ before.length < whole.length)

theorem fileBytes_append_cons (crc32 : List Char → Nat) (before : List Block) (b : Block)
    (after : List Block) : fileBytes crc32 (before ++ b :: after) =
      fileBytes crc32 (before ++ [b]) ++ after.flatMap (record crc32) := by
  simp [fileBytes]

theorem exists_cutAt (crc32 : List Char → Nat) (seg : List Block) (size : Nat) :
    ∃ whole torn, CutAt crc32 seg whole torn size := by
  have hparts : ∀ part ∈ seg.map (record crc32), part ≠ [] := by
    intro part hpart
    obtain ⟨b, -, rfl⟩ := mem_map.mp hpart
    exact record_ne_nil crc32 b
  obtain ⟨m, torn, htake, htorn, hstart⟩ := Layout.exists_whole_parts hparts (size - 4)
  refine ⟨seg.take m, torn, take_prefix _ _, ⟨seg[m]?, ?_, ?_⟩, fun hsize => ?_, ?_⟩
  · rwa [List.getElem?_map] at htorn
  · exact fun b hb => mem_of_getElem? hb
  · rw [fileBytes, take_append, length_writeUINT32, take_of_length_le (by simpa),
      flatMap_def, htake, ← map_take, ← flatMap_def]
  · intro before b after hseg
    have hlen : (fileBytes crc32 (before ++ [b])).length =
        4 + Layout.start (seg.map (record crc32)) (before.length + 1) := by
      have htake : (seg.map (record crc32)).take (before.length + 1) =
          (before ++ [b]).map (record crc32) := by
        rw [hseg, append_cons before b after, map_append]
        exact take_left' (by simp)
      rw [fileBytes, length_append, length_writeUINT32, Layout.start, htake,
        flatMap_def, length_flatten]
    have hlong := length_fileBytes_of_ne_nil crc32 (concat_ne_nil b before)
    have hle : before.length + 1 ≤ (seg.map (record crc32)).length := by
      rw [hseg]
      simp
    rw [length_take, ← Nat.add_one_le_iff, Nat.le_min, ← hstart _ hle]
    rw [length_map] at hle
    omega

theorem cutAt_length (crc32 : List Char → Nat) (seg : List Block) :
    CutAt crc32 seg seg [] (fileBytes crc32 seg).length where
  begins := prefix_refl seg
  next := ⟨none, tornRecord_nil, fun b hb => by cases hb⟩
  bytes _ := by rw [take_length, fileBytes_eq]
  stop before b after hseg := by
    rw [hseg, fileBytes_append_cons _ _ _ after, length_append, length_append, length_cons]
    omega

/-! ### The log after the cut -/

variable {p : Placed}

theorem entries_truncate (hlog : Logged crc32 first next (seg :: rest) log) (size : Nat) :
    (log.handler.truncate size).files.entries = (filesOf crc32 (next - seg.length) rest).reverse ++
        [(next - seg.length, (fileBytes crc32 seg).take size)] := by
  have hfiles := hlog.files
  rw [filesOf, reverse_cons] at hfiles
  rw [truncate, hlog.sortedFiles]
  exact entries_set_concat hfiles _

theorem relative_truncate (size : Nat) (h : BinLogHandler) :
    (h.truncate size).relative = h.relative := by
  rw [truncate]
  split <;> rfl

theorem entries_restart (h : BinLogHandler) : h.restart.files.entries =
    h.files.entries.filter fun f => ¬ (f.2.length ≤ 4 ∧ h.relative = true) := by
  show (if h.relative then _ else h.files : Dictionary _ _).entries = _
  cases h.relative with
  | false => simp
  | true => simp [Dictionary.filter]

/-- The file that is cut is removed if it is short and can be found. -/
theorem sortedFiles_reopened (hlog : Logged crc32 first next (seg :: rest) log)
    (hsize : size ≤ (fileBytes crc32 seg).length) :
    (log.handler.truncate size).restart.sortedFiles =
      if size ≤ 4 ∧ log.handler.relative = true then filesOf crc32 (next - seg.length) rest
      else (next - seg.length, (fileBytes crc32 seg).take size) ::
        filesOf crc32 (next - seg.length) rest := by
  have hcut : ((fileBytes crc32 seg).take size).length = size := by
    rw [length_take, Nat.min_eq_left hsize]
  have hlong : ∀ f ∈ (filesOf crc32 (next - seg.length) rest).reverse,
      ¬ (f.2.length ≤ 4 ∧ log.handler.relative = true) := by
    intro f hf
    have := hlog.stacked.2.2.length_filesOf f (mem_reverse.mp hf)
    omega
  have hpair : (filesOf crc32 (next - seg.length) rest).Pairwise fun a b => b.1 < a.1 :=
    hlog.stacked.2.2.pairwise_filesOf
  have hentries := entries_restart (log.handler.truncate size)
  rw [entries_truncate hlog, relative_truncate, filter_append,
    filter_eq_self.mpr fun f hf => decide_eq_true (hlong f hf), filter_singleton, hcut,
    Bool.cond_decide] at hentries
  split_ifs with hremoved
  · refine sortedFiles_of_perm ?_ hpair
    rw [hentries, if_neg (not_not_intro hremoved), append_nil]
    exact reverse_perm _
  · refine sortedFiles_of_perm ?_ (pairwise_cons.mpr
      ⟨fun f hf => hlog.stacked.2.2.filesOf_lt f hf, hpair⟩)
    rw [hentries, if_pos hremoved, ← reverse_cons]
    exact reverse_perm _

theorem PlacedIn.mem_filesOf (h : PlacedIn crc32 p next segs) :
    (p.num, p.datas) ∈ segs.flatten ∧ (record crc32 (p.num, p.datas)).length ≤ p.stop ∧
      ∃ bytes, (p.file, bytes) ∈ filesOf crc32 next segs ∧ p.stop ≤ bytes.length := by
  induction segs generalizing next with
  | nil => cases h
  | cons seg segs ih =>
    rcases h with ⟨before, after, hseg, hfile, hstop⟩ | h
    · refine ⟨mem_append_left _ (by rw [hseg]; simp), ?_, fileBytes crc32 seg, ?_, ?_⟩
      · rw [hstop, fileBytes_concat, length_append]
        omega
      · rw [hfile]
        exact mem_cons_self
      · rw [hseg, fileBytes_append_cons _ _ _ after, length_append]
        omega
    · obtain ⟨hmem, hlen, bytes, hbytes, hstop⟩ := ih h
      exact ⟨mem_append_right _ hmem, hlen, bytes, mem_cons_of_mem _ hbytes, hstop⟩

theorem exists_placedIn (crc32 : List Char → Nat) {b : Block} (hb : b ∈ segs.flatten) (next : Int) :
    ∃ p, PlacedIn crc32 p next segs ∧ (p.num, p.datas) = b := by
  induction segs generalizing next with
  | nil => cases hb
  | cons seg segs ih =>
    rcases mem_append.mp (flatten_cons ▸ hb) with hb | hb
    · obtain ⟨before, after, hseg⟩ := append_of_mem hb
      exact ⟨⟨b.1, b.2, next - seg.length, (fileBytes crc32 (before ++ [b])).length⟩,
        .inl ⟨before, after, hseg, rfl, rfl⟩, rfl⟩
    · obtain ⟨p, hp, hpb⟩ := ih hb (next - seg.length)
      exact ⟨p, .inr hp, hpb⟩

/-- Each file ends with a record. -/
theorem Stacked.exists_stop (h : Stacked first next segs) {f : Int × List Char}
    (hf : f ∈ filesOf crc32 next segs) : ∃ p, PlacedIn crc32 p next segs ∧ p.stop = f.2.length := by
  induction segs generalizing next with
  | nil => cases hf
  | cons seg segs ih =>
    rcases mem_cons.mp hf with rfl | hf
    · obtain ⟨before, b, hseg⟩ := (eq_nil_or_concat seg).resolve_left h.1
      rw [concat_eq_append] at hseg
      exact ⟨⟨b.1, b.2, next - seg.length, (fileBytes crc32 (before ++ [b])).length⟩,
        .inl ⟨before, [], hseg, rfl, rfl⟩, by rw [hseg]⟩
    · obtain ⟨p, hp, hstop⟩ := ih h.2.2 hf
      exact ⟨p, .inr hp, hstop⟩

theorem Stacked.exists_last (h : Stacked first next segs) (hne : segs ≠ []) :
    ∃ b ∈ segs.flatten, b.1 = next - 1 := by
  obtain ⟨seg, segs, rfl⟩ := exists_cons_of_ne_nil hne
  obtain ⟨before, b, hseg⟩ := (eq_nil_or_concat seg).resolve_left h.1
  rw [concat_eq_append] at hseg
  have hnumbered := h.2.1
  rw [hseg] at hnumbered
  have hb := (numbered_append.mp hnumbered).2.1
  rw [length_append, length_singleton] at hb
  refine ⟨b, by simp [hseg], ?_⟩
  omega

/-- The records of the newest file are those of its blocks. -/
theorem Logged.exists_split (hlog : Logged crc32 first next (seg :: rest) log)
    (hp : p ∈ log.records) (hfile : p.file = next - seg.length) :
    ∃ before after, seg = before ++ (p.num, p.datas) :: after ∧
      p.stop = (fileBytes crc32 (before ++ [(p.num, p.datas)])).length := by
  rcases (hlog.records p).mp hp with ⟨before, after, hseg, -, hstop⟩ | hplaced
  · exact ⟨before, after, hseg, hstop⟩
  · obtain ⟨-, -, bytes, hbytes, -⟩ := hplaced.mem_filesOf
    exact absurd hfile (hlog.stacked.2.2.filesOf_lt _ hbytes).ne

/-- A record whose number and tables can be written, in a file of less than 2^32 bytes. -/
structure Placed.Storable (p : Placed) : Prop where
  num : p.num < 2 ^ 63
  datas : ∀ table ∈ p.datas, Writable table
  stop : p.stop < 2 ^ 32

theorem Logged.recordable (hlog : Logged crc32 first next segs log) (hfirst : 0 ≤ first)
    (hstorable : ∀ p ∈ log.records, p.Storable) : ∀ b ∈ segs.flatten, Recordable crc32 b := by
  intro b hb
  obtain ⟨p, hp, rfl⟩ := exists_placedIn crc32 hb next
  have hs := hstorable p ((hlog.records p).mpr hp)
  have hnum := (hlog.stacked.mem_flatten_lt _ hb).1
  exact ⟨⟨Int.le_trans hfirst hnum, hs.num⟩, hs.datas,
    Nat.lt_of_le_of_lt hp.mem_filesOf.2.1 hs.stop⟩

theorem Logged.length_files_lt (hlog : Logged crc32 first next segs log)
    (hstorable : ∀ p ∈ log.records, p.Storable) :
    ∀ f ∈ filesOf crc32 next segs, f.2.length < 2 ^ 32 := by
  intro f hf
  obtain ⟨p, hp, hstop⟩ := hlog.stacked.exists_stop hf
  rw [← hstop]
  exact (hstorable p ((hlog.records p).mpr hp)).stop

/-- The number of the last of the blocks on disk, and -1 if there is none. -/
def IsLast (bs : List Block) (n : Int) : Prop :=
  (∃ b ∈ bs, b.1 = n) ∧ (∀ b ∈ bs, b.1 ≤ n) ∨ n = -1 ∧ bs = []

/-- The last block of numbered blocks, in front of older ones. -/
theorem isLast_lastNum {bs older : List Block} (hne : bs ≠ []) (h : Numbered n bs)
    (holder : ∀ b ∈ older, b.1 < n) (before : Int) : IsLast (bs ++ older) (lastNum before bs) := by
  obtain ⟨init, b, rfl⟩ := (eq_nil_or_concat bs).resolve_left hne
  rw [concat_eq_append] at h ⊢
  have hlast : lastNum before (init ++ [b]) = b.1 := by simp [lastNum]
  have hb := (numbered_append.mp h).2.1
  rw [hlast]
  refine .inl ⟨⟨b, by simp, rfl⟩, fun c hc => ?_⟩
  rcases mem_append.mp hc with hc | hc
  · have := (h.range hc).2
    rw [length_append, length_singleton] at this
    omega
  · have := holder c hc
    omega

theorem sameTables_readTable (datas : List TableData) :
    List.Forall₂ SameTable datas (datas.map readTable) :=
  forall₂_map_right_iff.mpr (forall₂_same.mpr fun table _ => sameTable_readTable table)

/-- A log whose scans fetch the blocks on disk recovers if it finds the last of them. -/
theorem recovers_iff_isLast {bs : List Block}
    (hcomplete : ∀ p ∈ log.records, Complete log.handler p ↔ (p.num, p.datas) ∈ bs)
    (hrecords : ∀ b ∈ bs, ∃ p ∈ log.records, (p.num, p.datas) = b) (hscan : ∀ startNum endNum, ∃ m,
      scanFiles startNum endNum log.handler.restart.sortedFiles ∅ = .ok m ∧
        Fetched startNum endNum bs ∅ m) (hlast : log.handler.restart.getLastBlockNum = .ok n) :
    log.Recovers ↔ IsLast bs n := by
  have hall : ∀ q : Int → Prop,
      (∀ p ∈ log.records, Complete log.handler p → q p.num) ↔ ∀ b ∈ bs, q b.1 := by
    refine fun q => ⟨fun h b hb => ?_, fun h p hp hc => h _ ((hcomplete p hp).mp hc)⟩
    obtain ⟨p, hp, rfl⟩ := hrecords b hb
    exact h p hp ((hcomplete p hp).mpr hb)
  have hiff : ((∃ p ∈ log.records, Complete log.handler p ∧ p.num = n) ∧
        (∀ p ∈ log.records, Complete log.handler p → p.num ≤ n) ∨
      n = -1 ∧ ∀ p ∈ log.records, ¬ Complete log.handler p) ↔ IsLast bs n := by
    rw [IsLast, eq_nil_iff_forall_not_mem, hall (· ≤ n), ← hall fun _ => False]
    refine or_congr_left (and_congr_left' (not_iff_not.mp ?_))
    push Not
    exact hall (· ≠ n)
  constructor
  · intro h
    obtain ⟨n', hn', hlast'⟩ := h.last
    obtain rfl : n = n' := Except.ok.inj (hlast.symm.trans hn')
    exact hiff.mp hlast'
  · intro h
    refine ⟨⟨n, hlast, hiff.mpr h⟩, fun startNum endNum => ?_⟩
    obtain ⟨m, hm, hfetched⟩ : ∃ m,
        log.handler.restart.getMissingBlocksFromBinLog startNum endNum = .ok m ∧
          Fetched startNum endNum bs ∅ m := by
      rw [getMissingBlocksFromBinLog]
      by_cases hempty : endNum ≤ startNum
      · rw [if_pos hempty]
        exact ⟨∅, rfl, fetched_none fun b _ => by omega⟩
      · rw [if_neg hempty]
        exact hscan startNum endNum
    refine ⟨m, hm, fun p hp hc hlt hle => ?_, fun num hnum => ?_⟩
    · exact ⟨_, hfetched.found _ ((hcomplete p hp).mp hc) hlt hle, sameTables_readTable _⟩
    · by_contra hnot
      have hother := hfetched.other num fun b hb hbn hrange => hnot ⟨hrange, by
        obtain ⟨p, hp, rfl⟩ := hrecords b hb
        exact ⟨p, hp, (hcomplete p hp).mpr hb, hbn⟩⟩
      rw [hother] at hnum
      cases hnum

section

variable (hcut : CutAt crc32 seg whole torn size)
include hcut

theorem CutAt.records (hseg : ∀ b ∈ seg, Recordable crc32 b) : Records crc32 whole torn := by
  obtain ⟨next, htorn, hnext⟩ := hcut.next
  exact ⟨fun b hb => hseg b (hcut.begins.subset hb), next, htorn, fun b hb => hseg b (hnext b hb)⟩

theorem CutAt.numbered (h : Numbered n seg) : Numbered n whole := by
  obtain ⟨tail, rfl⟩ := hcut.begins
  exact (numbered_append.mp h).1

/-- A record of the newest file is before the cut if its block is among the whole ones. -/
theorem CutAt.stop_le_iff {before after : List Block}
    (hnumbered : Numbered n seg) (hseg : seg = before ++ (p.num, p.datas) :: after)
    (hstop : p.stop = (fileBytes crc32 (before ++ [(p.num, p.datas)])).length) :
    p.stop ≤ size ↔ (p.num, p.datas) ∈ whole := by
  rw [hstop, hcut.stop before _ after hseg]
  obtain ⟨tail, htail⟩ := hcut.begins
  have hnum : p.num = n + before.length := by
    rw [hseg] at hnumbered
    exact (numbered_append.mp hnumbered).2.1
  constructor
  · intro hlt
    have hget : seg[before.length]? = some (p.num, p.datas) := by
      rw [hseg, List.getElem?_append_right (Nat.le_refl _), Nat.sub_self]
      rfl
    rw [← htail, List.getElem?_append_left hlt] at hget
    exact mem_of_getElem? hget
  · intro hmem
    have := ((hcut.numbered hnumbered).range hmem).2
    omega

theorem CutAt.size_eq (hfour : 4 ≤ size) (hsize : size ≤ (fileBytes crc32 seg).length) :
    size = (fileBytes crc32 whole).length + torn.length := by
  have hbytes := congrArg List.length (hcut.bytes hfour)
  rw [length_take, Nat.min_eq_left hsize, ← append_assoc, length_append] at hbytes
  exact hbytes

theorem getLastBlockNum_eq {files : List (Int × List Char)}
    (hfiles : h.sortedFiles = (n, (fileBytes crc32 seg).take size) :: files) (hne : seg ≠ [])
    (hnumbered : Numbered n seg) (hseg : ∀ b ∈ seg, Recordable crc32 b)
    (hlt : (fileBytes crc32 seg).length < 2 ^ 32) (hsize : 16 ≤ size)
    (hle : size ≤ (fileBytes crc32 seg).length) :
    h.getLastBlockNum =
      .ok (if 0 < torn.length ∧ torn.length < 4 then -1 else lastNum 0 whole) := by
  have hbytes := hcut.bytes (by omega)
  have hlen : ((fileBytes crc32 seg).take size).length < 2 ^ 32 := by
    rw [length_take]
    omega
  have hcount := length_le_length_records crc32 whole
  rw [getLastBlockNum, hfiles]
  simp only
  rw [if_neg (not_not_intro (getFirstBlockNum_fileBytes hne hnumbered hseg hsize (by omega))),
    getBinLogContext_append hbytes hlen]
  have hfuel : whole.length < ((fileBytes crc32 seg).take size).length + 1 := by
    rw [hbytes, length_append, length_append]
    omega
  have hloop := lastBlockLoop_eq (hcut.records hseg) hbytes hlen hfuel 0
  exact hloop

end

theorem isLast_filesOf (hfiles : h.sortedFiles = filesOf crc32 next segs)
    (hstacked : Stacked first next segs) (hbs : ∀ b ∈ segs.flatten, Recordable crc32 b)
    (hsize : ∀ f ∈ filesOf crc32 next segs, f.2.length < 2 ^ 32) :
    ∃ n, h.getLastBlockNum = .ok n ∧ IsLast segs.flatten n := by
  cases segs with
  | nil => exact ⟨-1, by rw [getLastBlockNum, hfiles]; rfl, .inr ⟨rfl, rfl⟩⟩
  | cons seg segs =>
    have hlen := length_fileBytes_of_ne_nil crc32 hstacked.1
    rw [filesOf, ← take_length (l := fileBytes crc32 seg)] at hfiles
    refine ⟨lastNum 0 seg, ?_, ?_⟩
    · exact (getLastBlockNum_eq (cutAt_length crc32 seg) hfiles hstacked.1 hstacked.2.1
        (forall_mem_append.mp hbs).1 (hsize _ mem_cons_self) (by omega) (Nat.le_refl _))
    · exact isLast_lastNum hstacked.1 hstacked.2.1
        (fun b hb => (hstacked.2.2.mem_flatten_lt b hb).2) 0

/-! ### When the log recovers -/

/-- The first block number of the file is cut. -/
theorem Logged.not_recovers_of_short (hlog : Logged crc32 first next (seg :: rest) log)
    (hsize : size ≤ (fileBytes crc32 seg).length) (hfirst : 0 ≤ first)
    (hremoved : ¬ (size ≤ 4 ∧ log.handler.relative = true)) (hshort : size < 16) :
    ¬ (log.truncate size).Recovers := by
  intro h
  obtain ⟨n, hn, -⟩ := h.last
  have hfiles := sortedFiles_reopened hlog hsize
  rw [if_neg hremoved] at hfiles
  have hname := hlog.stacked.2.2.first_le
  have hnone : getFirstBlockNumInBinLog ((fileBytes crc32 seg).take size) = -1 :=
    getFirstBlockNum_of_short (by rw [length_take]; omega)
  rw [getLastBlockNum, Log.truncate] at hn
  simp only [hfiles] at hn
  rw [if_pos (by rw [hnone]; omega)] at hn
  cases hn

section

variable (hlog : Logged crc32 first next (seg :: rest) log) (hcut : CutAt crc32 seg whole torn size)
include hlog hcut

theorem Logged.exists_last_whole (hne : whole ≠ []) :
    ∃ p ∈ log.records, p.file = next - seg.length ∧
      p.stop = (fileBytes crc32 whole).length ∧ p.stop ≤ size := by
  obtain ⟨before, b, hwhole⟩ := (eq_nil_or_concat whole).resolve_left hne
  rw [concat_eq_append] at hwhole
  obtain ⟨tail, htail⟩ := hcut.begins
  have hseg : seg = before ++ b :: tail := by
    rw [← htail, hwhole]
    simp
  refine ⟨⟨b.1, b.2, next - seg.length, (fileBytes crc32 (before ++ [b])).length⟩,
    (hlog.records _).mpr (.inl ⟨before, tail, hseg, rfl, rfl⟩), rfl, by rw [hwhole], ?_⟩
  refine (hcut.stop before b tail hseg).mpr ?_
  rw [hwhole, length_append, length_singleton]
  omega

/-- A record of the newest file that is whole ends where the whole records end, or before. -/
theorem Logged.stop_le_whole (hp : p ∈ log.records) (hfile : p.file = next - seg.length)
    (hle : p.stop ≤ size) : whole ≠ [] ∧ p.stop ≤ (fileBytes crc32 whole).length := by
  obtain ⟨before, after, hseg, hstop⟩ := hlog.exists_split hp hfile
  rw [hstop] at hle ⊢
  obtain ⟨tail, rfl⟩ : before ++ [(p.num, p.datas)] <+: whole := by
    refine prefix_of_prefix_length_le ⟨after, by simp [hseg]⟩ hcut.begins ?_
    simpa using (hcut.stop before _ after hseg).mp hle
  simp only [fileBytes, flatMap_append, length_append]
  exact ⟨by simp, by omega⟩

theorem Logged.exists_record :
    ∀ b ∈ whole ++ rest.flatten, ∃ p ∈ log.records, (p.num, p.datas) = b := by
  intro b hb
  have hmem : b ∈ (seg :: rest).flatten := by
    rw [flatten_cons, mem_append]
    exact (mem_append.mp hb).imp_left fun h => hcut.begins.subset h
  obtain ⟨p, hp, hpb⟩ := exists_placedIn crc32 hmem next
  exact ⟨p, (hlog.records p).mpr hp, hpb⟩

theorem Logged.twentyfour_le (hne : whole ≠ []) : 24 ≤ size := by
  obtain ⟨p, -, -, hstop, hle⟩ := hlog.exists_last_whole hcut hne
  have := length_fileBytes_of_ne_nil crc32 hne
  omega

variable (hsize : size ≤ (fileBytes crc32 seg).length)
include hsize

/-- **What is complete on disk**: the whole records of the newest file, and those of the older
files. -/
theorem Logged.complete_iff :
    ∀ p ∈ (log.truncate size).records,
      Complete (log.truncate size).handler p ↔ (p.num, p.datas) ∈ whole ++ rest.flatten := by
  intro p hp
  have hentries := entries_truncate hlog size
  have hget : ∀ f bytes, (f, bytes) ∈ (log.handler.truncate size).files.entries →
      (log.handler.truncate size).files.get? f = some bytes := fun f bytes hf =>
    get?_eq_some_iff.mpr hf
  have hrest := fun b hb => (hlog.stacked.2.2.mem_flatten_lt b hb).2
  rw [mem_append]
  rcases (hlog.records p).mp hp with ⟨before, after, hseg, hfile, hstop⟩ | hplaced
  · have hmem : (p.num, p.datas) ∈ seg := by
      rw [hseg]
      simp
    have hnot : (p.num, p.datas) ∉ rest.flatten := by
      intro hold
      have hlt := hrest _ hold
      have hge := (hlog.stacked.2.1.range hmem).1
      omega
    have hcontent := hget _ _ (by
      rw [hentries]
      exact mem_append_right _ mem_cons_self)
    rw [or_iff_left hnot, ← hcut.stop_le_iff hlog.stacked.2.1 hseg hstop, Complete, hfile]
    constructor
    · rintro ⟨content, hc, hle⟩
      obtain rfl := Option.some.inj (hcontent.symm.trans hc)
      rw [length_take] at hle
      omega
    · intro hle
      exact ⟨_, hcontent, by rw [length_take]; omega⟩
  · obtain ⟨hmem, -, bytes, hbytes, hstop⟩ := hplaced.mem_filesOf
    refine iff_of_true ⟨bytes, hget _ _ ?_, hstop⟩ (.inr hmem)
    rw [hentries]
    exact mem_append_left _ (mem_reverse.mpr hbytes)

/-- The second kind of clean cut, in terms of the whole blocks. -/
theorem Logged.exists_clean_iff :
    (∃ p ∈ log.records, p.file = next - seg.length ∧ p.stop ≤ size ∧
        (p.stop = size ∨ p.stop + 4 ≤ size) ∧
        ∀ q ∈ log.records, q.file = next - seg.length → q.stop ≤ size → q.stop ≤ p.stop) ↔
      whole ≠ [] ∧ ¬ (0 < torn.length ∧ torn.length < 4) := by
  constructor
  · rintro ⟨p, hp, hfile, hstop, hclean, hmax⟩
    obtain ⟨hwhole, hge⟩ := hlog.stop_le_whole hcut hp hfile hstop
    obtain ⟨q, hq, hqfile, hqstop, hqsize⟩ := hlog.exists_last_whole hcut hwhole
    have hle := hmax q hq hqfile hqsize
    have hlong := length_fileBytes_of_ne_nil crc32 hwhole
    have hsizeq := hcut.size_eq (by omega) hsize
    exact ⟨hwhole, by omega⟩
  · rintro ⟨hwhole, htorn⟩
    obtain ⟨p, hp, hfile, hstop, hle⟩ := hlog.exists_last_whole hcut hwhole
    have hlong := length_fileBytes_of_ne_nil crc32 hwhole
    have hsizeq := hcut.size_eq (by omega) hsize
    refine ⟨p, hp, hfile, hle, by omega, fun q hq hqfile hqsize => ?_⟩
    exact hstop ▸ (hlog.stop_le_whole hcut hq hqfile hqsize).2

theorem Logged.cleanCut_iff :
    CleanCut log size ↔ (size ≤ 4 ∧ log.handler.relative = true) ∨
      (whole ≠ [] ∧ ¬ (0 < torn.length ∧ torn.length < 4)) ∨
      (16 ≤ size ∧ next - seg.length = 1 ∧ (∃ b ∈ rest.flatten, b.1 = 0) ∧ whole = []) := by
  rw [CleanCut, hlog.sortedFiles, filesOf, List.head?_cons]
  simp only [Option.mem_def, Option.some.injEq, forall_eq']
  have hnone : (∀ p ∈ log.records, p.file = next - seg.length → size < p.stop) ↔ whole = [] := by
    refine ⟨fun h => ?_, fun hwhole p hp hfile => ?_⟩
    · by_contra hne
      obtain ⟨p, hp, hfile, -, hle⟩ := hlog.exists_last_whole hcut hne
      exact hle.not_gt (h p hp hfile)
    · by_contra hle
      exact (hlog.stop_le_whole hcut hp hfile (not_lt.mp hle)).1 hwhole
  rw [hlog.exists_clean_iff hcut hsize, hnone]
  refine or_congr_right (or_congr_right (and_congr_right fun _ => and_congr_right fun hname =>
    and_congr_left fun _ => ⟨?_, ?_⟩))
  · rintro ⟨p, hp, hp0⟩
    have hin := ((hlog.records p).mp hp).mem_filesOf.1
    rcases mem_append.mp (flatten_cons ▸ hin) with hin | hin
    · have := (hlog.stacked.2.1.range hin).1
      omega
    · exact ⟨_, hin, hp0⟩
  · rintro ⟨b, hb, hb0⟩
    obtain ⟨p, hp, rfl⟩ := exists_placedIn crc32 hb (next - seg.length)
    exact ⟨p, (hlog.records p).mpr (.inr hp), hb0⟩

/-- What the search for the last block returns is right in two cases only. -/
theorem Logged.isLast_iff (hfirst : 0 ≤ first) (hsixteen : 16 ≤ size) :
    IsLast (whole ++ rest.flatten)
        (if 0 < torn.length ∧ torn.length < 4 then -1 else lastNum 0 whole) ↔
      whole ≠ [] ∧ ¬ (0 < torn.length ∧ torn.length < 4) ∨
      whole = [] ∧ next - seg.length = 1 ∧ ∃ b ∈ rest.flatten, b.1 = 0 := by
  have holder := fun b hb => hlog.stacked.2.2.mem_flatten_lt b hb
  have hsizeq := hcut.size_eq (by omega) hsize
  by_cases hwhole : whole = []
  · subst hwhole
    have htorn : ¬ (0 < torn.length ∧ torn.length < 4) := by
      rw [fileBytes, flatMap_nil, append_nil, length_writeUINT32] at hsizeq
      omega
    rw [if_neg htorn, lastNum_nil]
    constructor
    · rintro (⟨⟨b, hb, hb0⟩, hmax⟩ | ⟨habs, -⟩)
      · refine .inr ⟨rfl, ?_, b, hb, hb0⟩
        have hne : rest ≠ [] := fun hnil => by simp [hnil] at hb
        obtain ⟨c, hc, hlast⟩ := hlog.stacked.2.2.exists_last hne
        have hcmax := hmax c hc
        have hblt := (holder b hb).2
        omega
      · omega
    · rintro (⟨habs, -⟩ | ⟨-, hname, b, hb, hb0⟩)
      · exact absurd rfl habs
      · refine .inl ⟨⟨b, hb, hb0⟩, fun c hc => ?_⟩
        have := (holder c hc).2
        omega
  · have hnumbered := hcut.numbered hlog.stacked.2.1
    by_cases htorn : 0 < torn.length ∧ torn.length < 4
    · refine iff_of_false ?_ (by simp [hwhole, htorn])
      rintro (⟨⟨c, hc, hneg⟩, -⟩ | ⟨-, hnil⟩)
      · have hname := hlog.stacked.2.2.first_le
        rcases mem_append.mp hc with hc | hc
        · have := (hnumbered.range hc).1
          omega
        · have := (holder c hc).1
          omega
      · exact hwhole (append_eq_nil_iff.mp hnil).1
    · rw [if_neg htorn]
      exact iff_of_true (isLast_lastNum hwhole hnumbered (fun c hc => (holder c hc).2) 0)
        (.inl ⟨hwhole, htorn⟩)

variable (hbs : ∀ b ∈ (seg :: rest).flatten, Recordable crc32 b)
  (hlt : ∀ f ∈ filesOf crc32 next (seg :: rest), f.2.length < 2 ^ 32)
include hbs hlt

/-- The file is gone, and the others are whole. -/
theorem Logged.recovers_of_removed (hremoved : size ≤ 4 ∧ log.handler.relative = true) :
    (log.truncate size).Recovers := by
  have hfiles := sortedFiles_reopened hlog hsize
  rw [if_pos hremoved] at hfiles
  have hwhole : whole = [] := by
    by_contra hne
    have := hlog.twentyfour_le hcut hne
    omega
  have hrest := (forall_mem_append.mp hbs).2
  have hltrest : ∀ f ∈ filesOf crc32 (next - seg.length) rest, f.2.length < 2 ^ 32 :=
    fun f hf => hlt f (mem_cons_of_mem _ hf)
  obtain ⟨n, hn, hlast⟩ := isLast_filesOf hfiles hlog.stacked.2.2 hrest hltrest
  refine (recovers_iff_isLast (hlog.complete_iff hcut hsize) (hlog.exists_record hcut)
    (fun startNum endNum => ?_) hn).mpr ?_
  · rw [hwhole]
    show ∃ m, scanFiles _ _ (log.handler.truncate size).restart.sortedFiles ∅ = _ ∧ _
    rw [hfiles]
    exact scanFiles_filesOf hlog.stacked.2.2 hrest hltrest ∅
  · rw [hwhole]
    exact hlast

/-- The first block number of the file can be read. -/
theorem Logged.recovers_iff_of_readable (hfirst : 0 ≤ first)
    (hremoved : ¬ (size ≤ 4 ∧ log.handler.relative = true)) (hsixteen : 16 ≤ size) :
    (log.truncate size).Recovers ↔
      whole ≠ [] ∧ ¬ (0 < torn.length ∧ torn.length < 4) ∨
      whole = [] ∧ next - seg.length = 1 ∧ ∃ b ∈ rest.flatten, b.1 = 0 := by
  have hfiles := sortedFiles_reopened hlog hsize
  rw [if_neg hremoved] at hfiles
  obtain ⟨hseg, hrest⟩ := forall_mem_append.mp hbs
  have hltseg : (fileBytes crc32 seg).length < 2 ^ 32 := hlt _ mem_cons_self
  have hlen : ((fileBytes crc32 seg).take size).length < 2 ^ 32 := by
    rw [length_take]
    omega
  have hnumbered := hcut.numbered hlog.stacked.2.1
  have hlast := getLastBlockNum_eq hcut hfiles hlog.stacked.1 hlog.stacked.2.1 hseg hltseg hsixteen
    hsize
  rw [recovers_iff_isLast (hlog.complete_iff hcut hsize) (hlog.exists_record hcut)
    (fun startNum endNum => ?_) hlast, hlog.isLast_iff hcut hsize hfirst hsixteen]
  show ∃ m, scanFiles _ _ (log.handler.truncate size).restart.sortedFiles ∅ = _ ∧ _
  rw [hfiles]
  exact scanFiles_cons
    (getFirstBlockNum_fileBytes hlog.stacked.1 hlog.stacked.2.1 hseg hsixteen (by omega))
    (readBinLog_eq (hcut.bytes (by omega)) hlen (hcut.records hseg) hnumbered)
    (scanFiles_filesOf hlog.stacked.2.2 hrest fun f hf => hlt f (mem_cons_of_mem _ hf))
    (fun b hb => (hnumbered.range hb).1) (fun b hb => (hlog.stacked.2.2.mem_flatten_lt b hb).2) ∅

end

theorem Logged.recovers_iff_cleanCut (hlog : Logged crc32 first next (seg :: rest) log)
    (hfirst : 0 ≤ first) (hstorable : ∀ p ∈ log.records, p.Storable)
    (hsize : size ≤ (fileBytes crc32 seg).length) :
    (log.truncate size).Recovers ↔ CleanCut log size := by
  obtain ⟨whole, torn, hcut⟩ := exists_cutAt crc32 seg size
  have hbs := hlog.recordable hfirst hstorable
  have hlt := hlog.length_files_lt hstorable
  rw [hlog.cleanCut_iff hcut hsize]
  by_cases hremoved : size ≤ 4 ∧ log.handler.relative = true
  · exact iff_of_true (hlog.recovers_of_removed hcut hsize hbs hlt hremoved) (.inl hremoved)
  · by_cases hsixteen : 16 ≤ size
    · rw [hlog.recovers_iff_of_readable hcut hsize hbs hlt hfirst hremoved hsixteen,
        or_iff_right hremoved]
      exact or_congr_right ⟨fun h => ⟨hsixteen, h.2.1, h.2.2, h.1⟩,
        fun h => ⟨h.2.2.2, h.2.1, h.2.2.1⟩⟩
    · refine iff_of_false (hlog.not_recovers_of_short hsize hfirst hremoved (by omega)) ?_
      rintro (h | h | h)
      · exact hremoved h
      · have := hlog.twentyfour_le hcut h.1
        omega
      · exact hsixteen h.1

/-- **When the binary log recovers from a crash.** Blocks with consecutive numbers are written,
split over files by the size limit and by restarts, and the last file is cut anywhere. Then the
log, reopened, finds the last complete block and returns the tables of every complete block of a
range and no others, exactly if the cut is clean. -/
theorem recovers_iff (crc32 : List Char → Nat) (relative : Bool) (binarylogSize : Nat)
    (first : Int) (hfirst : 0 ≤ first) (events : List LogEvent) (hevents : Consecutive first events)
    (hstorable : ∀ p ∈ (Log.run crc32 ⟨{ relative, binarylogSize }, []⟩ events).records, p.Storable)
    (size : Nat) (hsize : ∀ f ∈ (Log.run crc32 ⟨{ relative, binarylogSize }, []⟩
      events).handler.sortedFiles.head?, size ≤ f.2.length) :
    ((Log.run crc32 ⟨{ relative, binarylogSize }, []⟩ events).truncate size).Recovers ↔
      CleanCut (Log.run crc32 ⟨{ relative, binarylogSize }, []⟩ events) size := by
  obtain ⟨next, segs, hlog⟩ := logged_run
    (logged_fresh crc32 first relative binarylogSize) hevents fun p hp => (hstorable p hp).stop
  cases segs with
  | nil =>
    generalize Log.run crc32 ⟨{ relative, binarylogSize }, []⟩ events = log at *
    have hsame : log.truncate size = log := by
      rw [Log.truncate, truncate, hlog.sortedFiles]
      rfl
    have hnone : ∀ p, p ∉ log.records := fun p hp => (hlog.records p).mp hp
    have hfiles : log.handler.restart.sortedFiles = [] := hlog.restart.sortedFiles
    rw [hsame, recovers_iff_isLast (fun p hp => absurd hp (hnone p))
      (fun b hb => absurd hb not_mem_nil)
      (fun startNum endNum => ⟨∅, by rw [hfiles]; rfl, fetched_none fun b hb => by cases hb⟩)
      (show log.handler.restart.getLastBlockNum = .ok (-1) by rw [getLastBlockNum, hfiles])]
    refine iff_of_true (.inr ⟨rfl, rfl⟩) fun f hf => ?_
    rw [hlog.sortedFiles] at hf
    cases hf
  | cons seg rest =>
    rw [hlog.sortedFiles] at hsize
    exact hlog.recovers_iff_cleanCut hfirst hstorable (hsize _ rfl)

end

/-- Two blocks without tables, in one file of 44 bytes. -/
def twoBlocks : Log :=
  Log.run (fun _ => 0) ⟨{ relative := true, binarylogSize := 1000 }, []⟩ [.write 1 [], .write 2 []]

theorem records_twoBlocks : twoBlocks.records = [⟨2, [], 1, 44⟩, ⟨1, [], 1, 24⟩] := by
  decide +kernel

theorem storable_twoBlocks : ∀ p ∈ twoBlocks.records, p.Storable := by
  intro p hp
  rw [records_twoBlocks] at hp
  simp only [mem_cons, not_mem_nil, or_false] at hp
  rcases hp with rfl | rfl <;> exact ⟨by decide, by simp, by decide⟩

/-- The second record is cut behind its length. -/
theorem twoBlocks_recovered : (twoBlocks.truncate 30).Recovers :=
  (recovers_iff (fun _ => 0) true 1000 1 (by decide) [.write 1 [], .write 2 []]
    (by decide) storable_twoBlocks 30 (by decide +kernel)).mpr (by decide +kernel)

/-- A cut within the length of the second record hides the first block, and a cut within the
first block number makes the log unreadable. -/
theorem twoBlocks_not_recovered :
    Consecutive 1 [.write 1 [], .write 2 []] ∧ (∀ p ∈ twoBlocks.records, p.Storable) ∧
    (twoBlocks.truncate 26).handler.restart.getLastBlockNum = .ok (-1) ∧
    (twoBlocks.truncate 10).handler.restart.getLastBlockNum = .error .storageError ∧
    ¬ (twoBlocks.truncate 26).Recovers := by
  have hlast : (twoBlocks.truncate 26).handler.restart.getLastBlockNum = .ok (-1) := by rfl
  refine ⟨by decide, storable_twoBlocks, hlast, by rfl, fun h => ?_⟩
  obtain ⟨n, hn, ⟨⟨p, hp, -, hpn⟩, -⟩ | ⟨-, hnone⟩⟩ := h.last
  · obtain rfl : -1 = n := Except.ok.inj (hlast.symm.trans hn)
    have hp' : p ∈ [(⟨2, [], 1, 44⟩ : Placed), ⟨1, [], 1, 24⟩] := records_twoBlocks ▸ hp
    simp only [mem_cons, not_mem_nil, or_false] at hp'
    rcases hp' with rfl | rfl <;> cases hpn
  · have hfirst : (⟨1, [], 1, 24⟩ : Placed) ∈ twoBlocks.records :=
      records_twoBlocks ▸ mem_cons_of_mem _ mem_cons_self
    refine hnone _ hfirst ⟨((twoBlocks.truncate 26).handler.files.get? 1).getD [], ?_, ?_⟩
    · decide +kernel
    · decide +kernel

end Rcc.Storage.BinLog
