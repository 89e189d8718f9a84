import Rcc.Block.FullBlock

/-!
# Rcc.Block.Caches

The caches of a block over every sequence of operations.

A change of the transactions or the receipts empties the cache it makes stale, with these
exceptions:

* `decode` fills the cache of the transactions with the bytes it reads and leaves the root that
  goes with it as it was;
* `decode` replaces the receipts and keeps the cache of the receipts;
* `updateSequenceReceiptGas` changes the receipts and keeps the cache of the receipts;
* a receipt that has been used for a root keeps its bytes and its hash when it is changed.

`Careful` says when these do no harm, `caches_coherent` that then the encoding and the roots are
those of the contents of the block.
-/

namespace Rcc.Block

open List FullBlock BlockHeader Except TransactionReceipt

open Rcc.Rlp (rlp)

variable {Tx : Type} (env : BlockEnv Tx)

/-! ## What the operations should compute -/

variable (rs : List TransactionReceipt)

/-- The bytes and the root of receipts with these fields. -/
def fieldsBytes : List (List UInt8) := rs.map (·.fields.encode)

def fieldsHashes : List (List UInt8) :=
  rs.map fun r => env.crypto.Hash r.fields.encode

namespace FullBlock

/-- The encoding of the header, the transactions, the receipts and the signatures there are. -/
def encoding (b : FullBlock Tx) : Except BlockFault (List UInt8) := do
  verify b.header.fields
  let rs ← b.allReceipts
  let header := b.header.fields.encode env.crypto
  return frame header (txsBytes env b.transactions) (env.crypto.Hash header) b.sigList
    (receiptsBytes (fieldsBytes rs))

end FullBlock

/-! ## What it takes -/

/-- Neither the bytes nor the hash have been asked for. -/
def TransactionReceipt.Unused (r : TransactionReceipt) : Prop := r.receipt = [] ∧ r.hash = []

/-- Neither the bytes nor the hash is stale. -/
def TransactionReceipt.Fresh (c : Crypto) (r : TransactionReceipt) : Prop :=
  Memo.Fresh (· = []) r.receipt r.fields.encode ∧
    Memo.Fresh (· = []) r.hash (c.Hash r.fields.encode)

/-- Receipts are changed before they are used; headers and receipts that are put into the block
are not stale; what is decoded has been encoded, and is decoded before the header is asked for
its hash and the receipts for their root. -/
def Careful (b : FullBlock Tx) : BlockEvent Tx → Prop
  | .decode bytes withReceipt =>
    b.header.hash = noHash ∧ (withReceipt = true → b.tReceiptsCache = []) ∧
      ∀ t, txsItem bytes = .ok t → ∃ txs : List Tx, t = encode env.codec txs ∧
        ((txs.map env.codec.rlp).map List.length).sum < 4294967296
  | .setTransactionReceipts transReceipt => ∀ r, some r ∈ transReceipt → r.Fresh env.crypto
  | .appendTransactionReceipt tran => tran.Fresh env.crypto
  | .setTransactionReceipt _ tran => tran.Fresh env.crypto
  | .updateSequenceReceiptGas => b.tReceiptsCache = [] ∧ ∀ r, some r ∈ b.receipts → r.Unused
  | .setStateRootToAllReceipt _ => ∀ r, some r ∈ b.receipts → r.Unused
  | .setBlockHeader blockHeader => blockHeader.Fresh env.crypto
  | _ => True

/-- What is decoded has no transactions, or those of the root the block remembers. -/
def RootKnown (b : FullBlock Tx) : BlockEvent Tx → Prop
  | .decode bytes _ => ∀ t, txsItem bytes = .ok t → ∀ txs : List Tx,
      t = encode env.codec txs → t = [] ∨ b.transRootCache = txsRoot env txs
  | _ => True

/-! ## Receipts -/

namespace TransactionReceipt

variable {c : Crypto} {r : TransactionReceipt}

theorem askReceipt_eq (h : r.Fresh c) : r.askReceipt = r.fields.encode := Memo.ask_eq _ h.1

theorem askHash_eq (h : r.Fresh c) : r.askHash c = c.Hash r.fields.encode := by
  rw [askHash, askReceipt_eq h]
  exact Memo.ask_eq _ h.2

theorem fresh_remember (h : r.Fresh c) : (r.remember c).Fresh c :=
  ⟨.inr (askReceipt_eq h), .inr (askHash_eq h)⟩

theorem Unused.fresh (h : r.Unused) : r.Fresh c := ⟨.inl h.1, .inl h.2⟩

end TransactionReceipt

theorem receiptsRoot_rc2 (hv : env.version = .rc2) (bytes hashes hashes' : List (List UInt8)) :
    receiptsRoot env bytes hashes = receiptsRoot env bytes hashes' := by
  simp [receiptsRoot, hv]

namespace FullBlock

variable {env}

/-- Receipts that are not stale are used for their fields, and are not stale afterwards. -/
theorem useReceipts_spec {rs : List TransactionReceipt} (hrs : ∀ r ∈ rs, r.Fresh env.crypto) :
    (useReceipts env rs).1 = fieldsBytes rs ∧
    receiptsRoot env (useReceipts env rs).1 (useReceipts env rs).2.1
      = receiptsRoot env (fieldsBytes rs) (fieldsHashes env rs) ∧
    (∀ r ∈ (useReceipts env rs).2.2, r.Fresh env.crypto) ∧
    fieldsBytes (useReceipts env rs).2.2 = fieldsBytes rs ∧
    fieldsHashes env (useReceipts env rs).2.2 = fieldsHashes env rs := by
  cases hv : env.version with
  | rc2 =>
    simp only [useReceipts, hv]
    exact ⟨rfl, receiptsRoot_rc2 env hv _ _ _, hrs, trivial, trivial⟩
  | v220 =>
    have hbytes : rs.map (·.askReceipt) = fieldsBytes rs :=
      map_congr_left fun r hr => askReceipt_eq (hrs r hr)
    have hhashes : rs.map (·.askHash env.crypto) = fieldsHashes env rs :=
      map_congr_left fun r hr => askHash_eq (hrs r hr)
    simp only [useReceipts, hv, hbytes, hhashes, true_and]
    refine ⟨?_, ?_, ?_⟩
    · simpa using fun r hr => TransactionReceipt.fresh_remember (hrs r hr)
    · simp [fieldsBytes, TransactionReceipt.remember]
    · simp [fieldsHashes, TransactionReceipt.remember]

end FullBlock

/-! ## The invariant -/

variable {b : FullBlock Tx}

/-- What is remembered of receipts with these fields. -/
def receiptMemo : List UInt8 × List UInt8 :=
  (receiptsBytes (fieldsBytes rs), receiptsRoot env (fieldsBytes rs) (fieldsHashes env rs))

/-- No cache is stale but, maybe, the root of the transactions. -/
structure Coherent (b : FullBlock Tx) : Prop where
  header : b.header.Fresh env.crypto
  txs : Memo.Fresh (· = []) b.txsCache (txsBytes env b.transactions)
  receipts : ∀ r, some r ∈ b.receipts → r.Fresh env.crypto
  tReceipts : b.tReceiptsCache = [] ∨ ∃ rs, b.receipts = rs.map some ∧
    (b.tReceiptsCache, b.receiptRootCache) = receiptMemo env rs

/-- The root the block remembers after `calTransactionRoot`. -/
def rootAfter (b : FullBlock Tx) : List UInt8 :=
  if b.txsCache = [] then txsRoot env b.transactions else b.transRootCache

/-- The root of the transactions is not stale. -/
def RootFresh (b : FullBlock Tx) : Prop :=
  b.txsCache = [] ∨ b.transRootCache = txsRoot env b.transactions

theorem RootFresh.rootAfter_eq (h : RootFresh env b) :
    rootAfter env b = txsRoot env b.transactions := by
  rw [rootAfter]
  split
  · rfl
  · exact h.resolve_left ‹_›

theorem mapM_id_eq_some {α : Type} {l : List (Option α)} {xs : List α} :
    l.mapM id = some xs ↔ l = xs.map some := by
  induction l generalizing xs with
  | nil => cases xs <;> simp
  | cons a l ih =>
    cases xs with
    | nil => simp [Option.bind_eq_some_iff]
    | cons x xs => simp [Option.bind_eq_some_iff, ih]

variable {env}

namespace Coherent

section

variable (h : Coherent env b)
include h

theorem fresh_of_map {rs : List TransactionReceipt} (hrs : b.receipts = rs.map some) :
    ∀ r ∈ rs, r.Fresh env.crypto := fun r hr => h.receipts r (by simpa [hrs] using hr)

/-- The header with its root, if it is to be updated. -/
theorem fresh_update (update : Bool) (setter : Setter) :
    (if update = true then setter.apply b.header else b.header).Fresh env.crypto := by
  split
  · exact fresh_set h.header setter
  · exact h.header

theorem calTransactionRoot_eq (update : Bool) :
    b.calTransactionRoot env update = { b with
      txsCache := txsBytes env b.transactions
      transRootCache := rootAfter env b
      header := if update then
        Setter.apply b.header (.setTransactionsRoot (rootAfter env b)) else b.header } := by
  by_cases hnil : b.txsCache = []
  · simp only [calTransactionRoot, rootAfter, hnil]
    cases update <;> rfl
  · have hcache : b.txsCache = txsBytes env b.transactions := h.txs.resolve_left hnil
    simp only [calTransactionRoot, rootAfter, hnil]
    rw [← hcache]
    cases update <;> rfl

theorem calTransactionRoot (update : Bool) : Coherent env (b.calTransactionRoot env update) := by
  rw [h.calTransactionRoot_eq]
  exact ⟨h.fresh_update update _, .inr rfl, h.receipts, h.tReceipts⟩

/-- The receipts are used, if there are bytes to be computed, and the two caches are filled. -/
theorem calReceiptRoot_eq {rs : List TransactionReceipt} (hrs : b.receipts = rs.map some)
    (update : Bool) :
    ∃ rs', (∀ r ∈ rs', r.Fresh env.crypto) ∧ receiptMemo env rs' = receiptMemo env rs ∧
      b.calReceiptRoot env update = .ok { b with
        receipts := rs'.map some
        tReceiptsCache := (receiptMemo env rs).1
        receiptRootCache := (receiptMemo env rs).2
        header := if update then
          Setter.apply b.header (.setReceiptsRoot (receiptMemo env rs).2) else b.header } := by
  have hfresh := h.fresh_of_map hrs
  by_cases hnil : b.tReceiptsCache = []
  · obtain ⟨hbytes, hroot, hfresh', hsame, hsame'⟩ := useReceipts_spec hfresh
    refine ⟨(useReceipts env rs).2.2, hfresh', ?_, ?_⟩
    · rw [receiptMemo, hsame, hsame', receiptMemo]
    simp only [calReceiptRoot, hnil, allReceipts, mapM_id_eq_some.mpr hrs, ok_bind, hroot]
    rw [hbytes]
    cases update <;> rfl
  · obtain ⟨rs', hrs', hmemo⟩ := h.tReceipts.resolve_left hnil
    obtain rfl : rs' = rs := map_injective_iff.mpr (Option.some_injective _)
      (hrs'.symm.trans hrs)
    refine ⟨rs', hfresh, rfl, ?_⟩
    simp only [calReceiptRoot, hnil]
    rw [← hmemo, ← hrs]
    cases update <;> rfl

theorem calReceiptRoot_null (hnull : b.receipts.mapM id = none) (update : Bool) :
    b.calReceiptRoot env update = .error .nullReceipt := by
  have hnil : b.tReceiptsCache = [] := by
    rcases h.tReceipts with hnil | ⟨rs, hrs, -⟩
    · exact hnil
    · rw [mapM_id_eq_some.mpr hrs] at hnull
      cases hnull
  simp only [calReceiptRoot, hnil, allReceipts, hnull]
  rfl

/-- The transactions, their bytes and their root are left alone. -/
theorem calReceiptRoot {b' : FullBlock Tx} {update : Bool}
    (hstep : b.calReceiptRoot env update = .ok b') :
    Coherent env b' ∧ b'.transactions = b.transactions ∧ b'.txsCache = b.txsCache ∧
      b'.transRootCache = b.transRootCache := by
  cases hrs : b.receipts.mapM id with
  | none =>
    rw [h.calReceiptRoot_null hrs] at hstep
    cases hstep
  | some rs =>
    obtain ⟨rs', hfresh, hmemo, heq⟩ := h.calReceiptRoot_eq (mapM_id_eq_some.mp hrs) update
    obtain rfl := ok.inj (heq.symm.trans hstep)
    refine ⟨⟨h.fresh_update update _, h.txs, by simpa using hfresh, ?_⟩, rfl, rfl, rfl⟩
    exact .inr ⟨rs', rfl, by rw [hmemo]⟩

theorem encode_eq : (b.encode env).map Prod.fst = b.encoding env := by
  simp only [FullBlock.encode, FullBlock.encoding, FullBlock.allReceipts]
  cases FullBlock.verify b.header.fields with
  | error e => rfl
  | ok _ =>
    rw [ok_bind, h.calTransactionRoot_eq]
    have h' := h.calTransactionRoot false
    rw [h.calTransactionRoot_eq] at h'
    cases hrs : b.receipts.mapM id with
    | none =>
      rw [h'.calReceiptRoot_null hrs]
      rfl
    | some rs =>
      obtain ⟨rs', -, -, heq⟩ := h'.calReceiptRoot_eq (mapM_id_eq_some.mp hrs) false
      rw [heq]
      show ok (frame _ _ (b.header.askHash env.crypto) _ _) = _
      rw [askHash_eq h.header]
      rfl

theorem encode {out : List UInt8 × FullBlock Tx} (hstep : b.encode env = .ok out) :
    Coherent env out.2 := by
  obtain ⟨_, -, hstep⟩ := bind_eq_ok.mp hstep
  obtain ⟨b', hb', hstep⟩ := bind_eq_ok.mp hstep
  obtain rfl := pure_eq_ok.mp hstep
  have h' := ((h.calTransactionRoot false).calReceiptRoot hb').1
  exact ⟨fresh_remember h'.header, h'.txs, h'.receipts, h'.tReceipts⟩

/-- The root in the header is that of the receipts there are. -/
theorem receiptsRoot_eq :
    (b.calReceiptRoot env true).map (·.header.fields.receiptsRoot)
      = b.allReceipts.map fun rs => receiptsRoot env (fieldsBytes rs) (fieldsHashes env rs) := by
  rw [allReceipts]
  cases hrs : b.receipts.mapM id with
  | none =>
    rw [h.calReceiptRoot_null hrs]
    rfl
  | some rs =>
    obtain ⟨rs', -, -, heq⟩ := h.calReceiptRoot_eq (mapM_id_eq_some.mp hrs) true
    rw [heq]
    rfl

theorem transactionsRoot_eq (hroot : RootFresh env b) :
    (b.calTransactionRoot env true).header.fields.transactionsRoot
      = txsRoot env b.transactions := by
  rw [h.calTransactionRoot_eq]
  exact hroot.rootAfter_eq

end

end Coherent

/-! ## Decoding -/

variable {b' : FullBlock Tx}

/-- What has been decoded: a header with a memo of its own, the transactions of the bytes and new
receipts or the old ones. -/
structure Decoded (env : BlockEnv Tx) (b : FullBlock Tx) (bytes : List UInt8) (withReceipt : Bool)
    (b' : FullBlock Tx) : Prop where
  header : ∃ h : BlockHeader, h.hash = b.header.hash ∧ b'.header = h.remember env.crypto
  txsItem : txsItem bytes = .ok b'.txsCache
  transactions : Block.decode env.codec b.transactions b'.txsCache = .ok b'.transactions
  receipts : withReceipt = true ∧
      (∃ rs : List ReceiptFields, b'.receipts = rs.map fun fields => some { fields }) ∨
    withReceipt = false ∧ b'.receipts = b.receipts
  others : b'.tReceiptsCache = b.tReceiptsCache ∧ b'.transRootCache = b.transRootCache ∧
    b'.receiptRootCache = b.receiptRootCache

theorem decoded_of_decode {bytes : List UInt8} {withReceipt : Bool}
    (hstep : b.decode env bytes withReceipt = .ok b') : Decoded env b bytes withReceipt b' := by
  obtain ⟨root, -, hstep⟩ := bind_eq_ok.mp hstep
  obtain ⟨header, hheader, hstep⟩ := bind_eq_ok.mp hstep
  obtain ⟨txsCache, htxs, hstep⟩ := bind_eq_ok.mp hstep
  obtain ⟨transactions, hdecode, hstep⟩ := bind_eq_ok.mp hstep
  obtain ⟨items, -, hstep⟩ := bind_eq_ok.mp hstep
  obtain ⟨hash, -, hstep⟩ := bind_eq_ok.mp hstep
  obtain ⟨_, -, hstep⟩ := bind_eq_ok.mp hstep
  obtain ⟨sigList, -, hstep⟩ := bind_eq_ok.mp hstep
  obtain ⟨receipts, hreceipts, hstep⟩ := bind_eq_ok.mp hstep
  obtain rfl := pure_eq_ok.mp hstep
  refine ⟨⟨header, ?_, rfl⟩, mapError_eq_ok.mp htxs, mapError_eq_ok.mp hdecode, ?_, rfl, rfl, rfl⟩
  · rw [decodeHeader] at hheader
    split at hheader
    · obtain rfl := pure_eq_ok.mp hheader
      rfl
    · exact absurd hheader throw_ne_ok
  · cases withReceipt with
    | false => exact .inr ⟨rfl, (pure_eq_ok.mp hreceipts).symm⟩
    | true =>
      obtain ⟨items, -, hreceipts⟩ := bind_eq_ok.mp hreceipts
      obtain ⟨rs, -, hreceipts⟩ := bind_eq_ok.mp hreceipts
      exact .inl ⟨rfl, rs, (pure_eq_ok.mp hreceipts).symm⟩

namespace Decoded

variable {bytes : List UInt8} {withReceipt : Bool}

section

variable (h : Decoded env b bytes withReceipt b')
include h

theorem transactions_eq {txs : List Tx} (htxs : b'.txsCache = Block.encode env.codec txs)
    (hfits : ((txs.map env.codec.rlp).map List.length).sum < 4294967296) (hne : b'.txsCache ≠ []) :
    b'.transactions = txs := by
  have hdecode := h.transactions
  rw [decode_of_ne_nil _ _ hne, htxs, decode_encode_of_lt env.codec txs hfits] at hdecode
  exact (ok.inj hdecode).symm

theorem coherent (hb : Coherent env b) (hcareful : Careful env b (.decode bytes withReceipt)) :
    Coherent env b' := by
  obtain ⟨hdirty, hempty, htxs⟩ := hcareful
  obtain ⟨txs, hcache, hfits⟩ := htxs _ h.txsItem
  refine ⟨?_, ?_, ?_, ?_⟩
  · obtain ⟨header, hhash, heq⟩ := h.header
    rw [heq]
    exact fresh_remember (fresh_of_dirty (hhash.trans hdirty))
  · by_cases hne : b'.txsCache = []
    · exact .inl hne
    · exact .inr (by rw [h.transactions_eq hcache hfits hne]; exact hcache)
  · rcases h.receipts with ⟨-, rs, hrs⟩ | ⟨-, hrs⟩
    · rw [hrs]
      intro r hr
      obtain ⟨fields, -, heq⟩ := mem_map.mp hr
      cases heq
      exact Unused.fresh ⟨rfl, rfl⟩
    · rw [hrs]
      exact hb.receipts
  · rw [h.others.1, h.others.2.2]
    rcases h.receipts with ⟨hwith, -⟩ | ⟨-, hrs⟩
    · exact .inl (hempty hwith)
    · rw [hrs]
      exact hb.tReceipts

theorem rootFresh (hcareful : Careful env b (.decode bytes withReceipt))
    (hknown : RootKnown env b (.decode bytes withReceipt)) : RootFresh env b' := by
  obtain ⟨txs, hcache, hfits⟩ := hcareful.2.2 _ h.txsItem
  by_cases hne : b'.txsCache = []
  · exact .inl hne
  · right
    rw [h.transactions_eq hcache hfits hne, h.others.2.1]
    exact (hknown _ h.txsItem txs hcache).resolve_left hne

end

end Decoded

/-! ## Runs -/

theorem of_toOption {ε α : Type} {x : Except ε α} {a : α} (h : x.toOption = some a) :
    x = .ok a := by
  cases x with
  | error _ => cases h
  | ok _ => exact congrArg _ (Option.some.inj h)

namespace Coherent

variable {rs : List TransactionReceipt}

theorem receiptMemo_remember (rs : List TransactionReceipt) :
    receiptMemo env (rs.map (·.remember env.crypto)) = receiptMemo env rs := by
  simp only [receiptMemo, fieldsBytes, fieldsHashes, map_map]
  rfl

theorem mem_sequenceGas {total : Nat} {r : TransactionReceipt}
    (hr : r ∈ sequenceGas total rs) : ∃ r' ∈ rs, ∃ gas, r = r'.setGasUsed gas := by
  induction rs generalizing total with
  | nil => cases hr
  | cons r' rs ih =>
    rcases mem_cons.mp hr with rfl | hr
    · exact ⟨r', by simp, _, rfl⟩
    · obtain ⟨r'', hr'', hgas⟩ := ih hr
      exact ⟨r'', by simp [hr''], hgas⟩

section

variable (h : Coherent env b)
include h

theorem changeTransactions (txs : List Tx) :
    Coherent env { b with transactions := txs, txsCache := [] } :=
  ⟨h.header, .inl rfl, h.receipts, h.tReceipts⟩

theorem changeReceipts {rs : List (Option TransactionReceipt)}
    (hrs : ∀ r, some r ∈ rs → r.Fresh env.crypto) :
    Coherent env { b with receipts := rs, tReceiptsCache := [] } := ⟨h.header, h.txs, hrs, .inl rfl⟩

theorem changeHeader {header : BlockHeader}
    (hheader : header.Fresh env.crypto) : Coherent env { b with header } :=
  ⟨hheader, h.txs, h.receipts, h.tReceipts⟩

theorem fresh_setters (setters : List Setter) :
    (setters.foldl Setter.apply b.header).Fresh env.crypto := by
  have hall : ∀ header : BlockHeader, header.Fresh env.crypto →
      (setters.foldl Setter.apply header).Fresh env.crypto := by
    induction setters with
    | nil => exact fun _ hfresh => hfresh
    | cons setter setters ih => exact fun _ hfresh => ih _ (fresh_set hfresh setter)
  exact hall _ h.header

theorem getReceiptProof (hrs : b.receipts = rs.map some) :
    Coherent env { b with receipts := rs.map fun r => some (r.remember env.crypto) } := by
  refine ⟨h.header, h.txs, ?_, ?_⟩
  · intro r hr
    obtain ⟨r', hr', heq⟩ := mem_map.mp hr
    cases heq
    exact fresh_remember (h.fresh_of_map hrs r' hr')
  · refine h.tReceipts.imp_right fun ⟨rs', hrs', hmemo⟩ => ?_
    obtain rfl : rs' = rs := map_injective_iff.mpr (Option.some_injective _)
      (hrs'.symm.trans hrs)
    exact ⟨rs'.map (·.remember env.crypto), by simp, hmemo.trans (receiptMemo_remember rs').symm⟩

theorem updateSequenceReceiptGas (hrs : b.receipts = rs.map some)
    (hnil : b.tReceiptsCache = []) (hunused : ∀ r, some r ∈ b.receipts → r.Unused) :
    Coherent env { b with receipts := (sequenceGas 0 rs).map some } := by
  refine ⟨h.header, h.txs, fun r hr => ?_, .inl hnil⟩
  obtain ⟨r', hr', heq⟩ := mem_map.mp hr
  cases heq
  obtain ⟨r'', hr'', gas, rfl⟩ := mem_sequenceGas hr'
  exact Unused.fresh (hunused r'' (by simpa [hrs] using hr''))

theorem setStateRootToAllReceipt (hrs : b.receipts = rs.map some)
    (hunused : ∀ r, some r ∈ b.receipts → r.Unused) (stateRoot : List UInt8) :
    Coherent env { b with
      receipts := rs.map fun r => some (r.setStateRoot stateRoot), tReceiptsCache := [] } := by
  refine h.changeReceipts fun r hr => ?_
  obtain ⟨r', hr', heq⟩ := mem_map.mp hr
  cases heq
  exact Unused.fresh (hunused r' (by simpa [hrs] using hr'))

theorem resetCurrentBlock (parent : BlockHeader) :
    Coherent env (b.resetCurrentBlock env parent) := by
  refine ⟨fresh_set ?_ _, .inl rfl, nofun, .inl rfl⟩
  split
  · exact fresh_assign _
  · exact h.header

/-- **A careful step keeps the caches coherent.** -/
theorem step {e : BlockEvent Tx} (hcareful : Careful env b e)
    (hstep : blockStep env b e = some b') : Coherent env b' := by
  cases e with
  | decode bytes withReceipt => exact (decoded_of_decode (of_toOption hstep)).coherent h hcareful
  | encode =>
    obtain ⟨out, hout, rfl⟩ := Option.map_eq_some_iff.mp hstep
    exact h.encode (of_toOption hout)
  | calTransactionRoot update =>
    cases hstep
    exact h.calTransactionRoot update
  | calReceiptRoot update => exact (h.calReceiptRoot (of_toOption hstep)).1
  | getReceiptProof =>
    obtain ⟨rs, hrs, rfl⟩ := Option.map_eq_some_iff.mp hstep
    exact h.getReceiptProof (mapM_id_eq_some.mp hrs)
  | setTransactions txs =>
    cases hstep
    exact h.changeTransactions txs
  | appendTransaction tx | appendTransactions txs | noteChange =>
    cases hstep
    exact h.changeTransactions _
  | setTransactionReceipts rs =>
    cases hstep
    exact h.changeReceipts hcareful
  | appendTransactionReceipt r =>
    cases hstep
    refine h.changeReceipts fun r' hr' => ?_
    rcases mem_append.mp hr' with hr' | hr'
    · exact h.receipts r' hr'
    · obtain rfl := Option.some.inj (mem_singleton.mp hr')
      exact hcareful
  | resizeTransactionReceipt n =>
    cases hstep
    refine h.changeReceipts fun r hr => ?_
    rcases mem_append.mp hr with hr | hr
    · exact h.receipts r (mem_of_mem_take hr)
    · cases eq_of_mem_replicate hr
  | setTransactionReceipt i r =>
    rw [blockStep] at hstep
    split at hstep
    · cases hstep
      refine h.changeReceipts fun r' hr' => ?_
      rcases mem_or_eq_of_mem_set hr' with hr' | hr'
      · exact h.receipts r' hr'
      · cases hr'
        exact hcareful
    · cases hstep
  | updateSequenceReceiptGas =>
    obtain ⟨rs, hrs, rfl⟩ := Option.map_eq_some_iff.mp hstep
    exact h.updateSequenceReceiptGas (mapM_id_eq_some.mp hrs) hcareful.1 hcareful.2
  | setStateRootToAllReceipt stateRoot =>
    obtain ⟨rs, hrs, rfl⟩ := Option.map_eq_some_iff.mp hstep
    exact h.setStateRootToAllReceipt (mapM_id_eq_some.mp hrs) hcareful stateRoot
  | clearAllReceipts =>
    cases hstep
    exact h.changeReceipts nofun
  | setBlockHeader header =>
    cases hstep
    exact h.changeHeader (fresh_remember hcareful)
  | setSigList sigList =>
    cases hstep
    exact ⟨h.header, h.txs, h.receipts, h.tReceipts⟩
  | resetCurrentBlock parent =>
    cases hstep
    exact h.resetCurrentBlock parent
  | setEmptyBlock timeStamp =>
    cases hstep
    exact ⟨h.fresh_setters _, .inl rfl, h.receipts, .inl rfl⟩
  | setHeader setter =>
    cases hstep
    exact h.changeHeader (fresh_set h.header setter)
  | headerHash | copy =>
    cases hstep
    exact h.changeHeader (fresh_remember h.header)

end

theorem of_run {es : List (BlockEvent Tx)}
    (hrun : Run (Guarded (Careful env) (Steps (blockStep env))) {} es b) : Coherent env b := by
  refine hrun.invariant (fun _ b => Coherent env b) ?_ ?_
  · exact ⟨fresh_of_dirty rfl, .inl rfl, nofun, .inl rfl⟩
  · rintro _ b e b' h ⟨hcareful, hstep⟩
    exact h.step hcareful hstep

end Coherent

/-- What a step does to the transactions, their bytes and their root. -/
inductive TxsStepped (env : BlockEnv Tx) (b b' : FullBlock Tx) : BlockEvent Tx → Prop
  | changed {e : BlockEvent Tx} : b'.txsCache = [] → TxsStepped env b b' e
  | kept {e : BlockEvent Tx} : b'.transactions = b.transactions → b'.txsCache = b.txsCache →
      b'.transRootCache = b.transRootCache → TxsStepped env b b' e
  | computed {e : BlockEvent Tx} : b'.transactions = b.transactions →
      b'.transRootCache = rootAfter env b → TxsStepped env b b' e
  | decoded {bytes : List UInt8} {withReceipt : Bool} :
      Decoded env b bytes withReceipt b' → TxsStepped env b b' (.decode bytes withReceipt)

theorem txsStepped_of_step {e : BlockEvent Tx} (h : Coherent env b)
    (hstep : blockStep env b e = some b') : TxsStepped env b b' e := by
  cases e with
  | decode bytes withReceipt => exact .decoded (decoded_of_decode (of_toOption hstep))
  | encode =>
    obtain ⟨out, hout, rfl⟩ := Option.map_eq_some_iff.mp hstep
    obtain ⟨_, -, hout⟩ := bind_eq_ok.mp (of_toOption hout)
    obtain ⟨b', hb', hout⟩ := bind_eq_ok.mp hout
    obtain rfl := pure_eq_ok.mp hout
    obtain ⟨-, htxs, -, hroot⟩ := (h.calTransactionRoot false).calReceiptRoot hb'
    rw [h.calTransactionRoot_eq] at htxs hroot
    exact .computed htxs hroot
  | calTransactionRoot update =>
    cases hstep
    rw [h.calTransactionRoot_eq]
    exact .computed rfl rfl
  | calReceiptRoot update =>
    obtain ⟨-, htxs, hcache, hroot⟩ := h.calReceiptRoot (of_toOption hstep)
    exact .kept htxs hcache hroot
  | setTransactionReceipt i r =>
    rw [blockStep] at hstep
    split at hstep
    · cases hstep
      exact .kept rfl rfl rfl
    · cases hstep
  | getReceiptProof | updateSequenceReceiptGas | setStateRootToAllReceipt =>
    obtain ⟨rs, -, rfl⟩ := Option.map_eq_some_iff.mp hstep
    exact .kept rfl rfl rfl
  | setTransactions | appendTransaction | appendTransactions | resetCurrentBlock | setEmptyBlock
  | noteChange =>
    cases hstep
    exact .changed rfl
  | _ =>
    cases hstep
    exact .kept rfl rfl rfl

theorem RootFresh.step {e : BlockEvent Tx} (h : Coherent env b) (hroot : RootFresh env b)
    (hcareful : Careful env b e) (hknown : RootKnown env b e)
    (hstep : blockStep env b e = some b') : RootFresh env b' := by
  cases txsStepped_of_step h hstep with
  | changed hcache => exact .inl hcache
  | kept htxs hcache hsame => rwa [RootFresh, htxs, hcache, hsame]
  | computed htxs hsame => exact .inr (by rw [htxs, hsame, hroot.rootAfter_eq])
  | decoded hdecoded => exact hdecoded.rootFresh hcareful hknown

theorem RootFresh.of_run {es : List (BlockEvent Tx)}
    (hrun : Run (Guarded (fun b e => Careful env b e ∧ RootKnown env b e)
      (Steps (blockStep env))) {} es b) : Coherent env b ∧ RootFresh env b := by
  refine hrun.invariant (fun _ b => Coherent env b ∧ RootFresh env b) ?_ ?_
  · exact ⟨Coherent.of_run .nil, .inl rfl⟩
  · rintro _ b e b' ⟨h, hroot⟩ ⟨⟨hcareful, hknown⟩, hstep⟩
    exact ⟨h.step hcareful hstep, hroot.step h hcareful hknown hstep⟩

/-- **The caches are coherent.** In a run that is careful throughout, the block is encoded as what
it holds, and `calReceiptRoot` puts the root of its receipts into the header; and if the
transactions it decodes have the root it remembers, `calTransactionRoot` puts the root of its
transactions there. -/
theorem caches_coherent (env : BlockEnv Tx) {es : List (BlockEvent Tx)} {b : FullBlock Tx}
    (hrun : Run (Guarded (Careful env) (Steps (blockStep env))) {} es b) :
    (b.encode env).map Prod.fst = b.encoding env ∧
    ((b.calReceiptRoot env true).map (·.header.fields.receiptsRoot)
      = b.allReceipts.map fun rs => receiptsRoot env (fieldsBytes rs) (fieldsHashes env rs)) ∧
    (Run (Guarded (fun b e => Careful env b e ∧ RootKnown env b e) (Steps (blockStep env))) {} es
        b → (b.calTransactionRoot env true).header.fields.transactionsRoot
        = txsRoot env b.transactions) := by
  have h := Coherent.of_run hrun
  exact ⟨h.encode_eq, h.receiptsRoot_eq,
    fun hknown => h.transactionsRoot_eq (RootFresh.of_run hknown).2⟩

/-- A sum of bytes for a hash. -/
def sumCrypto : Crypto where
  Hash b := List.replicate 31 0 ++ [b.foldl (· + ·) 1]
  emptyTrie := noHash
  negativeByte _ := 0

def pairsEnv : BlockEnv (UInt8 × UInt8) := ⟨sumCrypto, pairCodec, .v220⟩

def oneReceipt : TransactionReceipt := { fields := { gasUsed := 2 } }

/-- A transaction with its receipt, whose gas and state root are set before the roots are
computed. -/
def executedEvents : List (BlockEvent (UInt8 × UInt8)) :=
  [.appendTransaction (1, 2), .appendTransactionReceipt oneReceipt, .updateSequenceReceiptGas,
    .setStateRootToAllReceipt (List.replicate 32 1), .calTransactionRoot true, .calReceiptRoot true]

theorem executed_block_coherent : ∃ b : FullBlock (UInt8 × UInt8),
    Run (Guarded (fun b e => Careful pairsEnv b e ∧ RootKnown pairsEnv b e)
      (Steps (blockStep pairsEnv))) {} executedEvents b ∧
    b.transactions = [(1, 2)] ∧ b.txsCache ≠ [] ∧ b.tReceiptsCache ≠ [] ∧
    (b.encode pairsEnv).map Prod.fst = b.encoding pairsEnv ∧
    (b.calTransactionRoot pairsEnv true).header.fields.transactionsRoot
      = txsRoot pairsEnv b.transactions := by
  have hexec : (exec (blockStep pairsEnv) {} executedEvents).map (fun b =>
      decide (b.transactions = [(1, 2)] ∧ b.txsCache ≠ [] ∧ b.tReceiptsCache ≠ []))
      = some true := by
    decide +kernel
  obtain ⟨b, hb, hobs⟩ := Option.map_eq_some_iff.mp hexec
  obtain ⟨htxs, hcache, hreceipts⟩ := of_decide_eq_true hobs
  have hrun : Run (Guarded (fun b e => Careful pairsEnv b e ∧ RootKnown pairsEnv b e)
      (Steps (blockStep pairsEnv))) {} executedEvents b := by
    refine Run.nil.append_exec hb ⟨⟨trivial, trivial⟩, fun b₁ h₁ => ?_⟩
    cases h₁
    refine ⟨⟨Unused.fresh ⟨rfl, rfl⟩, trivial⟩, fun b₂ h₂ => ?_⟩
    cases h₂
    have hunused {r₀ : TransactionReceipt} (h₀ : r₀.Unused) :
        ∀ r, some r ∈ [some r₀] → r.Unused := by
      intro r hr
      obtain rfl := Option.some.inj (mem_singleton.mp hr)
      exact h₀
    refine ⟨⟨⟨rfl, hunused ⟨rfl, rfl⟩⟩, trivial⟩, fun b₃ h₃ => ?_⟩
    cases h₃
    exact ⟨⟨hunused ⟨rfl, rfl⟩, trivial⟩, fun _ _ => ⟨⟨trivial, trivial⟩, fun _ _ =>
      ⟨⟨trivial, trivial⟩, fun _ _ => trivial⟩⟩⟩
  have h := caches_coherent pairsEnv (hrun.imp fun _ _ _ hg => ⟨hg.1.1, hg.2⟩)
  exact ⟨b, hrun, htxs, hcache, hreceipts, h.1, h.2.2 hrun⟩

/-- A block that has been encoded. -/
def sealedBytes : List UInt8 :=
  match ({ header := { fields := childOf 1 }, transactions := [(1, 2)] } :
      FullBlock (UInt8 × UInt8)).encode pairsEnv with
  | .ok (bytes, _) => bytes
  | .error _ => []

/-- The root of a decoded block is no root at all, and receipts that are changed after their root
has been computed are encoded as they were. -/
theorem caches_stale :
    (∃ b, Run (Steps (blockStep pairsEnv)) {} [.decode sealedBytes true] b ∧
      b.transactions = [(1, 2)] ∧
      (b.calTransactionRoot pairsEnv true).header.fields.transactionsRoot = noHash ∧
      txsRoot pairsEnv b.transactions ≠ noHash) ∧
    (∃ b, Run (Steps (blockStep pairsEnv)) {} [.appendTransactionReceipt oneReceipt,
        .appendTransactionReceipt oneReceipt, .calReceiptRoot true, .updateSequenceReceiptGas] b ∧
      (b.encode pairsEnv).map Prod.fst ≠ b.encoding pairsEnv) ∧
    (∃ b, Run (Steps (blockStep pairsEnv)) {} [.appendTransactionReceipt oneReceipt,
        .calReceiptRoot true, .setStateRootToAllReceipt (List.replicate 32 1)] b ∧
      (b.encode pairsEnv).map Prod.fst ≠ b.encoding pairsEnv) := by
  refine ⟨exists_run_of_exec ?_ fun _ _ h => h, exists_run_of_exec ?_ fun _ _ h => h,
    exists_run_of_exec ?_ fun _ _ h => h⟩ <;>
  decide +kernel

end Rcc.Block
