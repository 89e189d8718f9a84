import Rcc.Block.PartiallyBlock
import Rcc.Lib.BigEndian
import Mathlib.Logic.Encodable.Basic

/-!
# Rcc.Block.Proposal

A proposal that carries hashes reaches the follower without loss: whatever the follower's pool
holds, the leader's transactions are put together again in the leader's order.

`Waiting` relates the two sides. The holes of the follower's vector are a part of the leader's
list, in its order, and the list of missed transactions is aligned with them; everything else is
already in place.
-/

namespace Rcc.Block

open List PartiallyBlock

variable {Tx Header Hash : Type} [DecidableEq Hash] {env : Env Tx Header Hash} {txs : List Tx}
  {holes : List (Tx × Nat)} {block : PartiallyBlock Tx Header Hash} {tx : Tx}

/-- The follower's vector, with holes, of the leader's transactions. -/
structure Waiting (env : Env Tx Header Hash) (txs : List Tx) (holes : List (Tx × Nat))
    (block : PartiallyBlock Tx Header Hash) : Prop where
  sublist : holes.Sublist txs.zipIdx
  missedTxs : block.missedTxs = holes.map (Prod.map env.txHash id)
  length : block.transactions.length = txs.length
  held : ∀ i tx, txs[i]? = some tx →
    (tx, i) ∈ holes ∨ block.transactions[i]? = some (some tx)

omit [DecidableEq Hash] in
theorem Waiting.getElem?_of_mem (h : Waiting env txs holes block) {i : Nat}
    (hmem : (tx, i) ∈ holes) : txs[i]? = some tx :=
  mem_zipIdx_iff_getElem?.mp (h.sublist.subset hmem)

/-! ### The pool -/

theorem poolFind_eq {pool : List Tx} {tx' : Tx} (h : poolFind env pool (env.txHash tx) = some tx') :
    tx' = tx := by
  have hhash := List.find?_some h
  exact env.txHash_injective (by simpa using hhash)

/-- The loop over the rest of the hashes fills a slot or notes a hole. -/
theorem initLoop_spec (env : Env Tx Header Hash) (pool : List Tx) (rest : List Tx) (k : Nat)
    (transactions : List (Option Tx)) (missed : List (Hash × Nat))
    (hlen : k + rest.length ≤ transactions.length) :
    ∃ holes : List (Tx × Nat), holes.Sublist (rest.zipIdx k) ∧
      (initLoop env pool k (rest.map env.txHash) transactions missed).2
        = missed ++ holes.map (Prod.map env.txHash id) ∧
      (initLoop env pool k (rest.map env.txHash) transactions missed).1.length
        = transactions.length ∧
      (∀ i < k, (initLoop env pool k (rest.map env.txHash) transactions missed).1[i]?
        = transactions[i]?) ∧
      ∀ j tx, rest[j]? = some tx → (tx, k + j) ∈ holes ∨
        (initLoop env pool k (rest.map env.txHash) transactions missed).1[k + j]?
          = some (some tx) := by
  induction rest generalizing k transactions missed with
  | nil => exact ⟨[], .slnil, by simp [initLoop], rfl, fun _ _ => rfl, by simp⟩
  | cons t rest ih =>
    rw [length_cons] at hlen
    rw [map_cons, initLoop]
    cases hfind : poolFind env pool (env.txHash t) with
    | some tx' =>
      obtain rfl := poolFind_eq hfind
      obtain ⟨holes, hsub, hmissed, hlength, hkeep, hheld⟩ :=
        ih (k + 1) (transactions.set k (some tx')) missed (by rw [length_set]; omega)
      refine ⟨holes, hsub.cons _, hmissed, hlength.trans (length_set), ?_, ?_⟩
      · intro i hi
        rw [hkeep i (by omega), List.getElem?_set_ne (by omega)]
      · intro j tx hj
        cases j with
        | zero =>
          obtain rfl : tx' = tx := by simpa using hj
          exact .inr ((hkeep k (by omega)).trans (List.getElem?_set_self (by omega)))
        | succ j =>
          rw [show k + (j + 1) = k + 1 + j by omega]
          exact hheld j tx hj
    | none =>
      obtain ⟨holes, hsub, hmissed, hlength, hkeep, hheld⟩ :=
        ih (k + 1) transactions (missed ++ [(env.txHash t, k)]) (by omega)
      refine ⟨(t, k) :: holes, hsub.cons_cons _, ?_, hlength, ?_, ?_⟩
      · rw [hmissed, append_assoc]
        rfl
      · exact fun i hi => hkeep i (by omega)
      · intro j tx hj
        cases j with
        | zero =>
          obtain rfl : t = tx := by simpa using hj
          exact .inl mem_cons_self
        | succ j =>
          rw [show k + (j + 1) = k + 1 + j by omega]
          exact (hheld j tx hj).imp_left (mem_cons_of_mem _)

/-- What the pool leaves of a decoded proposal. -/
theorem waiting_initPartiallyBlock (pool : List Tx) (hhash : block.txsHash = txs.map env.txHash)
    (hlen : block.transactions.length = txs.length) (hmissed : block.missedTxs = []) :
    ∃ holes, Waiting env txs holes (initPartiallyBlock env pool block).2 ∧
      ((initPartiallyBlock env pool block).1 = true ↔ holes = []) := by
  obtain ⟨holes, hsub, hmiss, hlength, -, hheld⟩ :=
    initLoop_spec env pool txs 0 block.transactions [] (by omega)
  simp only [Nat.zero_add, nil_append] at hmiss hheld
  refine ⟨holes, ⟨hsub, ?_, ?_, ?_⟩, ?_⟩
  · simpa only [initPartiallyBlock, hhash, hmissed] using hmiss
  · simpa only [initPartiallyBlock, hhash, hmissed] using hlength.trans hlen
  · simpa only [initPartiallyBlock, hhash, hmissed] using hheld
  · simp only [initPartiallyBlock, hhash, hmissed, hmiss]
    simp

/-! ### Filling in -/

variable {missed : List (Hash × Nat)}

/-- Whatever a response holds, it writes only what belongs in its place. -/
theorem fillLoop_keeps (hmissed : missed = holes.map (Prod.map env.txHash id))
    (hholes : ∀ tx (i : Nat), (tx, i) ∈ holes → txs[i]? = some tx) (k : Nat) (rest : List Tx)
    (transactions : List (Option Tx)) :
    (fillLoop env missed k rest transactions).1.length = transactions.length ∧
      ∀ (i : Nat) (tx : Tx), txs[i]? = some tx → transactions[i]? = some (some tx) →
        (fillLoop env missed k rest transactions).1[i]? = some (some tx) := by
  induction rest generalizing k transactions with
  | nil => exact ⟨rfl, fun _ _ _ h => h⟩
  | cons t rest ih =>
    rw [fillLoop]
    split
    · exact ⟨rfl, fun _ _ _ h => h⟩
    · rename_i hash position hget
      split_ifs with hhash
      · exact ⟨rfl, fun _ _ _ h => h⟩
      · obtain ⟨hlen, hkeep⟩ := ih (k + 1) (transactions.set position (some t))
        refine ⟨hlen.trans length_set, fun i tx htx hold => hkeep i tx htx ?_⟩
        rw [List.getElem?_set]
        split
        · -- The hash that matched is that of the leader's transaction at this place.
          rename_i hpos
          subst hpos
          have hmem := mem_of_getElem? hget
          rw [hmissed, mem_map] at hmem
          obtain ⟨⟨tx', i'⟩, hhole, heq⟩ := hmem
          cases heq
          have htx' := (hholes tx' _ hhole).symm.trans htx
          cases htx'
          obtain rfl := env.txHash_injective (not_not.mp hhash)
          rw [if_pos (List.getElem?_eq_some_iff.mp hold).1]
        · exact hold

/-- The requested transactions are put into their places. -/
theorem fillLoop_eq (k : Nat) (rest : List (Tx × Nat))
    (hrest : missed.drop k = rest.map (Prod.map env.txHash id)) (transactions : List (Option Tx)) :
    fillLoop env missed k (rest.map Prod.fst) transactions
      = (rest.foldl (fun ts hole => ts.set hole.2 (some hole.1)) transactions, none) := by
  induction rest generalizing k transactions with
  | nil => rfl
  | cons hole rest ih =>
    have hget : missed[k]? = some (env.txHash hole.1, hole.2) := by
      rw [← List.head?_drop, hrest]
      rfl
    have htail : missed.drop (k + 1) = rest.map (Prod.map env.txHash id) := by
      rw [← tail_drop, hrest]
      rfl
    rw [map_cons, fillLoop, hget]
    simp only [ne_eq, not_true_eq_false]
    exact ih (k + 1) htail _

/-- Once the holes are filled, the vector is the leader's. -/
theorem foldl_set_eq {transactions : List (Option Tx)}
    (hholes : ∀ tx (i : Nat), (tx, i) ∈ holes → txs[i]? = some tx)
    (hlen : transactions.length = txs.length) (hheld : ∀ (i : Nat) tx, txs[i]? = some tx →
      (tx, i) ∈ holes ∨ transactions[i]? = some (some tx)) :
    holes.foldl (fun ts hole => ts.set hole.2 (some hole.1)) transactions = txs.map some := by
  induction holes generalizing transactions with
  | nil =>
    refine ext_getElem? fun i => ?_
    cases htx : txs[i]? with
    | none =>
      have hi := List.getElem?_eq_none_iff.mp htx
      simp [htx, List.getElem?_eq_none_iff.mpr (hlen.trans_le hi)]
    | some tx =>
      have hget := (hheld i tx htx).resolve_left not_mem_nil
      simp [htx, hget]
  | cons hole holes ih =>
    obtain ⟨t, k⟩ := hole
    have hk : txs[k]? = some t := hholes t k mem_cons_self
    refine ih (fun tx i hmem => hholes tx i (mem_cons_of_mem _ hmem))
      (length_set.trans hlen) fun i tx htx => ?_
    by_cases hik : i = k
    · subst hik
      obtain rfl := Option.some.inj (hk.symm.trans htx)
      right
      have hlt : i < transactions.length := hlen ▸ (List.getElem?_eq_some_iff.mp htx).1
      exact List.getElem?_set_self hlt
    · rw [List.getElem?_set_ne (Ne.symm hik)]
      refine (hheld i tx htx).imp_left fun hmem => ?_
      obtain heq | hmem := mem_cons.mp hmem
      · exact absurd (Prod.mk.inj heq).2 hik
      · exact hmem

/-- A response, taken or not, leaves the follower waiting for the same transactions. -/
theorem Waiting.fillBlock (h : Waiting env txs holes block) (txsData : Bytes) :
    Waiting env txs holes (block.fillBlock env txsData).1 ∧
      (block.fillBlock env txsData).1.header = block.header := by
  have hkeep := fillLoop_keeps h.missedTxs fun tx i => h.getElem?_of_mem
  rw [PartiallyBlock.fillBlock]
  split
  · exact ⟨{ h with }, rfl⟩
  · split
    · exact ⟨{ h with }, rfl⟩
    · split
      · exact ⟨{ h with }, rfl⟩
      · rename_i missedTransactions _
        split
        · exact ⟨{ h with }, rfl⟩
        · obtain ⟨hlen, hheld⟩ := hkeep 0 missedTransactions block.transactions
          refine ⟨⟨h.sublist, h.missedTxs, hlen.trans h.length, fun i tx htx => ?_⟩, rfl⟩
          exact (h.held i tx htx).imp_right (hheld i tx htx)

/-! ### The leader -/

variable {served : PartiallyBlock Tx Header Hash}

section

variable (hserved : served.transactions = txs.map some)
include hserved

theorem requested_eq {i : Nat} (htx : txs[i]? = some tx) :
    served.requested env (env.txHash tx, i) = .ok tx := by
  simp [requested, hserved, htx]

theorem mapM_requested (hholes : ∀ tx (i : Nat), (tx, i) ∈ holes → txs[i]? = some tx) :
    (holes.map (Prod.map env.txHash id)).mapM (served.requested env)
      = .ok (holes.map Prod.fst) := by
  induction holes with
  | nil => rfl
  | cons hole holes ih =>
    have hhole : served.requested env (env.txHash hole.1, hole.2) = .ok hole.1 :=
      requested_eq hserved (hholes hole.1 hole.2 mem_cons_self)
    have hrest := ih fun tx i hmem => hholes tx i (mem_cons_of_mem _ hmem)
    rw [map_cons, mapM_cons]
    rw [show Prod.map env.txHash id hole = (env.txHash hole.1, hole.2) from rfl, hhole, hrest]
    rfl

theorem fetchMissedTxs_eq (hrlp : env.ReadsBack)
    (hholes : ∀ tx (i : Nat), (tx, i) ∈ holes → txs[i]? = some tx)
    (expectedHash : Hash) :
    served.fetchMissedTxs env (env.missedInfo.encode
        (env.number served.header, expectedHash, holes.map (Prod.map env.txHash id))) expectedHash
      = .ok (env.response.encode
        (env.number served.header, expectedHash, encode env.codec (holes.map Prod.fst))) := by
  rw [fetchMissedTxs, hrlp.missedInfo]
  simp only [checkBasic, ne_eq, not_true_eq_false]
  rw [encodeMissedTxs, mapM_requested hserved hholes]
  rfl

end

/-! ### The whole exchange -/

/-- The leader's answer completes the follower's block. -/
theorem Waiting.fillBlock_response (h : Waiting env txs holes block) (hrlp : env.ReadsBack)
    (hcodec : decode env.codec [] (encode env.codec (holes.map Prod.fst))
      = .ok (holes.map Prod.fst)) :
    block.fillBlock env (env.response.encode (env.number block.header,
        env.headerHash block.header, encode env.codec (holes.map Prod.fst)))
      = ({ block with
          missedTransactions := holes.map Prod.fst, transactions := txs.map some }, none) := by
  have hloop := fillLoop_eq 0 holes h.missedTxs block.transactions
  rw [foldl_set_eq (fun tx i => h.getElem?_of_mem) h.length h.held] at hloop
  rw [PartiallyBlock.fillBlock, hrlp.response]
  simp only [PartiallyBlock.checkBasic, ne_eq, not_true_eq_false, ↓reduceIte, hcodec]
  rw [if_neg (by simp [h.missedTxs]), hloop]

omit [DecidableEq Hash] in
theorem mapM_slotHash (env : Env Tx Header Hash) (txs : List Tx) :
    (txs.map some).mapM (slotHash env) = .ok (txs.map env.txHash) := by
  induction txs with
  | nil => rfl
  | cons tx txs ih =>
    rw [map_cons, mapM_cons, ih]
    rfl

omit [DecidableEq Hash] in
theorem encodeProposal_eq {leader leader' : PartiallyBlock Tx Header Hash} {out : Bytes}
    (hleader : leader.transactions = txs.map some)
    (henc : leader.encodeProposal env = .ok (out, leader')) :
    out = env.proposal.encode
      (leader.header, txs.map env.txHash, env.headerHash leader.header) := by
  rw [encodeProposal] at henc
  split at henc
  · rw [calTxsHashBytes, hleader, mapM_slotHash] at henc
    exact (Prod.mk.inj (Except.ok.inj henc)).1.symm
  · cases henc

theorem drop_eq_cons {α : Type} {l : List α} {k : Nat} {a : α} (h : l[k]? = some a) :
    l.drop k = a :: l.drop (k + 1) := by
  obtain ⟨hk, rfl⟩ := List.getElem?_eq_some_iff.mp h
  exact drop_eq_getElem_cons hk

/-- A response whose hashes are not the requested ones is rejected. -/
theorem fillLoop_rejects (k : Nat) (received : List Tx) (transactions : List (Option Tx))
    (h : (fillLoop env missed k received transactions).2 = none) :
    received.map env.txHash = ((missed.drop k).map Prod.fst).take received.length := by
  induction received generalizing k transactions with
  | nil => rfl
  | cons tx received ih =>
    rw [fillLoop] at h
    split at h
    · cases h
    · rename_i hash position hget
      split at h
      · cases h
      · rename_i hhash
        rw [map_cons, ih (k + 1) _ h, drop_eq_cons hget, not_not.mp hhash]
        rfl

theorem fillBlock_rejects {number : Int} {hash : Hash} {txsBytes : Bytes} {received : List Tx}
    (hrlp : env.ReadsBack) (hdec : decode env.codec [] txsBytes = .ok received)
    (hne : received.map env.txHash ≠ block.missedTxs.map Prod.fst) :
    (block.fillBlock env (env.response.encode (number, hash, txsBytes))).2 ≠ none := by
  intro hnone
  rw [fillBlock, hrlp.response] at hnone
  simp only [hdec] at hnone
  split at hnone
  · cases hnone
  · split at hnone
    · cases hnone
    · rename_i hcount
      refine hne ((fillLoop_rejects 0 received block.transactions hnone).trans ?_)
      rw [drop_zero, take_of_length_le]
      rw [length_map, not_not.mp hcount]

/-- The proposal protocol is lossless. The follower either has all the transactions, or asks for
those it misses; any leader that still serves the block answers, and the answer completes the
follower's block in the leader's order, whatever other responses came before it. A response with
a hash that was not requested is rejected. -/
theorem proposal_lossless (env : Env Tx Header Hash) (hrlp : env.ReadsBack)
    {leader leader' : PartiallyBlock Tx Header Hash} {out : Bytes}
    (hleader : leader.transactions = txs.map some)
    (henc : leader.encodeProposal env = .ok (out, leader'))
    (hcodec : ∀ l : List Tx, l.Sublist txs → decode env.codec [] (encode env.codec l) = .ok l)
    (pool : List Tx) :
    (∃ follower, decodeProposal env out = .ok follower ∧
      ((initPartiallyBlock env pool follower).1 = true →
        (initPartiallyBlock env pool follower).2.transactions = txs.map some) ∧
      ((initPartiallyBlock env pool follower).1 = false → ∃ request response,
        (initPartiallyBlock env pool follower).2.encodeMissedInfo env = .ok request ∧
        (∀ (cache : ReqCache Tx Header Hash) served,
          cache.serving = some (served, env.headerHash leader.header) →
          served.transactions = txs.map some → env.number served.header = env.number leader.header →
          cache.fetchMissedTxs env request = .ok (some response)) ∧
        ∀ (earlier : List Bytes) (waiting : PartiallyBlock Tx Header Hash),
          waiting = earlier.foldl (fun block r => (block.fillBlock env r).1)
            (initPartiallyBlock env pool follower).2 →
          ∃ filled : PartiallyBlock Tx Header Hash, filled.transactions = txs.map some ∧
            ∀ (cache : ReqCache Tx Header Hash) hash,
              (cache.partiallyRawPrepare = some ⟨some waiting, hash⟩ → cache.fillBlock env response
                  = ({ cache with partiallyRawPrepare := some ⟨some filled, hash⟩ }, .ok true)) ∧
              (cache.partiallyFuturePrepare = some ⟨some waiting, hash⟩ →
                cache.fillFutureBlock env response = ({ cache with
                      partiallyFuturePrepare := none
                      futurePrepares := cache.futurePrepares ++ [⟨some filled, hash⟩] },
                    .ok true)))) ∧
    ∀ (block : PartiallyBlock Tx Header Hash) number hash txsBytes received,
      decode env.codec [] txsBytes = .ok received →
      received.map env.txHash ≠ block.missedTxs.map Prod.fst →
      (block.fillBlock env (env.response.encode (number, hash, txsBytes))).2 ≠ none := by
  refine ⟨?_, fun block number hash txsBytes received => fillBlock_rejects hrlp⟩
  have hdec : decodeProposal env out = .ok ⟨leader.header,
      List.replicate txs.length none, txs.map env.txHash, [], []⟩ := by
    rw [encodeProposal_eq hleader henc, decodeProposal, hrlp.proposal]
    simp
  refine ⟨_, hdec, ?_⟩
  generalize hfollower : (⟨leader.header, List.replicate txs.length none, txs.map env.txHash, [],
    []⟩ : PartiallyBlock Tx Header Hash) = follower
  obtain ⟨holes, hwait, hhit⟩ : ∃ holes, Waiting env txs holes
      (initPartiallyBlock env pool follower).2 ∧
        ((initPartiallyBlock env pool follower).1 = true ↔ holes = []) := by
    rw [← hfollower]
    exact waiting_initPartiallyBlock pool rfl length_replicate rfl
  have hheader : (initPartiallyBlock env pool follower).2.header = leader.header := by
    rw [← hfollower]
    rfl
  generalize (initPartiallyBlock env pool follower).2 = block at hwait hheader ⊢
  refine ⟨fun htrue => ?_, fun hfalse => ?_⟩
  · obtain rfl := hhit.mp htrue
    exact foldl_set_eq (fun _ _ h => absurd h not_mem_nil) hwait.length hwait.held
  have hmissed : 0 < block.missedTxs.length := by
    rw [hwait.missedTxs, length_map, length_pos_iff]
    intro hnil
    rw [hhit.mpr hnil] at hfalse
    cases hfalse
  have hsub : (holes.map Prod.fst).Sublist txs := by
    have hmap := hwait.sublist.map Prod.fst
    rwa [zipIdx_map_fst] at hmap
  refine ⟨_, env.response.encode (env.number leader.header, env.headerHash leader.header,
    encode env.codec (holes.map Prod.fst)), if_pos hmissed, ?_, ?_⟩
  · intro cache served hserving hserved hnumber
    rw [ReqCache.fetchMissedTxs, hserving, hheader, hwait.missedTxs, ← hnumber]
    simp only [fetchMissedTxs_eq hserved hrlp fun tx i => hwait.getElem?_of_mem]
    rfl
  · intro earlier waiting hw
    -- No earlier response moves a hole or fills one wrongly.
    obtain ⟨hwait', hheader'⟩ : Waiting env txs holes waiting ∧ waiting.header = leader.header := by
      subst hw
      induction earlier generalizing block with
      | nil => exact ⟨hwait, hheader⟩
      | cons r earlier ih =>
        obtain ⟨hnext, hsame⟩ := hwait.fillBlock r
        refine ih _ hnext (hsame.trans hheader) ?_
        rw [hnext.missedTxs, ← hwait.missedTxs]
        exact hmissed
    have hfill := hwait'.fillBlock_response hrlp (hcodec _ hsub)
    refine ⟨{ waiting with
      missedTransactions := holes.map Prod.fst, transactions := txs.map some }, rfl,
      fun cache hash => ⟨fun hprep => ?_, fun hprep => ?_⟩⟩
    · rw [ReqCache.fillBlock, hprep, ReqCache.fillPrepare, ← hheader', hfill]
      rfl
    · rw [ReqCache.fillFutureBlock, hprep, ReqCache.fillPrepare, ← hheader', hfill]
      rfl

/-! ### An exchange -/

/-- Bytes as numbers. -/
instance encodableByte : Encodable UInt8 :=
  Encodable.ofLeftInverse UInt8.toNat UInt8.ofNat fun _ => UInt8.ofNat_toNat

/-- Messages as numbers in big-endian form. -/
def Rlp.ofEncodable (M : Type) [Encodable M] : Rlp M where
  encode msg := BigEndian.encode (Encodable.encode msg)
  decode bytes := Encodable.decode (BigEndian.decode bytes)

theorem Rlp.decode_encode {M : Type} [Encodable M] (msg : M) :
    (ofEncodable M).decode ((ofEncodable M).encode msg) = some msg := by
  simp only [ofEncodable, BigEndian.decode_encode, Encodable.encodek]

/-- Transactions of two bytes that are their own hashes, and headers that are their own
numbers. -/
def pairEnv : Env (UInt8 × UInt8) Nat (UInt8 × UInt8) where
  txHash := id
  txHash_injective := Function.injective_id
  codec := pairCodec
  headerHash header := (UInt8.ofNat header, 0)
  number header := header
  verify _ := true
  proposal := Rlp.ofEncodable _
  missedInfo := Rlp.ofEncodable _
  response := Rlp.ofEncodable _

def pairBlock : PartiallyBlock (UInt8 × UInt8) Nat (UInt8 × UInt8) where
  header := 7
  transactions := [(1, 2), (3, 4), (1, 2)].map some
  txsHash := []
  missedTxs := []
  missedTransactions := []

theorem pairEnv_readsBack : pairEnv.ReadsBack :=
  ⟨Rlp.decode_encode, Rlp.decode_encode, Rlp.decode_encode⟩

/-- The leader's requests, with the block it has proposed, and a follower's, with the block it
waits for. -/
def pairCache (block : Option (PartiallyBlock (UInt8 × UInt8) Nat (UInt8 × UInt8))) :
    ReqCache (UInt8 × UInt8) Nat (UInt8 × UInt8) :=
  ⟨none, ⟨some pairBlock, (7, 0)⟩, block.map fun b => ⟨some b, (7, 0)⟩, none, []⟩

/-- A follower that has the second of three transactions asks for the others. -/
theorem pairBlock_lossless : ∃ out block follower request response filled,
    pairBlock.encodeProposal pairEnv = .ok (out, block) ∧
    decodeProposal pairEnv out = .ok follower ∧
    (initPartiallyBlock pairEnv [(3, 4), (5, 6)] follower).1 = false ∧
    (initPartiallyBlock pairEnv [(3, 4), (5, 6)] follower).2.encodeMissedInfo pairEnv
      = .ok request ∧
    (pairCache none).fetchMissedTxs pairEnv request = .ok (some response) ∧
    (pairCache (initPartiallyBlock pairEnv [(3, 4), (5, 6)] follower).2).fillBlock pairEnv response
      = (pairCache (some filled), .ok true) ∧
    filled.transactions = pairBlock.transactions := by
  have henc : pairBlock.encodeProposal pairEnv
      = .ok (_, { pairBlock with txsHash := [(1, 2), (3, 4), (1, 2)] }) := rfl
  have hcodec : ∀ l : List (UInt8 × UInt8), l.Sublist [(1, 2), (3, 4), (1, 2)] →
      decode pairEnv.codec [] (encode pairEnv.codec l) = .ok l := by
    intro l hl
    refine decode_encode_of_lt pairCodec l (lt_of_le_of_lt ?_ (show 6 < 4294967296 by decide))
    have hlen := hl.length_le
    have hsum : ((l.map pairCodec.rlp).map List.length).sum = 2 * l.length := by
      have htwo : List.length ∘ pairCodec.rlp = fun _ => 2 := rfl
      rw [map_map, htwo, map_const', sum_replicate, smul_eq_mul, mul_comm]
    simp only [length_cons, length_nil] at hlen
    omega
  obtain ⟨⟨follower, hdec, -, hmiss⟩, -⟩ :=
    proposal_lossless pairEnv pairEnv_readsBack rfl henc hcodec [(3, 4), (5, 6)]
  have hfollower := hdec
  rw [decodeProposal, pairEnv_readsBack.proposal] at hfollower
  obtain rfl := Except.ok.inj hfollower
  obtain ⟨request, response, hrequest, hserve, hfill⟩ := hmiss rfl
  obtain ⟨filled, hfilled, hcache⟩ := hfill [] _ rfl
  exact ⟨_, _, _, request, response, filled, henc, hdec, rfl, hrequest,
    hserve (pairCache none) pairBlock rfl rfl rfl, (hcache (pairCache _) (7, 0)).1 rfl, hfilled⟩

end Rcc.Block
