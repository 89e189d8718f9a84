import Rcc.Block.Proposal

/-!
# Rcc.Block.MissedTxs

Requests and responses that a peer has made up.

The leader looks up each requested position without a check of its range, so a request is only safe
as long as its positions are in the block (`Present`); a wrong hash ends the loop before the next
one is looked up. The follower writes each transaction of a response before it has seen the next
one, so a response that it refuses may have changed the block (`fillBlock_unchanged_iff`).
-/

namespace Rcc.Block

open List PartiallyBlock

variable {Tx Header Hash : Type} [DecidableEq Hash] {env : Env Tx Header Hash}

/-! ### Requests -/

/-- The transaction that is asked for by hash and position. -/
def Asked (env : Env Tx Header Hash) (block : PartiallyBlock Tx Header Hash)
    (txsInfo : Hash × Nat) (tx : Tx) : Prop :=
  block.transactions[txsInfo.2]? = some (some tx) ∧ env.txHash tx = txsInfo.1

/-- The block has a transaction at each position, up to the first one with another hash than the
request says. -/
def Present (env : Env Tx Header Hash) (block : PartiallyBlock Tx Header Hash) :
    List (Hash × Nat) → Prop
  | [] => True
  | (hash, position) :: missedTxs => ∃ tx, block.transactions[position]? = some (some tx) ∧
      (env.txHash tx = hash → Present env block missedTxs)

/-- How a call may end: nothing is served, it throws, or it has encoded the requested transactions
in their order. To look up what is not there is neither. -/
def Answered (env : Env Tx Header Hash) (cache : ReqCache Tx Header Hash) (missInfo : Bytes) :
    Except BlockError (Option Bytes) → Prop
  | .error e => e ≠ .outOfBounds ∧ e ≠ .nullTransaction
  | .ok none => cache.serving = none
  | .ok (some encodedBytes) => ∃ block expectedHash missedTxs txs,
      cache.serving = some (block, expectedHash) ∧
      env.missedInfo.decode missInfo = some (env.number block.header, expectedHash, missedTxs) ∧
      Forall₂ (Asked env block) missedTxs txs ∧
      encodedBytes = env.response.encode
        (env.number block.header, expectedHash, encode env.codec txs)

theorem mapM_requested_cases (env : Env Tx Header Hash) (block : PartiallyBlock Tx Header Hash)
    (missedTxs : List (Hash × Nat)) :
    (∃ txs, missedTxs.mapM (block.requested env) = .ok txs ∧
      Forall₂ (Asked env block) missedTxs txs ∧ Present env block missedTxs) ∨
    ∃ e, missedTxs.mapM (block.requested env) = .error e ∧
      ((e ≠ .outOfBounds ∧ e ≠ .nullTransaction) ↔ Present env block missedTxs) := by
  induction missedTxs with
  | nil => exact .inl ⟨[], rfl, .nil, trivial⟩
  | cons txsInfo missedTxs ih =>
    rw [mapM_cons, requested]
    cases hslot : block.transactions[txsInfo.2]? with
    | none => exact .inr ⟨_, rfl, by simp [Present, hslot]⟩
    | some slot =>
      cases slot with
      | none => exact .inr ⟨_, rfl, by simp [Present, hslot]⟩
      | some tx =>
        by_cases hhash : env.txHash tx = txsInfo.1
        · have hpresent : Present env block (txsInfo :: missedTxs) ↔
              Present env block missedTxs := by simp [Present, hslot, hhash]
          simp only [hhash, ne_eq, not_true_eq_false, hpresent]
          rcases ih with ⟨txs, hloop, hasked, hrest⟩ | ⟨e, hloop, hrest⟩
          · rw [hloop]
            exact .inl ⟨tx :: txs, rfl, .cons ⟨hslot, hhash⟩ hasked, hrest⟩
          · rw [hloop]
            exact .inr ⟨e, rfl, hrest⟩
        · simp only [hhash, ne_eq, not_false_eq_true]
          exact .inr ⟨_, rfl, by simp [Present, hslot, hhash]⟩

/-- **Requests.** Whatever bytes arrive as a request, the call throws or answers with the requested
transactions, in their order, exactly if the positions that are looked up are in the block. -/
theorem fetchMissedTxs_answered_iff (env : Env Tx Header Hash) (cache : ReqCache Tx Header Hash)
    (missInfo : Bytes) :
    Answered env cache missInfo (cache.fetchMissedTxs env missInfo) ↔
      ∀ served ∈ cache.serving, ∀ info ∈ env.missedInfo.decode missInfo,
        info.1 = env.number served.1.header → info.2.1 = served.2 →
          Present env served.1 info.2.2 := by
  rw [ReqCache.fetchMissedTxs]
  cases hserving : cache.serving with
  | none => simpa [Answered] using hserving
  | some served =>
    obtain ⟨block, expectedHash⟩ := served
    simp only [fetchMissedTxs, Option.mem_some_iff, forall_eq']
    cases hdecode : env.missedInfo.decode missInfo with
    | none => exact ⟨fun _ _ h => absurd h (by simp), fun _ => ⟨by simp, by simp⟩⟩
    | some info =>
      obtain ⟨number, hash, missedTxs⟩ := info
      simp only [checkBasic, Option.mem_some_iff, forall_eq']
      by_cases hnumber : number = env.number block.header
      · by_cases hhash : hash = expectedHash
        · subst hnumber hhash
          simp only [ne_eq, not_true_eq_false, encodeMissedTxs, forall_const]
          rcases mapM_requested_cases env block missedTxs with
            ⟨txs, hloop, hasked, hpresent⟩ | ⟨e, hloop, hpresent⟩
          · rw [hloop]
            exact ⟨fun _ => hpresent,
              fun _ => ⟨block, hash, missedTxs, txs, hserving, hdecode, hasked, rfl⟩⟩
          · rw [hloop]
            exact hpresent
        · rw [if_neg (not_not_intro hnumber), if_pos hhash]
          exact ⟨fun _ _ h => absurd h hhash, fun _ => ⟨by simp, by simp⟩⟩
      · rw [if_pos hnumber]
        exact ⟨fun _ h => absurd h hnumber, fun _ => ⟨by simp, by simp⟩⟩

/-- The block of three transactions is asked for a fourth. -/
theorem fourth_transaction_looked_up :
    let cache : ReqCache (UInt8 × UInt8) Nat (UInt8 × UInt8) :=
      ⟨none, ⟨some pairBlock, (7, 0)⟩, none, none, []⟩
    let missInfo := pairEnv.missedInfo.encode (7, (7, 0), [((1, 2), 3)])
    cache.fetchMissedTxs pairEnv missInfo = .error .outOfBounds ∧
      ¬Answered pairEnv cache missInfo (cache.fetchMissedTxs pairEnv missInfo) := by
  intro cache missInfo
  have hfetch : cache.fetchMissedTxs pairEnv missInfo = .error .outOfBounds := by
    simp only [ReqCache.fetchMissedTxs, cache, ReqCache.serving, fetchMissedTxs, missInfo,
      pairEnv_readsBack.missedInfo]
    rfl
  rw [hfetch]
  exact ⟨rfl, fun h => h.1 rfl⟩

/-! ### Responses -/

variable {missed : List (Hash × Nat)}

/-- What the loop writes before the first wrong hash is in its place already. -/
def InPlace (env : Env Tx Header Hash) (transactions : List (Option Tx)) :
    List (Tx × Hash × Nat) → Prop
  | [] => True
  | (tx, hash, position) :: rest => env.txHash tx = hash →
      transactions[position]? = some (some tx) ∧ InPlace env transactions rest

/-- The loop writes only at the positions it still has. -/
theorem fillLoop_getElem? (env : Env Tx Header Hash) {position : Nat} (k : Nat)
    (received : List Tx) (transactions : List (Option Tx))
    (h : position ∉ (missed.drop k).map Prod.snd) :
    (fillLoop env missed k received transactions).1[position]? =
      transactions[position]? := by
  induction received generalizing k transactions with
  | nil => rfl
  | cons tx received ih =>
    rw [fillLoop]
    split
    · rfl
    · rename_i hash position' hget
      split
      · rfl
      · rw [drop_eq_cons hget, map_cons, mem_cons, not_or] at h
        rw [ih (k + 1) _ h.2, List.getElem?_set_ne (Ne.symm h.1)]

/-- The loop leaves the vector as it is exactly if it writes what is there. -/
theorem fillLoop_eq_self_iff (env : Env Tx Header Hash) {k : Nat} {received : List Tx}
    {transactions : List (Option Tx)} (hnodup : ((missed.drop k).map Prod.snd).Nodup)
    (hrange : ∀ m ∈ missed.drop k, m.2 < transactions.length)
    (hlen : received.length = (missed.drop k).length) :
    (fillLoop env missed k received transactions).1 = transactions ↔
      InPlace env transactions (received.zip (missed.drop k)) := by
  induction received generalizing k transactions with
  | nil => exact iff_of_true rfl trivial
  | cons tx received ih =>
    obtain ⟨⟨hash, position⟩, hget⟩ : ∃ m, missed[k]? = some m := by
      refine ⟨_, List.getElem?_eq_getElem ?_⟩
      rw [length_cons, length_drop] at hlen
      omega
    rw [drop_eq_cons hget] at hnodup hrange hlen ⊢
    rw [fillLoop, hget, zip_cons_cons, InPlace]
    by_cases hhash : env.txHash tx = hash
    · simp only [hhash, ne_eq, not_true_eq_false, if_false, forall_const]
      obtain ⟨hnot, hnodup⟩ := nodup_cons.mp hnodup
      have hwritten := fillLoop_getElem? env (k + 1) received
        (transactions.set position (some tx)) hnot
      rw [List.getElem?_set_self (hrange _ mem_cons_self)] at hwritten
      have hset (h : transactions[position]? = some (some tx)) :
          transactions.set position (some tx) = transactions := by
        obtain ⟨_, hslot⟩ := List.getElem?_eq_some_iff.mp h
        rw [← hslot, set_getElem_self]
      have hrest := ih hnodup (fun m hm => hrange m (mem_cons_of_mem _ hm)) (Nat.succ.inj hlen)
      constructor
      · intro heq
        rw [heq] at hwritten
        rw [hset hwritten] at heq
        exact ⟨hwritten, hrest.mp heq⟩
      · intro h
        rw [hset h.1]
        exact hrest.mpr h.2
    · simp [hhash]

variable {txs : List Tx} {holes : List (Tx × Nat)} {block : PartiallyBlock Tx Header Hash}

theorem Waiting.fillLoop_unchanged_iff (h : Waiting env txs holes block) {received : List Tx}
    (hlen : received.length = block.missedTxs.length) :
    ((fillLoop env block.missedTxs 0 received block.transactions).2 ≠ none →
      (fillLoop env block.missedTxs 0 received block.transactions).1 = block.transactions) ↔
      received.map env.txHash = block.missedTxs.map Prod.fst ∨
        InPlace env block.transactions (received.zip block.missedTxs) := by
  have hnodup : (block.missedTxs.map Prod.snd).Nodup := by
    rw [h.missedTxs, map_map]
    refine (h.sublist.map Prod.snd).nodup ?_
    rw [zipIdx_map_snd]
    exact nodup_range'
  have hrange : ∀ m ∈ block.missedTxs, m.2 < block.transactions.length := by
    intro m hm
    rw [h.missedTxs, mem_map] at hm
    obtain ⟨hole, hhole, rfl⟩ := hm
    rw [h.length]
    exact (List.getElem?_eq_some_iff.mp (h.getElem?_of_mem hhole)).1
  have hself := fillLoop_eq_self_iff env (k := 0) hnodup hrange hlen
  constructor
  · intro hrefused
    by_cases hmatch : received.map env.txHash = block.missedTxs.map Prod.fst
    · exact .inl hmatch
    · refine .inr (hself.mp (hrefused fun hnone => hmatch ?_))
      rw [fillLoop_rejects 0 received _ hnone, drop_zero, take_of_length_le]
      rw [length_map, hlen]
  · intro hok hthrows
    rcases hok with hmatch | hplace
    · have hreceived : received = holes.map Prod.fst := by
        refine map_injective_iff.mpr env.txHash_injective ?_
        rw [hmatch, h.missedTxs, map_map, map_map]
        rfl
      rw [hreceived, fillLoop_eq 0 holes h.missedTxs] at hthrows
      exact absurd rfl hthrows
    · exact hself.mpr hplace

/-- **Responses.** A response that is refused leaves the follower's block as it was exactly if it is
refused before the loop, or what the loop writes up to the wrong hash is there already. -/
theorem fillBlock_unchanged_iff (h : Waiting env txs holes block) (txsData : Bytes) :
    ((block.fillBlock env txsData).2 ≠ none →
      (block.fillBlock env txsData).1.transactions = block.transactions ∧
        (block.fillBlock env txsData).1.missedTxs = block.missedTxs) ↔
      ∀ response ∈ env.response.decode txsData, response.1 = env.number block.header →
        response.2.1 = env.headerHash block.header → ∀ received,
          decode env.codec [] response.2.2 = .ok received →
          received.length = block.missedTxs.length →
          received.map env.txHash = block.missedTxs.map Prod.fst ∨
            InPlace env block.transactions (received.zip block.missedTxs) := by
  rw [fillBlock]
  cases hdecode : env.response.decode txsData with
  | none => simp
  | some response =>
    obtain ⟨number, hash, txsBytes⟩ := response
    simp only [checkBasic, Option.mem_some_iff, forall_eq']
    by_cases hnumber : number = env.number block.header
    · by_cases hhash : hash = env.headerHash block.header
      · simp only [hnumber, hhash, ne_eq, not_true_eq_false, forall_const]
        cases hparse : decode env.codec [] txsBytes with
        | error e => simp
        | ok received =>
          by_cases hlen : received.length = block.missedTxs.length
          · simp only [hlen, not_true_eq_false, if_false, and_true, Except.ok.injEq, forall_eq',
              forall_const]
            exact h.fillLoop_unchanged_iff hlen
          · simp [hlen]
      · simp [hnumber, hhash]
    · simp [hnumber]

/-- A follower that waits for the first and the last of three transactions. -/
def pairFollower : PartiallyBlock (UInt8 × UInt8) Nat (UInt8 × UInt8) where
  header := 7
  transactions := [none, some (3, 4), none]
  txsHash := []
  missedTxs := [((1, 2), 0), ((1, 2), 2)]
  missedTransactions := []

theorem pairFollower_waiting : Waiting pairEnv [(1, 2), (3, 4), (1, 2)] [((1, 2), 0), ((1, 2), 2)]
    pairFollower where
  sublist := by decide
  missedTxs := rfl
  length := rfl
  held i tx htx := by
    match i with
    | 0 | 1 | 2 => cases htx; decide
    | i + 3 => cases htx

/-- A response with the transactions. -/
def pairResponse (txs : List (UInt8 × UInt8)) : Bytes :=
  pairEnv.response.encode (7, (7, 0), encode pairCodec txs)

/-- The first transaction is the wrong one, and nothing is written. -/
theorem wrong_first_unchanged :
    (pairFollower.fillBlock pairEnv (pairResponse [(5, 6), (1, 2)])).2 ≠ none ∧
      (pairFollower.fillBlock pairEnv (pairResponse [(5, 6), (1, 2)])).1.transactions =
        pairFollower.transactions := by
  have hthrows : (pairFollower.fillBlock pairEnv (pairResponse [(5, 6), (1, 2)])).2 ≠ none := by
    rw [fillBlock, pairResponse, pairEnv_readsBack.response]
    decide
  refine ⟨hthrows, ((fillBlock_unchanged_iff pairFollower_waiting _).mpr ?_ hthrows).1⟩
  intro response hresponse _ _ received hparse _
  rw [pairResponse, pairEnv_readsBack.response] at hresponse
  cases hresponse
  have hreceived : decode pairCodec [] (encode pairCodec [(5, 6), (1, 2)]) =
      .ok [(5, 6), (1, 2)] := by decide
  cases hreceived.symm.trans hparse
  exact .inr fun h => absurd h (by decide)

/-- The second transaction is the wrong one, and the first one has been written. -/
theorem wrong_second_written :
    pairFollower.fillBlock pairEnv (pairResponse [(1, 2), (5, 6)]) = ({ pairFollower with
        transactions := [some (1, 2), some (3, 4), none]
        missedTransactions := [(1, 2), (5, 6)] }, some .transactionHash) := by
  rw [fillBlock, pairResponse, pairEnv_readsBack.response]
  decide

end Rcc.Block
