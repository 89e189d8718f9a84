import Rcc.Block.Caches
import Rcc.Lib.Dictionary

/-!
# Rcc.Block.MerkleProof

Proofs that a transaction or a receipt belongs to a block: `getTransactionByHashWithProof` and
`getTransactionReceiptByHashWithProof` of `BlockChainImp`.

The map from the nodes of the Merkle tree to their children is turned around (`parseMerkleMap`), and
the proof is read off on the way from the leaf up (`BlockChainImp.getMerkleProof`). Both maps are
kept for the block of the last query.

`merkle_proof_verifies` says that the proof leads to the root. It takes a hash without collisions
and without cycles among the values of the tree. A value could still stand at two places: the
leaves of a node, in a row, could be the children of a node further up, in a row. The lengths allow
for this only with eight leaves of four bytes of index (more than 65536 transactions) and nine
children, both at the end of their levels, and then the one node is above the other (`no_mix`).
The indices are of `uint32_t`, so that a block has fewer than `2 ^ 32` of them.
-/

namespace Rcc.Block

open List HashTree TrieHash2

open Rcc.Rlp (rlp rlpBytes lengthHeader)

/-! ## The functions of the block chain -/

/-- The writes of `parseMerkleMap` to the map from children to parents, in their order. -/
abbrev Child2ParentMap := List (List UInt8 × List UInt8)

/-- The last write counts. -/
def Child2ParentMap.find (child2Parent : Child2ParentMap) (child : List UInt8) :
    Option (List UInt8) := List.lookup child child2Parent.reverse

def parseMerkleMap (order : Schedule (List UInt8 × List UInt8))
    (parent2ChildList : Parent2ChildListMap) : Child2ParentMap :=
  order.run (parent2ChildList.flatMap fun e => (e.2.filter (· ≠ [])).map fun child => (child, e.1))

/-- The left and the right siblings, level by level; `none` if the loop takes more than `fuel`
rounds. -/
def BlockChainImp.getMerkleProof (fuel : Nat) (txHash : List UInt8)
    (parent2ChildList : Parent2ChildListMap) (child2Parent : Child2ParentMap) :
    Option (List (List (List UInt8) × List (List UInt8))) :=
  walk (List.lookup · parent2ChildList) child2Parent.find fuel txHash

def getHashNeed2Proof (c : Crypto) (index : Nat) (data : List UInt8) : List UInt8 :=
  rlp (.int index) ++ c.Hash data

/-- A block of the chain: its transactions and the fields of its receipts. -/
structure StoredBlock (Tx : Type) where
  transactions : List Tx
  receipts : List ReceiptFields

/-- What is to be proved of: transactions or receipts. -/
inductive ProofOf
  | transaction | receipt
  deriving DecidableEq

variable {Tx : Type} (env : BlockEnv Tx) (b : StoredBlock Tx)

/-- The encoded transactions or receipts. -/
def StoredBlock.data : ProofOf → List (List UInt8)
  | .transaction => b.transactions.map env.codec.rlp
  | .receipt => b.receipts.map ReceiptFields.encode

/-- `transactionList`, `receiptList` -/
def StoredBlock.leaves (what : ProofOf) : List (List UInt8) :=
  withIndex ((b.data env what).map env.crypto.Hash)

/-- The root that `calTransactionRoot` or `calReceiptRoot` writes into the header of a block with
these transactions and receipts. -/
def StoredBlock.root : ProofOf → List UInt8
  | .transaction =>
    (({ transactions := b.transactions } : FullBlock Tx).calTransactionRoot env
      true).header.fields.transactionsRoot
  | .receipt =>
    match ({ receipts := b.receipts.map fun fields => some { fields } } :
        FullBlock Tx).calReceiptRoot env true with
    | .ok block => block.header.fields.receiptsRoot
    | .error _ => []

/-- The caches of the maps, with the numbers of their blocks: `m_transactionWithProof` and
`m_txsChild2ParentCache`, or those of the receipts. -/
structure ProofCaches where
  parent2ChildList : Option (Int × Parent2ChildListMap) := none
  child2Parent : Option (Int × Child2ParentMap) := none

/-- The cached value, if it is that of the block. -/
def cached {α : Type} (cache : Option (Int × α)) (number : Int) (compute : α) : α :=
  match cache with
  | some (n, a) => if n = number then a else compute
  | none => compute

/-- The number of a block, the index in it, and the orders in which the parallel loops run. -/
structure ProofQuery where
  number : Int
  index : Nat
  order : Schedule (List UInt8 × List (List UInt8))
  parseOrder : Schedule (List UInt8 × List UInt8)

section
variable (chain : Int → StoredBlock Tx) (what : ProofOf) (s : ProofCaches) (q : ProofQuery)

/-- `getParent2ChildListByTxsProofCache`, `getParent2ChildListByReceiptProofCache` -/
def getParent2ChildList : Parent2ChildListMap :=
  cached s.parent2ChildList q.number
    (getMerkleProof env.crypto q.order ((chain q.number).leaves env what))

/-- `getChild2ParentCacheByTransaction`, `getChild2ParentCacheByReceipt` -/
def getChild2Parent : Child2ParentMap :=
  cached s.child2Parent q.number
    (parseMerkleMap q.parseOrder (getParent2ChildList env chain what s q))

/-- `getTransactionByHashWithProof`, `getTransactionReceiptByHashWithProof` for the transaction
the index table has at this place: the proof. -/
def getProof (fuel : Nat) : Option (List (List (List UInt8) × List (List UInt8))) :=
  match ((chain q.number).data env what)[q.index]? with
  | none => some []
  | some data =>
    BlockChainImp.getMerkleProof fuel (getHashNeed2Proof env.crypto q.index data)
      (getParent2ChildList env chain what s q) (getChild2Parent env chain what s q)

/-- The caches after a query. -/
def proofStep : Option ProofCaches :=
  match ((chain q.number).data env what)[q.index]? with
  | none => some s
  | some _ => some
      { parent2ChildList := some (q.number, getParent2ChildList env chain what s q)
        child2Parent := some (q.number, getChild2Parent env chain what s q) }

end

/-! ## The leaves -/

variable {i : Nat}

/-- The bytes of `RLP(i)`. -/
def indexSize (i : Nat) : Nat :=
  if i < 128 then 1 else if i < 256 then 2 else if i < 65536 then 3
  else if i < 16777216 then 4 else 5

/-- An index is its own byte, or has its length in front. -/
theorem rlp_index_cases (hi : i < 2 ^ 32) :
    rlp (.int i) = [UInt8.ofNat i] ∧ 0 < i ∧ i < 128 ∨
    rlp (.int i) = UInt8.ofNat (0x80 + BigEndian.bytesRequired i) :: BigEndian.encode i ∧
      (i = 0 ∨ 128 ≤ i) ∧ BigEndian.bytesRequired i ≤ 4 := by
  have hle : BigEndian.bytesRequired i ≤ 4 := BigEndian.bytesRequired_le_iff.mpr (by omega)
  rcases Nat.eq_zero_or_pos i with rfl | hpos
  · exact .inr ⟨by decide, .inl rfl, hle⟩
  rcases Nat.lt_or_ge i 128 with hlt | hge
  · exact .inl ⟨Rlp.rlpBytes_encode_of_lt hpos.ne' hlt, hpos, hlt⟩
  · refine .inr ⟨?_, .inr hge, hle⟩
    rw [rlp, Rlp.rlpBytes_encode hge, lengthHeader, if_pos (by omega)]
    rfl

theorem length_rlp_index (hi : i < 2 ^ 32) : (rlp (.int i)).length = indexSize i := by
  have hsize : ∀ k, BigEndian.bytesRequired i ≤ k ↔ i < 256 ^ k := fun k =>
    BigEndian.bytesRequired_le_iff
  have h₀ := hsize 0
  have h₁ := hsize 1
  have h₂ := hsize 2
  have h₃ := hsize 3
  rcases rlp_index_cases hi with ⟨heq, hpos, hlt⟩ | ⟨heq, hrange, hle⟩
  · rw [heq, indexSize, if_pos hlt]
    rfl
  · rw [heq, length_cons, BigEndian.length_encode, indexSize]
    split
    · omega
    · split
      · omega
      · split
        · omega
        · split <;> omega

/-- The index can be read off what begins with it. -/
theorem rlp_index_append_inj {j : Nat} (hi : i < 2 ^ 32) (hj : j < 2 ^ 32) {p q : List UInt8}
    (h : rlp (.int i) ++ p = rlp (.int j) ++ q) : i = j := by
  have hbyte : ∀ {m n : Nat}, m < 256 → n < 256 → UInt8.ofNat m = UInt8.ofNat n → m = n := by
    intro m n hm hn heq
    rw [← Rlp.toNat_ofNat_of_lt hm, ← Rlp.toNat_ofNat_of_lt hn, heq]
  rcases rlp_index_cases hi with ⟨hi', -, hilt⟩ | ⟨hi', -, hik⟩ <;>
    rcases rlp_index_cases hj with ⟨hj', -, hjlt⟩ | ⟨hj', -, hjk⟩ <;>
    rw [hi', hj'] at h <;> obtain ⟨hhead, htail⟩ := List.cons.inj h
  · exact hbyte (by omega) (by omega) hhead
  · have := hbyte (by omega) (by omega) hhead
    omega
  · have := hbyte (by omega) (by omega) hhead
    omega
  · -- as many bytes, so the same ones
    have hlen := hbyte (by omega) (by omega) hhead
    obtain ⟨henc, -⟩ := append_inj htail (by simp only [BigEndian.length_encode]; omega)
    rw [← BigEndian.decode_encode i, henc, BigEndian.decode_encode]

theorem indexSize_div (i : Nat) : indexSize i = indexSize (i / 16 * 16) := by
  simp only [indexSize]
  have h : ∀ k, i < 16 * k ↔ i / 16 * 16 < 16 * k := fun k => by omega
  have h₁ := h 8
  have h₂ := h 16
  have h₃ := h 4096
  have h₄ := h 1048576
  simp only [h₁, h₂, h₃, h₄]

section leaves

variable {c : Crypto} (hlen : ∀ b, (c.Hash b).length = 32) {data : List (List UInt8)}

/-- The leaves of the tree over encoded transactions or receipts. -/
def leavesOf (c : Crypto) (data : List (List UInt8)) : List (List UInt8) :=
  withIndex (data.map c.Hash)

theorem leavesOf_getElem? {leaf : List UInt8} :
    (leavesOf c data)[i]? = some leaf ↔
      ∃ d, data[i]? = some d ∧ leaf = rlp (.int i) ++ c.Hash d := by
  rw [leavesOf, withIndex, List.getElem?_mapIdx, List.getElem?_map, Option.map_map,
    Option.map_eq_some_iff]
  simp only [Function.comp_apply, eq_comm]

theorem length_leavesOf : (leavesOf c data).length = data.length := by
  simp [leavesOf, withIndex]

include hlen

theorem length_leaf (hdata : data.length < 2 ^ 32) {leaf : List UInt8}
    (hleaf : (leavesOf c data)[i]? = some leaf) : leaf.length = indexSize i + 32 := by
  obtain ⟨d, hd, rfl⟩ := leavesOf_getElem?.mp hleaf
  obtain ⟨hi, -⟩ := List.getElem?_eq_some_iff.mp hd
  rw [length_append, hlen, length_rlp_index (by omega)]

end leaves

theorem length_flatten_of_forall {α : Type} {n : Nat} {g : List (List α)}
    (hg : ∀ x ∈ g, x.length = n) : g.flatten.length = g.length * n := by
  rw [length_flatten, sum_eq_card_nsmul (g.map List.length) n (by simpa using hg),
    length_map, smul_eq_mul]

/-- Strings of one length can be told apart in a row. -/
theorem flatten_inj {α : Type} {n : Nat} (hn : n ≠ 0) {g g' : List (List α)}
    (hg : ∀ x ∈ g, x.length = n) (hg' : ∀ x ∈ g', x.length = n) (h : g.flatten = g'.flatten) :
    g = g' := by
  have hlength := congrArg List.length h
  rw [length_flatten_of_forall hg, length_flatten_of_forall hg', Nat.mul_left_inj hn] at hlength
  refine eq_iff_flatten_eq.mpr ⟨h, ?_⟩
  rw [map_eq_replicate_iff.mpr hg, map_eq_replicate_iff.mpr hg', hlength]

/-! ## The values of the tree -/

/-- The hash has no collision and no cycle among the values of the tree. -/
structure HashOk (c : Crypto) (l : List (List UInt8)) : Prop where
  injective : ∀ e ∈ treeEntries c l, ∀ e' ∈ treeEntries c l,
    c.Hash e.2.flatten = c.Hash e'.2.flatten → e.2.flatten = e'.2.flatten
  acyclic : ∀ v,
    ¬Relation.TransGen (Edge maxChildCount (nodeHash c) (treeHeight c l) l) v v

section tree

variable {c : Crypto} (hlen : ∀ b, (c.Hash b).length = 32) {data : List (List UInt8)}
variable {l g : List (List UInt8)} {t : Nat}

theorem mem_treeEntries {e : List UInt8 × List (List UInt8)} (he : e ∈ treeEntries c l) :
    ∃ t ≤ treeHeight c l, ∃ i : Nat,
      (groups maxChildCount (level maxChildCount (nodeHash c) t l))[i]?
        = some e.2 ∧ e.1 = nodeHash c e.2 := by
  obtain ⟨t, ht, i, hi, heq⟩ := mem_entries.mp (show (e.1, e.2) ∈ _ from he)
  exact ⟨t, ht, i, hi, heq.symm⟩

/-- The leaves of a node begin with the index of the first. -/
theorem group_of_leaves (hg : (groups maxChildCount (leavesOf c data))[i]? = some g) :
    ∃ d rest, i * maxChildCount < data.length ∧
      g = (rlp (.int (i * maxChildCount)) ++ c.Hash d) :: rest := by
  obtain ⟨hlt, -⟩ := groups_getElem?_some (by decide) hg
  have hhead := head?_group (by decide) hg
  rw [List.getElem?_eq_getElem hlt] at hhead
  obtain ⟨rest, rfl⟩ := List.head?_eq_some_iff.mp hhead
  obtain ⟨d, -, heq⟩ := leavesOf_getElem?.mp (List.getElem?_eq_getElem hlt)
  exact ⟨d, rest, by rwa [length_leavesOf] at hlt, by rw [heq]⟩

include hlen

/-- The values above the leaves are hashes. -/
theorem length_node {v : List UInt8}
    (hv : v ∈ level maxChildCount (nodeHash c) (t + 1) l) : v.length = 32 := by
  obtain ⟨g, -, rfl⟩ := mem_map.mp hv
  exact hlen _

theorem length_of_mem_group (hg : (groups maxChildCount
      (level maxChildCount (nodeHash c) (t + 1) l))[i]? = some g) : ∀ v ∈ g, v.length = 32 := by
  intro v hv
  obtain ⟨j, hj, -⟩ := getElem?_of_mem_group (by decide) hg hv
  exact length_node hlen (mem_of_getElem? hj)

section

variable (hdata : data.length < 2 ^ 32)
include hdata

theorem length_of_mem_leaves (hg : (groups maxChildCount (leavesOf c data))[i]? = some g) :
    ∀ v ∈ g, v.length = indexSize (i * 16) + 32 := by
  intro v hv
  obtain ⟨j, hj, rfl⟩ := getElem?_of_mem_group (by decide) hg hv
  rw [length_leaf hlen hdata hj, indexSize_div]

/-- **Leaves in a row are not the children of a node further up in a row**, or there would be a
cycle. -/
theorem no_mix (hok : HashOk c (leavesOf c data)) {j : Nat}
    (ht : t + 1 ≤ treeHeight c (leavesOf c data)) {g' : List (List UInt8)}
    (hg : (groups maxChildCount (leavesOf c data))[i]? = some g) (hg' : (groups maxChildCount
      (level maxChildCount (nodeHash c) (t + 1) (leavesOf c data)))[j]? = some g')
    (h : g.flatten = g'.flatten) : False := by
  have hcount : g.length * (indexSize (i * 16) + 32) = g'.length * 32 := by
    rw [← length_flatten_of_forall (length_of_mem_leaves hlen hdata hg), h,
      length_flatten_of_forall (length_of_mem_group hlen hg')]
  obtain ⟨hi, rfl⟩ := groups_getElem?_some (by decide) hg
  obtain ⟨hj, rfl⟩ := groups_getElem?_some (by decide) hg'
  rw [length_take, length_drop, length_take, length_drop] at hcount
  -- eight leaves and nine children
  obtain ⟨height, hnine⟩ : (leavesOf c data).length - i * 16 = 8 ∧
      (level maxChildCount (nodeHash c) (t + 1) (leavesOf c data)).length - j * 16 =
        9 := by
    simp only [indexSize, maxChildCount] at *
    split_ifs at hcount <;> omega
  -- so both nodes are the last ones of their levels
  have hlast : ∀ {s k : Nat} {e : List (List UInt8)},
      (groups maxChildCount (level maxChildCount (nodeHash c) s (leavesOf c data)))[k]? = some e →
      (level maxChildCount (nodeHash c) s (leavesOf c data)).length - k * 16 < 16 →
      k * 16 < (level maxChildCount (nodeHash c) s (leavesOf c data)).length →
      (level maxChildCount (nodeHash c) (s + 1) (leavesOf c data)).getLast?
        = some (nodeHash c e) := by
    intro s k e he hshort hk
    have hlen : (level maxChildCount (nodeHash c) (s + 1) (leavesOf c data)).length - 1
        = k := by
      rw [HashTree.level, HashTree.length_up]
      show (_ + 16 - 1) / 16 - 1 = k
      omega
    rw [List.getLast?_eq_getElem?, hlen]
    exact level_succ_getElem? he
  have hv := hlast (s := 0) hg (by simp only [level]; omega) hi
  have hv' := hlast hg' (by omega) hj
  obtain ⟨w, hw, hpath⟩ := last_path (by decide) (d := t)
    (show 1 + t ≤ treeHeight c (leavesOf c data) by omega) hv
  rw [show 1 + t + 1 = t + 1 + 1 by omega, hv'] at hw
  cases hw
  rw [nodeHash, h] at hpath
  exact hok.acyclic _ hpath

/-- The value of a node determines its first child. -/
theorem heads_eq (hok : HashOk c (leavesOf c data)) :
    ∀ e ∈ treeEntries c (leavesOf c data), ∀ e' ∈ treeEntries c (leavesOf c data),
      e.1 = e'.1 → e.2.head? = e'.2.head? := by
  intro e he e' he' heq
  obtain ⟨t, ht, i, hi, hnode⟩ := mem_treeEntries he
  obtain ⟨t', ht', i', hi', hnode'⟩ := mem_treeEntries he'
  have hflat := hok.injective e he e' he' (by rwa [hnode, hnode', nodeHash, nodeHash] at heq)
  cases t with
  | zero =>
    cases t' with
    | zero =>
      obtain ⟨d, rest, hlt, hrest⟩ := group_of_leaves hi
      obtain ⟨d', rest', hlt', hrest'⟩ := group_of_leaves hi'
      rw [hrest, hrest', flatten_cons, flatten_cons, append_assoc, append_assoc] at hflat
      have hindex := rlp_index_append_inj (by omega) (by omega) hflat
      rw [head?_group (by decide) hi, head?_group (by decide) hi']
      exact congrArg _ hindex
    | succ t' => exact (no_mix hlen hdata hok ht' hi hi' hflat).elim
  | succ t =>
    cases t' with
    | zero => exact (no_mix hlen hdata hok ht hi' hi hflat.symm).elim
    | succ t' =>
      rw [flatten_inj (by decide) (length_of_mem_group hlen hi) (length_of_mem_group hlen hi')
        hflat]

theorem ne_nil_of_mem_children {e : List UInt8 × List (List UInt8)}
    (he : e ∈ treeEntries c (leavesOf c data)) {v : List UInt8} (hv : v ∈ e.2) : v ≠ [] := by
  obtain ⟨t, -, i, hi, -⟩ := mem_treeEntries he
  refine length_pos_iff.mp ?_
  cases t with
  | zero =>
    rw [length_of_mem_leaves hlen hdata hi v hv]
    omega
  | succ t =>
    rw [length_of_mem_group hlen hi v hv]
    omega

/-- **No value stands at two places of the tree.** -/
theorem distinct_tree (hok : HashOk c (leavesOf c data)) :
    Distinct maxChildCount (nodeHash c) (treeHeight c (leavesOf c data)) (leavesOf c data) := by
  refine distinct_of_heads (by decide) ?_ ?_ (heads_eq hlen hdata hok)
  · intro i j v hi hj
    obtain ⟨d, hd, rfl⟩ := leavesOf_getElem?.mp hi
    obtain ⟨d', hd', heq⟩ := leavesOf_getElem?.mp hj
    obtain ⟨hi', -⟩ := List.getElem?_eq_some_iff.mp hd
    obtain ⟨hj', -⟩ := List.getElem?_eq_some_iff.mp hd'
    exact rlp_index_append_inj (by omega) (by omega) heq
  · intro t _ i v hv hmem
    obtain ⟨j, hj⟩ := mem_iff_getElem?.mp hmem
    have hleaf := length_leaf hlen hdata hj
    rw [length_node hlen (mem_of_getElem? hv), indexSize] at hleaf
    split_ifs at hleaf <;> omega

end

end tree

/-! ## The maps -/

section maps

variable {m : Parent2ChildListMap}

theorem emplaceBack_last {p : List UInt8} (hp : p ∉ m.map Prod.fst) (children : List (List UInt8))
    (child : List UInt8) :
    emplaceBack (m ++ [(p, children)]) p child = m ++ [(p, children ++ [child])] := by
  have hm : (m.map fun e => if e.1 = p then (e.1, e.2 ++ [child]) else e) = m := by
    refine (map_congr_left fun e he => if_neg fun heq => hp ?_).trans (map_id' m)
    exact mem_map.mpr ⟨e, he, heq⟩
  rw [emplaceBack, if_pos (by simp), map_append, hm]
  simp

/-- A node that is new to the map gets its children. -/
theorem pushChildren_eq {e : List UInt8 × List (List UInt8)} (he : e.1 ∉ m.map Prod.fst)
    (hne : e.2 ≠ []) : pushChildren m e = m ++ [e] := by
  have hrest : ∀ children rest : List (List UInt8),
      rest.foldl (fun m child => emplaceBack m e.1 child) (m ++ [(e.1, children)])
        = m ++ [(e.1, children ++ rest)] := by
    intro children rest
    induction rest generalizing children with
    | nil => simp
    | cons child rest ih => rw [foldl_cons, emplaceBack_last he, ih, append_assoc]; rfl
  obtain ⟨p, children⟩ := e
  cases children with
  | nil => exact absurd rfl hne
  | cons child rest =>
    rw [pushChildren, foldl_cons, emplaceBack, if_neg he, hrest]
    rfl

theorem foldl_pushChildren {es : Parent2ChildListMap} (hnodup : ((m ++ es).map Prod.fst).Nodup)
    (hne : ∀ e ∈ es, e.2 ≠ []) : es.foldl pushChildren m = m ++ es := by
  induction es generalizing m with
  | nil => simp
  | cons e es ih =>
    have he : e.1 ∉ m.map Prod.fst := by
      rw [map_append, nodup_append] at hnodup
      exact fun hmem => hnodup.2.2 _ hmem _ (by simp) rfl
    rw [foldl_cons, pushChildren_eq he (hne e (by simp)), ih (by simpa using hnodup)
      (fun e' he' => hne e' (by simp [he'])), append_assoc]
    rfl

end maps

/-! ## The proofs -/

/-- From a leaf by hashing what is to the left, the node and what is to the right. -/
def foldProof (c : Crypto) (leaf : List UInt8)
    (proof : List (List (List UInt8) × List (List UInt8))) : List UInt8 :=
  proof.foldl (fun node siblings => c.Hash (siblings.1.flatten ++ node ++ siblings.2.flatten)) leaf

theorem foldProof_eq_climb (c : Crypto) (leaf : List UInt8)
    (proof : List (List (List UInt8) × List (List UInt8))) :
    foldProof c leaf proof = climb (nodeHash c) leaf proof := by
  simp only [foldProof, climb, nodeHash, flatten_append, flatten_cons, append_assoc]

section proofs

variable {c : Crypto} (hlen : ∀ b, (c.Hash b).length = 32) {data : List (List UInt8)}
  (hdata : data.length < 2 ^ 32) (hok : HashOk c (leavesOf c data))
include hlen hdata hok

/-- The map holds the nodes of the tree with their children, in some order. -/
theorem getMerkleProof_perm (order : Schedule (List UInt8 × List (List UInt8))) (hne : data ≠ []) :
    (getMerkleProof c order (leavesOf c data)).Perm (treeEntries c (leavesOf c data)) := by
  have hleaves : leavesOf c data ≠ [] := by
    rw [← length_pos_iff, length_leavesOf]
    exact length_pos_iff.mpr hne
  have hperm := order.perm (treeEntries c (leavesOf c data))
  have hnodup := (hperm.map Prod.fst).nodup_iff.mpr
    (nodup_keys (distinct_tree hlen hdata hok))
  have hchildren : ∀ e ∈ order.run (treeEntries c (leavesOf c data)), e.2 ≠ [] := by
    intro e he hnil
    obtain ⟨t, -, i, hi, -⟩ := mem_treeEntries (hperm.mem_iff.mp he)
    exact group_ne_nil (by decide) hi hnil
  rw [getMerkleProof, if_neg (by simpa using hleaves),
    proofLoop_eq_treeEntries hleaves, foldl_pushChildren (m := []) hnodup hchildren]
  exact hperm

/-- **The walk through the maps leads to the root.** -/
theorem getMerkleProof_root {m m' : Parent2ChildListMap}
    (hm : m.Perm (treeEntries c (leavesOf c data)))
    (hm' : m'.Perm (treeEntries c (leavesOf c data))) (order : Schedule (List UInt8 × List UInt8))
    {d : List UInt8} (hi : data[i]? = some d) {fuel : Nat} (hfuel : data.length + 2 ≤ fuel) :
    ∃ proof, BlockChainImp.getMerkleProof fuel (getHashNeed2Proof c i d) m
        (parseMerkleMap order m') = some proof ∧
      foldProof c (getHashNeed2Proof c i d) proof = getHash256 c (leavesOf c data) := by
  have hdistinct := distinct_tree hlen hdata hok
  have hleaf : (leavesOf c data)[i]? = some (getHashNeed2Proof c i d) :=
    leavesOf_getElem?.mpr ⟨d, hi, rfl⟩
  have hleaves : leavesOf c data ≠ [] := ne_nil_of_mem (mem_of_getElem? hleaf)
  have hwrites : ∀ child p, (child, p) ∈ (parseMerkleMap order m').reverse ↔
      ∃ g, (p, g) ∈ treeEntries c (leavesOf c data) ∧ child ∈ g ∧ child ≠ [] := by
    intro child p
    rw [mem_reverse, parseMerkleMap, (order.perm _).mem_iff, mem_flatMap]
    constructor
    · rintro ⟨e, he, hmem⟩
      obtain ⟨child', hchild', heq⟩ := mem_map.mp hmem
      cases heq
      rw [mem_filter, decide_eq_true_eq] at hchild'
      exact ⟨e.2, hm'.mem_iff.mp he, hchild'⟩
    · rintro ⟨g, hg, hchild, hne⟩
      refine ⟨(p, g), hm'.mem_iff.mpr hg, mem_map.mpr ⟨child, ?_, rfl⟩⟩
      rw [mem_filter, decide_eq_true_eq]
      exact ⟨hchild, hne⟩
  have hchildren : ∀ p g, (p, g) ∈ treeEntries c (leavesOf c data) →
      List.lookup p m = some g := fun p g hg =>
    (Dictionary.lookup_eq_some_iff ((hm.map Prod.fst).nodup_iff.mpr
      (nodup_keys hdistinct))).mpr (hm.mem_iff.mpr hg)
  have hparent : ∀ v p, (parseMerkleMap order m').find v = some p →
      ∃ g, (p, g) ∈ treeEntries c (leavesOf c data) ∧ v ∈ g := by
    intro v p hp
    obtain ⟨g, hg, hv, -⟩ := (hwrites v p).mp (Dictionary.mem_of_lookup hp)
    exact ⟨g, hg, hv⟩
  have hnone : ∀ e ∈ treeEntries c (leavesOf c data), ∀ v ∈ e.2,
      (parseMerkleMap order m').find v ≠ none := fun e he v hv =>
    Dictionary.lookup_ne_none
      ((hwrites v e.1).mpr ⟨e.2, he, hv, ne_nil_of_mem_children hlen hdata he hv⟩)
  have hheight : treeHeight c (leavesOf c data) ≤ data.length := by
    rw [← length_leavesOf (c := c)]
    exact height_le _ _
  obtain ⟨proof, hproof, hroot⟩ := walk_root (by decide) hdistinct
    (length_level_succ_height (by decide) hleaves (by omega)) hchildren hparent hnone
    (Nat.zero_le _) hleaf (show treeHeight c (leavesOf c data) + 2 ≤ fuel + 0 by omega)
  refine ⟨proof, hproof, ?_⟩
  rw [foldProof_eq_climb]
  exact Option.some.inj (hroot.symm.trans (getHash256_eq hleaves))

end proofs

/-! ## Queries -/

section queries

variable {env : BlockEnv Tx} {chain : Int → StoredBlock Tx} {what : ProofOf}

theorem StoredBlock.root_eq (hv : env.version = .v220) (b : StoredBlock Tx) (what : ProofOf) :
    b.root env what = getHash256 env.crypto (leavesOf env.crypto (b.data env what)) := by
  cases what with
  | transaction =>
    show txsRoot env b.transactions = _
    simp only [txsRoot, hv, StoredBlock.data, leavesOf, map_map]
    rfl
  | receipt =>
    have hmap : (b.receipts.map fun fields => some ({ fields } : TransactionReceipt)).mapM id
        = some (b.receipts.map fun fields => { fields }) := by
      induction b.receipts with
      | nil => rfl
      | cons r rs ih => simp [ih]
    simp only [StoredBlock.root, FullBlock.calReceiptRoot, FullBlock.allReceipts, hmap,
      FullBlock.useReceipts, if_true]
    show receiptsRoot env _ _ = _
    simp only [receiptsRoot, hv, leavesOf, StoredBlock.data, map_map]
    rfl

theorem cached_cases {α : Type} (cache : Option (Int × α)) (number : Int) (compute : α) :
    (∃ a, cache = some (number, a) ∧ cached cache number compute = a) ∨
      cached cache number compute = compute := by
  cases cache with
  | none => exact .inr rfl
  | some e =>
    by_cases hn : e.1 = number
    · exact .inl ⟨e.2, by rw [← hn], if_pos hn⟩
    · exact .inr (if_neg hn)

/-- The maps in the caches are those of the blocks with their numbers. -/
structure CachesOk (env : BlockEnv Tx) (chain : Int → StoredBlock Tx) (what : ProofOf)
    (s : ProofCaches) : Prop where
  parent2ChildList : ∀ n m, s.parent2ChildList = some (n, m) → ∃ order,
    m = getMerkleProof env.crypto order ((chain n).leaves env what)
  child2Parent : ∀ n w, s.child2Parent = some (n, w) → ∃ order order',
    w = parseMerkleMap order'
      (getMerkleProof env.crypto order ((chain n).leaves env what))

namespace CachesOk

variable {s : ProofCaches} (h : CachesOk env chain what s) (q : ProofQuery)
include h

theorem getParent2ChildList_eq : ∃ order, getParent2ChildList env chain what s q
    = getMerkleProof env.crypto order ((chain q.number).leaves env what) := by
  rcases cached_cases s.parent2ChildList q.number _ with ⟨m, hcache, heq⟩ | heq
  · obtain ⟨order, rfl⟩ := h.parent2ChildList _ _ hcache
    exact ⟨order, heq⟩
  · exact ⟨_, heq⟩

theorem getChild2Parent_eq : ∃ order order', getChild2Parent env chain what s q
    = parseMerkleMap order'
        (getMerkleProof env.crypto order ((chain q.number).leaves env what)) := by
  obtain ⟨order, horder⟩ := h.getParent2ChildList_eq q
  rcases cached_cases s.child2Parent q.number _ with ⟨w, hcache, heq⟩ | heq
  · obtain ⟨order₁, order₂, rfl⟩ := h.child2Parent _ _ hcache
    exact ⟨order₁, order₂, heq⟩
  · exact ⟨order, _, heq.trans (congrArg _ horder)⟩

theorem step {s' : ProofCaches} (hstep : proofStep env chain what s q = some s') :
    CachesOk env chain what s' := by
  rw [proofStep] at hstep
  split at hstep
  · cases hstep
    exact h
  · cases hstep
    refine ⟨fun n m heq => ?_, fun n w heq => ?_⟩
    · cases heq
      exact h.getParent2ChildList_eq q
    · cases heq
      exact h.getChild2Parent_eq q

end CachesOk

/-- **Merkle proofs verify.** Whatever has been asked for before and in whatever order the
parallel loops run, the proof for the transaction or receipt at an index leads from it to the root
in the header. -/
theorem merkle_proof_verifies (env : BlockEnv Tx) (hv : env.version = .v220)
    (hlen : ∀ b, (env.crypto.Hash b).length = 32) (chain : Int → StoredBlock Tx) (what : ProofOf)
    {qs : List ProofQuery} {s : ProofCaches} (hrun : Run (Steps (proofStep env chain what)) {} qs s)
    (q : ProofQuery) {d : List UInt8} (hd : ((chain q.number).data env what)[q.index]? = some d)
    (hcount : ((chain q.number).data env what).length < 2 ^ 32)
    (hok : HashOk env.crypto ((chain q.number).leaves env what)) :
    ∃ bound, ∀ fuel ≥ bound, ∃ proof, getProof env chain what s q fuel = some proof ∧
      foldProof env.crypto (rlp (.int q.index) ++ env.crypto.Hash d) proof
        = (chain q.number).root env what := by
  have hcaches : CachesOk env chain what s := by
    refine hrun.invariant (fun _ s => CachesOk env chain what s) ⟨by simp, by simp⟩ ?_
    exact fun _ s q s' h hstep => h.step q hstep
  have hne : (chain q.number).data env what ≠ [] := ne_nil_of_mem (mem_of_getElem? hd)
  obtain ⟨order, horder⟩ := hcaches.getParent2ChildList_eq q
  obtain ⟨order₁, order₂, horder₂⟩ := hcaches.getChild2Parent_eq q
  refine ⟨((chain q.number).data env what).length + 2, fun fuel hfuel => ?_⟩
  obtain ⟨proof, hproof, hfold⟩ := getMerkleProof_root hlen hcount hok
    (getMerkleProof_perm hlen hcount hok order hne)
    (getMerkleProof_perm hlen hcount hok order₁ hne) order₂ hd hfuel
  refine ⟨proof, ?_, ?_⟩
  · simp only [getProof, hd, horder, horder₂]
    exact hproof
  · rw [StoredBlock.root_eq hv]
    exact hfold

end queries

/-- Blocks of seventeen transactions, whose trees have a level between the leaves and the root. -/
def pairsChain (_ : Int) : StoredBlock (UInt8 × UInt8) where
  transactions := (List.range 17).map fun i => (UInt8.ofNat i, 3)
  receipts := []

def pairsQuery (number : Int) : ProofQuery :=
  ⟨number, 16, ⟨id, fun _ => .refl _⟩, ⟨id, fun _ => .refl _⟩⟩

/-- Grows on the way from a leaf to the root. -/
def pairsRank (v : List UInt8) : Nat := if v.length = 32 then (v.getLastD 0).toNat else 0

theorem pairs_proof_verifies :
    ∃ s, Run (Steps (proofStep pairsEnv pairsChain .transaction)) {} [pairsQuery 4] s ∧
    ((pairsChain 5).data pairsEnv .transaction)[16]? = some [16, 3] ∧
    ∃ bound, ∀ fuel ≥ bound, ∃ proof,
      getProof pairsEnv pairsChain .transaction s (pairsQuery 5) fuel = some proof ∧
      foldProof sumCrypto (rlp (.int (16 : Nat)) ++ sumCrypto.Hash [16, 3]) proof
        = (pairsChain 5).root pairsEnv .transaction := by
  have hrun : Run (Steps (proofStep pairsEnv pairsChain .transaction)) {} [pairsQuery 4] _ :=
    .snoc .nil rfl
  have hlen : ∀ b, (pairsEnv.crypto.Hash b).length = 32 := fun b => by
    simp [pairsEnv, sumCrypto]
  have hdata : ((pairsChain 5).data pairsEnv .transaction)[16]? = some [16, 3] := by
    decide +kernel
  have hinjective : ∀ e ∈ treeEntries sumCrypto ((pairsChain 5).leaves pairsEnv .transaction),
      ∀ e' ∈ treeEntries sumCrypto ((pairsChain 5).leaves pairsEnv .transaction),
      sumCrypto.Hash e.2.flatten = sumCrypto.Hash e'.2.flatten →
        e.2.flatten = e'.2.flatten := by
    decide +kernel
  have hrank : ∀ e ∈ treeEntries sumCrypto ((pairsChain 5).leaves pairsEnv .transaction),
      ∀ v ∈ e.2, pairsRank v < pairsRank e.1 := by
    decide +kernel
  have hacyclic : ∀ v w, Relation.TransGen (Edge maxChildCount (nodeHash sumCrypto)
      (treeHeight sumCrypto ((pairsChain 5).leaves pairsEnv .transaction))
      ((pairsChain 5).leaves pairsEnv .transaction)) v w → pairsRank v < pairsRank w := by
    intro v w h
    induction h with
    | single hedge =>
      obtain ⟨g, hg, hv⟩ := hedge
      exact hrank _ hg _ hv
    | tail _ hedge ih =>
      obtain ⟨g, hg, hv⟩ := hedge
      exact ih.trans (hrank _ hg _ hv)
  exact ⟨_, hrun, hdata, merkle_proof_verifies pairsEnv rfl hlen pairsChain .transaction hrun
    (pairsQuery 5) hdata (by decide) ⟨hinjective, fun v h => Nat.lt_irrefl _ (hacyclic v v h)⟩⟩

end Rcc.Block
