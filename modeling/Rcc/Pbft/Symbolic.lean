import Rcc.Pbft.Common

/-!
# Rcc.Pbft.Symbolic

Symbolic cryptography: a digest is the term that was hashed, a signature is the record of who
signed what. Hashing is injective by construction, and a signature verifies for exactly one
signer and one digest. The `salt` tells apart the several signatures that one key can make
for one digest, as ECDSA allows.

The concrete runs of the development (witnesses and failing inputs) use this instance.
-/

namespace Rcc.Pbft

/-- Digests as terms. -/
inductive Digest where
  | leaf (n : Nat)
  | pair (a b : Digest)
deriving DecidableEq, Inhabited

structure Signature where
  signer : Nat
  digest : Digest
  salt : Nat
deriving DecidableEq, Inhabited

namespace Digest

def ofInt : Int → Digest
  | .ofNat n => pair (leaf 0) (leaf n)
  | .negSucc n => pair (leaf 1) (leaf n)

def ofList : List Digest → Digest
  | [] => leaf 0
  | d :: l => pair d (ofList l)

def ofHeader (h : BlockHeader Digest Nat) : Digest :=
  ofList [h.parentHash, h.stateRoot, h.transactionsRoot, ofInt h.number, leaf h.gasLimit,
    leaf h.gasUsed, leaf h.timestamp, leaf h.sealer, ofList (h.sealerList.map leaf)]

/-- The tag keeps the three kinds of preimage apart. -/
def ofPreimage : Preimage Digest Nat → Digest
  | .header h => pair (leaf 0) (ofHeader h)
  | .transactions hashes => pair (leaf 1) (ofList hashes)
  | .fields height view idx timestamp =>
    pair (leaf 2) (ofList [ofInt height, ofInt view, leaf idx, leaf timestamp])

theorem ofInt_injective : Function.Injective ofInt := by
  intro a b h
  cases a <;> cases b <;> simp_all [ofInt]

theorem ofList_injective : Function.Injective ofList := by
  intro a
  induction a with
  | nil =>
    intro b h
    cases b with
    | nil => rfl
    | cons d l => simp [ofList] at h
  | cons d l ih =>
    intro b h
    cases b with
    | nil => simp [ofList] at h
    | cons d' l' =>
      simp only [ofList, pair.injEq] at h
      rw [h.1, ih h.2]

theorem leaf_injective : Function.Injective leaf := fun _ _ h => leaf.inj h

theorem ofHeader_injective : Function.Injective ofHeader := by
  intro a b h
  have hfields := ofList_injective h
  simp only [List.cons.injEq, and_true] at hfields
  obtain ⟨h1, h2, h3, h4, h5, h6, h7, h8, h9⟩ := hfields
  have h9' := List.map_injective_iff.mpr leaf_injective (ofList_injective h9)
  cases a
  simp_all [ofInt_injective.eq_iff]

theorem ofPreimage_injective : Function.Injective ofPreimage := by
  intro a b h
  cases a <;> cases b <;> simp only [ofPreimage, pair.injEq] at h
  case header.header => rw [ofHeader_injective h.2]
  case transactions.transactions => rw [ofList_injective h.2]
  case fields.fields =>
      have hfields := ofList_injective h.2
      simp only [List.cons.injEq, ofInt_injective.eq_iff] at hfields
      simp_all
  all_goals simp at h

end Digest

/-- The symbolic primitives. -/
def symbolic : Crypto Digest Nat Signature where
  hash := Digest.ofPreimage
  sign id h := ⟨id, h, 0⟩
  verify id s h := s.signer == id && s.digest == h

theorem symbolic_lawful : symbolic.Lawful where
  verify_sign id h := by simp [symbolic]
  verify_unique id id' sg h h₁ h₂ := by simp_all [symbolic]

theorem symbolic_hash_injective : Function.Injective symbolic.hash := Digest.ofPreimage_injective

/-- The order inside vote caches is never observed, so one bucket does for both keys. -/
instance : StdHash Digest := ⟨fun _ => 0⟩

instance : StdHash Signature := ⟨fun _ => 0⟩

/-! ### Concrete blocks -/

/-- A transaction named by a number, as decoded from the network. -/
def symbolicTx (n : Nat) : Transaction Digest := ⟨.leaf n, n, 500, none⟩

def symbolicGenesis : Block Digest Nat Signature where
  header :=
    { parentHash := .leaf 0
      stateRoot := .leaf 1
      transactionsRoot := .leaf 2
      number := 0
      gasLimit := 0
      gasUsed := 0
      timestamp := 0
      sealer := 0
      sealerList := [] }
  transactions := []
  sigList := []

/-- A block of height `number` sealed by the sealer with index `sealer`. -/
def symbolicBlock (number : Int) (sealer : Nat) (txs : List Nat) : Block Digest Nat Signature :=
  Block.calTransactionRoot symbolic
    { symbolicGenesis with
      header := { symbolicGenesis.header with number := number, sealer := sealer }
      transactions := txs.map symbolicTx }

/-- The proposal that the sealer `key`, of index `idx`, makes of its block. -/
def symbolicProposal (key idx : Nat) (number : Int) (txs : List Nat) :
    PrepareReq4nl Digest Nat Signature :=
  PrepareReq4nl.ofBlock symbolic key (symbolicBlock number idx txs) 0 idx 0

end Rcc.Pbft
