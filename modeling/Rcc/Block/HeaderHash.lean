import Rcc.Lib.Run
import Rcc.Block.BlockHeader

/-!
# Rcc.Block.HeaderHash

The memo `m_hash` of a block header over every sequence of operations on headers.

`hash()` computes the hash if the memo is `h256()`, and every setter puts `h256()` there by
`noteDirty`. `populate` assigns all the fields and does not, and the constructor from bytes
remembers the hash of the bytes, or the one it is given.

* `Prompt` — what it takes for these two: a header is populated before it has been asked for its
  hash, and constructed from what `encode` writes;
* `hash_current` — then `hash()` is the hash of the fields of the moment, for every header of
  every run;
* `populate_keeps_hash` — a header asked for its hash and then populated keeps the old hash.
-/

namespace Rcc.Block

open List

/-- A header: the fields and `m_hash`. -/
structure BlockHeader where
  fields : Fields := {}
  hash : List UInt8 := noHash
  deriving DecidableEq

namespace BlockHeader

/-- `hash()`, what it returns. -/
def askHash (c : Crypto) (h : BlockHeader) : List UInt8 :=
  Memo.ask (· = noHash) h.hash (c.Hash (h.fields.encode c))

/-- `hash()`, what it leaves behind. -/
def remember (c : Crypto) (h : BlockHeader) : BlockHeader := { h with hash := h.askHash c }

def noteDirty (h : BlockHeader) : BlockHeader := { h with hash := noHash }

/-- A setter: it assigns and calls `noteDirty`. -/
def assign (h : BlockHeader) (update : Fields → Fields) : BlockHeader :=
  { h with fields := update h.fields }.noteDirty

/-- `BlockHeader(bytesConstRef, BlockDataType, h256 const&)` -/
def construct (c : Crypto) (data : List UInt8) (bdt : BlockDataType) (hashWith : List UInt8) :
    Except HeaderError BlockHeader := do
  let header ← headerRlp data bdt
  let hash := if hashWith = noHash then c.Hash header else hashWith
  match Block.populate header {} with
  | (fields, none) => return { fields, hash }
  | (_, some e) => throw (.rlp e)

def populate (d : List UInt8) (h : BlockHeader) : BlockHeader :=
  { h with fields := (Block.populate d h.fields).1 }

/-- `decode`; an `RLP` that cannot be made leaves the header alone. -/
def decode (data : List UInt8) (h : BlockHeader) : BlockHeader :=
  match Rlp.make data .veryStrict with
  | .ok d => h.populate d
  | .error _ => h

def clear (c : Crypto) (h : BlockHeader) : BlockHeader :=
  h.assign fun _ =>
    { stateRoot := c.emptyTrie, transactionsRoot := c.emptyTrie, receiptsRoot := c.emptyTrie }

end BlockHeader

/-- The setters, with their arguments. -/
inductive Setter
  | setParentHash (parentHash : List UInt8)
  | setRoots (transRoot receiptRoot stateRoot : List UInt8)
  | setDBhash (dbHash : List UInt8)
  | setLogBloom (logBloom : List UInt8)
  | setNumber (blockNumber : Int)
  | setGasLimit (gasLimit : Nat)
  | setGasUsed (gasUsed : Nat)
  | appendExtraDataArray (content : List UInt8)
  | appendExtraDataItem (content : List UInt8) (index : Nat)
  | setExtraDataItem (content : List UInt8) (index : Nat)
  | setExtraData (extra : List (List UInt8))
  | setTimestamp (timestamp : Nat)
  | setSealer (sealer : Nat)
  | setSealerList (sealerList : List (List UInt8))
  | setStateRoot (stateRoot : List UInt8)
  | setTransactionsRoot (transactionsRoot : List UInt8)
  | setReceiptsRoot (receiptsRoot : List UInt8)

/-- An item of the extra data, if there is one of this index; otherwise nothing happens. -/
def BlockHeader.assignExtraData (h : BlockHeader) (content : List UInt8) (index : Nat) :
    BlockHeader :=
  if h.fields.extraData.length ≤ index then h
  else h.assign fun f => { f with extraData := f.extraData.set index content }

def Setter.apply (h : BlockHeader) : Setter → BlockHeader
  | setParentHash v => h.assign ({ · with parentHash := v })
  | setRoots t r s => h.assign ({ · with transactionsRoot := t, receiptsRoot := r, stateRoot := s })
  | setDBhash v => h.assign ({ · with dbHash := v })
  | setLogBloom v => h.assign ({ · with logBloom := v })
  | setNumber v => h.assign ({ · with number := v })
  | setGasLimit v => h.assign ({ · with gasLimit := v })
  | setGasUsed v => h.assign ({ · with gasUsed := v })
  | appendExtraDataArray v => h.assign fun f => { f with extraData := f.extraData ++ [v] }
  | appendExtraDataItem v i => h.assignExtraData v i
  | setExtraDataItem v i => h.assignExtraData v i
  | setExtraData v => h.assign ({ · with extraData := v })
  | setTimestamp v => h.assign ({ · with timestamp := v })
  | setSealer v => h.assign ({ · with sealer := v })
  | setSealerList v => h.assign ({ · with sealerList := v })
  | setStateRoot v => h.assign ({ · with stateRoot := v })
  | setTransactionsRoot v => h.assign ({ · with transactionsRoot := v })
  | setReceiptsRoot v => h.assign ({ · with receiptsRoot := v })

/-! ## Runs

The state is the headers that have been constructed; they are known by their positions. -/

inductive HeaderEvent
  /-- `BlockHeader()` -/
  | create
  | construct (data : List UInt8) (bdt : BlockDataType) (hashWith : List UInt8)
  /-- the copy constructor -/
  | copy (other : Nat)
  /-- `operator=` -/
  | assign (this other : Nat)
  | populate (this : Nat) (header : List UInt8)
  | decode (this : Nat) (headerData : List UInt8)
  | populateFromParent (this parent : Nat)
  | set (this : Nat) (setter : Setter)
  | clear (this : Nat)
  | hash (this : Nat)

variable (c : Crypto) (s : List BlockHeader)

/-- Assignment by assignment, since a header may be given as its own parent. -/
def populateFromParent (this parent : Nat) :
    Option (List BlockHeader) := do
  let h ← s[this]?
  let p ← s[parent]?
  let s := s.set this { h with
    fields := { h.fields with stateRoot := p.fields.stateRoot, number := p.fields.number + 1 } }
  let p ← s[parent]?
  let s := s.set parent (p.remember c)
  let h ← s[this]?
  return s.set this <| h.assign ({ · with
    parentHash := p.askHash c, gasLimit := p.fields.gasLimit, gasUsed := 0,
    sealer := invalid256 })

/-- A constructor that throws leaves no header behind. -/
def headerStep : HeaderEvent → Option (List BlockHeader)
  | .create => some (s ++ [{}])
  | .construct data bdt hashWith =>
    match BlockHeader.construct c data bdt hashWith with
    | .ok h => some (s ++ [h])
    | .error _ => some s
  | .copy other => s[other]?.map fun h => s.set other (h.remember c) ++ [h.remember c]
  | .assign this other => do
    let _ ← s[this]?
    let h ← s[other]?
    return if this = other then s else (s.set other (h.remember c)).set this (h.remember c)
  | .populate this header => s[this]?.map fun h => s.set this (h.populate header)
  | .decode this headerData => s[this]?.map fun h => s.set this (h.decode headerData)
  | .populateFromParent this parent => populateFromParent c s this parent
  | .set this setter => s[this]?.map fun h => s.set this (setter.apply h)
  | .clear this => s[this]?.map fun h => s.set this (h.clear c)
  | .hash this => s[this]?.map fun h => s.set this (h.remember c)

/-- Populated before the hash has been asked for since the last change; constructed from the
encoding of fields, with their hash if with any. -/
def Prompt : HeaderEvent → Prop
  | .construct data bdt hashWith => ∀ header, headerRlp data bdt = .ok header →
      (∃ f : Fields, f.WellFormed ∧ header = f.encode c) ∧
        (hashWith = noHash ∨ hashWith = c.Hash header)
  | .populate this _ => ∀ h, s[this]? = some h → h.hash = noHash
  | .decode this _ => ∀ h, s[this]? = some h → h.hash = noHash
  | _ => True

/-! ## The memo is not stale -/

/-- The memo is not stale. -/
def BlockHeader.Fresh (c : Crypto) (h : BlockHeader) : Prop :=
  Memo.Fresh (· = noHash) h.hash (c.Hash (h.fields.encode c))

namespace BlockHeader

variable {c : Crypto} {h : BlockHeader}

theorem askHash_eq (hh : h.Fresh c) : h.askHash c = c.Hash (h.fields.encode c) := Memo.ask_eq _ hh

theorem fresh_remember (hh : h.Fresh c) : (h.remember c).Fresh c := Memo.fresh_ask _ hh

theorem fresh_of_dirty (hdirty : h.hash = noHash) : h.Fresh c := Or.inl hdirty

theorem fresh_assign (update : Fields → Fields) : (h.assign update).Fresh c := fresh_of_dirty rfl

theorem fresh_populate (hdirty : h.hash = noHash) (d : List UInt8) : (h.populate d).Fresh c :=
  fresh_of_dirty hdirty

theorem fresh_decode (hdirty : h.hash = noHash) (data : List UInt8) : (h.decode data).Fresh c := by
  rw [decode]
  split
  · exact fresh_populate hdirty _
  · exact fresh_of_dirty hdirty

theorem fresh_set (hh : h.Fresh c) (setter : Setter) : (setter.apply h).Fresh c := by
  have hextra : ∀ content index, (h.assignExtraData content index).Fresh c := by
    intro content index
    rw [assignExtraData]
    split
    · exact hh
    · exact fresh_assign _
  cases setter with
  | appendExtraDataItem content index | setExtraDataItem content index => exact hextra content index
  | _ => exact fresh_assign _

theorem fresh_construct {data hashWith : List UInt8} {bdt : BlockDataType}
    (hprompt : ∀ header, headerRlp data bdt = .ok header →
      (∃ f : Fields, f.WellFormed ∧ header = f.encode c) ∧
        (hashWith = noHash ∨ hashWith = c.Hash header))
    (hh : construct c data bdt hashWith = .ok h) : h.Fresh c := by
  obtain ⟨header, hheader, hh⟩ := Except.bind_eq_ok.mp hh
  obtain ⟨⟨f, hf, rfl⟩, hhash⟩ := hprompt header hheader
  -- the fields are those of the encoding, the hash is that of the encoding
  rw [populate_encode c hf] at hh
  obtain rfl := Except.pure_eq_ok.mp hh
  right
  rcases hhash with rfl | rfl
  · show (if noHash = noHash then c.Hash (f.encode c) else noHash) = _
    exact if_pos rfl
  · exact ite_self _

end BlockHeader

/-- Every header of the state is fresh. -/
def AllFresh : Prop := ∀ h ∈ s, h.Fresh c

namespace AllFresh

variable {c : Crypto} {s : List BlockHeader} {h : BlockHeader} {i : Nat}

section

variable (hs : AllFresh c s)
include hs

theorem get (hi : s[i]? = some h) : h.Fresh c := hs h (mem_of_getElem? hi)

theorem set (hh : h.Fresh c) : AllFresh c (s.set i h) := by
  intro k hk
  rcases mem_or_eq_of_mem_set hk with hk | rfl
  · exact hs k hk
  · exact hh

theorem snoc (hh : h.Fresh c) : AllFresh c (s ++ [h]) := by
  intro k hk
  rcases mem_append.mp hk with hk | hk
  · exact hs k hk
  · exact mem_singleton.mp hk ▸ hh

/-- Setting what comes after the parent's hash makes a header dirty; what comes before is
overwritten. -/
theorem populateFromParent {s' : List BlockHeader} {this parent : Nat}
    (hstep : Block.populateFromParent c s this parent = some s') : AllFresh c s' := by
  simp only [Block.populateFromParent, Option.bind_eq_bind, Option.bind_eq_some_iff,
    Option.pure_def, Option.some.injEq] at hstep
  obtain ⟨h, hh, p, -, p', hp', h', -, rfl⟩ := hstep
  obtain ⟨hlt, -⟩ := List.getElem?_eq_some_iff.mp hh
  intro k hk
  obtain ⟨i, hi⟩ := mem_iff_getElem?.mp hk
  by_cases hthis : i = this
  · subst hthis
    rw [List.getElem?_set_self (by simpa using hlt)] at hi
    exact Option.some.inj hi ▸ BlockHeader.fresh_assign _
  rw [List.getElem?_set_ne (Ne.symm hthis)] at hi
  by_cases hparent : i = parent
  · subst hparent
    rw [List.getElem?_set_ne (Ne.symm hthis)] at hp'
    obtain ⟨hlt', -⟩ := List.getElem?_eq_some_iff.mp hp'
    rw [List.getElem?_set_self (by simpa using hlt')] at hi
    exact Option.some.inj hi ▸ BlockHeader.fresh_remember (hs.get hp')
  · rw [List.getElem?_set_ne (Ne.symm hparent), List.getElem?_set_ne (Ne.symm hthis)] at hi
    exact hs.get hi

theorem step {s' : List BlockHeader} {e : HeaderEvent} (hprompt : Prompt c s e)
    (hstep : headerStep c s e = some s') : AllFresh c s' := by
  cases e with
  | create =>
    cases hstep
    exact hs.snoc (BlockHeader.fresh_of_dirty rfl)
  | construct data bdt hashWith =>
    rw [headerStep] at hstep
    split at hstep
    · rename_i h hh
      cases hstep
      exact hs.snoc (BlockHeader.fresh_construct hprompt hh)
    · cases hstep
      exact hs
  | copy other =>
    obtain ⟨h, hh, rfl⟩ := Option.map_eq_some_iff.mp hstep
    have hfresh := BlockHeader.fresh_remember (hs.get hh)
    exact (hs.set hfresh).snoc hfresh
  | assign this other =>
    simp only [headerStep, Option.bind_eq_bind, Option.bind_eq_some_iff, Option.pure_def,
      Option.some.injEq] at hstep
    obtain ⟨-, -, h, hh, rfl⟩ := hstep
    have hfresh := BlockHeader.fresh_remember (hs.get hh)
    split
    · exact hs
    · exact (hs.set hfresh).set hfresh
  | populate this header =>
    obtain ⟨h, hh, rfl⟩ := Option.map_eq_some_iff.mp hstep
    exact hs.set (BlockHeader.fresh_populate (hprompt h hh) header)
  | decode this headerData =>
    obtain ⟨h, hh, rfl⟩ := Option.map_eq_some_iff.mp hstep
    exact hs.set (BlockHeader.fresh_decode (hprompt h hh) headerData)
  | populateFromParent this parent => exact hs.populateFromParent hstep
  | set this setter =>
    obtain ⟨h, hh, rfl⟩ := Option.map_eq_some_iff.mp hstep
    exact hs.set (BlockHeader.fresh_set (hs.get hh) setter)
  | clear this =>
    obtain ⟨h, -, rfl⟩ := Option.map_eq_some_iff.mp hstep
    exact hs.set (BlockHeader.fresh_assign _)
  | hash this =>
    obtain ⟨h, hh, rfl⟩ := Option.map_eq_some_iff.mp hstep
    exact hs.set (BlockHeader.fresh_remember (hs.get hh))

end

end AllFresh

/-- **The hash is current.** In a run that is prompt throughout, `hash()` of every header is the
hash of the encoding of its fields. -/
theorem hash_current {es : List HeaderEvent} {s : List BlockHeader}
    (hrun : Run (Guarded (Prompt c) (Steps (headerStep c))) [] es s) :
    ∀ h ∈ s, h.askHash c = c.Hash (h.fields.encode c) := by
  have hfresh : AllFresh c s := by
    refine hrun.invariant (fun _ s => AllFresh c s) (by simp [AllFresh]) ?_
    rintro _ s e s' hs ⟨hprompt, hstep⟩
    exact hs.step hprompt hstep
  exact fun h hh => BlockHeader.askHash_eq (hfresh h hh)

/-- The parent hash for a hash: it stands behind the four bytes of the headers. -/
def parentCrypto : Crypto where
  Hash b := (b.drop 4).take 32
  emptyTrie := noHash
  negativeByte _ := 0

def childOf (b : UInt8) : Fields :=
  { parentHash := List.replicate 32 b, number := 7, gasLimit := 1000, extraData := [[1, 2]] }

def bytesOf (b : UInt8) : List UInt8 := (childOf b).encode parentCrypto

/-- A header constructed from bytes, a copy of it with another number, and a header populated
before it is asked for its hash. -/
theorem copied_header_current : ∃ es, ∃ s : List BlockHeader,
    Run (Guarded (Prompt parentCrypto) (Steps (headerStep parentCrypto))) [] es s ∧
    s.map (·.fields) = [childOf 1, { childOf 1 with number := 8 }, childOf 2] ∧
    ∀ h ∈ s, h.askHash parentCrypto = parentCrypto.Hash (h.fields.encode parentCrypto) := by
  have hone : (childOf 1).WellFormed := by decide +kernel
  have hheader : headerRlp (bytesOf 1) .headerData = .ok (bytesOf 1) := by decide +kernel
  let h₁ : BlockHeader := ⟨childOf 1, List.replicate 32 1⟩
  let h₂ : BlockHeader := ⟨{ childOf 1 with number := 8 }, noHash⟩
  have hconstruct : Guarded (Prompt parentCrypto) (Steps (headerStep parentCrypto)) []
      (.construct (bytesOf 1) .headerData noHash) [h₁] := by
    refine ⟨fun header h => ?_, show headerStep _ _ _ = _ by decide +kernel⟩
    obtain rfl := Except.ok.inj (hheader.symm.trans h)
    exact ⟨⟨childOf 1, hone, rfl⟩, Or.inl rfl⟩
  have hcopy : Guarded (Prompt parentCrypto) (Steps (headerStep parentCrypto)) [h₁]
      (.copy 0) [h₁, h₁] := ⟨trivial, show headerStep _ _ _ = _ by decide +kernel⟩
  have hset : Guarded (Prompt parentCrypto) (Steps (headerStep parentCrypto)) [h₁, h₁]
      (.set 1 (.setNumber 8)) [h₁, h₂] := ⟨trivial, rfl⟩
  have hcreate : Guarded (Prompt parentCrypto) (Steps (headerStep parentCrypto)) [h₁, h₂]
      .create [h₁, h₂, {}] := ⟨trivial, rfl⟩
  have hpopulate : Guarded (Prompt parentCrypto) (Steps (headerStep parentCrypto)) [h₁, h₂, {}]
      (.populate 2 (bytesOf 2)) [h₁, h₂, ⟨childOf 2, noHash⟩] := by
    refine ⟨fun h hh => ?_, show headerStep _ _ _ = _ by decide +kernel⟩
    cases hh
    rfl
  have hrun := ((((Run.nil.snoc hconstruct).snoc hcopy).snoc hset).snoc hcreate).snoc hpopulate
  exact ⟨_, _, hrun, rfl, hash_current parentCrypto hrun⟩

/-- The hash of the fields before `populate` is returned for those after it. -/
theorem populate_keeps_hash : ∃ h : BlockHeader, Run (Steps (headerStep parentCrypto)) []
      [.create, .set 0 (.setParentHash (List.replicate 32 1)), .hash 0, .populate 0 (bytesOf 2)]
      [h] ∧
    h.fields = childOf 2 ∧
    h.askHash parentCrypto ≠ parentCrypto.Hash (h.fields.encode parentCrypto) := by
  refine ⟨⟨childOf 2, List.replicate 32 1⟩, run_of_exec ?_, rfl, ?_⟩ <;> decide +kernel

/-- **The hash stands for the fields.** With a hash function that is injective, two headers that
prompt operations have made and that are well formed have the same `hash()` only if all their fields
are the same. -/
theorem fields_eq_of_hash_eq (hinj : Function.Injective c.Hash) {es : List HeaderEvent}
    {s : List BlockHeader} (hrun : Run (Guarded (Prompt c) (Steps (headerStep c))) [] es s) :
    ∀ h ∈ s, ∀ h' ∈ s, h.fields.WellFormed → h'.fields.WellFormed → h.askHash c = h'.askHash c →
      h.fields = h'.fields := by
  have hfresh : AllFresh c s := hrun.invariant (fun _ s => AllFresh c s) (by simp [AllFresh])
    fun _ _ _ _ hs hstep => hs.step hstep.1 hstep.2
  intro h hh h' hh' hf hf' heq
  rw [BlockHeader.askHash_eq (hfresh h hh), BlockHeader.askHash_eq (hfresh h' hh')] at heq
  -- both are read back from the same bytes
  have hread := populate_encode c hf h'.fields
  rw [hinj heq, populate_encode c hf'] at hread
  exact (Prod.mk.inj hread).1.symm

/-- Two new headers, of which one has got a number, with the encodings themselves for hashes. -/
theorem numbered_header_apart : ∃ c es, ∃ h h' : BlockHeader,
    Run (Guarded (Prompt c) (Steps (headerStep c))) [] es [h, h'] ∧ h.askHash c ≠ h'.askHash c := by
  let c : Crypto := { parentCrypto with Hash := id }
  let step := Guarded (Prompt c) (Steps (headerStep c))
  have h₁ : step [] .create [{}] := ⟨trivial, rfl⟩
  have h₂ : step [{}] .create [{}, {}] := ⟨trivial, rfl⟩
  have h₃ : step [{}, {}] (.set 1 (.setNumber 8)) [{}, ⟨{ number := 8 }, noHash⟩] := ⟨trivial, rfl⟩
  have hrun := ((Run.nil.snoc h₁).snoc h₂).snoc h₃
  refine ⟨c, _, _, _, hrun, fun heq => ?_⟩
  have hsame := fields_eq_of_hash_eq c Function.injective_id hrun _ mem_cons_self _
    (mem_cons_of_mem _ mem_cons_self) (by decide +kernel) (by decide +kernel) heq
  exact absurd (congrArg Fields.number hsame) (by decide)

end Rcc.Block
