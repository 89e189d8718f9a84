import Mathlib.Data.List.Chain
import Mathlib.Tactic
import Rcc.Lib.Run

/-!
# Rcc.Chain.Commit

`BlockChainImp::commitBlock`, called by any number of threads at once.

A call checks the number and the parent hash of its block without a lock, and only the number again
under `commitMutex`. The steps of a call are its accesses to what the threads share: `number()`,
the table of hashes, the mutex, `dbCommit`, and the write to `m_blockNumber`.

If the number is right under the mutex, then it has been right since the first check, since
`m_blockNumber` only grows, and so the hash that the parent hash was compared with is the one that
`numberHash` gives for the last block (`CallOk`, `Agreed.step`). It is the hash of that block if no
`dbCommit` that failed has left a row for its number: `writeNumber2Hash` adds a row, and
`numberHash` reads the first one.
-/

namespace Rcc.Chain

open List Function

variable {H : Type}

/-- What `commitBlock` reads of the header of a block. -/
structure Block (H : Type) where
  number : Int
  parentHash : H
  hash : H
  deriving DecidableEq

inductive CommitResult
  | OK | ERROR_NUMBER | ERROR_PARENT_HASH | ERROR_COMMITTING
  deriving DecidableEq

/-- What a call of `commitBlock` does next. -/
inductive Pc
  /-- The first `isBlockShouldCommit`. -/
  | start
  /-- `number()`, for the hash to compare the parent hash with. (It has been read once before, for
  the log.) -/
  | numberOk
  /-- `numberHash` and the comparison. -/
  | readHash (number : Int)
  /-- Wait for `commitMutex`. -/
  | parentOk
  /-- The second `isBlockShouldCommit`. -/
  | locked
  /-- Write the tables and `dbCommit`. -/
  | rechecked
  /-- Write `m_blockNumber`. -/
  | dbCommitted
  /-- Release `commitMutex`. -/
  | updated
  /-- `none` is an exception. -/
  | returned (result : Option CommitResult)
  deriving DecidableEq

structure Call (H : Type) where
  block : Block H
  pc : Pc := .start
  deriving DecidableEq

/-- The rows of the system tables. -/
structure Db (H : Type) where
  currentNumber : Int
  /-- the hashes in the rows of a number, in the order of the rows -/
  number2Hash : Int → List H

structure ChainState (H : Type) where
  db : Db H
  /-- `m_blockNumber`; `none` is `-1`. -/
  blockNumber : Option Int := none
  commitMutex : Option Nat := none
  calls : Nat → Option (Call H) := fun _ => none
  /-- The blocks whose `dbCommit` succeeded, the last one first, with the calls. -/
  committed : List (Nat × Block H) := []

/-- How the writes of the tables and `dbCommit` end. A `dbCommit` that fails may have written
rows. -/
inductive DbOutcome
  | ok
  | failed (wroteNumber wroteHash : Bool)
  | tableError

namespace ChainState

variable (s : ChainState H)

def numberValue : Int := s.blockNumber.getD s.db.currentNumber

/-- `number()`: the number, which is then kept in `m_blockNumber`. -/
def number : Int × ChainState H := (s.numberValue, { s with blockNumber := some s.numberValue })

/-- `isBlockShouldCommit` -/
def isBlockShouldCommit (blockNumber : Int) : Bool × ChainState H :=
  (decide (blockNumber = s.number.1 + 1), s.number.2)

def goto (tid : Nat) (call : Call H) (pc : Pc) : ChainState H :=
  { s with calls := update s.calls tid (some { call with pc }) }

def unlock : ChainState H := { s with commitMutex := none }

/-- The rows of a block. That of `writeNumber2Hash` is forced: it is added behind those there are
of the number, which are not looked at. -/
def write (block : Block H) (wroteNumber wroteHash : Bool) : ChainState H :=
  { s with db :=
    { currentNumber := if wroteNumber then block.number else s.db.currentNumber
      number2Hash :=
        if wroteHash then
          update s.db.number2Hash block.number (s.db.number2Hash block.number ++ [block.hash])
        else s.db.number2Hash } }

def dbCommit (tid : Nat) (call : Call H) : DbOutcome → ChainState H
  | .ok =>
    let s := s.write call.block true true
    { s with committed := (tid, call.block) :: s.committed }.goto tid call .dbCommitted
  | .failed wroteNumber wroteHash =>
    (s.write call.block wroteNumber wroteHash).unlock.goto tid call
      (.returned (some .ERROR_COMMITTING))
  | .tableError => s.unlock.goto tid call (.returned none)

variable [Inhabited H]

/-- `numberHash`: of the first row; `default` is `h256("")`. -/
def numberHash (n : Int) : H := (s.db.number2Hash n).headD default

variable [DecidableEq H]

/-- The next step of a call; `none` if it has to wait or has returned. -/
def commitBlock (tid : Nat) (call : Call H) (outcome : DbOutcome) : Option (ChainState H) :=
  match call.pc with
  | .start =>
    let r := s.isBlockShouldCommit call.block.number
    some (r.2.goto tid call (if r.1 then .numberOk else .returned (some .ERROR_NUMBER)))
  | .numberOk => some (s.number.2.goto tid call (.readHash s.number.1))
  | .readHash n =>
    some (s.goto tid call (if call.block.parentHash = s.numberHash n then .parentOk
      else .returned (some .ERROR_PARENT_HASH)))
  | .parentOk =>
    if s.commitMutex = none then some ({ s with commitMutex := some tid }.goto tid call .locked)
    else none
  | .locked =>
    let r := s.isBlockShouldCommit call.block.number
    some (if r.1 then r.2.goto tid call .rechecked
      else r.2.unlock.goto tid call (.returned (some .ERROR_PARENT_HASH)))
  | .rechecked => some (s.dbCommit tid call outcome)
  | .dbCommitted => some ({ s with blockNumber := some call.block.number }.goto tid call .updated)
  | .updated => some (s.unlock.goto tid call (.returned (some .OK)))
  | .returned _ => none

end ChainState

inductive CommitEvent (H : Type)
  /-- A thread calls `commitBlock`. -/
  | call (tid : Nat) (block : Block H)
  /-- The call makes its next step. -/
  | step (tid : Nat) (outcome : DbOutcome)
  /-- Someone calls `number()`. -/
  | number

def chainStep [Inhabited H] [DecidableEq H] (s : ChainState H) :
    CommitEvent H → Option (ChainState H)
  | .call tid block =>
    match s.calls tid with
    | none => some { s with calls := update s.calls tid (some { block }) }
    | some _ => none
  | .step tid outcome => (s.calls tid).bind fun call => s.commitBlock tid call outcome
  | .number => some s.number.2

/-- A `dbCommit` that fails has not written the row with the hash. -/
def LeavesNoHash (_ : ChainState H) : CommitEvent H → Prop
  | .step _ (.failed _ wroteHash) => wroteHash = false
  | _ => True

instance (s : ChainState H) (e : CommitEvent H) : Decidable (LeavesNoHash s e) := by
  unfold LeavesNoHash
  split <;> infer_instance

/-! ## The invariant -/

/-- A block behind another. -/
def Next (b a : Block H) : Prop := b.number = a.number + 1 ∧ b.parentHash = a.hash

namespace ChainState

variable (head : Block H) (s : ChainState H)

/-- The chain, the last block first. -/
def blocks : List (Block H) := s.committed.map Prod.snd ++ [head]

/-- The last block. -/
def tip : Block H := (s.committed.map Prod.snd).headD head

theorem blocks_eq : ∃ rest, s.blocks head = s.tip head :: rest := by
  rw [blocks, tip]
  cases s.committed with
  | nil => exact ⟨[], rfl⟩
  | cons e rest => exact ⟨_, rfl⟩

variable [Inhabited H]

/-- The parent hash has been compared with that of a number not below the one before. -/
def ParentOk (block : Block H) : Prop :=
  ∃ n, block.number ≤ n + 1 ∧ n ≤ s.numberValue ∧ block.parentHash = s.numberHash n

/-- What a call knows. -/
def CallOk (tid : Nat) (call : Call H) : Prop :=
  match call.pc with
  | .start => True
  | .numberOk => call.block.number ≤ s.numberValue + 1
  | .readHash n => call.block.number ≤ n + 1 ∧ n ≤ s.numberValue
  | .parentOk => s.ParentOk call.block
  | .locked => s.commitMutex = some tid ∧ s.ParentOk call.block
  | .rechecked => s.commitMutex = some tid ∧ call.block.number = s.numberValue + 1 ∧
      call.block.parentHash = s.numberHash s.numberValue
  | .dbCommitted => s.commitMutex = some tid ∧ s.committed.head? = some (tid, call.block) ∧
      s.numberValue + 1 = call.block.number
  | .updated => s.commitMutex = some tid ∧ (tid, call.block) ∈ s.committed
  | .returned result => result = some .OK → (tid, call.block) ∈ s.committed

/-- A call is about to write `m_blockNumber`. -/
def Pending : Prop :=
  ∃ tid call, s.commitMutex = some tid ∧ s.calls tid = some call ∧ call.pc = .dbCommitted

structure Agreed : Prop where
  chain : (s.blocks head).IsChain Next
  rows : ∀ b ∈ s.blocks head, (s.db.number2Hash b.number).head? = some b.hash
  above : ∀ n > (s.tip head).number, s.db.number2Hash n = []
  tip : s.numberValue = (s.tip head).number ∨
    s.numberValue + 1 = (s.tip head).number ∧ s.Pending
  unread : s.blockNumber = none → ∀ tid call, s.calls tid = some call → call.pc = .start
  calls : ∀ tid call, s.calls tid = some call → s.CallOk tid call

variable {head s} {s₁ : ChainState H} {tid : Nat} {call : Call H}

/-- What the steps of others may do while `tid` has a call. -/
structure Later (s s₁ : ChainState H) (tid : Nat) : Prop where
  numberValue : s.numberValue ≤ s₁.numberValue
  rows : ∀ n ≤ s.numberValue, s₁.db.number2Hash n = s.db.number2Hash n
  committed : s.committed ⊆ s₁.committed
  locked : s.commitMutex = some tid → s₁.commitMutex = some tid ∧
    s₁.numberValue = s.numberValue ∧ s₁.committed = s.committed

theorem Later.numberHash (hl : Later s s₁ tid) {n : Int} (hn : n ≤ s.numberValue) :
    s₁.numberHash n = s.numberHash n := by
  rw [ChainState.numberHash, ChainState.numberHash, hl.rows n hn]

theorem ParentOk.later {block : Block H} (h : s.ParentOk block) (hl : Later s s₁ tid) :
    s₁.ParentOk block := by
  obtain ⟨n, hnumber, hn, hparent⟩ := h
  exact ⟨n, hnumber, hn.trans hl.numberValue, by rw [hparent, hl.numberHash hn]⟩

theorem CallOk.later (h : s.CallOk tid call) (hl : Later s s₁ tid) : s₁.CallOk tid call := by
  obtain ⟨block, pc⟩ := call
  have hle := hl.numberValue
  cases pc with
  | start => exact h
  | numberOk => exact h.trans (by omega)
  | readHash n => exact ⟨h.1, h.2.trans hle⟩
  | parentOk => exact ParentOk.later h hl
  | locked => exact ⟨(hl.locked h.1).1, ParentOk.later h.2 hl⟩
  | rechecked =>
    obtain ⟨hmutex, hvalue, -⟩ := hl.locked h.1
    refine ⟨hmutex, by rw [hvalue]; exact h.2.1, ?_⟩
    rw [hvalue, hl.numberHash (le_refl _)]
    exact h.2.2
  | dbCommitted =>
    obtain ⟨hmutex, hvalue, hcommitted⟩ := hl.locked h.1
    exact ⟨hmutex, by rw [hcommitted]; exact h.2.1, by rw [hvalue]; exact h.2.2⟩
  | updated => exact ⟨(hl.locked h.1).1, hl.committed h.2⟩
  | returned result => exact fun hok => hl.committed (h hok)

/-- A step of a call: a change of what is shared, and the call's next place. -/
theorem Agreed.move (h : Agreed head s) (s₁ : ChainState H) {pc : Pc} (hcalls : s₁.calls = s.calls)
    (hchain : (s₁.blocks head).IsChain Next)
    (hrows : ∀ b ∈ s₁.blocks head, (s₁.db.number2Hash b.number).head? = some b.hash)
    (habove : ∀ n > (s₁.tip head).number, s₁.db.number2Hash n = [])
    (htip : s₁.numberValue = (s₁.tip head).number ∨
      s₁.numberValue + 1 = (s₁.tip head).number ∧ (s₁.goto tid call pc).Pending)
    (hread : s₁.blockNumber = none → s.blockNumber = none ∧ pc = .start)
    (hlater : ∀ tid' ≠ tid, Later s s₁ tid') (hown : s₁.CallOk tid { call with pc }) :
    Agreed head (s₁.goto tid call pc) := by
  have hcases : ∀ tid' call', (s₁.goto tid call pc).calls tid' = some call' →
      tid' = tid ∧ { call with pc } = call' ∨ tid' ≠ tid ∧ s.calls tid' = some call' := by
    intro tid' call' hcall
    simp only [goto] at hcall
    by_cases htid : tid' = tid
    · rw [htid, update_self] at hcall
      exact .inl ⟨htid, Option.some.inj hcall⟩
    · rw [update_of_ne htid, hcalls] at hcall
      exact .inr ⟨htid, hcall⟩
  refine ⟨hchain, hrows, habove, htip, fun hnone tid' call' hcall => ?_,
    fun tid' call' hcall => ?_⟩ <;> rcases hcases tid' call' hcall with ⟨rfl, rfl⟩ | ⟨hne, hcall'⟩
  · exact (hread hnone).2
  · exact h.unread (hread hnone).1 tid' call' hcall'
  · exact hown
  · show s₁.CallOk tid' call'
    exact CallOk.later (h.calls tid' call' hcall') (hlater tid' hne)

/-- A step that does not change the number, the rows or the chain. -/
theorem Agreed.quiet (h : Agreed head s) {pc : Pc}
    (hcalls : s₁.calls = s.calls) (hdb : s₁.db = s.db) (hcommitted : s₁.committed = s.committed)
    (hvalue : s₁.numberValue = s.numberValue)
    (hread : s₁.blockNumber = none → s.blockNumber = none ∧ pc = .start)
    (hmutex : ∀ tid' ≠ tid, s.commitMutex = some tid' → s₁.commitMutex = some tid')
    (hpc : ∀ call', s.calls tid = some call' → call'.pc ≠ .dbCommitted)
    (hown : s₁.CallOk tid { call with pc }) : Agreed head (s₁.goto tid call pc) := by
  have hblocks : s₁.blocks head = s.blocks head := by rw [blocks, blocks, hcommitted]
  have htip : s₁.tip head = s.tip head := by rw [ChainState.tip, ChainState.tip, hcommitted]
  refine h.move s₁ hcalls ?_ ?_ ?_ ?_ hread (fun tid' hne => ?_) hown
  · rw [hblocks]
    exact h.chain
  · rw [hblocks, hdb]
    exact h.rows
  · rw [htip, hdb]
    exact h.above
  · rw [hvalue, htip]
    refine h.tip.imp_right (And.imp_right ?_)
    rintro ⟨tid', call', hlock, hcall', hpc'⟩
    have hne : tid' ≠ tid := by
      rintro rfl
      exact hpc call' hcall' hpc'
    refine ⟨tid', call', hmutex tid' hne hlock, ?_, hpc'⟩
    show update s₁.calls tid _ tid' = some call'
    rw [update_of_ne hne, hcalls, hcall']
  · exact ⟨hvalue.ge, fun n _ => by rw [hdb], by rw [hcommitted]; exact List.Subset.refl _,
      fun hlock => ⟨hmutex tid' hne hlock, hvalue, hcommitted⟩⟩

theorem Agreed.numbers (h : Agreed head s) :
    ((s.blocks head).map Block.number).Pairwise (· > ·) :=
  isChain_iff_pairwise.mp ((isChain_map _).mpr (h.chain.imp fun b a hnext => by
    have := hnext.1
    omega))

theorem Agreed.number_le_tip (h : Agreed head s) {b : Block H} (hb : b ∈ s.blocks head) :
    b.number ≤ (s.tip head).number := by
  have hnumbers := h.numbers
  obtain ⟨rest, hblocks⟩ := s.blocks_eq head
  rw [hblocks] at hb hnumbers
  rcases mem_cons.mp hb with rfl | hb
  · exact le_refl _
  · exact (rel_of_pairwise_cons hnumbers (mem_map_of_mem hb)).le

theorem Agreed.dbCommit (h : Agreed head s) (htid : s.calls tid = some call)
    (hpc : call.pc = .rechecked) {outcome : DbOutcome}
    (hhash : LeavesNoHash s (.step tid outcome)) : Agreed head (s.dbCommit tid call outcome) := by
  obtain ⟨block, pc⟩ := call
  obtain rfl : pc = .rechecked := hpc
  obtain ⟨hmutex, hnumber, hparent⟩ : s.commitMutex = some tid ∧
      block.number = s.numberValue + 1 ∧ block.parentHash = s.numberHash s.numberValue :=
    h.calls tid _ htid
  have hread : s.blockNumber ≠ none := fun hnone => nomatch h.unread hnone tid _ htid
  have hread' : ∀ pc, s.blockNumber = none → s.blockNumber = none ∧ pc = Pc.start :=
    fun _ hnone => absurd hnone hread
  -- nobody else is between `dbCommit` and the write of the number
  have htip : s.numberValue = (s.tip head).number := by
    refine h.tip.resolve_right ?_
    rintro ⟨-, tid', call', hmutex', hcall', hpc'⟩
    obtain rfl := Option.some.inj (hmutex.symm.trans hmutex')
    obtain rfl := Option.some.inj (htid.symm.trans hcall')
    cases hpc'
  have hvalue : ∀ a b, (s.write block a b).numberValue = s.numberValue := by
    intro a b
    obtain ⟨n, hn⟩ := Option.ne_none_iff_exists'.mp hread
    simp only [numberValue, write, hn, Option.getD_some]
  have hrow : ∀ a, ∀ n ≠ block.number,
      (s.write block a true).db.number2Hash n = s.db.number2Hash n :=
    fun a n hn => update_of_ne hn _ _
  have hothers : ∀ tid' ≠ tid, s.commitMutex ≠ some tid' := fun tid' hne heq =>
    hne (Option.some.inj (heq.symm.trans hmutex))
  cases outcome with
  | tableError =>
    refine h.quiet rfl rfl rfl rfl (hread' _) (fun tid' hne heq => ?_) (by simp [htid])
      (by simp [CallOk])
    exact absurd heq (hothers tid' hne)
  | failed wroteNumber wroteHash =>
    obtain rfl : wroteHash = false := hhash
    refine h.move (s.write block wroteNumber false).unlock rfl h.chain h.rows h.above
      (.inl ((hvalue _ _).trans htip)) (hread' _)
      (fun tid' hne => ⟨(hvalue _ _).ge, fun _ _ => rfl, List.Subset.refl _, fun heq => ?_⟩)
      (by simp [CallOk])
    exact absurd heq (hothers tid' hne)
  | ok =>
    obtain ⟨rest, hblocks⟩ := s.blocks_eq head
    refine h.move { s.write block true true with
      committed := (tid, block) :: s.committed } rfl ?_ ?_ ?_ ?_ (hread' _)
      (fun tid' hne => ⟨(hvalue _ _).ge, fun n hn => hrow true n (by omega),
        subset_cons_self _ _, fun heq => ?_⟩) ?_
    · show (block :: s.blocks head).IsChain Next
      have hchain := h.chain
      rw [hblocks] at hchain ⊢
      refine isChain_cons_cons.mpr ⟨⟨by rw [← htip, hnumber], ?_⟩, hchain⟩
      rw [hparent, htip, numberHash, headD_eq_head?_getD, h.rows _ (by rw [hblocks]; simp)]
      rfl
    · intro x hx
      rcases mem_cons.mp (show x ∈ block :: s.blocks head from hx) with rfl | hx
      · -- the first row of its number
        show (update s.db.number2Hash x.number (s.db.number2Hash x.number ++ [x.hash])
          x.number).head? = _
        rw [update_self, h.above x.number (by omega)]
        rfl
      · have hle := h.number_le_tip hx
        exact (congrArg head? (hrow true x.number (by omega))).trans (h.rows x hx)
    · intro n hn
      have hn' : n > block.number := hn
      exact (hrow true n (by omega)).trans (h.above n (by omega))
    · refine .inr ⟨?_, tid, _, hmutex, update_self _ _ _, rfl⟩
      exact (congrArg (· + 1) (hvalue true true)).trans hnumber.symm
    · exact absurd heq (hothers tid' hne)
    · exact ⟨hmutex, rfl, (congrArg (· + 1) (hvalue true true)).trans hnumber.symm⟩

variable [DecidableEq H]

theorem Agreed.commitBlock (h : Agreed head s) (htid : s.calls tid = some call)
    {outcome : DbOutcome} (hhash : LeavesNoHash s (.step tid outcome)) {s' : ChainState H}
    (hstep : s.commitBlock tid call outcome = some s') : Agreed head s' := by
  have hok := h.calls tid call htid
  have hread : ∀ pc : Pc, call.pc ≠ .start → s.blockNumber = none →
      s.blockNumber = none ∧ pc = .start :=
    fun _ hpc hnone => absurd (h.unread hnone tid call htid) hpc
  obtain ⟨block, pc⟩ := call
  cases pc with
  | start =>
    cases hstep
    refine h.quiet rfl rfl rfl rfl (by simp [isBlockShouldCommit, number]) (fun _ _ => id)
      (by simp [htid]) ?_
    show CallOk _ tid ⟨block, if decide (block.number = s.numberValue + 1) then .numberOk
      else .returned (some .ERROR_NUMBER)⟩
    by_cases hnumber : block.number = s.numberValue + 1
    · rw [if_pos (decide_eq_true hnumber)]
      exact hnumber.le
    · rw [if_neg (by simpa using hnumber)]
      simp [CallOk]
  | numberOk =>
    cases hstep
    exact h.quiet rfl rfl rfl rfl (by simp [number]) (fun _ _ => id) (by simp [htid])
      ⟨hok, le_refl _⟩
  | readHash n =>
    cases hstep
    refine h.quiet rfl rfl rfl rfl (hread _ (by simp)) (fun _ _ => id) (by simp [htid]) ?_
    split
    · rename_i hparent
      exact ⟨n, hok.1, hok.2, hparent⟩
    · simp [CallOk]
  | parentOk =>
    simp only [ChainState.commitBlock] at hstep
    split at hstep
    · rename_i hfree
      cases hstep
      refine h.quiet rfl rfl rfl rfl (hread _ (by simp)) (fun tid' _ heq => ?_) (by simp [htid])
        ⟨rfl, hok⟩
      rw [hfree] at heq
      cases heq
    · cases hstep
  | locked =>
    obtain ⟨hmutex, n, hle, hn, hparent⟩ := hok
    simp only [ChainState.commitBlock, Option.some.injEq] at hstep
    subst hstep
    split
    · rename_i hnumber
      have hnumber' : block.number = s.numberValue + 1 := of_decide_eq_true hnumber
      refine h.quiet rfl rfl rfl rfl (by simp [isBlockShouldCommit, number]) (fun _ _ => id)
        (by simp [htid]) ⟨hmutex, hnumber', ?_⟩
      have hle' : block.number ≤ n + 1 := hle
      obtain rfl : n = s.numberValue := by omega
      exact hparent
    · refine h.quiet rfl rfl rfl rfl (by simp [isBlockShouldCommit, number, unlock])
        (fun tid' hne heq => ?_) (by simp [htid]) (by simp [CallOk])
      exact absurd (Option.some.inj (heq.symm.trans hmutex)) hne
  | rechecked =>
    cases hstep
    exact h.dbCommit htid rfl hhash
  | dbCommitted =>
    cases hstep
    obtain ⟨hmutex, hlast, hnumber⟩ : s.commitMutex = some tid ∧
      s.committed.head? = some (tid, block) ∧ s.numberValue + 1 = block.number := hok
    obtain ⟨rest, hcommitted⟩ := List.head?_eq_some_iff.mp hlast
    refine h.move { s with blockNumber := some block.number } rfl h.chain h.rows h.above
      (.inl ?_) (by simp) (fun tid' hne => ⟨?_, fun _ _ => rfl, List.Subset.refl _, ?_⟩)
      ⟨hmutex, mem_of_mem_head? hlast⟩
    · simp only [numberValue, Option.getD_some, ChainState.tip, hcommitted, map_cons, headD_cons]
    · show s.numberValue ≤ block.number
      omega
    · exact fun heq => absurd (Option.some.inj (heq.symm.trans hmutex)) hne
  | updated =>
    cases hstep
    refine h.quiet rfl rfl rfl rfl (hread _ (by simp)) (fun tid' hne heq => ?_) (by simp [htid])
      fun _ => hok.2
    exact absurd (Option.some.inj (heq.symm.trans hok.1)) hne
  | returned result => cases hstep

theorem Agreed.step (h : Agreed head s) {e : CommitEvent H} {s' : ChainState H}
    (hs : Guarded LeavesNoHash (Steps chainStep) s e s') : Agreed head s' := by
  obtain ⟨hhash, hstep⟩ := hs
  cases e with
  | call tid block =>
    rw [Steps, chainStep] at hstep
    split at hstep
    · rename_i hnew
      cases hstep
      show Agreed head (s.goto tid { block } .start)
      exact h.quiet rfl rfl rfl rfl (fun hnone => ⟨hnone, rfl⟩) (fun _ _ => id) (by simp [hnew])
        trivial
    · cases hstep
  | step tid outcome =>
    obtain ⟨call, hcall, hstep⟩ := Option.bind_eq_some_iff.mp hstep
    exact h.commitBlock hcall hhash hstep
  | number =>
    cases hstep
    exact ⟨h.chain, h.rows, h.above, h.tip, by simp [number], h.calls⟩

/-- Nobody is committing, and the number has not been read. -/
def init (db : Db H) : ChainState H := { db }

omit [DecidableEq H] in
theorem agreed_init {db : Db H} (hnumber : db.currentNumber = head.number)
    (hhash : (db.number2Hash head.number).head? = some head.hash)
    (hnew : ∀ n > head.number, db.number2Hash n = []) : Agreed head (init db) := by
  refine ⟨List.IsChain.singleton _, fun b hb => ?_, hnew, .inl hnumber, nofun, nofun⟩
  obtain rfl := mem_singleton.mp hb
  exact hhash

end ChainState

/-- **The chain stays linked.** However the calls of `commitBlock` interleave, and whichever of
their `dbCommit` fail, as long as none of these leaves the hash of its block behind, the committed
blocks have consecutive numbers and each of them has the one before as its parent, no two calls
commit a block of the same number, and `number()` is not above the last one. -/
theorem committed_chain_linked [Inhabited H] [DecidableEq H] (db : Db H) (head : Block H)
    (hnumber : db.currentNumber = head.number)
    (hhash : (db.number2Hash head.number).head? = some head.hash)
    (hnew : ∀ n > head.number, db.number2Hash n = []) {es : List (CommitEvent H)}
    {s : ChainState H} (hrun : Run (Guarded LeavesNoHash (Steps chainStep)) (.init db) es s) :
    (s.committed.map Prod.snd ++ [head]).IsChain Next ∧
    (s.committed.map fun e => e.2.number).Nodup ∧
    (∀ tid call, s.calls tid = some call → call.pc = .returned (some .OK) →
      (tid, call.block) ∈ s.committed) ∧
    s.number.1 ≤ ((s.committed.map Prod.snd).headD head).number := by
  have h : s.Agreed head := by
    refine hrun.invariant (fun _ s => s.Agreed head)
      (ChainState.agreed_init hnumber hhash hnew) ?_
    exact fun _ _ _ _ h hstep => h.step hstep
  refine ⟨h.chain, ?_, fun tid call hcall hpc => ?_, ?_⟩
  · have hnodup : ((s.blocks head).map Block.number).Nodup := h.numbers.imp fun hlt => ne_of_gt hlt
    rw [ChainState.blocks, map_append, map_map] at hnodup
    exact hnodup.of_append_left
  · have hok := h.calls tid call hcall
    rw [ChainState.CallOk, hpc] at hok
    exact hok rfl
  · show s.numberValue ≤ (s.tip head).number
    rcases h.tip with heq | ⟨heq, -⟩ <;> omega

/-- Three calls for the number after the head, of which two pass the first checks at once; the first
`dbCommit` fails after it has written the number; and a call for the next number that begins while
the block before it is being committed. -/
def commitEvents : List (CommitEvent Nat) :=
  [.call 0 ⟨4, 30, 40⟩, .call 1 ⟨4, 30, 41⟩, .call 2 ⟨4, 31, 42⟩] ++
  [.step 0 .ok, .step 1 .ok, .step 2 .ok, .step 1 .ok, .step 0 .ok, .step 2 .ok, .step 0 .ok,
    .step 1 .ok, .step 2 .ok, .step 1 .ok, .step 1 .ok, .step 1 (.failed true false), .step 0 .ok,
    .step 0 .ok, .step 0 .ok, .number, .step 0 .ok, .call 3 ⟨5, 40, 50⟩, .step 3 .ok, .step 3 .ok,
    .step 3 .ok, .step 0 .ok, .step 3 .ok, .step 3 .ok, .step 3 .ok, .step 3 .ok]

def thirdBlock : Block Nat := ⟨3, 20, 30⟩

def thirdDb : Db Nat := ⟨3, fun n => if n = 3 then [30] else []⟩

theorem commitEvents_linked : ∃ s : ChainState Nat,
    Run (Guarded LeavesNoHash (Steps chainStep)) (.init thirdDb) commitEvents s ∧
    s.committed = [(3, ⟨5, 40, 50⟩), (0, ⟨4, 30, 40⟩)] ∧
    (s.committed.map Prod.snd ++ [thirdBlock]).IsChain Next ∧ s.number.1 ≤ 5 := by
  refine exists_guardedRun_of_exec
    (p := fun s => s.committed = [(3, ⟨5, 40, 50⟩), (0, ⟨4, 30, 40⟩)])
    (by decide +kernel) fun s hs hcommitted => ?_
  have h := committed_chain_linked thirdDb thirdBlock rfl rfl (fun n hn => if_neg hn.ne') hs
  refine ⟨hcommitted, h.1, ?_⟩
  have hnumber := h.2.2.2
  rwa [hcommitted] at hnumber

/-- The `dbCommit` of a block fails after it has written its rows, and another block of the number
is committed. Then its child is refused, and a child of the block that failed is committed. -/
theorem failed_commit_breaks_chain : ∃ s : ChainState Nat,
    Run (Steps chainStep) (.init thirdDb)
      ([.call 0 ⟨4, 30, 40⟩] ++ List.replicate 5 (.step 0 .ok) ++ [.step 0 (.failed true true)] ++
        [.call 1 ⟨4, 30, 41⟩] ++ List.replicate 8 (.step 1 .ok) ++
        [.call 2 ⟨5, 41, 51⟩] ++ List.replicate 3 (.step 2 .ok) ++
        [.call 3 ⟨5, 40, 50⟩] ++ List.replicate 8 (.step 3 .ok)) s ∧
    s.calls 2 = some ⟨⟨5, 41, 51⟩, .returned (some .ERROR_PARENT_HASH)⟩ ∧
    s.committed.map Prod.snd = [⟨5, 40, 50⟩, ⟨4, 30, 41⟩] ∧
    ¬(s.committed.map Prod.snd ++ [thirdBlock]).IsChain Next := by
  refine exists_run_of_exec
    (p := fun s => s.calls 2 = some ⟨⟨5, 41, 51⟩, .returned (some .ERROR_PARENT_HASH)⟩ ∧
      s.committed.map Prod.snd = [⟨5, 40, 50⟩, ⟨4, 30, 41⟩])
    (by decide +kernel) fun s _ ⟨hrefused, hcommitted⟩ => ⟨hrefused, hcommitted, ?_⟩
  rw [hcommitted]
  simp [Next]

end Rcc.Chain
