import Mathlib.Tactic
import Rcc.Lib.Run

/-!
# Rcc.Event.FilterManager

`EventLogFilterManager` (`libeventfilter`): filters over the logs of a range of blocks. Every call
of `executeFilter` pushes the matching logs of the next few blocks.

How many blocks a call takes is decided by the configured limit and the blocks there are, but not
by the end of the range: `thisLoopBlockCanProcess` is all the blocks that are left if the limit is
larger, and otherwise the constant `MAX_BLOCK_PER_PROCESS`, whatever the limit is. So a call may
run past the end of the range, and past the end of the chain, where there is no block to be read.

* `matchesLog_correct_iff` — when `matches` reads no topic that the log does not have;
* `executeFilter_spec` — what a call does if it stays inside of both;
* `filters_exact` — then every filter delivers its range, in order and once.
-/

namespace Rcc.Event

open List

/-- `MAX_BLOCK_NUMBER`, which stands for "latest" -/
def MAX_BLOCK_NUMBER : Nat := 2 ^ 63 - 1

def MAX_BLOCK_PER_PROCESS : Nat := 3

/-! ## Matching -/

structure LogEntry (A H : Type) where
  address : A
  topics : List H
  data : List UInt8
  deriving DecidableEq

/-- The logs of the receipts of a block. -/
structure Block (A H : Type) where
  receipts : List (List (LogEntry A H))
  deriving DecidableEq

/-- `EventLogFilterParams` -/
structure Params (A H : Type) where
  fromBlock : Nat
  toBlock : Nat
  addresses : List A
  /-- `MAX_NUM_TOPIC_EVENT_LOG` of them -/
  topics : Fin 4 → List H

/-- An element of the response. -/
structure Entry (A H : Type) where
  blockNumber : Nat
  transactionIndex : Nat
  logIndex : Nat
  log : LogEntry A H
  deriving DecidableEq

variable {A H : Type} [DecidableEq A] [DecidableEq H]

namespace Params

variable (p : Params A H)

/-- The loop of `matches` over the topics. The test is `size() < i`, so a log with `i` topics is
read past its end: `none`. -/
def topicLoop (log : LogEntry A H) : List (Fin 4) → Option Bool
  | [] => some true
  | i :: is =>
    if p.topics i ≠ [] then
      if log.topics.length < i then some false
      else
        match log.topics[i.val]? with
        | none => none
        | some topic => if topic ∈ p.topics i then topicLoop log is else some false
    else topicLoop log is

variable (log : LogEntry A H)

/-- `matches` of a log. -/
def matchesLog : Option Bool :=
  if p.addresses ≠ [] ∧ log.address ∉ p.addresses then some false
  else p.topicLoop log (List.finRange 4)

/-- The logs of a block with their places. -/
def entries (number : Nat) (b : Block A H) : List (Entry A H) :=
  b.receipts.zipIdx.flatMap fun r => r.1.zipIdx.map fun l => ⟨number, r.2, l.2, l.1⟩

/-- The inner loop of `matches` of a block. -/
def matchesLoop : List (Entry A H) → Option (List (Entry A H))
  | [] => some []
  | e :: es => do
    let isMatch ← p.matchesLog e.log
    let rest ← matchesLoop es
    return if isMatch then e :: rest else rest

/-- `matches` of a block: what it appends to the response. -/
def matchesBlock (number : Nat) (b : Block A H) : Option (List (Entry A H)) :=
  p.matchesLoop (entries number b)

/-- What a filter is to let pass: an address and topics that are wanted. -/
def Matched : Prop :=
  (p.addresses = [] ∨ log.address ∈ p.addresses) ∧
    ∀ i : Fin 4, p.topics i = [] ∨ ∃ topic ∈ log.topics[i.val]?, topic ∈ p.topics i

instance : DecidablePred p.Matched := fun _ =>
  @instDecidableAnd _ _ instDecidableOr
    (@Nat.decidableForallFin _ _ fun _ => @instDecidableOr _ _ _ (Option.decidableExistsMem _))

/-- The matching logs of a block. -/
def matched (number : Nat) (b : Block A H) : List (Entry A H) :=
  (entries number b).filter fun e => p.Matched e.log

/-- A topic that is wanted at `i` is there. -/
def TopicAt (p : Params A H) (log : LogEntry A H) (i : Fin 4) : Prop :=
  p.topics i = [] ∨ ∃ topic ∈ log.topics[i.val]?, topic ∈ p.topics i

/-- No topic is wanted right behind the last topic of the log, unless the log is refused before. -/
def Readable : Prop :=
  (p.addresses ≠ [] ∧ log.address ∉ p.addresses) ∨
    ∀ i : Fin 4, p.topics i ≠ [] → log.topics.length = i → ∃ j < i, ¬p.TopicAt log j

instance (i : Fin 4) : Decidable (p.TopicAt log i) :=
  @instDecidableOr _ _ _ (Option.decidableExistsMem _)

instance : Decidable (p.Readable log) := inferInstanceAs (Decidable (_ ∨ _))

variable {p}

section
omit [DecidableEq A]

/-- A position with no read past the end ends the loop unless the log has what is wanted there. -/
theorem topicLoop_cons {log : LogEntry A H} {i : Fin 4}
    (h : p.topics i ≠ [] → log.topics.length ≠ i) (is : List (Fin 4)) :
    p.TopicAt log i ∧ p.topicLoop log (i :: is) = p.topicLoop log is ∨
      ¬p.TopicAt log i ∧ p.topicLoop log (i :: is) = some false := by
  rw [topicLoop, TopicAt]
  by_cases hwanted : p.topics i = []
  · exact .inl ⟨.inl hwanted, if_neg (not_not.mpr hwanted)⟩
  rw [if_pos hwanted]
  have hne := h hwanted
  by_cases hlt : i.val < log.topics.length
  · rw [if_neg (by omega), List.getElem?_eq_getElem hlt]
    by_cases hmem : log.topics[i.val] ∈ p.topics i <;> simp [hmem, hwanted]
  · rw [if_pos (by omega), List.getElem?_eq_none (by omega)]
    simp [hwanted]

theorem topicLoop_append {log : LogEntry A H} {is : List (Fin 4)}
    (h : ∀ i ∈ is, p.topics i ≠ [] → log.topics.length ≠ i) (js : List (Fin 4)) :
    (∀ i ∈ is, p.TopicAt log i) ∧ p.topicLoop log (is ++ js) = p.topicLoop log js ∨
      (∃ i ∈ is, ¬p.TopicAt log i) ∧ p.topicLoop log (is ++ js) = some false := by
  induction is with
  | nil => exact .inl ⟨nofun, rfl⟩
  | cons i is ih =>
    rcases topicLoop_cons (h i mem_cons_self) (is ++ js) with ⟨hi, hloop⟩ | ⟨hi, hloop⟩
    · rw [forall_mem_cons, exists_mem_cons_iff, cons_append, hloop]
      exact (ih fun j hj => h j (mem_cons_of_mem _ hj)).imp (fun ⟨hall, hjs⟩ => ⟨⟨hi, hall⟩, hjs⟩)
        fun ⟨hex, hjs⟩ => ⟨.inr hex, hjs⟩
    · exact .inr ⟨⟨i, mem_cons_self, hi⟩, hloop⟩

/-- The position right behind the last topic, where one is wanted: the positions in front of it can
be read, and if they all match the loop comes to it. -/
theorem topicLoop_end {log : LogEntry A H} {i : Fin 4} (hwanted : p.topics i ≠ [])
    (hlength : log.topics.length = i) :
    (∀ j < i, p.TopicAt log j) ∧ p.topicLoop log (List.finRange 4) = none ∨
      (∃ j < i, ¬p.TopicAt log j) ∧ p.topicLoop log (List.finRange 4) = some false := by
  obtain ⟨is, js, hsplit⟩ := append_of_mem (mem_finRange i)
  have hsorted := hsplit ▸ pairwise_lt_finRange 4
  rw [pairwise_append, pairwise_cons] at hsorted
  have hbefore : ∀ j, j ∈ is ↔ j < i := by
    refine fun j => ⟨fun hj => hsorted.2.2 j hj i mem_cons_self, fun hj => ?_⟩
    rcases mem_append.mp (hsplit ▸ mem_finRange j) with hj' | hj'
    · exact hj'
    · rcases mem_cons.mp hj' with rfl | hj'
      · exact absurd hj (lt_irrefl _)
      · exact absurd hj (lt_asymm (hsorted.2.1.1 j hj'))
  have hread : ∀ j ∈ is, p.topics j ≠ [] → log.topics.length ≠ j := by
    intro j hj _
    have := (hbefore j).mp hj
    omega
  have hover : p.topicLoop log (i :: js) = none := by
    rw [topicLoop, if_pos hwanted, if_neg (by omega), List.getElem?_eq_none (by omega)]
  simp only [← hbefore, hsplit]
  rw [← hover]
  exact topicLoop_append hread (i :: js)

end

theorem matchesLog_of_refused {log : LogEntry A H}
    (h : p.addresses ≠ [] ∧ log.address ∉ p.addresses) :
    p.matchesLog log = some (decide (p.Matched log)) := by
  have hnot : ¬ p.Matched log := fun hmatched => hmatched.1.elim h.1 h.2
  rw [matchesLog, if_pos h, decide_eq_false hnot]

theorem matchesLog_eq {log : LogEntry A H} (h : p.Readable log) :
    p.matchesLog log = some (decide (p.Matched log)) := by
  by_cases haddress : p.addresses ≠ [] ∧ log.address ∉ p.addresses
  · exact matchesLog_of_refused haddress
  have hread := h.resolve_left haddress
  rw [matchesLog, if_neg haddress]
  rw [not_and_or, not_not, not_not] at haddress
  have hfalse : ∀ i, ¬p.TopicAt log i → some false = some (decide (p.Matched log)) := fun i hi => by
    rw [decide_eq_false fun hmatched => hi (hmatched.2 i)]
  by_cases hend : ∃ i : Fin 4, p.topics i ≠ [] ∧ log.topics.length = i
  · obtain ⟨i, hwanted, hlength⟩ := hend
    obtain ⟨j, hj, hnot⟩ := hread i hwanted hlength
    rcases topicLoop_end hwanted hlength with ⟨hall, -⟩ | ⟨-, hloop⟩
    · exact absurd (hall j hj) hnot
    · exact hloop.trans (hfalse j hnot)
  · push Not at hend
    rw [← append_nil (List.finRange 4)]
    rcases topicLoop_append (fun i _ => hend i) [] with ⟨hall, hloop⟩ | ⟨⟨i, -, hi⟩, hloop⟩ <;>
      rw [hloop]
    · rw [decide_eq_true ⟨haddress, fun i => hall i (mem_finRange i)⟩, topicLoop]
    · exact hfalse i hi

/-- **Matching follows its specification exactly if it comes to no read past the end.** At the
position right behind the last topic of the log no topic may be wanted, unless the log is refused
before. -/
theorem matchesLog_correct_iff (p : Params A H) (log : LogEntry A H) :
    p.matchesLog log = some (decide (p.Matched log)) ↔
      (p.addresses ≠ [] ∧ log.address ∉ p.addresses) ∨
        ∀ i : Fin 4, p.topics i ≠ [] → log.topics.length = i → ∃ j < i, ¬p.TopicAt log j := by
  refine ⟨fun h => ?_, matchesLog_eq⟩
  by_cases haddress : p.addresses ≠ [] ∧ log.address ∉ p.addresses
  · exact .inl haddress
  rw [matchesLog, if_neg haddress] at h
  refine .inr fun i hwanted hlength => ?_
  rcases topicLoop_end hwanted hlength with ⟨-, hloop⟩ | ⟨hex, -⟩
  · rw [hloop] at h
    cases h
  · exact hex

/-- A log without topics is read at the first position, where one is wanted. -/
theorem topicless_log_overread : ∃ p : Params Nat Nat, ∃ log : LogEntry Nat Nat,
    p.matchesLog log = none ∧ p.matchesLog log ≠ some (decide (p.Matched log)) :=
  ⟨⟨0, 0, [], fun i => if i = 0 then [7] else []⟩, ⟨1, [], []⟩, by decide⟩

theorem matchesLoop_eq {es : List (Entry A H)} (h : ∀ e ∈ es, p.Readable e.log) :
    p.matchesLoop es = some (es.filter fun e => p.Matched e.log) := by
  induction es with
  | nil => rfl
  | cons e es ih =>
    rw [matchesLoop, matchesLog_eq (h e mem_cons_self),
      ih fun e he => h e (mem_cons_of_mem _ he), filter_cons]
    rfl

end Params

/-! ## The manager -/

/-- `filter_status`; session checks and callbacks do not fail. -/
inductive FilterStatus where
  | statusPushCompleted
  | waitForMoreBlock
  | waitForNextLoop
  deriving DecidableEq

/-- `EventLogFilter` -/
structure Filter (A H : Type) where
  params : Params A H
  nextBlockToProcess : Nat

namespace Filter

variable (f : Filter A H)

def pushCompleted : Bool := f.nextBlockToProcess > f.params.toBlock

/-- The loop over the blocks; a block that is not there is read through a null pointer. -/
def fetchLoop (chain : List (Block A H)) : Nat → Nat → Option (List (Entry A H))
  | _, 0 => some []
  | number, count + 1 => do
    let block ← chain[number]?
    let found ← f.params.matchesBlock number block
    let rest ← fetchLoop chain (number + 1) count
    return found ++ rest

/-- `blockchain->number()` -/
def blockNumber (chain : List (Block A H)) : Nat := chain.length - 1

/-- The status, the filter and what is pushed. -/
def executeFilter (maxBlockPerLoopFilter : Int) (chain : List (Block A H)) :
    Option (FilterStatus × Filter A H × List (Entry A H)) :=
  if blockNumber chain < f.nextBlockToProcess then some (.waitForMoreBlock, f, [])
  else do
    let leftBlockCanProcess := blockNumber chain - f.nextBlockToProcess + 1
    let thisLoopBlockCanProcess :=
      if maxBlockPerLoopFilter > 0 ∧ maxBlockPerLoopFilter > leftBlockCanProcess then
        leftBlockCanProcess
      else MAX_BLOCK_PER_PROCESS
    let response ← f.fetchLoop chain f.nextBlockToProcess thisLoopBlockCanProcess
    let f := { f with nextBlockToProcess := f.nextBlockToProcess + thisLoopBlockCanProcess }
    return (if f.pushCompleted then .statusPushCompleted
      else if leftBlockCanProcess > thisLoopBlockCanProcess then .waitForNextLoop
      else .waitForMoreBlock, f, response)

end Filter

/-- `addEventLogFilterByRequest`: the block to start from, or `none` for `INVALID_REQUEST_RANGE`. -/
def addEventLogFilterByRequest (maxBlockRange : Int) (blockNumber : Nat) (params : Params A H) :
    Option Nat :=
  let nextBlockToProcess :=
    if params.fromBlock = MAX_BLOCK_NUMBER then blockNumber else params.fromBlock
  if params.toBlock < nextBlockToProcess then none
  else if maxBlockRange > 0 ∧ blockNumber ≥ nextBlockToProcess ∧
      ((blockNumber - nextBlockToProcess + 1 : Nat) : Int) > maxBlockRange then none
  else some nextBlockToProcess

/-- A filter, and what its client has been sent. -/
structure Session (A H : Type) where
  filter : Filter A H
  /-- where it started -/
  start : Nat
  pushed : List (Entry A H) := []
  /-- how often `PUSH_COMPLETED` has been reported; the filter is then removed -/
  completions : Nat := 0
  /-- the status of the last call, and the head of the chain then -/
  last : Option (FilterStatus × Nat) := none

structure Manager (A H : Type) where
  chain : List (Block A H)
  sessions : List (Session A H) := []

/-- What happens to the manager. -/
inductive Input (A H : Type) where
  /-- a block is committed -/
  | commitBlock (block : Block A H)
  | addFilter (params : Params A H)
  | executeFilter (i : Nat)

variable (maxBlockPerLoopFilter : Int) (chain : List (Block A H))

/-- A call for a session whose filter has not been removed. -/
def Session.execute
    (session : Session A H) : Option (Session A H) :=
  if session.completions ≠ 0 then some session
  else do
    let (status, filter, response) ← session.filter.executeFilter maxBlockPerLoopFilter chain
    return { session with
      filter
      pushed := session.pushed ++ response
      completions := if status = .statusPushCompleted then 1 else 0
      last := some (status, Filter.blockNumber chain) }

/-- `none` is a read through a null pointer or past the topics of a log. -/
def Manager.step (maxBlockRange maxBlockPerLoopFilter : Int) (m : Manager A H) :
    Input A H → Option (Manager A H)
  | .commitBlock block => some { m with chain := m.chain ++ [block] }
  | .addFilter params =>
    match addEventLogFilterByRequest maxBlockRange (Filter.blockNumber m.chain) params with
    | some start => some { m with sessions := m.sessions ++ [{ filter := ⟨params, start⟩, start }] }
    | none => some m
  | .executeFilter i =>
    match m.sessions[i]? with
    | some session => do
      let session ← session.execute maxBlockPerLoopFilter m.chain
      return { m with sessions := m.sessions.set i session }
    | none => some m

/-! ## The condition -/

variable (f : Filter A H)

/-- The blocks of a call are in the chain and in the range. -/
def Filter.BatchFits :
    Prop :=
  let left := Filter.blockNumber chain - f.nextBlockToProcess + 1
  if maxBlockPerLoopFilter > 0 ∧ maxBlockPerLoopFilter > left then
    Filter.blockNumber chain ≤ f.params.toBlock
  else MAX_BLOCK_PER_PROCESS ≤ left ∧
    f.nextBlockToProcess + MAX_BLOCK_PER_PROCESS ≤ f.params.toBlock + 1

/-- The logs of the blocks of a call have no topic wanted right behind their last one, or are
refused before. -/
def Filter.LogsReadable : Prop :=
  let left := Filter.blockNumber chain - f.nextBlockToProcess + 1
  let batch := if maxBlockPerLoopFilter > 0 ∧ maxBlockPerLoopFilter > left then left
    else MAX_BLOCK_PER_PROCESS
  ∀ b ∈ (chain.drop f.nextBlockToProcess).take batch,
    ∀ logs ∈ b.receipts, ∀ log ∈ logs, f.params.Readable log

def Session.Fits (s : Session A H) :
    Prop :=
  s.completions = 0 → s.filter.nextBlockToProcess ≤ Filter.blockNumber chain →
    s.filter.BatchFits maxBlockPerLoopFilter chain ∧
      s.filter.LogsReadable maxBlockPerLoopFilter chain

def Manager.Fits (maxBlockPerLoopFilter : Int) (m : Manager A H) : Input A H → Prop
  | .executeFilter i => ∀ s ∈ m.sessions[i]?, s.Fits maxBlockPerLoopFilter m.chain
  | _ => True

instance (maxBlockPerLoopFilter : Int) (chain : List (Block A H)) :
    Decidable (f.BatchFits maxBlockPerLoopFilter chain) := by
  unfold Filter.BatchFits
  infer_instance

instance (maxBlockPerLoopFilter : Int) (chain : List (Block A H)) :
    Decidable (f.LogsReadable maxBlockPerLoopFilter chain) := List.decidableBAll _ _

instance (s : Session A H) :
    Decidable (s.Fits maxBlockPerLoopFilter chain) := inferInstanceAs (Decidable (_ → _))

instance (m : Manager A H) :
    ∀ e, Decidable (m.Fits maxBlockPerLoopFilter e)
  | .executeFilter _ => Option.decidableForallMem _
  | .addFilter _ | .commitBlock _ => isTrue trivial

/-! ## What a filter delivers -/

namespace Params

variable (p : Params A H) (chain : List (Block A H))

/-- The matching logs of the block with a number. -/
def logsOf (number : Nat) : List (Entry A H) :=
  (chain[number]?.map (p.matched number)).getD []

/-- The matching logs of `count` blocks. -/
def logsFrom (number count : Nat) : List (Entry A H) :=
  (List.range' number count).flatMap (p.logsOf chain)

variable {p}

theorem logsFrom_add (number count count' : Nat) :
    p.logsFrom chain number (count + count') =
      p.logsFrom chain number count ++ p.logsFrom chain (number + count) count' := by
  rw [logsFrom, ← List.range'_append_1, flatMap_append]
  rfl

/-- The logs of old blocks stay what they are. -/
theorem logsFrom_append {chain : List (Block A H)} {number count : Nat} (b : Block A H)
    (h : number + count ≤ chain.length) :
    p.logsFrom (chain ++ [b]) number count = p.logsFrom chain number count := by
  refine flatMap_congr fun i hi => ?_
  have hlt := (mem_range'_1.mp hi).2
  rw [logsOf, List.getElem?_append_left (hlt.trans_le h), logsOf]

theorem matchesBlock_eq {b : Block A H} (number : Nat)
    (h : ∀ logs ∈ b.receipts, ∀ log ∈ logs, p.Readable log) :
    p.matchesBlock number b = some (p.matched number b) := by
  refine matchesLoop_eq fun e he => ?_
  obtain ⟨r, hr, he⟩ := mem_flatMap.mp he
  obtain ⟨l, hl, rfl⟩ := mem_map.mp he
  exact h r.1 (fst_mem_of_mem_zipIdx hr) l.1 (fst_mem_of_mem_zipIdx hl)

end Params

namespace Filter

variable {f : Filter A H} {chain : List (Block A H)}

omit [DecidableEq A] [DecidableEq H] in
theorem blockNumber_add_one (hchain : chain ≠ []) : blockNumber chain + 1 = chain.length :=
  Nat.sub_add_cancel (length_pos_iff.mpr hchain)

theorem fetchLoop_eq {number count : Nat} (hchain : number + count ≤ chain.length)
    (hlogs : ∀ b ∈ (chain.drop number).take count,
      ∀ logs ∈ b.receipts, ∀ log ∈ logs, f.params.Readable log) :
    f.fetchLoop chain number count = some (f.params.logsFrom chain number count) := by
  induction count generalizing number with
  | zero => rfl
  | succ count ih =>
    have hlt : number < chain.length := by omega
    rw [drop_eq_getElem_cons hlt, take_succ_cons, forall_mem_cons] at hlogs
    have hrest := ih (by omega) hlogs.2
    rw [fetchLoop, List.getElem?_eq_getElem hlt, Option.bind_eq_bind, Option.bind_some,
      Params.matchesBlock_eq number hlogs.1, hrest, Nat.add_comm count 1, Params.logsFrom_add]
    simp [Params.logsFrom, Params.logsOf, List.getElem?_eq_getElem hlt]

/-- A call that stays inside of the chain and of the range. -/
theorem executeFilter_spec {maxBlockPerLoopFilter : Int} (hchain : chain ≠ [])
    (hnext : f.nextBlockToProcess ≤ blockNumber chain)
    (hfits : f.BatchFits maxBlockPerLoopFilter chain)
    (hlogs : f.LogsReadable maxBlockPerLoopFilter chain) :
    ∃ status batch, 0 < batch ∧ f.nextBlockToProcess + batch ≤ blockNumber chain + 1 ∧
      f.nextBlockToProcess + batch ≤ f.params.toBlock + 1 ∧
      f.executeFilter maxBlockPerLoopFilter chain =
        some (status, { f with nextBlockToProcess := f.nextBlockToProcess + batch },
          f.params.logsFrom chain f.nextBlockToProcess batch) ∧
      (status = .statusPushCompleted ↔ f.nextBlockToProcess + batch = f.params.toBlock + 1) ∧
      (status = .waitForMoreBlock → f.nextBlockToProcess + batch = blockNumber chain + 1) := by
  have hlength := blockNumber_add_one hchain
  rw [executeFilter, if_neg hnext.not_gt]
  -- the batch is all the blocks that are left, or the constant
  generalize hbatch : (if maxBlockPerLoopFilter > 0 ∧ maxBlockPerLoopFilter >
    ((blockNumber chain - f.nextBlockToProcess + 1 : Nat) : Int) then
      blockNumber chain - f.nextBlockToProcess + 1 else MAX_BLOCK_PER_PROCESS) = batch
  obtain ⟨hpos, hhead, hto⟩ : 0 < batch ∧ f.nextBlockToProcess + batch ≤ blockNumber chain + 1 ∧
      f.nextBlockToProcess + batch ≤ f.params.toBlock + 1 := by
    rw [BatchFits] at hfits
    simp only [MAX_BLOCK_PER_PROCESS] at hfits hbatch
    split at hfits <;> rename_i hlimit
    · rw [if_pos hlimit] at hbatch
      omega
    · rw [if_neg hlimit] at hbatch
      omega
  rw [LogsReadable, hbatch] at hlogs
  have hfetch := fetchLoop_eq (f := f) (hlength ▸ hhead) hlogs
  simp only [hbatch, hfetch, Option.bind_eq_bind, pushCompleted, gt_iff_lt, decide_eq_true_eq]
  refine ⟨_, batch, hpos, hhead, hto, rfl, ?_, ?_⟩
  · split
    · exact iff_of_true rfl (by omega)
    · exact iff_of_false (by split <;> nofun) (by omega)
  · split
    · nofun
    · split
      · nofun
      · omega

theorem executeFilter_of_lt {maxBlockPerLoopFilter : Int}
    (hnext : blockNumber chain < f.nextBlockToProcess) :
    f.executeFilter maxBlockPerLoopFilter chain = some (.waitForMoreBlock, f, []) := if_pos hnext

end Filter

/-- What a client has been sent of its range. -/
structure Session.Exact (chain : List (Block A H)) (s : Session A H) : Prop where
  start_le : s.start ≤ s.filter.nextBlockToProcess
  /-- no block behind the range is processed -/
  next_le : s.filter.nextBlockToProcess ≤ s.filter.params.toBlock + 1
  /-- the matching logs of the blocks before the next one -/
  pushed : s.pushed = s.filter.params.logsFrom chain s.start
    (s.filter.nextBlockToProcess - s.start)
  /-- completion is reported, and once, when the last block of the range has been processed -/
  completions : s.completions =
    if s.filter.nextBlockToProcess = s.filter.params.toBlock + 1 then 1 else 0
  fresh : s.last = none → s.filter.nextBlockToProcess = s.start
  /-- only blocks up to the head are processed, and all of them unless there is a next loop -/
  processed : ∀ status head, s.last = some (status, head) → head ≤ Filter.blockNumber chain ∧
    s.filter.nextBlockToProcess ≤ max s.start (head + 1) ∧
      (status ≠ .waitForNextLoop →
        s.filter.nextBlockToProcess = max s.start (min s.filter.params.toBlock head + 1))

namespace Session.Exact

variable {chain : List (Block A H)} {s : Session A H} {maxBlockPerLoopFilter : Int}

theorem next_le_chain (h : s.Exact chain) :
    s.filter.nextBlockToProcess ≤ max s.start (Filter.blockNumber chain + 1) := by
  cases hlast : s.last with
  | none =>
    rw [h.fresh hlast]
    exact le_max_left _ _
  | some last =>
    obtain ⟨hhead, hnext, -⟩ := h.processed last.1 last.2 hlast
    exact hnext.trans (max_le_max_left _ (Nat.succ_le_succ hhead))

theorem commitBlock (b : Block A H) (hchain : chain ≠ []) (h : s.Exact chain) :
    s.Exact (chain ++ [b]) := by
  have hlength := Filter.blockNumber_add_one hchain
  have hnumber : Filter.blockNumber (chain ++ [b]) = Filter.blockNumber chain + 1 := by
    rw [Filter.blockNumber, length_append, hlength]
    rfl
  refine { h with pushed := ?_, processed := ?_ }
  · have hnext := h.next_le_chain
    rcases Nat.eq_or_lt_of_le h.start_le with hstart | hstart
    · rw [h.pushed, ← hstart, Nat.sub_self]
      rfl
    · rw [h.pushed, Params.logsFrom_append b (by omega)]
  · intro status head hlast
    obtain ⟨hhead, hnext⟩ := h.processed status head hlast
    exact ⟨by omega, hnext⟩

/-- The step lemma: a call keeps what has been sent exact, and takes a block if there is one. -/
theorem execute (hchain : chain ≠ []) (h : s.Exact chain)
    (hfits : s.Fits maxBlockPerLoopFilter chain) :
    ∃ s', s.execute maxBlockPerLoopFilter chain = some s' ∧ s'.Exact chain ∧
      (s.completions = 0 → s.filter.nextBlockToProcess ≤ Filter.blockNumber chain →
        s.filter.nextBlockToProcess < s'.filter.nextBlockToProcess) := by
  rw [Session.execute]
  by_cases hdone : s.completions = 0
  · rw [if_neg (not_not.mpr hdone)]
    have hto : s.filter.nextBlockToProcess ≠ s.filter.params.toBlock + 1 := by
      intro hto
      rw [h.completions, if_pos hto] at hdone
      cases hdone
    have hstart := h.start_le
    by_cases hnext : s.filter.nextBlockToProcess ≤ Filter.blockNumber chain
    · obtain ⟨status, batch, hpos, hhead, hrange, hcall, hcompleted, hmore⟩ :=
        Filter.executeFilter_spec hchain hnext (hfits hdone hnext).1 (hfits hdone hnext).2
      rw [hcall]
      refine ⟨_, rfl, ⟨by simp only; omega, hrange, ?_, ?_, nofun, ?_⟩, fun _ _ => ?_⟩
      · rw [h.pushed]
        rw [Nat.sub_add_comm hstart, Params.logsFrom_add, Nat.add_sub_cancel' hstart]
      · simp only [hcompleted]
      · intro status' head hlast
        cases hlast
        refine ⟨le_rfl, le_max_of_le_right hhead, fun hstatus => ?_⟩
        simp only
        cases status with
        | statusPushCompleted =>
          have := hcompleted.mp rfl
          omega
        | waitForMoreBlock =>
          have := hmore rfl
          omega
        | waitForNextLoop => exact absurd rfl hstatus
      · simp only
        omega
    · rw [Filter.executeFilter_of_lt (not_le.mp hnext)]
      refine ⟨_, rfl, ⟨hstart, h.next_le, ?_, ?_, nofun, ?_⟩, fun _ hle => absurd hle hnext⟩
      · rw [h.pushed]
        exact append_nil _
      · rw [if_neg hto]
        rfl
      · intro status' head hlast
        cases hlast
        have hle := h.next_le_chain
        have hnext_le := h.next_le
        simp only
        omega
  · rw [if_pos hdone]
    exact ⟨s, rfl, h, fun hzero => absurd hzero hdone⟩

end Session.Exact

omit [DecidableEq A] [DecidableEq H] in
theorem addEventLogFilterByRequest_le {maxBlockRange : Int} {blockNumber start : Nat}
    {params : Params A H}
    (h : addEventLogFilterByRequest maxBlockRange blockNumber params = some start) :
    start ≤ params.toBlock := by
  rw [addEventLogFilterByRequest] at h
  generalize (if params.fromBlock = MAX_BLOCK_NUMBER then blockNumber else params.fromBlock) =
    nextBlockToProcess at h
  split at h
  · cases h
  · rename_i hrange
    split at h
    · cases h
    · rw [← Option.some.inj h]
      exact not_lt.mp hrange

/-- All clients have been sent what they asked for. -/
structure Manager.Exact (m : Manager A H) : Prop where
  chain : m.chain ≠ []
  sessions : ∀ s ∈ m.sessions, s.Exact m.chain

theorem Manager.Exact.step (maxBlockRange : Int) {maxBlockPerLoopFilter : Int} {m : Manager A H}
    (h : m.Exact) {e : Input A H} (hfits : m.Fits maxBlockPerLoopFilter e) :
    ∃ m', m.step maxBlockRange maxBlockPerLoopFilter e = some m' ∧ m'.Exact := by
  cases e with
  | commitBlock block =>
    refine ⟨_, rfl, by simp, fun s hs => ?_⟩
    exact (h.sessions s hs).commitBlock block h.chain
  | addFilter params =>
    rw [Manager.step]
    cases hadd : addEventLogFilterByRequest maxBlockRange (Filter.blockNumber m.chain) params with
    | none => exact ⟨m, rfl, h⟩
    | some start =>
      have hstart := addEventLogFilterByRequest_le hadd
      refine ⟨_, rfl, h.chain, fun s hs => ?_⟩
      rcases mem_append.mp hs with hs | hs
      · exact h.sessions s hs
      · rw [mem_singleton.mp hs]
        refine ⟨le_rfl, Nat.le_succ_of_le hstart, ?_, ?_, fun _ => rfl, nofun⟩
        · simp only [Nat.sub_self]
          rfl
        · rw [if_neg (by simp only; omega)]
  | executeFilter i =>
    rw [Manager.step]
    cases hi : m.sessions[i]? with
    | none => exact ⟨m, rfl, h⟩
    | some session =>
      have hexact := h.sessions session (mem_of_getElem? hi)
      obtain ⟨session', hcall, hexact', -⟩ := hexact.execute h.chain (hfits session hi)
      simp only [hcall, Option.bind_eq_bind]
      refine ⟨_, rfl, h.chain, fun s hs => ?_⟩
      rcases mem_or_eq_of_mem_set hs with hs | rfl
      · exact h.sessions s hs
      · exact hexact'

/-- If no call reaches over the end of a range or of the chain, and no log is read past its
topics, then every client has been sent exactly its logs, and the next call finds every block it
asks for and goes on. -/
theorem filters_exact {maxBlockRange maxBlockPerLoopFilter : Int} {m₀ m : Manager A H}
    {es : List (Input A H)} (hchain : m₀.chain ≠ []) (hsessions : m₀.sessions = [])
    (hrun : Run (Guarded (Manager.Fits maxBlockPerLoopFilter)
      (Steps (Manager.step maxBlockRange maxBlockPerLoopFilter))) m₀ es m) :
    (∀ s ∈ m.sessions, s.Exact m.chain) ∧ (∀ e, m.Fits maxBlockPerLoopFilter e →
        (m.step maxBlockRange maxBlockPerLoopFilter e).isSome) ∧
      ∀ i, ∀ s ∈ m.sessions[i]?, m.Fits maxBlockPerLoopFilter (.executeFilter i) →
        s.completions = 0 → s.filter.nextBlockToProcess ≤ Filter.blockNumber m.chain →
          ∃ s', s.execute maxBlockPerLoopFilter m.chain = some s' ∧
            s.filter.nextBlockToProcess < s'.filter.nextBlockToProcess := by
  have hexact : m.Exact := by
    refine hrun.invariant (fun _ m => m.Exact) ⟨hchain, by simp [hsessions]⟩ ?_
    intro _ m e m' hm hstep
    obtain ⟨m'', hstep', hm''⟩ := hm.step maxBlockRange hstep.1
    rw [← Option.some.inj (hstep'.symm.trans hstep.2)]
    exact hm''
  refine ⟨hexact.sessions, fun e hfits => ?_, fun i s hs hfits hdone hnext => ?_⟩
  · obtain ⟨m', hstep, -⟩ := hexact.step maxBlockRange hfits
    rw [hstep]
    rfl
  · obtain ⟨s', hcall, -, hmore⟩ :=
      (hexact.sessions s (mem_of_getElem? hs)).execute hexact.chain (hfits s hs)
    exact ⟨s', hcall, hmore hdone hnext⟩

/-- A block with one log that has one topic. -/
def plainBlock (topic : Nat) : Block Nat Nat := ⟨[[⟨0, [topic], []⟩]]⟩

def plainParams (fromBlock toBlock : Nat) : Params Nat Nat := ⟨fromBlock, toBlock, [], fun _ => []⟩

/-- The numbers of the blocks whose logs have been pushed, and the completions. -/
def Manager.delivered (m : Manager A H) : List (List Nat × Nat) :=
  m.sessions.map fun s => (s.pushed.map (·.blockNumber), s.completions)

theorem filter_follows_chain : ∃ m : Manager Nat Nat,
    m.delivered = [([1, 2], 1)] ∧ ∀ s ∈ m.sessions, s.Exact m.chain := by
  have h : (exec (guardedStep (Manager.Fits 3) (Manager.step 0 3)) ⟨[⟨[]⟩], []⟩
      [.addFilter (plainParams 1 2), .commitBlock (plainBlock 7), .executeFilter 0,
        .commitBlock (plainBlock 8), .executeFilter 0]).any
      (fun m => m.delivered = [([1, 2], 1)]) = true := by
    decide +kernel
  obtain ⟨m, hm, hdelivered⟩ := exists_guardedRun_of_exec h fun _ _ h => h
  exact ⟨m, hdelivered, (filters_exact (by decide) rfl hm).1⟩

/-- A filter for block 1 is sent the logs of blocks 2 and 3 as well. With a limit of two and two
blocks left, a call asks for a third block. A log with one topic is read past its topics when the
second one is wanted. -/
theorem batch_ignores_range :
    let chain : List (Block Nat Nat) := [⟨[]⟩, plainBlock 7, plainBlock 8, plainBlock 9]
    (exec (Manager.step 0 3) ⟨chain, []⟩ [.addFilter (plainParams 1 1), .executeFilter 0]).map
        Manager.delivered = some [([1, 2, 3], 1)] ∧
      (exec (Manager.step 0 2) ⟨chain, []⟩ [.addFilter (plainParams 2 3), .executeFilter 0]).map
        Manager.delivered = none ∧
      (exec (Manager.step 0 9) ⟨chain, []⟩
        [.addFilter { plainParams 1 3 with topics := fun i => if i.val = 1 then [7] else [] },
          .executeFilter 0]).map Manager.delivered = none := by
  decide +kernel

end Rcc.Event
