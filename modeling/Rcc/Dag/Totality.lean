import Rcc.Abi.DynamicData
import Rcc.Dag.Graph
import Rcc.Precompiled.DagBalances

/-!
# Rcc.Dag.Totality

When the analysis of a block comes to an end (`TxDAG::init`), and what becomes of the transactions
that it cannot decode.

The critical fields of the transactions are computed in a parallel loop without a handler, so one
transaction on which `getTxCriticals` throws, or reads through a null reference, ends the analysis
of the block. A call that is too short for a selector does, whatever contract it is for, and so
does a call of a registered function whose critical parameters are not in the data.

The parallel precompiled contract of the source is `DagTransferPrecompiled`. It does not look at
the answer of `abiOut`: a call of it that cannot be decoded has at most the fields of the users that
have been read, and need not conflict with anything.
-/

namespace Rcc.Dag

open List

open Abi (sizeT wordAt)
open Precompiled.DagTransfer (Selectors decode firstUser secondUser getParamData)

variable {data : Bytes} {pos : Nat} (ctx : Context) (name2Selector : Selectors)

/-- `DagTransferPrecompiled::getParallelTag`, on the data of a transaction. -/
def dagTransferTag (param : Bytes) : Option (List String) :=
  (Precompiled.DagTransfer.getParamFunc param).map fun func =>
    Precompiled.DagTransfer.getParallelTag (decode name2Selector func (getParamData param))

/-- All contracts that are parallel are the one for transfers. -/
def OnlyDagTransfer : Prop :=
  ∀ addr, ∀ p ∈ ctx.getPrecompiled addr, p.isParallelPrecompiled = true →
    p.getParallelTag = dagTransferTag name2Selector

/-- `TxDAG::init`, with `none` if it throws. -/
def TxDAG.init (txs : List Tx) : Option DAG :=
  (txs.mapM (getTxCriticals ctx)).map build

/-- The string at a position: its length and its last byte are in the data, with all positions
taken in 64 bits. -/
def LegibleString (data : Bytes) (pos : Nat) : Prop :=
  sizeT (pos + 32 - 1) < data.length ∧
  sizeT (pos + 32 + sizeT (wordAt data pos) - 1) < data.length

/-- The parameter at a position: its word is in the data, and so is the string it points to. -/
def Legible (data : Bytes) (pos : Nat) (t : AbiType) : Prop :=
  sizeT (pos + 32 - 1) < data.length ∧
  (t = .string → LegibleString data (sizeT (wordAt data pos)))

/-- The types up to the first one that is not supported. -/
def supported : List String → List AbiType
  | [] => []
  | type :: allTypes =>
    match AbiType.ofName type with
    | none => []
    | some t => t :: supported allTypes

/-- The parameters of these types are in the data, one behind the other. -/
def LegibleAll (data : Bytes) : Nat → List AbiType → Prop
  | _, [] => True
  | pos, t :: types => Legible data pos t ∧ LegibleAll data (pos + maxByteLength) types

/-- The types of the critical parameters of the function that is called, if it is registered with a
signature that has as many. -/
def criticalTypes (tx : Tx) (selector : Nat) : Option (List String) := do
  let config ← ctx.getParallelConfig tx.receiveAddress selector
  let paramTypes ← ctx.parser config.functionName
  let criticalSize := config.criticalSize % 2 ^ 64
  if paramTypes.length < criticalSize then none else some (paramTypes.take criticalSize)

/-- The transaction can be analysed: it creates a contract, or its precompiled contract is not
parallel or the data have a selector, or its data have a selector and the critical parameters of
the function, if it is one that is registered properly. -/
def Analysable (tx : Tx) : Prop :=
  tx.isCreation = true ∨
  match ctx.getPrecompiled tx.receiveAddress with
  | some p => p.isParallelPrecompiled = true → 4 ≤ tx.data.length
  | none => ∃ selector ∈ getParamFunc tx.data, ∀ types ∈ criticalTypes ctx tx selector,
      LegibleAll (tx.data.drop 4) 0 (supported types)

theorem isSome_checked {α : Type} (x : Option α) :
    ((Abi.validOffset data pos).bind fun _ => x).isSome ↔ pos < data.length ∧ x.isSome := by
  rw [Abi.validOffset]
  split_ifs with hout
  · simp [Nat.not_lt.mpr hout]
  · simp [Nat.lt_of_not_le hout]

theorem deserialiseU256_bind {α : Type} (f : Nat → Option α) :
    ((Abi.deserialiseU256 data pos).bind f).isSome ↔
      sizeT (pos + 32 - 1) < data.length ∧ (f (wordAt data pos)).isSome := by
  rw [Abi.deserialiseU256, ← isSome_checked, Option.bind_eq_bind, Option.bind_assoc]
  rfl

theorem deserialise_isSome (t : AbiType) :
    (deserialise data pos t).isSome ↔ Legible data pos t := by
  cases t with
  | int | uint =>
    exact (deserialiseU256_bind _).trans (and_congr_right fun _ => iff_of_true rfl (by simp))
  | address => exact (isSome_checked _).trans (and_congr_right fun _ => iff_of_true rfl (by simp))
  | string =>
    refine (deserialiseU256_bind _).trans (and_congr_right fun _ => ?_)
    refine ((deserialiseU256_bind _).trans ?_).trans ⟨fun h _ => h, fun h => h rfl⟩
    exact and_congr_right fun _ => (isSome_checked _).trans (and_iff_left rfl)

theorem isSome_both {α β γ : Type} {x : Option α} {y : Option β} (f : α → β → γ) :
    (x.bind fun a => y.bind fun b => some (f a b)).isSome ↔ x.isSome ∧ y.isSome := by
  cases x <;> cases y <;> simp

theorem abiOutByFuncSelector_isSome (types : List String) :
    (abiOutByFuncSelector ctx data pos types).isSome ↔
      LegibleAll data pos (supported types) := by
  induction types generalizing pos with
  | nil => exact iff_of_true rfl trivial
  | cons type types ih =>
    rw [abiOutByFuncSelector, supported]
    cases AbiType.ofName type with
    | none => exact iff_of_true rfl trivial
    | some t => exact (isSome_both _).trans (and_congr (deserialise_isSome t) ih)

theorem dagTransferTag_isSome (param : Bytes) :
    (dagTransferTag name2Selector param).isSome ↔ 4 ≤ param.length := by
  rw [dagTransferTag, Option.isSome_map, Precompiled.DagTransfer.getParamFunc]
  split <;> simp <;> omega

theorem getTxCriticals_call {tx : Tx} (hcreate : tx.isCreation = false)
    (hp : ctx.getPrecompiled tx.receiveAddress = none) :
    getTxCriticals ctx tx = (getParamFunc tx.data).bind fun selector =>
      match criticalTypes ctx tx selector with
      | none => some none
      | some types => (abiOutByFuncSelector ctx (tx.data.drop 4) 0 types).map
          (·.map (·.map (· ++ ctx.hex tx.receiveAddress))) := by
  rw [getTxCriticals, if_neg (by simp [hcreate]), hp]
  refine congrArg (getParamFunc tx.data).bind (funext fun selector => ?_)
  rw [criticalTypes]
  cases ctx.getParallelConfig tx.receiveAddress selector with
  | none => rfl
  | some config =>
    cases hparser : ctx.parser config.functionName with
    | none => simp [hparser]
    | some paramTypes =>
      simp only [Option.bind_eq_bind, Option.bind_some, hparser]
      split
      · rfl
      · exact (Option.map_eq_bind ..).symm

variable {ctx name2Selector} {tx : Tx} {txs : List Tx} {param : Bytes}

section

variable (hdag : OnlyDagTransfer ctx name2Selector)
include hdag

theorem getTxCriticals_isSome (tx : Tx) :
    (getTxCriticals ctx tx).isSome ↔ Analysable ctx tx := by
  rw [Analysable]
  cases hcreate : tx.isCreation with
  | true => simp [getTxCriticals, hcreate]
  | false =>
    rw [or_iff_right (by simp)]
    cases hp : ctx.getPrecompiled tx.receiveAddress with
    | some p =>
      rw [getTxCriticals, if_neg (by simp [hcreate]), hp]
      dsimp only
      split
      · rw [hdag _ p hp ‹_›, imp_iff_right ‹_›, ← dagTransferTag_isSome name2Selector]
        cases dagTransferTag name2Selector tx.data <;> simp
      · simp [*]
    | none =>
      rw [getTxCriticals_call ctx hcreate hp]
      cases getParamFunc tx.data with
      | none => simp
      | some selector =>
        cases htypes : criticalTypes ctx tx selector with
        | none => simp [htypes]
        | some types => simp [htypes, abiOutByFuncSelector_isSome]

/-- The analysis of a block ends if and only if every transaction of it can be analysed. -/
theorem init_isSome_iff (txs : List Tx) :
    (TxDAG.init ctx txs).isSome ↔ ∀ tx ∈ txs, Analysable ctx tx := by
  rw [TxDAG.init, Option.isSome_map]
  induction txs with
  | nil => simp
  | cons tx txs ih =>
    rw [forall_mem_cons, ← getTxCriticals_isSome hdag, ← ih, mapM_cons]
    exact isSome_both _

end

/-! ## What cannot be decoded -/

/-- The types of the arguments of a method of the transfer contract. -/
def argumentTypes (name2Selector : Selectors) (func : Nat) : Option (List Abi.Ty) :=
  if func ∈ [name2Selector.add, name2Selector.save, name2Selector.draw] then some [.string, .u256]
  else if func = name2Selector.transfer then some [.string, .string, .u256]
  else if func = name2Selector.balance then some [.string]
  else none

/-- The data of a call of the transfer contract are a method and its arguments. -/
def Decodes (name2Selector : Selectors) (param : Bytes) : Prop :=
  ∃ func ∈ Precompiled.DagTransfer.getParamFunc param,
    ∃ types ∈ argumentTypes name2Selector func, (Abi.abiOut types (getParamData param)).isSome

/-- The method is not the query, and its users have names. -/
def NamesUsers (name2Selector : Selectors) (param : Bytes) : Prop :=
  ∀ func ∈ Precompiled.DagTransfer.getParamFunc param, func ≠ name2Selector.balance ∧
    firstUser (getParamData param) ≠ "" ∧
    (func = name2Selector.transfer → secondUser (getParamData param) ≠ "")

/-- The critical fields of the transaction cannot be decoded: those of a call of the transfer
contract, or of a function that is registered for parallel calls. -/
def Undecodable (ctx : Context) (name2Selector : Selectors) (tx : Tx) : Prop :=
  tx.isCreation = false ∧
  match ctx.getPrecompiled tx.receiveAddress with
  | some p => p.isParallelPrecompiled = true ∧ ¬Decodes name2Selector tx.data
  | none => ∀ selector ∈ getParamFunc tx.data,
      (ctx.getParallelConfig tx.receiveAddress selector).isSome ∧
      ∀ types ∈ criticalTypes ctx tx selector,
        LegibleAll (tx.data.drop 4) 0 (supported types) → ∃ type ∈ types, AbiType.ofName type = none

/-- A transaction that is declared parallel has a critical field: a call of the transfer contract
can be decoded and names its users, and a registered function has a critical parameter. -/
def HasField (ctx : Context) (name2Selector : Selectors) (tx : Tx) : Prop :=
  tx.isCreation = true ∨
  match ctx.getPrecompiled tx.receiveAddress with
  | some p => p.isParallelPrecompiled = true →
      Decodes name2Selector tx.data ∧ NamesUsers name2Selector tx.data
  | none => ∀ selector ∈ getParamFunc tx.data, criticalTypes ctx tx selector ≠ some []

theorem dagTransferTag_ne_nil (hdec : Decodes name2Selector param)
    (hnames : NamesUsers name2Selector param) : dagTransferTag name2Selector param ≠ some [] := by
  obtain ⟨func, hfunc, types, htypes, -⟩ := hdec
  obtain ⟨hbalance, hfirst, hsecond⟩ := hnames func hfunc
  rw [Option.mem_def] at hfunc
  simp only [argumentTypes, mem_cons, not_mem_nil, or_false] at htypes
  rw [dagTransferTag, hfunc, Option.map_some, decode]
  split_ifs at htypes ⊢ <;>
    simp_all [Precompiled.DagTransfer.getParallelTag, Precompiled.DagTransfer.invalidUserName]

theorem abiOutByFuncSelector_eq {types values : List String}
    (h : abiOutByFuncSelector ctx data pos types = some (some values)) :
    values.length = types.length ∧ ∀ type ∈ types, AbiType.ofName type ≠ none := by
  induction types generalizing pos values with
  | nil =>
    obtain rfl := Option.some.inj (Option.some.inj h)
    simp
  | cons type types ih =>
    rw [abiOutByFuncSelector] at h
    cases htype : AbiType.ofName type with
    | none => simp [htype] at h
    | some t =>
      simp only [htype, Option.bind_eq_bind, Option.bind_eq_some_iff, Option.pure_def,
        Option.some.injEq, Option.map_eq_some_iff] at h
      obtain ⟨value, -, out, hout, values, rfl, rfl⟩ := h
      obtain ⟨hlen, hsupported⟩ := ih hout
      exact ⟨congrArg (· + 1) hlen, forall_mem_cons.mpr ⟨by simp [htype], hsupported⟩⟩

/-- A transaction that has a field where it is declared parallel is parallel only with one, and if
it can be decoded. -/
theorem criticals_of_hasField (hdag : OnlyDagTransfer ctx name2Selector)
    (hfield : HasField ctx name2Selector tx) {criticals : List String}
    (h : getTxCriticals ctx tx = some (some criticals)) :
    criticals ≠ [] ∧ ¬Undecodable ctx name2Selector tx := by
  have hlegible := (getTxCriticals_isSome hdag tx).mp (by simp [h])
  cases hcreate : tx.isCreation with
  | true => simp [getTxCriticals, hcreate] at h
  | false =>
    rw [HasField, or_iff_right (by simp [hcreate])] at hfield
    rw [Analysable, or_iff_right (by simp [hcreate])] at hlegible
    rw [Undecodable]
    cases hp : ctx.getPrecompiled tx.receiveAddress with
    | some p =>
      rw [getTxCriticals, if_neg (by simp [hcreate])] at h
      simp only [hp] at h hfield ⊢
      split at h
      · obtain ⟨hdec, hnames⟩ := hfield ‹_›
        rw [hdag _ p hp ‹_›] at h
        obtain ⟨tags, htags, hcriticals⟩ := Option.bind_eq_some_iff.mp h
        obtain rfl := Option.some.inj (Option.some.inj hcriticals)
        refine ⟨fun hnil => dagTransferTag_ne_nil hdec hnames ?_, fun hun => hun.2.2 hdec⟩
        rw [htags, map_eq_nil_iff.mp hnil]
      · simp at h
    | none =>
      rw [getTxCriticals_call ctx hcreate hp] at h
      simp only [hp] at hfield hlegible ⊢
      obtain ⟨selector, hselector, h⟩ := Option.bind_eq_some_iff.mp h
      obtain ⟨_, hselector', hlegible⟩ := hlegible
      obtain rfl := Option.some.inj (hselector.symm.trans hselector')
      cases htypes : criticalTypes ctx tx selector with
      | none => simp [htypes] at h
      | some types =>
        simp only [htypes, Option.map_eq_some_iff] at h
        obtain ⟨_, hout, values, rfl, rfl⟩ := h
        obtain ⟨hlen, hsupported⟩ := abiOutByFuncSelector_eq hout
        refine ⟨fun hnil => hfield selector hselector ?_, fun hun => ?_⟩
        · rw [map_eq_nil_iff.mp hnil] at hlen
          rw [htypes, length_eq_zero_iff.mp hlen.symm]
        · obtain ⟨type, hmem, hnone⟩ := (hun.2 selector hselector).2 types htypes
            (hlegible types htypes)
          exact hsupported type hmem hnone

theorem exists_of_mapM {α β : Type} {f : α → Option β} {l : List α} {l' : List β} {i : Nat} {a : α}
    (hi : l[i]? = some a) (h : l.mapM f = some l') : ∃ b, f a = some b ∧ l'[i]? = some b := by
  induction l generalizing l' i with
  | nil => cases hi
  | cons x l ih =>
    simp only [mapM_cons, Option.pure_def, Option.bind_eq_bind,
      Option.bind_eq_some_iff, Option.some.injEq] at h
    obtain ⟨b, hb, l', hl, rfl⟩ := h
    cases i with
    | zero =>
      obtain rfl := Option.some.inj hi
      exact ⟨b, hb, rfl⟩
    | succ i => simpa using ih hi hl

/-- A transaction that is not parallelisable shares a field with every other that has one. -/
theorem exists_common_field {a b : Option (List String)} {p q : Prop}
    (ha : ∀ cs, a = some cs → cs ≠ [] ∧ ¬p) (hb : ∀ cs, b = some cs → cs ≠ [] ∧ ¬q) (h : p ∨ q) :
    ∃ c, Touches a c ∧ Touches b c := by
  match a, b with
  | none, none => exact ⟨"", trivial, trivial⟩
  | none, some cs =>
    obtain ⟨c, hc⟩ := exists_mem_of_ne_nil cs (hb cs rfl).1
    exact ⟨c, trivial, hc⟩
  | some cs, none =>
    obtain ⟨c, hc⟩ := exists_mem_of_ne_nil cs (ha cs rfl).1
    exact ⟨c, hc, trivial⟩
  | some cs, some cs' => exact absurd h (not_or.mpr ⟨(ha cs rfl).2, (hb cs' rfl).2⟩)

/-- The transfer contract, and a registered function whose parameter has no supported type. -/
def transferOrSet : Context where
  getPrecompiled addr := if addr = 0x100c then some ⟨true, dagTransferTag ⟨1, 2, 3, 4, 5⟩⟩ else none
  getParallelConfig _ _ := some ⟨"set(bytes)", 1⟩
  parser _ := some ["bytes"]
  text _ _ := ""
  hex _ := ""

/-- The call that adds the user `a` with the amount 7. -/
def addCall : Bytes :=
  let word n := replicate 31 0 ++ [n]
  [0, 0, 0, 1] ++ word 64 ++ word 7 ++ word 1 ++ (97 :: replicate 31 0)

def setThenAdd : List Tx := [⟨false, 1, [1, 2, 3, 4]⟩, ⟨false, 0x100c, addCall⟩]

/-- A contract with one registered function, whose only parameter is a critical string. -/
def registered : Context where
  getPrecompiled _ := none
  getParallelConfig _ _ := some ⟨"set(string)", 1⟩
  parser _ := some ["string"]
  text _ _ := ""
  hex _ := ""

end Rcc.Dag
