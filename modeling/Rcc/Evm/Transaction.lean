import Rcc.Evm.Create

/-!
# Rcc.Evm.Transaction

A whole transaction through an `Executive`: `initialize`, `execute`, `go`, `finalize`, `reset`, and
the two drivers that use one executive for many transactions, `TransactionExecuter::executeTx` and
`BlockVerifier::execute`.

The executive of `Rcc.Evm.Create` is the **core**: the members that decide what a creation does to
the world. Around it stand the members that only carry something out: the output, the logs, the
refunds and the rest of `*m_ext`. None of them is cleared by `initialize` or `execute`.

The VM is a function of all it is given: the context with the message, the gas and the world, which
answers its queries. A message call (`callRC2`) ends with `CallAddressError`, but not before it has
told its caller to go on with whatever context `m_ext` still holds.
-/

namespace Rcc.Evm

variable {A : Type}

/-! ### Inputs -/

structure LogEntry (A : Type) where
  address : A
  topics : List Nat
  data : Bytes
deriving DecidableEq

/-- What surrounds a transaction. -/
structure TxEnv (A : Type) extends Env A where
  txGasLimit : Nat
  sstoreRefundGas : Nat
  suicideRefundGas : Nat
  /-- The ABI encoding of the error `Frozen account:0x…`. -/
  frozenAccount : A → Bytes

structure Transaction (A : Type) where
  sender : A
  /-- `none` makes the transaction a creation. -/
  receiveAddress : Option A
  value : Nat
  gasPrice : Nat
  gas : Nat
  data : Bytes
  zeroSignature : Bool

/-- What `*m_ext` holds besides `HostContext`: the message, and the logs and refunds of its
substate. It means nothing while `m_ext` is null. -/
structure Frame (A : Type) where
  caller : A
  value : Nat
  gasPrice : Nat
  code : Bytes
  logs : List (LogEntry A)
  refunds : Nat
deriving DecidableEq

/-- A host call that changes something. -/
inductive VmCall where
  | state (call : HostCall)
  | log (topics : List Nat) (data : Bytes)

structure TxRun where
  calls : List VmCall
  result : VmResult

/-- `EVMInterface`: what the VM does with a context, some gas and a world. -/
abbrev Vm (A : Type) := HostContext A → Frame A → Nat → World A → TxRun

/-! ### The executive -/

/-- `Executive`, with all its members but the state and the environment. `m_exceptionReason`, which
is only ever logged, is left out. -/
structure TxExecutive (A : Type) where
  core : Executive A
  /-- `none` before the first context. -/
  frame : Option (Frame A)
  output : Bytes
  logs : List (LogEntry A)
  baseGasRequired : Nat
  refunded : Nat
  gasCost : Nat
  enableFreeStorage : Bool
  tx : Option (Transaction A)

/-- `execute` returns, or throws `OutOfGasBase` or `NotEnoughCash`. -/
inductive Executed (A : Type) where
  | returned (x : TxExecutive A) (w : World A)
  | threw (x : TxExecutive A) (w : World A)

/-- `u256` subtraction. -/
@[irreducible] def u256Sub (a b : Nat) : Nat := u256 (a + 2 ^ 256 - b)

def rc3Version : Nat := 3

/-- The members of `SubState` that `Frame` holds, cleared. -/
def Frame.clear (f : Frame A) : Frame A := { f with logs := [], refunds := 0 }

namespace TxExecutive

/-- The constructor, at depth 0. The initial value of `m_baseGasRequired` is arbitrary. -/
def make (freeStorage : Bool) (baseGasRequired : Nat) (hasVm : Bool) : TxExecutive A where
  core := Executive.make 0 hasVm
  frame := none
  output := []
  logs := []
  baseGasRequired := baseGasRequired
  refunded := 0
  gasCost := 0
  enableFreeStorage := freeStorage
  tx := none

/-- `Executive::reset`. -/
def reset (x : TxExecutive A) : TxExecutive A where
  core := Executive.make 0 x.core.hasVm
  frame := none
  output := []
  logs := []
  baseGasRequired := 0
  refunded := 0
  gasCost := 0
  enableFreeStorage := x.enableFreeStorage
  tx := none

/-- `setVM`. -/
def setVM (x : TxExecutive A) : TxExecutive A := { x with core := { x.core with hasVm := true } }

/-- `Executive::initialize`. -/
def initializeTx (t : Transaction A) (x : TxExecutive A) : TxExecutive A :=
  { x with
    tx := some t
    enableFreeStorage := true
    baseGasRequired := 20000
    gasCost := if t.zeroSignature then x.gasCost else u256 (t.gas * t.gasPrice) }

/-- The environment as the members of the executive see it. -/
def env (env : TxEnv A) (x : TxExecutive A) : Env A :=
  { env.toEnv with freeStorage := x.enableFreeStorage }

variable (env : TxEnv A)

/-- The gas for the code: `txGasLimit - m_baseGasRequired`. -/
def codeGas (x : TxExecutive A) : Nat := u256Sub env.txGasLimit x.baseGasRequired

/-- The arguments of `create` for a transaction. -/
def creation (t : Transaction A) (x : TxExecutive A) : Creation A :=
  ⟨.create, t.sender, t.sender, t.value, x.codeGas env, t.data⟩

/-- `callRC2`: neither `m_ext` nor `m_newAddress` is touched. -/
def callRC2 (x : TxExecutive A) (w : World A) : TxExecutive A :=
  { x with core := { x.core with
      savepoint := w.state.savepoint
      tableSavepoint := w.tables.savepoint
      gas := x.codeGas env
      excepted := .callAddressError } }

/-- The gas that must cover the base gas. -/
def givenGas (t : Transaction A) : Nat :=
  if rc3Version < env.version then env.txGasLimit else t.gas

variable [DecidableEq A]

/-- `create`, with the members that `executeCreate` does not know of. -/
def create (env : TxEnv A) (t : Transaction A) (x : TxExecutive A) (w : World A) : Executed A :=
  let p := x.creation env t
  match x.core.executeCreate (x.env env) p w with
  | .returned core w' =>
    .returned { x with
      core := core
      frame := if t.data = [] then x.frame
        else some ⟨t.sender, t.value, t.gasPrice, t.data, [], 0⟩
      -- `writeErrInfoToOutput`, for a frozen account
      output := if env.checkAuthority t.sender && decide (v2_5_0 ≤ env.version) &&
          env.frozen t.sender then env.frozenAccount t.sender else x.output } w'
  | .threw w' =>
    .threw { x with core := { x.core with
      newAddress := some (p.address (x.env env) w)
      savepoint := w'.state.savepoint
      tableSavepoint := w'.tables.savepoint
      isCreation := true
      gas := p.gas } } w'

/-- `Executive::execute`. -/
def execute (env : TxEnv A) (t : Transaction A) (x : TxExecutive A) (w : World A) : Executed A :=
  if givenGas env t < x.baseGasRequired then
    .threw { x with core := { x.core with excepted := .outOfGasBase } } w
  else
    match t.receiveAddress with
    | none => x.create env t w
    | some _ => .returned (x.callRC2 env w) w

end TxExecutive

/-! ### The run of the VM -/

/-- The call deletes a storage value, which `setStorage` refunds. -/
def HostCall.deletes (ext : HostContext A) (w : World A) : HostCall → Bool
  | .setStorage key value => (w.state.now ext.myAddress).storage key ≠ 0 && value == 0
  | _ => false

variable [DecidableEq A]

/-- One host call: a log, or a change of the state. -/
def HostContext.serveTx (env : TxEnv A) (inner : Env A) (ext : HostContext A) (f : Frame A)
    (w : World A) :
    VmCall → Option (HostContext A × Frame A × World A × Option VmException)
  | .log topics data =>
    some (ext, { f with logs := f.logs ++ [⟨ext.myAddress, topics, data⟩] }, w, none)
  | .state call =>
    let f := if call.deletes ext w then
        { f with refunds := u256 (f.refunds + env.sstoreRefundGas) }
      else f
    (ext.serve inner w call).map fun (ext, w, e) => (ext, f, w, e)

/-- The host calls in order, up to the first that throws. -/
def HostContext.execTx (env : TxEnv A) (inner : Env A) (result : VmResult) :
    List VmCall → HostContext A → Frame A → World A →
      Option (HostContext A × Frame A × World A × VmResult)
  | [], ext, f, w => some (ext, f, w, result)
  | call :: calls, ext, f, w =>
    match ext.serveTx env inner f w call with
    | none => none
    | some (ext, f, w, none) => execTx env inner result calls ext f w
    | some (ext, f, w, some e) => some (ext, f, w, .throws e)

namespace TxExecutive

/-- A `catch` clause of `go`. Its `revert` clears the substate. -/
def caught (env : Env A) (e : VmException) (x : TxExecutive A) (w : World A) :
    Option (TxExecutive A × World A) :=
  (x.core.caught env e w).map fun (core, w) =>
    ({ x with core := core, frame := x.frame.map Frame.clear }, w)

/-- `parseEVMCResult`: the output is kept of a call that succeeds, and of what reverts. -/
def parseEVMCResult (status : StatusCode) (output : Bytes) (gasLeft : Nat) (x : TxExecutive A)
    (w : World A) : Except VmException (TxExecutive A × World A) :=
  (x.core.parseEVMCResult status gasLeft w).map fun (core, w) =>
    ({ x with
      core := core
      frame := if (status.failed x.core.gas gasLeft).isSome then x.frame.map Frame.clear
        else x.frame
      output := if status = .revert ∨ (status = .success ∧ x.core.isCreation = false) then output
        else x.output }, w)

/-- `go` behind the VM. -/
def finish (env : Env A) (ext : HostContext A) (result : VmResult) (x : TxExecutive A)
    (w : World A) : Option (TxExecutive A × World A) :=
  match result with
  | .throws e => x.caught env e w
  | .returns status output gasLeft =>
    match x.parseEVMCResult status output gasLeft w with
    | .error e => x.caught env e w
    | .ok (x, w) =>
      if x.core.isCreation then
        match env.codeDeposit x.core.gas output with
        | none => x.caught env .outOfGas w
        | some (code, gas) =>
          some ({ x with core := { x.core with gas := gas } },
            w.change (Accounts.setCode ext.myAddress code))
      else some (x, w)

variable (env : TxEnv A) (vm : Vm A)

/-- `go` with a context: up to the VM, the VM and what follows. -/
def runVm (ext : HostContext A) (f : Frame A) (x : TxExecutive A) (w : World A) :
    Option (TxExecutive A × World A) :=
  let w := x.core.enter ext w
  if x.core.gasOverflows (x.env env) then x.caught (x.env env) .gasOverflow w
  else if x.core.hasVm = false then none
  else
    let run := vm ext f x.core.gas w
    match ext.execTx env (x.env env) run.result run.calls f w with
    | none => none
    | some (ext, f, w, result) =>
      { x with core := { x.core with ext := some ext }, frame := some f }.finish
        (x.env env) ext result w

variable (x : TxExecutive A)

/-- `Executive::go`. -/
def go (w : World A) : Option (TxExecutive A × World A) :=
  match x.core.ext, x.frame with
  | some ext, some f => x.runVm env vm ext f w
  | _, _ => some (x, w)

/-- `Executive::finalize`. -/
def finalize (t : Transaction A) (x : TxExecutive A) (w : World A) : TxExecutive A × World A :=
  match x.core.ext, x.frame with
  | some ext, some f =>
    let refunds := u256 (f.refunds + env.suicideRefundGas * ext.suicides.dedup.length)
    let refunded := min (u256Sub t.gas x.core.gas / 2) refunds
    ({ x with
      core := { x.core with gas := u256 (x.core.gas + refunded) }
      frame := some { f with refunds := refunds }
      refunded := refunded
      logs := f.logs }, x.core.finalize w)
  | _, _ => ({ x with refunded := 0 }, w)

/-- `initialize`, `execute`, `go` and `finalize`, as both drivers call them. -/
def transact (t : Transaction A) (x : TxExecutive A) (w : World A) : Option (Executed A) :=
  match (x.initializeTx t).execute env t w with
  | .threw x w => some (.threw x w)
  | .returned x w => (x.go env vm w).map fun (x, w) =>
    let (x, w) := x.finalize env t w
    .returned x w

/-- `ExecuteVM::executeTransaction` for `TransactionExecuter::executeTx`. Nobody catches what is
thrown, and the process ends. -/
def executeTx (w : World A) (t : Transaction A) : Option (TxExecutive A × World A) :=
  match x.setVM.transact env vm t w with
  | some (.returned x w) => some (x, w)
  | _ => none

/-- `BlockVerifier::execute`. What is thrown is caught; the output goes into the receipt. -/
def executeReset (w : World A) (t : Transaction A) : Option (TxExecutive A × World A) :=
  (x.reset.transact env vm t w).map fun
    | .returned x w | .threw x w => (x, w)

end TxExecutive

/-! ### What a transaction leaves to see -/

/-- The results that are read off an executive after a transaction. -/
structure Receipt (A : Type) where
  status : TransactionException
  logs : List (LogEntry A)
  output : Bytes
  newAddress : Option A
  gasUsed : Nat
deriving DecidableEq

/-- `status`, `logs`, `takeOutput`, `newAddress` and `gasUsed`. -/
def TxExecutive.receipt (env : TxEnv A) (x : TxExecutive A) : Receipt A :=
  ⟨x.core.excepted, x.logs, x.output, x.core.newAddress, u256Sub env.txGasLimit x.core.gas⟩

end Rcc.Evm
