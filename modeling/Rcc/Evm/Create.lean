import Rcc.Evm.World

/-!
# Rcc.Evm.Create

Contract creation: `Executive::createOpcode`, `create2Opcode`, `executeCreate`, `go`, `revert`,
`parseEVMCResult` and `finalize`, and the creations a running contract asks its host for
(`EVMHostContext::create`).

The VM is a parameter. A run of it is the sequence of host calls that change something,
followed by what it reports (`VmRun`): a status with an output, or an exception that a host call
threw. Message calls are not among the host calls, since `callRC2` refuses all of them before
anything is changed. `none` is the end of the process: `exit(1)`, or the VM of a nested
executive, which nobody sets.
-/

namespace Rcc.Evm

variable {A : Type}

/-! ### Statuses and exceptions -/

/-- The values of `TransactionException` that a transaction can end with. -/
inductive TransactionException where
  | none
  | unknown
  | notEnoughCash
  | outOfGasBase
  | badInstruction
  | badJumpDestination
  | outOfGas
  | outOfStack
  | stackUnderflow
  | precompiledError
  | revertInstruction
  | addressAlreadyUsed
  | permissionDenied
  | callAddressError
  | gasOverflow
  | accountFrozen
deriving DecidableEq, Repr

/-- `evmc_status_code`. -/
inductive StatusCode where
  | success
  | failure
  | revert
  | outOfGas
  | invalidInstruction
  | undefinedInstruction
  | stackOverflow
  | stackUnderflow
  | badJumpDestination
  | invalidMemoryAccess
  | staticModeViolation
  /-- Any other code above `EVMC_INTERNAL_ERROR`. -/
  | other
  /-- `EVMC_INTERNAL_ERROR` or below. -/
  | internalError
deriving DecidableEq, Repr

/-- What can be thrown inside the `try` block of `go`. -/
inductive VmException where
  | revertInstruction
  | outOfGas
  | gasOverflow
  | badInstruction
  | badJumpDestination
  | outOfStack
  | stackUnderflow
  | disallowedStateChange
  | bufferOverrun
  | permissionDenied
  | notEnoughCash
  | precompiledError
  /-- `InternalVMError` and everything unexpected. -/
  | fatal
deriving DecidableEq, Repr

def v2_3_0 : Nat := 0x02030000
def v2_5_0 : Nat := 0x02050000
def v2_6_0 : Nat := 0x02060000

/-- The status a `catch` clause of `go` sets, and whether it takes the gas away as well; the
last two clauses end the process. -/
def VmException.handled (version : Nat) : VmException → Option (TransactionException × Bool)
  | .revertInstruction => some (.revertInstruction, false)
  | .outOfGas => some (.outOfGas, false)
  | .gasOverflow => some (.gasOverflow, false)
  | .badInstruction => some (.badInstruction, true)
  | .badJumpDestination => some (.badJumpDestination, true)
  | .outOfStack => some (.outOfStack, true)
  | .stackUnderflow => some (.stackUnderflow, true)
  | .disallowedStateChange => some (.unknown, true)
  | .bufferOverrun => some (.unknown, true)
  | .permissionDenied =>
    if v2_6_0 ≤ version then some (.permissionDenied, false) else some (.revertInstruction, true)
  | .notEnoughCash => some (.notEnoughCash, false)
  | .precompiledError => some (.precompiledError, false)
  | .fatal => none

/-! ### Inputs -/

/-- What surrounds a creation and is not changed by it. -/
structure Env (A : Type) where
  version : Nat
  /-- The addresses that may write `SYS_TABLES`; if there are none, everybody may. -/
  authorized : List A
  /-- `m_s->frozen`: always false for `MPTState`. -/
  frozen : A → Bool
  startNonce : Nat
  gasLimit : Nat
  maxCodeSize : Nat
  createDataGas : Nat
  exceptionalFailedCodeDeposit : Bool
  freeStorage : Bool
  /-- `right160(Hash(rlpList(sender, nonce)))`. -/
  addressOf : A → Nat → A
  /-- The address of `CREATE2`, of sender, salt and code. -/
  addressOf2 : A → Nat → Bytes → A

inductive Opcode where
  | create
  | create2 (salt : Nat)
deriving DecidableEq

/-- The arguments of `createOpcode` and `create2Opcode`. -/
structure Creation (A : Type) where
  opcode : Opcode
  sender : A
  origin : A
  endowment : Nat
  gas : Nat
  init : Bytes

/-- A host call that changes something. -/
inductive HostCall where
  | setStorage (key value : Nat)
  | suicide
  | create (opcode : Opcode) (endowment gas : Nat) (init : Bytes)

/-- What the VM reports in the end. -/
inductive VmResult where
  | returns (status : StatusCode) (output : Bytes) (gasLeft : Nat)
  | throws (e : VmException)

structure VmRun where
  calls : List HostCall
  result : VmResult

/-! ### The executive -/

/-- `EVMHostContext`, with the suicides of its substate. -/
structure HostContext (A : Type) where
  myAddress : A
  origin : A
  depth : Nat
  suicides : List A

/-- `Executive`. -/
structure Executive (A : Type) where
  ext : Option (HostContext A)
  depth : Nat
  excepted : TransactionException
  gas : Nat
  isCreation : Bool
  /-- `none` is the null address. -/
  newAddress : Option A
  savepoint : Nat
  tableSavepoint : Nat
  /-- Whether `setVM` was called. -/
  hasVm : Bool

/-- An executive as constructed; `reset` leaves the same at depth 0. -/
def Executive.make (depth : Nat) (hasVm : Bool) : Executive A where
  ext := none
  depth := depth
  excepted := .none
  gas := 0
  isCreation := false
  newAddress := none
  savepoint := 0
  tableSavepoint := 0
  hasVm := hasVm

/-- `executeCreate` returns, or lets the exception `NotEnoughCash` out. -/
inductive Created (A : Type) where
  | returned (x : Executive A) (w : World A)
  | threw (w : World A)

variable [DecidableEq A] (env : Env A)

/-- `checkAuthority` on `SYS_TABLES`. -/
def Env.checkAuthority (origin : A) : Bool :=
  env.authorized = [] ∨ origin ∈ env.authorized

/-- The creation passes the two tests that precede the savepoint. -/
def Env.permits (origin : A) : Bool :=
  env.checkAuthority origin && !(decide (v2_5_0 ≤ env.version) && env.frozen origin)

/-- The address of the new contract. -/
def Creation.address (p : Creation A) (w : World A) : A :=
  match p.opcode with
  | .create => env.addressOf p.sender (w.state.now p.sender).nonce
  | .create2 salt => env.addressOf2 p.sender salt p.init

/-- `accountAlreadyExist`. -/
def World.addressUsed (w : World A) (a : A) : Bool :=
  w.state.now.addressHasCode a || decide (0 < (w.state.now a).nonce)

namespace Executive

/-- `Executive::revert`. -/
def revert (x : Executive A) (w : World A) : Executive A × World A :=
  ({ x with ext := x.ext.map fun e => { e with suicides := [] }, newAddress := none },
    w.rollback x.savepoint x.tableSavepoint)

/-- `createOpcode` and `create2Opcode` with `executeCreate`. -/
def executeCreate (p : Creation A) (x : Executive A) (w : World A) : Created A :=
  let newAddress := p.address env w
  let x := { x with newAddress := some newAddress }
  if env.checkAuthority p.origin = false then
    let (x, w) := { x with gas := 0, excepted := .permissionDenied }.revert w
    .returned { x with ext := none } w
  else if v2_5_0 ≤ env.version ∧ env.frozen p.origin then
    let (x, w) := { x with gas := 0 }.revert w
    .returned { x with excepted := .accountFrozen, ext := none } w
  else
    let w := w.change (Accounts.incNonce p.sender)
    let x := { x with
      savepoint := w.state.savepoint
      tableSavepoint := w.tables.savepoint
      isCreation := true
      gas := p.gas }
    if w.addressUsed newAddress then
      let (x, w) := { x with gas := 0, excepted := .addressAlreadyUsed }.revert w
      .returned { x with ext := none } w
    else
      match w.state.now.transferBalance p.sender newAddress p.endowment with
      | none => .threw w
      | some accounts =>
        let w := (w.change fun _ => accounts).change (Accounts.setNonce newAddress env.startNonce)
        let w := if v2_3_0 ≤ env.version then
            w.changeTables (grantContractStatusManager newAddress p.sender p.origin)
          else w
        -- an empty init code schedules nothing, and leaves `m_ext` as it is
        let ext := if p.init = [] then x.ext else some ⟨newAddress, p.origin, x.depth, []⟩
        .returned { x with ext := ext } w

/-- A `catch` clause of `go`. -/
def caught (e : VmException) (x : Executive A) (w : World A) :
    Option (Executive A × World A) :=
  (e.handled env.version).map fun (status, zero) =>
    let (x, w) := x.revert w
    ({ x with excepted := status, gas := if zero then 0 else x.gas }, w)

/-- `go` up to the VM: the storage of a new contract is cleared. -/
def enter (ext : HostContext A) (x : Executive A) (w : World A) : World A :=
  if x.isCreation then w.change (Accounts.clearStorage ext.myAddress) else w

/-- `getEVMCMessage` throws `GasOverflow`. -/
def gasOverflows (x : Executive A) : Bool := 2 ^ 63 ≤ x.gas ∨ 2 ^ 63 ≤ env.gasLimit

end Executive

/-! ### Host calls -/

/-- `EVMHostContext::create`. The nested executive has no VM, so that its `go` throws
`GasOverflow` or ends the process. -/
def HostContext.create (p : Creation A) (ext : HostContext A) (w : World A) :
    Option (World A × Option VmException) :=
  match (Executive.make (ext.depth + 1) false).executeCreate env p w with
  | .threw w => some (w, some .notEnoughCash)
  | .returned x w =>
    match x.ext with
    | none => some (w, none)
    | some inner =>
      if x.gasOverflows env then
        (x.caught env .gasOverflow (x.enter inner w)).map fun (_, w) => (w, none)
      else none

/-- One host call: the context and the world after it, and the exception it threw. -/
def HostContext.serve (ext : HostContext A) (w : World A) :
    HostCall → Option (HostContext A × World A × Option VmException)
  | .setStorage key value =>
    some (ext, w.change (Accounts.setStorage ext.myAddress key value), none)
  | .suicide => some ({ ext with suicides := ext.myAddress :: ext.suicides }, w, none)
  | .create opcode endowment gas init =>
    (ext.create env ⟨opcode, ext.myAddress, ext.origin, endowment, gas, init⟩ w).map
      fun (w, e) => (ext, w, e)

/-- The VM's run: its host calls in order, up to the first that throws. -/
def HostContext.exec (env : Env A) (result : VmResult) :
    List HostCall → HostContext A → World A → Option (HostContext A × World A × VmResult)
  | [], ext, w => some (ext, w, result)
  | call :: calls, ext, w =>
    match ext.serve env w call with
    | none => none
    | some (ext, w, none) => exec env result calls ext w
    | some (ext, w, some e) => some (ext, w, .throws e)

/-! ### The end of a creation -/

/-- A failure that `parseEVMCResult` reports without throwing: the status it sets, and the gas
that is left, from the gas before and the gas the VM reports. -/
def StatusCode.failed (gas gasLeft : Nat) : StatusCode → Option (TransactionException × Nat)
  | .revert => some (.revertInstruction, gasLeft)
  | .outOfGas | .failure => some (.outOfGas, gas)
  | .invalidInstruction | .undefinedInstruction => some (.badInstruction, 0)
  | .badJumpDestination => some (.badJumpDestination, 0)
  | .stackOverflow => some (.outOfStack, 0)
  | .stackUnderflow => some (.stackUnderflow, 0)
  | .invalidMemoryAccess | .staticModeViolation => some (.unknown, 0)
  | .success | .other | .internalError => none

/-- The code that `go` stores for an output and the gas it leaves; `none` is `OutOfGas`. -/
def Env.codeDeposit (gas : Nat) (output : Bytes) : Option (Bytes × Nat) :=
  if env.maxCodeSize < output.length then none
  else if output.length * env.createDataGas ≤ gas then
    some (output, if env.freeStorage then gas else gas - output.length * env.createDataGas)
  else if env.exceptionalFailedCodeDeposit then none
  else some ([], gas)

namespace Executive

/-- `parseEVMCResult`. -/
def parseEVMCResult (status : StatusCode) (gasLeft : Nat) (x : Executive A) (w : World A) :
    Except VmException (Executive A × World A) :=
  match status.failed x.gas gasLeft with
  | some (excepted, gas) =>
    let (x, w) := x.revert w
    .ok ({ x with excepted := excepted, gas := gas }, w)
  | none =>
    if status = .success then .ok ({ x with gas := gasLeft }, w)
    else if status = .internalError then .error .fatal
    else .error .outOfGas

/-- `go` behind the VM: the status is parsed, and the output of a creation becomes its code,
whatever the status was. -/
def finish (ext : HostContext A) (result : VmResult) (x : Executive A) (w : World A) :
    Option (Executive A × World A) :=
  match result with
  | .throws e => x.caught env e w
  | .returns status output gasLeft =>
    match x.parseEVMCResult status gasLeft w with
    | .error e => x.caught env e w
    | .ok (x, w) =>
      if x.isCreation then
        match env.codeDeposit x.gas output with
        | none => x.caught env .outOfGas w
        | some (code, gas) =>
          some ({ x with gas := gas }, w.change (Accounts.setCode ext.myAddress code))
      else some (x, w)

/-- `Executive::go`. -/
def go (v : VmRun) (x : Executive A) (w : World A) : Option (Executive A × World A) :=
  match x.ext with
  | none => some (x, w)
  | some ext =>
    let w := x.enter ext w
    if x.gasOverflows env then x.caught env .gasOverflow w
    else if x.hasVm = false then none
    else
      match ext.exec env v.result v.calls w with
      | none => none
      | some (ext, w, result) => { x with ext := some ext }.finish env ext result w

/-- `Executive::finalize`: the suicides are not logged. -/
def finalize (x : Executive A) (w : World A) : World A :=
  let suicides := (x.ext.map HostContext.suicides).getD []
  { w with state := { w.state with now := suicides.foldl (fun s a => s.kill a) w.state.now } }

/-- A creation from beginning to end, nested or at the top level, where `finalize` follows. -/
def create (topLevel : Bool) (p : Creation A) (v : VmRun) (x : Executive A)
    (w : World A) : Option (Executive A × World A) :=
  match x.executeCreate env p w with
  | .threw _ => none
  | .returned x w => (x.go env v w).map fun (x, w) => (x, if topLevel then x.finalize w else w)

end Executive

end Rcc.Evm
