import Rcc.Lib.Run
import Rcc.Evm.Traceless
import Rcc.Evm.Transaction

/-!
# Rcc.Evm.Reuse

One executive for many transactions. `BlockVerifier::execute` calls `reset` first, and nothing of
an earlier transaction is seen in a later one. `ExecuteVM::executeTransaction` does not: the status,
the output, the logs, the new address, the savepoints and the context of earlier transactions stay
where they are until something overwrites them.

`Reusable` says, of the executive before a transaction, which of its members the transaction is
going to read or to leave as they are. `reuse_unobservable`: every run of the first driver, and
every run of the second in which all transactions are `Reusable`, lets see what a new executive for
each transaction would. `constructor_runs_again` is a run of the second driver that does not: a
call after a creation executes the init code of the creation once more.
-/

namespace Rcc.Evm

variable {A : Type}

/-! ### What `executeCreate` reads -/

namespace Executive

variable {env : Env A} {p : Creation A} (c : Executive A) [DecidableEq A] (w : World A)

/-- A permitted creation overwrites everything but the context and the status. -/
theorem executeCreate_permitted (hpermits : env.permits p.origin = true) :
    c.executeCreate env p w =
      { make c.depth c.hasVm with ext := c.ext, excepted := c.excepted }.executeCreate env p w := by
  obtain ⟨hauth, hthaw⟩ := permits_iff.mp hpermits
  simp only [executeCreate, hauth, if_neg hthaw, Bool.true_eq_false]
  rfl

/-- On a used address, nothing of the old members is left but the depth and the VM. -/
theorem executeCreate_used (hpermits : env.permits p.origin = true)
    (hused : (w.change (Accounts.incNonce p.sender)).addressUsed (p.address env w) = true) :
    c.executeCreate env p w = .returned { make c.depth c.hasVm with
        excepted := .addressAlreadyUsed
        isCreation := true
        savepoint := (w.change (Accounts.incNonce p.sender)).state.savepoint
        tableSavepoint := (w.change (Accounts.incNonce p.sender)).tables.savepoint }
      (w.change (Accounts.incNonce p.sender)) := by
  obtain ⟨hauth, hthaw⟩ := permits_iff.mp hpermits
  have hback := (World.Extends.refl (w.change (Accounts.incNonce p.sender))).rollback_eq
  simp only [executeCreate, hauth, if_neg hthaw, hused, Bool.true_eq_false, if_true, revert, hback]
  rfl

/-- With code to run, the old context is not read. -/
theorem executeCreate_init (hpermits : env.permits p.origin = true)
    (hinit : p.init ≠ []) (hexc : c.excepted = .none) :
    c.executeCreate env p w = (make c.depth c.hasVm).executeCreate env p w := by
  rw [executeCreate_permitted c w hpermits, hexc]
  simp only [executeCreate, if_neg hinit]
  rfl

/-- At an unused address a permitted creation throws, or schedules the code there is. -/
theorem executeCreate_unused (hpermits : env.permits p.origin = true)
    (hused : ¬ (w.change (Accounts.incNonce p.sender)).addressUsed (p.address env w) = true) :
    (∃ w', c.executeCreate env p w = .threw w') ∨
      ∃ c' w', c.executeCreate env p w = .returned c' w' ∧
        c'.ext = if p.init = [] then c.ext else some ⟨p.address env w, p.origin, c.depth, []⟩ := by
  obtain ⟨hauth, hthaw⟩ := permits_iff.mp hpermits
  unfold executeCreate
  simp only [hauth, if_neg hthaw, if_neg hused, Bool.true_eq_false, if_false]
  split
  · exact Or.inl ⟨_, rfl⟩
  · exact Or.inr ⟨_, _, rfl, rfl⟩

end Executive

/-! ### What `go` keeps and does not read -/

theorem Executive.parseEVMCResult_keeps {c c' : Executive A} {status : StatusCode} {gasLeft : Nat}
    {w w' : World A} (h : c.parseEVMCResult status gasLeft w = .ok (c', w')) :
    c'.place = c.place ∧ c'.ext.isSome = c.ext.isSome := by
  unfold parseEVMCResult at h
  split at h
  · cases h
    exact ⟨place_mk, by simp⟩
  · split at h
    · cases h
      exact ⟨place_mk, rfl⟩
    · split at h <;> cases h

namespace TxExecutive

/-- The place stays, and a context neither comes nor goes. -/
structure Keeps (x x' : TxExecutive A) : Prop where
  place : x'.core.place = x.core.place
  ext : x'.core.ext.isSome = x.core.ext.isSome
  frame : x'.frame.isSome = x.frame.isSome

/-- The same executive with other leftovers in the members that `go` never touches. -/
def withLeft (logs : List (LogEntry A)) (refunded gasCost : Nat) (x : TxExecutive A) :
    TxExecutive A := { x with logs := logs, refunded := refunded, gasCost := gasCost }

variable {x x' : TxExecutive A} {w w' : World A} {logs : List (LogEntry A)}
  {refunded gasCost : Nat} {env : TxEnv A} {ext : HostContext A} {vm : Vm A}

theorem withLeft_core : (x.withLeft logs refunded gasCost).core = x.core := rfl

theorem caught_keeps {env : Env A} {e : VmException} (h : x.caught env e w = some (x', w')) :
    Keeps x x' := by
  unfold caught Executive.caught at h
  rw [Option.map_map] at h
  obtain ⟨a, -, heq⟩ := Option.map_eq_some_iff.mp h
  cases heq
  exact ⟨rfl, by simp, by simp⟩

theorem caught_withLeft {env : Env A} {e : VmException} :
    (x.withLeft logs refunded gasCost).caught env e w =
      (x.caught env e w).map (Prod.map (withLeft logs refunded gasCost) id) := by
  unfold caught
  rw [Option.map_map]
  rfl

theorem parseEVMCResult_keeps {status : StatusCode} {output : Bytes} {gasLeft : Nat}
    (h : x.parseEVMCResult status output gasLeft w = .ok (x', w')) : Keeps x x' := by
  unfold parseEVMCResult at h
  cases hparse : x.core.parseEVMCResult status gasLeft w with
  | error e =>
    rw [hparse] at h
    cases h
  | ok r =>
    rw [hparse] at h
    cases h
    have hcore := Executive.parseEVMCResult_keeps hparse
    refine ⟨hcore.1, hcore.2, ?_⟩
    split <;> simp

theorem parseEVMCResult_withLeft {status : StatusCode} {output : Bytes} {gasLeft : Nat} :
    (x.withLeft logs refunded gasCost).parseEVMCResult status output gasLeft w =
      (x.parseEVMCResult status output gasLeft w).map
        (Prod.map (withLeft logs refunded gasCost) id) := by
  unfold parseEVMCResult
  simp only [withLeft]
  cases x.core.parseEVMCResult status gasLeft w <;> rfl

variable [DecidableEq A]

theorem finish_keeps {env : Env A} {result : VmResult}
    (h : x.finish env ext result w = some (x', w')) : Keeps x x' := by
  cases result with
  | throws e => exact caught_keeps h
  | returns status output gasLeft =>
    simp only [finish] at h
    cases hparse : x.parseEVMCResult status output gasLeft w with
    | error e =>
      rw [hparse] at h
      exact caught_keeps h
    | ok r =>
      have hkeeps := parseEVMCResult_keeps hparse
      simp only [hparse] at h
      split at h
      · split at h
        · have hcaught := caught_keeps h
          exact ⟨hcaught.place.trans hkeeps.place, hcaught.ext.trans hkeeps.ext,
            hcaught.frame.trans hkeeps.frame⟩
        · cases h
          exact ⟨hkeeps.place, hkeeps.ext, hkeeps.frame⟩
      · cases h
        exact hkeeps

theorem finish_withLeft {env : Env A} {result : VmResult} :
    (x.withLeft logs refunded gasCost).finish env ext result w =
      (x.finish env ext result w).map (Prod.map (withLeft logs refunded gasCost) id) := by
  cases result with
  | throws e => exact caught_withLeft
  | returns status output gasLeft =>
    simp only [finish, parseEVMCResult_withLeft]
    cases x.parseEVMCResult status output gasLeft w with
    | error e => exact caught_withLeft
    | ok r =>
      obtain ⟨x₁, w₁⟩ := r
      simp only [Except.map, Prod.map]
      by_cases hcreation : x₁.core.isCreation = true
      · simp only [withLeft, hcreation]
        cases env.codeDeposit x₁.core.gas output with
        | none => exact caught_withLeft
        | some d => rfl
      · rw [withLeft_core, if_neg hcreation, if_neg hcreation]
        rfl

theorem runVm_keeps {f : Frame A} (hext : x.core.ext = some ext) (hframe : x.frame = some f)
    (h : x.runVm env vm ext f w = some (x', w')) : Keeps x x' := by
  unfold runVm at h
  simp only at h
  split at h
  · exact caught_keeps h
  · split at h
    · cases h
    · split at h
      · cases h
      · have hkeeps := finish_keeps h
        exact ⟨hkeeps.place, by rw [hkeeps.ext, hext]; rfl, by rw [hkeeps.frame, hframe]; rfl⟩

theorem runVm_withLeft {f : Frame A} :
    (x.withLeft logs refunded gasCost).runVm env vm ext f w =
      (x.runVm env vm ext f w).map (Prod.map (withLeft logs refunded gasCost) id) := by
  unfold runVm
  have henv : (x.withLeft logs refunded gasCost).env env = x.env env := rfl
  by_cases hgas : x.core.gasOverflows (x.env env) = true
  · rw [withLeft_core, henv, if_pos hgas, if_pos hgas]
    exact caught_withLeft
  · rw [withLeft_core, henv, if_neg hgas, if_neg hgas]
    by_cases hvm : x.core.hasVm = false
    · rw [if_pos hvm, if_pos hvm]
      rfl
    · rw [if_neg hvm, if_neg hvm]
      simp only [TxExecutive.env]
      split
      · rfl
      · exact finish_withLeft
          (x := { x with core := { x.core with ext := some _ }, frame := some _ })

theorem go_keeps (h : x.go env vm w = some (x', w')) : Keeps x x' := by
  unfold go at h
  split at h
  · rename_i ext f hext hframe
    exact runVm_keeps hext hframe h
  · cases h
    exact ⟨rfl, rfl, rfl⟩

theorem go_withLeft :
    (x.withLeft logs refunded gasCost).go env vm w =
      (x.go env vm w).map (Prod.map (withLeft logs refunded gasCost) id) := by
  unfold go
  have hframe : (x.withLeft logs refunded gasCost).frame = x.frame := rfl
  rw [withLeft_core, hframe]
  split
  · exact runVm_withLeft
  · rfl

/-! ### The two drivers -/

variable {t : Transaction A} {freeStorage hasVm : Bool} {baseGas : Nat}

/-- `go` and `finalize`. -/
def settle (env : TxEnv A) (vm : Vm A) (t : Transaction A) (x : TxExecutive A) (w : World A) :
    Option (TxExecutive A × World A) := (x.go env vm w).map fun r => r.1.finalize env t r.2

/-- What follows `execute` where nobody catches an exception. -/
def settleExecuted (env : TxEnv A) (vm : Vm A) (t : Transaction A) :
    Executed A → Option (TxExecutive A × World A)
  | .threw _ _ => none
  | .returned x w => x.settle env vm t w

theorem executeTx_eq :
    x.executeTx env vm w t =
      settleExecuted env vm t ((x.setVM.initializeTx t).execute env t w) := by
  unfold executeTx transact
  cases (x.setVM.initializeTx t).execute env t w with
  | threw => rfl
  | returned x₁ w₁ =>
    simp only [settleExecuted, settle]
    cases x₁.go env vm w₁ <;> rfl

/-- Without a context there is nothing to do. -/
theorem settle_idle (h : x.core.ext = none) :
    x.settle env vm t w = some ({ x with refunded := 0 }, w) := by
  simp [settle, go, finalize, h]

/-- After two transactions: the same world, and nothing to tell the executives apart by. -/
def SameSeen (env : TxEnv A) (a b : TxExecutive A × World A) : Prop :=
  a.2 = b.2 ∧ a.1.receipt env = b.1.receipt env

/-- With a context, what is left in the members that `go` does not touch is overwritten. -/
theorem settle_withLeft (x : TxExecutive A) (logs : List (LogEntry A)) (refunded gasCost : Nat)
    (hext : x.core.ext.isSome) (hframe : x.frame.isSome) :
    Option.Rel (SameSeen env) ((x.withLeft logs refunded gasCost).settle env vm t w)
      (x.settle env vm t w) := by
  unfold settle
  rw [go_withLeft]
  cases hgo : x.go env vm w with
  | none => exact .none
  | some r =>
    have hkeeps := go_keeps hgo
    obtain ⟨ext, hext₁⟩ := Option.isSome_iff_exists.mp (hkeeps.ext.trans hext)
    obtain ⟨f, hframe₁⟩ := Option.isSome_iff_exists.mp (hkeeps.frame.trans hframe)
    refine .some ?_
    simp only [Prod.map, finalize, withLeft, hext₁, hframe₁]
    exact ⟨rfl, rfl⟩

/-- What the transaction reads or leaves of the executive is as in a new one. For a call: no
context, no new address, no output and no logs. For a creation that is refused: no logs, no output
unless it is overwritten, and savepoints that lead back to where a new executive's lead. For one at
a used address: no output and no logs. For any other: the status `None`, no output, and, where there
is no code to run, no context and no logs. -/
def Reusable (env : TxEnv A) (x : TxExecutive A) (w : World A) (t : Transaction A) : Prop :=
  match t.receiveAddress with
  | some _ => x.core.ext = none ∧ x.core.newAddress = none ∧ x.output = [] ∧ x.logs = []
  | none =>
    if env.permits t.sender then
      if (w.change (Accounts.incNonce t.sender)).addressUsed
          (env.addressOf t.sender (w.state.now t.sender).nonce) then
        x.output = [] ∧ x.logs = []
      else
        x.core.excepted = .none ∧ x.output = [] ∧
          (t.data = [] → x.core.ext = none ∧ x.logs = [])
    else
      (env.checkAuthority t.sender = false → x.output = []) ∧ x.logs = [] ∧
        w.rollback x.core.savepoint x.core.tableSavepoint = w.rollback 0 0

/-- A creation with init code at an address not in use only needs a status and an output that are
clear. -/
theorem reusable_creation (hto : t.receiveAddress = none) (hpermits : env.permits t.sender = true)
    (hused : (w.change (Accounts.incNonce t.sender)).addressUsed
      (env.addressOf t.sender (w.state.now t.sender).nonce) = false)
    (hexcepted : x.core.excepted = .none) (hout : x.output = []) (hdata : t.data ≠ []) :
    x.Reusable env w t := by
  unfold Reusable
  rw [hto]
  simp only [hpermits, hused, Bool.false_eq_true, if_false]
  exact ⟨hexcepted, hout, fun h => absurd h hdata⟩

theorem finalize_place : (x.finalize env t w).1.core.place = x.core.place := by
  unfold finalize
  split
  · exact Executive.place_mk
  · rfl

/-- The place of the executive after `execute`, however it ended. -/
def placeOf : Executed A → Nat × Bool
  | .returned x _ | .threw x _ => x.core.place

theorem create_place : placeOf (x.create env t w) = x.core.place := by
  unfold create
  cases hcreate : x.core.executeCreate (x.env env) (x.creation env t) w with
  | threw =>
    simp only [hcreate]
    exact Executive.place_mk
  | returned c w₁ =>
    simp only [hcreate]
    exact (Executive.executeCreate_keeps hcreate).1

theorem execute_place : placeOf (x.execute env t w) = x.core.place := by
  unfold execute
  split
  · exact Executive.place_mk
  · split
    · exact create_place
    · exact Executive.place_mk

theorem transact_place {r : Executed A} (h : x.transact env vm t w = some r) :
    placeOf r = x.core.place := by
  have hexec : placeOf ((x.initializeTx t).execute env t w) = _ := execute_place
  unfold transact at h
  cases hr : (x.initializeTx t).execute env t w with
  | threw x₁ w₁ =>
    rw [hr] at h hexec
    cases h
    exact hexec
  | returned x₁ w₁ =>
    rw [hr] at h hexec
    obtain ⟨⟨x₂, w₂⟩, hgo, rfl⟩ := Option.map_eq_some_iff.mp h
    exact finalize_place.trans ((go_keeps hgo).place.trans hexec)

/-- The environment of the creation, once `initialize` has set the flag for free storage. -/
def txEnv (env : TxEnv A) : Env A := { env.toEnv with freeStorage := true }

/-- The arguments of the creation, once `initialize` has set the base gas. -/
def txCreation (env : TxEnv A) (t : Transaction A) : Creation A :=
  ⟨.create, t.sender, t.sender, t.value, u256Sub env.txGasLimit 20000, t.data⟩

/-- Two executives whose creations let see the same. -/
def CreatesAlike (env : TxEnv A) (vm : Vm A) (t : Transaction A) (x y : TxExecutive A)
    (w : World A) : Prop :=
  Option.Rel (SameSeen env)
    (settleExecuted env vm t ((x.setVM.initializeTx t).create env t w))
    (settleExecuted env vm t ((y.setVM.initializeTx t).create env t w))

/-- What `initialize` has set reaches the creation through these two. -/
theorem executeCreate_prepared (y : TxExecutive A) {r : Created A}
    (h : { y.core with hasVm := true }.executeCreate (txEnv env) (txCreation env t) w = r) :
    (y.setVM.initializeTx t).core.executeCreate ((y.setVM.initializeTx t).env env)
      ((y.setVM.initializeTx t).creation env t) w = r := h

/-- A creation whose core leaves what a new core leaves. -/
theorem create_reusable {c : Executive A} {w₁ : World A}
    (hcore : { x.core with hasVm := true }.executeCreate (txEnv env) (txCreation env t) w =
      .returned c w₁)
    (hcore' : (Executive.make 0 true).executeCreate (txEnv env) (txCreation env t) w =
      .returned c w₁) (hout : x.output = []) (hlogs : c.ext = none → x.logs = [])
    (hdata : c.ext.isSome → t.data ≠ []) :
    CreatesAlike env vm t x (make freeStorage baseGas hasVm) w := by
  simp only [CreatesAlike, create, executeCreate_prepared _ hcore,
    executeCreate_prepared (make freeStorage baseGas hasVm) hcore', settleExecuted]
  cases hext : c.ext with
  | none =>
    rw [settle_idle hext, settle_idle hext]
    refine .some ⟨rfl, ?_⟩
    simp only [receipt, initializeTx, setVM, make, hout, hlogs hext]
  | some ext =>
    have hsome : c.ext.isSome := by
      rw [hext]
      rfl
    simp only [if_neg (hdata hsome), setVM, hout]
    exact settle_withLeft { make freeStorage baseGas hasVm with
      core := c
      frame := some ⟨t.sender, t.value, t.gasPrice, t.data, [], 0⟩
      output := _
      baseGasRequired := 20000
      enableFreeStorage := true
      gasCost := _
      tx := some t } x.logs x.refunded _ hsome rfl

theorem callRC2_reusable (hext : x.core.ext = none) (hnew : x.core.newAddress = none)
    (hout : x.output = []) (hlogs : x.logs = []) :
    Option.Rel (SameSeen env) (((x.setVM.initializeTx t).callRC2 env w).settle env vm t w)
      ((((make freeStorage baseGas hasVm).setVM.initializeTx t).callRC2 env w).settle
        env vm t w) := by
  rw [settle_idle (x := (x.setVM.initializeTx t).callRC2 env w) hext,
    settle_idle (x := ((make freeStorage baseGas hasVm).setVM.initializeTx t).callRC2 env w) rfl]
  refine .some ⟨rfl, ?_⟩
  simp only [receipt, callRC2, initializeTx, setVM, make, Executive.make, codeGas, hnew, hout,
    hlogs]

theorem create_permitted (hdepth : x.core.depth = 0) (hpermits : env.permits t.sender = true)
    (h : if (w.change (Accounts.incNonce t.sender)).addressUsed
          (env.addressOf t.sender (w.state.now t.sender).nonce) = true then
        x.output = [] ∧ x.logs = []
      else
        x.core.excepted = .none ∧ x.output = [] ∧
          (t.data = [] → x.core.ext = none ∧ x.logs = [])) :
    CreatesAlike env vm t x (make freeStorage baseGas hasVm) w := by
  have hp : (txEnv env).permits (txCreation env t).origin = true := hpermits
  split_ifs at h with hused
  · obtain ⟨hout, hlogs⟩ := h
    have hcore := Executive.executeCreate_used { x.core with hasVm := true } w hp hused
    rw [hdepth] at hcore
    refine create_reusable hcore (Executive.executeCreate_used (Executive.make 0 true) w hp hused)
      hout (fun _ => hlogs) fun hsome => ?_
    cases hsome
  · obtain ⟨hexc, hout, hempty⟩ := h
    have hcore : { x.core with hasVm := true }.executeCreate (txEnv env) (txCreation env t) w =
        (Executive.make 0 true).executeCreate (txEnv env) (txCreation env t) w := by
      by_cases hdata : t.data = []
      · rw [Executive.executeCreate_permitted _ w hp, hdepth, hexc, (hempty hdata).1]
        rfl
      · have hinit := Executive.executeCreate_init { x.core with hasVm := true } w hp hdata hexc
        rwa [hdepth] at hinit
    rcases Executive.executeCreate_unused (Executive.make 0 true) w hp hused with
      ⟨w₁, hthrew⟩ | ⟨c, w₁, hreturned, hext⟩
    · simp only [CreatesAlike, create, executeCreate_prepared x (hcore.trans hthrew),
        executeCreate_prepared (make freeStorage baseGas hasVm) hthrew]
      exact .none
    · refine create_reusable (hcore.trans hreturned) hreturned hout
        (fun hnone => ?_) fun hsome => ?_
      · by_contra hlogs
        have hdata : (txCreation env t).init ≠ [] := fun hdata => hlogs (hempty hdata).2
        rw [hext, if_neg hdata] at hnone
        cases hnone
      · intro hdata
        rw [hext, if_pos (show (txCreation env t).init = [] from hdata)] at hsome
        cases hsome

theorem create_refused (hpermits : ¬ env.permits t.sender = true)
    (hout : env.checkAuthority t.sender = false → x.output = []) (hlogs : x.logs = [])
    (hback : w.rollback x.core.savepoint x.core.tableSavepoint = w.rollback 0 0) :
    CreatesAlike env vm t x (make freeStorage baseGas hasVm) w := by
  have hrefused (y : TxExecutive A) := Executive.executeCreate_of_not_permits
    ((y.setVM.initializeTx t).env env) ((y.setVM.initializeTx t).creation env t)
    (y.setVM.initializeTx t).core w hpermits
  have hsame : (if env.checkAuthority t.sender && decide (v2_5_0 ≤ env.version) &&
      env.frozen t.sender then env.frozenAccount t.sender else x.output) =
      if env.checkAuthority t.sender && decide (v2_5_0 ≤ env.version) && env.frozen t.sender then
        env.frozenAccount t.sender else [] := by
    by_cases hauth : env.checkAuthority t.sender = true
    · have hfrozen : v2_5_0 ≤ env.version ∧ env.frozen t.sender = true := by
        by_contra hthaw
        exact hpermits (Executive.permits_iff.mpr ⟨hauth, hthaw⟩)
      simp [hauth, hfrozen]
    · rw [hout (Bool.of_not_eq_true hauth)]
  simp only [CreatesAlike, create, hrefused]
  refine .some ⟨hback, ?_⟩
  simp only [initializeTx, setVM, make, creation, hlogs, hsame]
  rfl

/-- **One transaction**: a reusable executive does what a new one does. -/
theorem executeTx_reusable (hdepth : x.core.depth = 0) (h : x.Reusable env w t) :
    Option.Rel (SameSeen env) (x.executeTx env vm w t)
      ((make freeStorage baseGas hasVm).executeTx env vm w t) := by
  rw [executeTx_eq, executeTx_eq]
  unfold execute
  have hbase (y : TxExecutive A) : (y.setVM.initializeTx t).baseGasRequired = 20000 := rfl
  rw [hbase, hbase]
  by_cases hgas : givenGas env t < 20000
  · rw [if_pos hgas, if_pos hgas]
    exact .none
  · rw [if_neg hgas, if_neg hgas]
    unfold Reusable at h
    cases hto : t.receiveAddress with
    | some a =>
      rw [hto] at h
      obtain ⟨hext, hnew, hout, hlogs⟩ := h
      exact callRC2_reusable hext hnew hout hlogs
    | none =>
      rw [hto] at h
      simp only at h ⊢
      split at h
      · rename_i hpermits
        exact create_permitted hdepth hpermits h
      · rename_i hpermits
        obtain ⟨hout, hlogs, hback⟩ := h
        exact create_refused hpermits hout hlogs hback

theorem executeTx_depth {r : TxExecutive A × World A} (h : x.executeTx env vm w t = some r) :
    r.1.core.depth = x.core.depth := by
  unfold executeTx at h
  split at h
  · rename_i x₁ w₁ hreturned
    cases h
    exact congrArg Prod.fst (transact_place hreturned)
  · cases h

theorem executeReset_hasVm {r : TxExecutive A × World A} (h : x.executeReset env vm w t = some r) :
    r.1.core.hasVm = x.core.hasVm := by
  obtain ⟨e, htransact, rfl⟩ := Option.map_eq_some_iff.mp h
  have hplace := congrArg Prod.snd (transact_place htransact)
  cases e <;> exact hplace

/-- `reset` leaves what it leaves of a new executive. -/
theorem executeReset_eq :
    x.executeReset env vm w t =
      (make freeStorage baseGas x.core.hasVm).executeReset env vm w t := rfl

variable (step : TxExecutive A → World A → Transaction A → Option (TxExecutive A × World A))

/-- Who executes a transaction: the one executive there is. -/
def reusing (s : TxExecutive A × World A) (t : Transaction A) : Option (TxExecutive A × World A) :=
  step s.1 s.2 t

/-- Who executes a transaction: an executive made for it. -/
def renewing (new : TxExecutive A) (s : TxExecutive A × World A) (t : Transaction A) :
    Option (TxExecutive A × World A) := step new s.2 t

/-- What is seen after a transaction: its receipt and the world. -/
def seen (env : TxEnv A) (s : TxExecutive A × World A) : Receipt A × World A :=
  (s.1.receipt env, s.2)

end TxExecutive

open TxExecutive Executive

/-- **Reuse is not observable** in the runs of `BlockVerifier::execute`, and in those runs of
`TransactionExecuter::executeTx` in which every transaction finds the executive reusable: after
each transaction, its results and the world are those of an executive made for it. -/
theorem reuse_unobservable [DecidableEq A] (env : TxEnv A) (vm : Vm A) (freeStorage hasVm : Bool)
    (baseGas : Nat) (w : World A) (txs : List (Transaction A)) :
    trace (reusing (executeReset env vm)) (seen env) (make freeStorage baseGas hasVm, w) txs =
        trace (renewing (executeReset env vm) (make freeStorage baseGas hasVm)) (seen env)
          (make freeStorage baseGas hasVm, w) txs ∧
      (Throughout (fun s t => s.1.Reusable env s.2 t) (reusing (executeTx env vm))
          (make freeStorage baseGas hasVm, w) txs →
        trace (reusing (executeTx env vm)) (seen env) (make freeStorage baseGas hasVm, w) txs =
          trace (renewing (executeTx env vm) (make freeStorage baseGas hasVm)) (seen env)
            (make freeStorage baseGas hasVm, w) txs) := by
  constructor
  · refine trace_eq_of_rel (fun s s' => s.2 = s'.2 ∧ s.1.core.hasVm = hasVm) ?_ ⟨rfl, rfl⟩
      (throughout_true _ _ _)
    rintro ⟨x, w⟩ ⟨y, w'⟩ t ⟨hw, hvm⟩ -
    obtain rfl : w = w' := hw
    obtain rfl : x.core.hasVm = hasVm := hvm
    simp only [reusing, renewing]
    rw [← executeReset_eq]
    cases hr : x.executeReset env vm w t with
    | none => exact .none
    | some r => exact .some ⟨⟨rfl, executeReset_hasVm hr⟩, rfl⟩
  · intro hcond
    refine trace_eq_of_rel (fun s s' => s.2 = s'.2 ∧ s.1.core.depth = 0) ?_ ⟨rfl, rfl⟩ hcond
    rintro ⟨x, w⟩ ⟨y, w'⟩ t ⟨hw, hdepth⟩ hreuse
    obtain rfl : w = w' := hw
    have hrel : Option.Rel _ (x.executeTx env vm w t)
        ((make freeStorage baseGas hasVm).executeTx env vm w t) := executeTx_reusable hdepth hreuse
    exact rel_imp hrel fun r r' hr hseen =>
      ⟨⟨hseen.1, (executeTx_depth hr).trans hdepth⟩, Prod.ext hseen.2 hseen.1⟩

/-! ### A contract that counts the runs of its constructor -/

/-- `plainEnv`, with what a transaction needs besides. -/
def countingEnv : TxEnv Nat where
  toEnv := plainEnv
  txGasLimit := 3000000
  sstoreRefundGas := 15000
  suicideRefundGas := 24000
  frozenAccount := fun _ => []

/-- The code adds one to the contract's first storage value and returns nothing. -/
def countingVm : Vm Nat := fun ext _ gas w =>
  ⟨[.state (.setStorage 0 ((w.state.now ext.myAddress).storage 0 + 1))], .returns .success [] gas⟩

/-- A transaction of account 1 with one byte of data. -/
def countingTx (receiveAddress : Option Nat) : Transaction Nat where
  sender := 1
  receiveAddress := receiveAddress
  value := 0
  gasPrice := 0
  gas := 3000000
  data := [0x60]
  zeroSignature := false

/-- Two contracts, one after the other. -/
theorem two_creations_reuse_unobservable :
    trace (reusing (executeTx countingEnv countingVm)) (seen countingEnv)
        (make true 0 false, blankWorld) [countingTx none, countingTx none] =
      trace (renewing (executeTx countingEnv countingVm) (make true 0 false)) (seen countingEnv)
        (make true 0 false, blankWorld) [countingTx none, countingTx none] := by
  refine (reuse_unobservable countingEnv countingVm true false 0 blankWorld
    [countingTx none, countingTx none]).2 ⟨?_, fun s hs => ⟨?_, fun _ _ => trivial⟩⟩
  · exact reusable_creation rfl (by decide +kernel) (by decide +kernel) rfl rfl (by decide)
  · have hobs : (executeTx countingEnv countingVm (make true 0 false) blankWorld
        (countingTx none)).map (fun s =>
          ((s.2.change (Accounts.incNonce 1)).addressUsed (1000 + (s.2.state.now 1).nonce),
            s.1.core.excepted, s.1.output)) = some (false, .none, []) := by decide +kernel
    rw [show executeTx countingEnv countingVm (make true 0 false) blankWorld (countingTx none) =
      some s from hs] at hobs
    obtain ⟨hused, hrest⟩ := Prod.mk.inj (Option.some.inj hobs)
    obtain ⟨hexcepted, houtput⟩ := Prod.mk.inj hrest
    exact reusable_creation rfl (by decide +kernel) hused hexcepted houtput (by decide)

/-- After a creation, a call on the same executive runs the constructor again, on the contract
made before: the counter stands at two, and the call has a new address. -/
theorem constructor_runs_again :
    (trace (reusing (executeTx countingEnv countingVm)) (seen countingEnv)
        (make true 0 false, blankWorld) [countingTx none, countingTx (some 7)]).map
          (Option.map fun o => (o.1.status, o.1.newAddress, (o.2.state.now 1000).storage 0)) =
        [some (.none, some 1000, 1), some (.callAddressError, some 1000, 2)] ∧
      (trace (renewing (executeTx countingEnv countingVm) (make true 0 false)) (seen countingEnv)
        (make true 0 false, blankWorld) [countingTx none, countingTx (some 7)]).map
          (Option.map fun o => (o.1.status, o.1.newAddress, (o.2.state.now 1000).storage 0)) =
        [some (.none, some 1000, 1), some (.callAddressError, none, 1)] := by
  constructor <;> decide +kernel

end Rcc.Evm
