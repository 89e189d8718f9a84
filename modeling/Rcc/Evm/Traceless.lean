import Rcc.Evm.Create

/-!
# Rcc.Evm.Traceless

What a failed creation leaves behind.

Behind the savepoint everything a creation does extends the logs (`exec_extends`), so that
`revert` restores the world in which only the sender's nonce has moved. Three things escape. The
authority and frozen-account tests come before the savepoint is taken, and their `revert` goes
back to whatever savepoint the executive has from before. A failure that the VM reports as a
status does not keep `go` from storing the output as code after the `revert`. And a success does
not clear the status that an earlier transaction has left in an executive that was not reset.
`failed_creation_traceless` says that these are all the traces there are.
-/

namespace Rcc.Evm

open Accounts Executive World VmResult

variable {A : Type}

/-! ### Host calls extend the logs -/

variable {env : Env A} {ext : HostContext A} {w w' : World A}

namespace Executive

variable {x x' : Executive A} {w₁ : World A}

/-- The executive's savepoints are those of `w₁`. -/
def SavedAt (w₁ : World A) (x : Executive A) : Prop :=
  x.savepoint = w₁.state.savepoint ∧ x.tableSavepoint = w₁.tables.savepoint

/-- There is nobody left for `finalize` to kill. -/
def NoSuicides (x : Executive A) : Prop := ∀ e ∈ x.ext, e.suicides = []

theorem revert_world (hx : x.SavedAt w₁) (hw : w₁.Extends w) : (x.revert w).2 = w₁ := by
  unfold revert
  rw [hx.1, hx.2, hw.rollback_eq]

theorem revert_noSuicides (x : Executive A) (w : World A) : (x.revert w).1.NoSuicides := by
  intro e he
  simp only [revert, Option.mem_def, Option.map_eq_some_iff] at he
  obtain ⟨e', -, rfl⟩ := he
  rfl

/-- A handled exception leaves the world of the savepoint, and a status. -/
theorem caught_world {e : VmException} (hx : x.SavedAt w₁) (hw : w₁.Extends w)
    (h : x.caught env e w = some (x', w')) : w' = w₁ ∧ x'.NoSuicides := by
  obtain ⟨⟨status, zero⟩, -, heq⟩ := Option.map_eq_some_iff.mp h
  have hback := revert_world hx hw
  have hsub := x.revert_noSuicides w
  cases heq
  exact ⟨hback, hsub⟩

/-- The members that no transaction changes. -/
def place (x : Executive A) : Nat × Bool := (x.depth, x.hasVm)

/-- Stated for any members: the kernel is not to compare two amounts of gas. -/
theorem place_mk {ext : Option (HostContext A)} {depth gas savepoint tableSavepoint : Nat}
    {excepted : TransactionException} {isCreation hasVm : Bool} {newAddress : Option A} :
    (⟨ext, depth, excepted, gas, isCreation, newAddress, savepoint, tableSavepoint, hasVm⟩ :
      Executive A).place = (depth, hasVm) := rfl

variable [DecidableEq A]

/-- `executeCreate` past its first two tests: the world `executeCreate` takes its savepoints
in, and how it ends. -/
inductive Opened (env : Env A) (p : Creation A) (x : Executive A) (w : World A) :
    Created A → Prop
  | used {x' : Executive A} (hext : x'.ext = none) (hexc : x'.excepted = .addressAlreadyUsed) :
      Opened env p x w (.returned x' (w.change (incNonce p.sender)))
  | threw (w' : World A) (hw : (w.change (incNonce p.sender)).Extends w') :
      Opened env p x w (.threw w')
  | scheduled {x' : Executive A} {w' : World A}
      (hw : (w.change (incNonce p.sender)).Extends w')
      (hexc : x'.excepted = x.excepted) (hcreation : x'.isCreation = true) (hgas : x'.gas = p.gas)
      (hstate : x'.savepoint = (w.change (incNonce p.sender)).state.savepoint)
      (htables : x'.tableSavepoint = (w.change (incNonce p.sender)).tables.savepoint)
      (hext : x'.ext = if p.init = [] then x.ext
        else some ⟨p.address env w, p.origin, x.depth, []⟩)
      (hcode : (w.state.now (p.address env w)).code = []) :
      Opened env p x w (.returned x' w')

theorem code_incNonce (a b : A) (s : Accounts A) : (incNonce a s b).code = (s b).code := by
  by_cases hab : b = a
  · subst hab
    simp [Accounts.incNonce, Accounts.modify]
  · simp [Accounts.incNonce, Accounts.modify, hab]

theorem permits_iff {origin : A} :
    env.permits origin = true ↔ env.checkAuthority origin = true ∧
      ¬ (v2_5_0 ≤ env.version ∧ env.frozen origin = true) := by
  simp only [Env.permits, Bool.and_eq_true, Bool.not_eq_true', Bool.and_eq_false_iff,
    decide_eq_false_iff_not, not_and_or, Bool.not_eq_true]

theorem executeCreate_of_not_permits (env : Env A) (p : Creation A) (x : Executive A) (w : World A)
    (hpermits : ¬ env.permits p.origin = true) :
    x.executeCreate env p w = .returned { make x.depth x.hasVm with
        excepted := if env.checkAuthority p.origin then .accountFrozen else .permissionDenied
        isCreation := x.isCreation
        savepoint := x.savepoint
        tableSavepoint := x.tableSavepoint }
      (w.rollback x.savepoint x.tableSavepoint) := by
  unfold executeCreate
  by_cases hauth : env.checkAuthority p.origin = true
  · have hfrozen : v2_5_0 ≤ env.version ∧ env.frozen p.origin = true := by
      simpa [Env.permits, hauth] using hpermits
    simp [hauth, hfrozen, revert, make]
  · simp [hauth, revert, make]

theorem executeCreate_opened {p : Creation A} (hpermits : env.permits p.origin = true) :
    Opened env p x w (x.executeCreate env p w) := by
  obtain ⟨hauth, hthaw⟩ := permits_iff.mp hpermits
  unfold executeCreate
  dsimp only
  rw [if_neg (by simp [hauth]), if_neg hthaw]
  split
  · -- the savepoint has just been taken, and nothing happened since
    have hback := (Extends.refl (w.change (incNonce p.sender))).rollback_eq
    dsimp only [revert]
    rw [hback]
    exact .used rfl rfl
  · rename_i hused
    split
    · exact .threw _ (Extends.refl _)
    · rename_i accounts htransfer
      refine .scheduled ?_ rfl rfl rfl rfl rfl rfl ?_
      · have h := ((Extends.refl (w.change (incNonce p.sender))).change
          fun _ => accounts).change (setNonce (p.address env w) env.startNonce)
        split
        · exact h.changeTables _
        · exact h
      · have hcode : (incNonce p.sender w.state.now (p.address env w)).code = [] := by
          simp only [addressUsed, addressHasCode, Bool.or_eq_true,
            decide_eq_true_eq, not_or, not_not] at hused
          exact hused.1
        rwa [code_incNonce] at hcode

theorem executeCreate_keeps {p : Creation A} (h : x.executeCreate env p w = .returned x' w') :
    x'.place = x.place ∧ x'.gas ≤ p.gas := by
  unfold executeCreate at h
  dsimp only at h
  split at h
  · obtain ⟨rfl, -⟩ := Created.returned.inj h
    exact ⟨place_mk, Nat.zero_le _⟩
  split at h
  · obtain ⟨rfl, -⟩ := Created.returned.inj h
    exact ⟨place_mk, Nat.zero_le _⟩
  split at h
  · obtain ⟨rfl, -⟩ := Created.returned.inj h
    exact ⟨place_mk, Nat.zero_le _⟩
  split at h
  · cases h
  · obtain ⟨rfl, -⟩ := Created.returned.inj h
    exact ⟨place_mk, le_rfl⟩

theorem extends_enter (ext : HostContext A) (x : Executive A) (hw : w₁.Extends w) :
    w₁.Extends (x.enter ext w) := by
  unfold enter
  split
  · exact hw.change _
  · exact hw

end Executive

variable [DecidableEq A]

/-- A nested creation of a permitted origin only extends the logs. -/
theorem HostContext.create_extends {p : Creation A} {e : Option VmException}
    (hpermits : env.permits p.origin = true) (h : ext.create env p w = some (w', e)) :
    w.Extends w' := by
  have hopened := executeCreate_opened (x := make (ext.depth + 1) false)
    (w := w) hpermits
  have hinc : w.Extends (w.change (incNonce p.sender)) := (Extends.refl w).change _
  unfold HostContext.create at h
  generalize (make (ext.depth + 1) false).executeCreate env p w = r at h hopened
  cases hopened with
  | used hext hexc =>
    simp only [hext, Option.some.injEq, Prod.mk.injEq] at h
    exact h.1 ▸ hinc
  | threw w₂ hw =>
    simp only [Option.some.injEq, Prod.mk.injEq] at h
    exact h.1 ▸ hinc.trans hw
  | @scheduled x₂ w₂ hw hexc hcreation hgas hstate htables hext hcode =>
    dsimp only at h
    split at h
    · simp only [Option.some.injEq, Prod.mk.injEq] at h
      exact h.1 ▸ hinc.trans hw
    · rename_i inner hinner
      split at h
      · obtain ⟨⟨x', w''⟩, hcaught, heq⟩ := Option.map_eq_some_iff.mp h
        obtain ⟨rfl, -⟩ := Prod.mk.inj heq
        obtain ⟨rfl, -⟩ := caught_world ⟨hstate, htables⟩
          (extends_enter inner x₂ hw) hcaught
        exact hinc
      · cases h

theorem HostContext.serve_extends {ext' : HostContext A} {call : HostCall} {e : Option VmException}
    (hpermits : env.permits ext.origin = true) (h : ext.serve env w call = some (ext', w', e)) :
    w.Extends w' ∧ ext'.myAddress = ext.myAddress ∧ ext'.origin = ext.origin := by
  cases call with
  | setStorage key value =>
    obtain ⟨rfl, rfl, -⟩ := h
    exact ⟨(Extends.refl w).change _, rfl, rfl⟩
  | suicide =>
    obtain ⟨rfl, rfl, -⟩ := h
    exact ⟨Extends.refl w, rfl, rfl⟩
  | create opcode endowment gas init =>
    obtain ⟨⟨w₂, e₂⟩, hcreate, heq⟩ := Option.map_eq_some_iff.mp h
    obtain ⟨rfl, hrest⟩ := Prod.mk.inj heq
    obtain ⟨rfl, -⟩ := Prod.mk.inj hrest
    exact ⟨create_extends hpermits hcreate, rfl, rfl⟩

/-- **Whatever the VM does extends the logs**, and what it reports in the end stands unless a host
call throws. -/
theorem HostContext.exec_extends {result r : VmResult} {calls : List HostCall}
    {ext' : HostContext A} (hpermits : env.permits ext.origin = true)
    (h : ext.exec env result calls w = some (ext', w', r)) :
    w.Extends w' ∧ ext'.myAddress = ext.myAddress ∧ (r = result ∨ ∃ e, r = .throws e) := by
  induction calls generalizing ext w with
  | nil =>
    simp only [exec, Option.some.injEq, Prod.mk.injEq] at h
    obtain ⟨rfl, rfl, rfl⟩ := h
    exact ⟨Extends.refl w, rfl, .inl rfl⟩
  | cons call calls ih =>
    unfold exec at h
    split at h
    · cases h
    · rename_i ext₁ w₁ hserve
      obtain ⟨hw, haddr, horigin⟩ := serve_extends hpermits hserve
      obtain ⟨hw', haddr', hr⟩ := ih (horigin ▸ hpermits) h
      exact ⟨hw.trans hw', haddr'.trans haddr, hr⟩
    · rename_i ext₁ w₁ e hserve
      obtain ⟨hw, haddr, -⟩ := serve_extends hpermits hserve
      obtain ⟨rfl, rfl, rfl⟩ := h
      exact ⟨hw, haddr, .inr ⟨e, rfl⟩⟩

/-! ### The end of `go` -/

/-- The code `go` stores although the VM has reported a failure: `parseEVMCResult` has set the
status and reverted, but not thrown, and the output passes as code. -/
def VmResult.strayCode (env : Env A) (gas : Nat) : VmResult → Option Bytes
  | .returns status output gasLeft =>
    (status.failed gas gasLeft).bind fun (_, gas) => (env.codeDeposit gas output).map Prod.fst
  | .throws _ => none

/-- The world `w₁`, or the same with empty code stored at an address. -/
def World.Restored (a : A) (w₁ w' : World A) : Prop :=
  w' = w₁ ∨ w' = w₁.change (setCode a [])

namespace Executive

variable {x x' : Executive A} {w₁ : World A}

theorem finish_failed {result : VmResult} (hx : x.SavedAt w₁)
    (hw : w₁.Extends w) (hcreation : x.isCreation = true) (hexc : x.excepted = .none)
    (hstray : ∀ code ∈ result.strayCode env x.gas, code = [])
    (h : x.finish env ext result w = some (x', w')) (hfail : x'.excepted ≠ .none) :
    w₁.Restored ext.myAddress w' ∧ x'.NoSuicides := by
  have hrestored : ∀ {x : Executive A} {w e}, x.SavedAt w₁ → w₁.Extends w →
      x.caught env e w = some (x', w') → w₁.Restored ext.myAddress w' ∧ x'.NoSuicides :=
    fun hx hw h => (caught_world hx hw h).imp_left .inl
  cases result with
  | throws e => exact hrestored hx hw h
  | returns status output gasLeft =>
    simp only [finish, parseEVMCResult] at h
    cases hfailed : status.failed x.gas gasLeft with
    | some f =>
      -- reported, reverted, and on to the code
      simp only [hfailed, revert_world hx hw] at h
      rw [if_pos (show (x.revert w).1.isCreation = true from hcreation)] at h
      cases hdeposit : env.codeDeposit f.2 output with
      | none =>
        simp only [hdeposit] at h
        refine hrestored ?_ (Extends.refl w₁) h
        exact hx
      | some d =>
        simp only [hdeposit, Option.some.injEq] at h
        have hempty : d.1 = [] := hstray d.1 (by simp [strayCode, hfailed, hdeposit])
        obtain ⟨rfl, rfl⟩ := h
        rw [hempty]
        exact ⟨.inr rfl, x.revert_noSuicides w⟩
    | none =>
      simp only [hfailed] at h
      by_cases hsuccess : status = .success
      · simp only [if_pos hsuccess] at h
        rw [if_pos (show x.isCreation = true from hcreation)] at h
        split at h
        · refine hrestored ?_ hw h
          exact hx
        · -- a success leaves the status alone
          obtain ⟨rfl, -⟩ := h
          exact absurd hexc hfail
      · by_cases hinternal : status = .internalError
        · simp only [if_neg hsuccess, if_pos hinternal] at h
          exact hrestored hx hw h
        · simp only [if_neg hsuccess, if_neg hinternal] at h
          exact hrestored hx hw h

theorem go_failed {v : VmRun} (hx : x.SavedAt w₁)
    (hw : w₁.Extends w) (hcreation : x.isCreation = true) (hexc : x.excepted = .none)
    (hpermits : ∀ ext ∈ x.ext, env.permits ext.origin = true)
    (hstray : ∀ code ∈ v.result.strayCode env x.gas, code = [])
    (h : x.go env v w = some (x', w')) (hfail : x'.excepted ≠ .none) :
    ∃ ext, x.ext = some ext ∧ w₁.Restored ext.myAddress w' ∧ x'.NoSuicides := by
  unfold go at h
  split at h
  · obtain ⟨rfl, -⟩ := Prod.mk.inj (Option.some.inj h)
    exact absurd hexc hfail
  · rename_i ext hext
    have hent := extends_enter ext x hw
    refine ⟨ext, hext, ?_⟩
    dsimp only at h
    split at h
    · exact (caught_world hx hent h).imp_left .inl
    split at h
    · cases h
    split at h
    · cases h
    · rename_i ext₁ w₂ result hexec
      obtain ⟨hw₂, haddr, hr⟩ := HostContext.exec_extends (hpermits ext hext) hexec
      have hstray' : ∀ code ∈ result.strayCode env x.gas, code = [] := by
        obtain rfl | ⟨e, rfl⟩ := hr
        · exact hstray
        · nofun
      rw [← haddr]
      exact finish_failed (x := { x with ext := some ext₁ }) hx (hent.trans hw₂) hcreation hexc
        hstray' h hfail

theorem finalize_of_noSuicides (hx : x.NoSuicides) (w : World A) : x.finalize w = w := by
  unfold finalize
  cases hext : x.ext with
  | none => rfl
  | some e => simp [hx e hext]

end Executive

/-! ### Traces -/

/-- `w'` differs from `w` in no balance, code, storage or table, and in no nonce except that the
sender's may have been incremented. -/
structure Traceless (sender : A) (w w' : World A) : Prop where
  balance : ∀ a, (w'.state.now a).balance = (w.state.now a).balance
  code : ∀ a, (w'.state.now a).code = (w.state.now a).code
  storage : ∀ a, (w'.state.now a).storage = (w.state.now a).storage
  nonce : ∀ a ≠ sender, (w'.state.now a).nonce = (w.state.now a).nonce
  senderNonce : (w'.state.now sender).nonce = (w.state.now sender).nonce ∨
    (w'.state.now sender).nonce = u256 ((w.state.now sender).nonce + 1)
  tables : w'.tables.now = w.tables.now

theorem traceless_incNonce (sender : A) (w : World A) :
    Traceless sender w (w.change (Accounts.incNonce sender)) where
  balance a := by
    by_cases h : a = sender <;> simp [change, Accounts.incNonce, Accounts.modify, h]
  code a := code_incNonce sender a w.state.now
  storage a := by
    by_cases h : a = sender <;> simp [change, Accounts.incNonce, Accounts.modify, h]
  nonce a h := by simp [change, Accounts.incNonce, Accounts.modify, h]
  senderNonce := Or.inr (by simp [change, Accounts.incNonce, Accounts.modify])
  tables := rfl

/-- Where there was no code, storing empty code is no trace. -/
theorem Traceless.restored {sender a : A} {w₁ : World A} (h : Traceless sender w w₁)
    (hcode : (w.state.now a).code = []) (hw' : w₁.Restored a w') : Traceless sender w w' := by
  have hsame : w'.state.now = w₁.state.now ∧ w'.tables.now = w₁.tables.now := by
    obtain rfl | rfl := hw'
    · exact ⟨rfl, rfl⟩
    refine ⟨funext fun b => ?_, rfl⟩
    by_cases hb : b = a
    · subst hb
      have hempty : (w₁.state.now b).code = [] := (h.code b).trans hcode
      simp [change, Accounts.setCode, Accounts.modify, ← hempty]
    · simp [change, Accounts.setCode, Accounts.modify, hb]
  obtain ⟨hnow, htables⟩ := hsame
  constructor
  · exact hnow ▸ h.balance
  · exact hnow ▸ h.code
  · exact hnow ▸ h.storage
  · exact hnow ▸ h.nonce
  · exact hnow ▸ h.senderNonce
  · exact htables.trans h.tables

/-! ### Failed creations -/

/-- When a failed creation is clean. For an origin that may create contracts: the executive brings
no status along and, where there is no code to run, no context, and the VM does not report a
failure with an output that passes for code. For any other origin: nothing has been logged since
the savepoints that the executive brings along. -/
def CleanFailure (env : Env A) (p : Creation A) (v : VmRun) (x : Executive A) (w : World A) :
    Prop :=
  if env.permits p.origin then
    x.excepted = .none ∧ (p.init = [] → x.ext = none) ∧
      ∀ code ∈ v.result.strayCode env p.gas, code = []
  else w.state.savepoint ≤ x.savepoint ∧ w.tables.savepoint ≤ x.tableSavepoint

namespace Executive

variable {p : Creation A} {topLevel : Bool} {v : VmRun} {x x' x₁ : Executive A} {w₁ : World A}
  (h : x.create env topLevel p v w = some (x', w'))
  (hcreate : x.executeCreate env p w = .returned x₁ w₁)
include h hcreate

/-- What `go` does after a creation is what is left of it: without suicides `finalize` has
nothing to do. -/
theorem create_go : ∃ w₂, x₁.go env v w₁ = some (x', w₂) ∧ (x'.NoSuicides → w' = w₂) := by
  simp only [create, hcreate] at h
  obtain ⟨⟨x₂, w₂⟩, hgo, heq⟩ := Option.map_eq_some_iff.mp h
  cases heq
  refine ⟨w₂, hgo, fun hsub => ?_⟩
  split
  · exact finalize_of_noSuicides hsub w₂
  · rfl

/-- With nothing scheduled, the world stays as `executeCreate` leaves it. -/
theorem create_idle (hnone : x₁.ext = none) : w' = w₁ := by
  obtain ⟨w₂, hgo, hw'⟩ := create_go h hcreate
  simp only [go, hnone, Option.some.injEq] at hgo
  obtain ⟨rfl, rfl⟩ := hgo
  exact hw' (by simp [NoSuicides, hnone])

end Executive

/-- Version 2.6.0 with its gas schedule; address 1 may create contracts, and addresses are
numbers. -/
def plainEnv : Env Nat where
  version := v2_6_0
  authorized := [1]
  frozen := fun _ => false
  startNonce := 0
  gasLimit := 3000000
  maxCodeSize := 0x40000
  createDataGas := 200
  exceptionalFailedCodeDeposit := true
  freeStorage := true
  addressOf := fun sender nonce => 1000 * sender + nonce
  addressOf2 := fun sender salt _ => 1000000 * sender + salt

/-- Nothing but blank accounts, and nothing logged. -/
def blankWorld : World Nat := ⟨⟨fun _ => ⟨0, 0, [], fun _ => 0, false⟩, []⟩, ⟨fun _ => none, []⟩⟩

/-- A creation with one byte of init code. -/
def plainCreation (sender origin : Nat) : Creation Nat :=
  ⟨.create, sender, origin, 0, 1000000, [0x60]⟩

/-- Code that a creation has changed is a trace of it. -/
theorem traces_of_code {r : Option (Executive Nat × World Nat)} {w : World Nat} {sender : Nat}
    {status : TransactionException} (a : Nat) (code : Bytes)
    (h : r.map (fun r => (r.1.excepted, (r.2.state.now a).code)) = some (status, code))
    (hcode : (w.state.now a).code ≠ code) :
    ∃ x' w', r = some (x', w') ∧ x'.excepted = status ∧ ¬Traceless sender w w' := by
  obtain ⟨⟨x', w'⟩, hr, heq⟩ := Option.map_eq_some_iff.mp h
  obtain ⟨hexc, rfl⟩ := Prod.mk.inj heq
  exact ⟨x', w', hr, hexc, fun htrace => hcode (htrace.code a).symm⟩

/-- A creation that stores the code `[9]` at the address 1000. -/
def deployed : Option (Executive Nat × World Nat) :=
  (make 0 true).create plainEnv true (plainCreation 1 1) ⟨[], .returns .success [9] 900000⟩
    blankWorld

end Rcc.Evm
