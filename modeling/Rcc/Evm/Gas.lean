import Rcc.Evm.Traceless
import Rcc.Evm.Transaction

/-!
# Rcc.Evm.Gas

The gas of a transaction: `execute`, `go`, `finalize` and `gasUsed`.

The gas for the code is `tx_gas_limit` less the base gas, and no run leaves more than it was given.
The refund of `finalize` is bounded by half of `m_t->gas() - m_gas`, in which the gas field of the
transaction stands for the limit: with a larger field more than half of the gas comes back, with one
below the gas left the difference wraps around and bounds nothing.
-/

namespace Rcc.Evm

variable {A : Type}

theorem u256Sub_of_le {a b : Nat} (hba : b ≤ a) (ha : a < 2 ^ 256) : u256Sub a b = a - b := by
  rw [u256Sub, u256]
  omega

theorem u256Sub_of_lt {a b : Nat} (hab : a < b) : u256Sub a b = a + 2 ^ 256 - b := by
  rw [u256Sub, u256]
  omega

/-! ### The gas before `finalize` -/

namespace Executive

variable {x x' : Executive A} {w w' : World A} {env : Env A}

theorem caught_gas_le {e : VmException} (h : x.caught env e w = some (x', w')) :
    x'.gas ≤ x.gas := by
  obtain ⟨⟨status, zero⟩, -, hx⟩ := Option.map_eq_some_iff.mp h
  cases hx
  split
  · exact Nat.zero_le _
  · exact le_rfl

theorem parseEVMCResult_gas_le {status : StatusCode} {gasLeft : Nat} (hleft : gasLeft ≤ x.gas)
    (h : x.parseEVMCResult status gasLeft w = .ok (x', w')) : x'.gas ≤ x.gas := by
  cases status <;> cases h <;> first | exact hleft | exact le_rfl | exact Nat.zero_le _

end Executive

theorem Env.codeDeposit_gas_le {env : Env A} {gas gas' : Nat} {output code : Bytes}
    (h : env.codeDeposit gas output = some (code, gas')) : gas' ≤ gas := by
  unfold Env.codeDeposit at h
  split at h
  · cases h
  split at h
  · cases h
    split
    · exact le_rfl
    · exact Nat.sub_le _ _
  split at h
  · cases h
  · cases h
    exact le_rfl

namespace TxExecutive

variable {x x' : TxExecutive A} {w w' : World A}

theorem caught_gas_le {env : Env A} {e : VmException} (h : x.caught env e w = some (x', w')) :
    x'.core.gas ≤ x.core.gas := by
  obtain ⟨⟨core, w''⟩, hcore, hx⟩ := Option.map_eq_some_iff.mp h
  cases hx
  exact Executive.caught_gas_le hcore

theorem parseEVMCResult_gas_le {status : StatusCode} {output : Bytes} {gasLeft : Nat}
    (hleft : gasLeft ≤ x.core.gas) (h : x.parseEVMCResult status output gasLeft w = .ok (x', w')) :
    x'.core.gas ≤ x.core.gas := by
  rw [parseEVMCResult] at h
  cases hcore : x.core.parseEVMCResult status gasLeft w with
  | error e =>
    rw [hcore] at h
    cases h
  | ok r =>
    rw [hcore] at h
    cases h
    exact Executive.parseEVMCResult_gas_le hleft hcore

variable {env : TxEnv A}

/-- The refund is at most half of the gas consumed before it, and the gas used and the gas left make
up the limit. -/
structure InRange (env : TxEnv A) (before after : TxExecutive A) : Prop where
  refunded : after.refunded ≤ (env.txGasLimit - before.core.gas) / 2
  left : after.core.gas = before.core.gas + after.refunded
  used : (after.receipt env).gasUsed + after.core.gas = env.txGasLimit

/-- A refund of at most half of what has been consumed keeps everything else in range. -/
theorem inRange_of_refunded {before after : TxExecutive A} (hword : env.txGasLimit < 2 ^ 64)
    (hgas : before.core.gas ≤ env.txGasLimit)
    (hleft : after.core.gas = u256 (before.core.gas + after.refunded))
    (hrefunded : after.refunded ≤ (env.txGasLimit - before.core.gas) / 2) :
    InRange env before after := by
  have hsum : after.core.gas = before.core.gas + after.refunded := by
    rw [hleft, u256, Nat.mod_eq_of_lt (by omega)]
  have hused : (after.receipt env).gasUsed = env.txGasLimit - after.core.gas :=
    u256Sub_of_le (by omega) (by omega)
  exact ⟨hrefunded, hsum, by omega⟩

variable [DecidableEq A]

theorem finish_gas_le {env : Env A} {ext : HostContext A} {result : VmResult}
    (h : x.finish env ext result w = some (x', w'))
    (hleft : ∀ status output gasLeft, result = .returns status output gasLeft →
      gasLeft ≤ x.core.gas) : x'.core.gas ≤ x.core.gas := by
  cases result with
  | throws e => exact caught_gas_le h
  | returns status output gasLeft =>
    rw [finish] at h
    split at h
    · exact caught_gas_le h
    next x₁ w₁ hparse =>
      have hgas := parseEVMCResult_gas_le (hleft status output gasLeft rfl) hparse
      split at h
      · split at h
        · exact (caught_gas_le h).trans hgas
        next hdeposit =>
          cases h
          exact (Env.codeDeposit_gas_le hdeposit).trans hgas
      · cases h
        exact hgas

/-- What the VM reports is what it reported, unless a host call threw. -/
theorem execTx_result {inner : Env A} {result r : VmResult} {calls : List VmCall}
    {ext ext' : HostContext A} {f f' : Frame A}
    (h : ext.execTx env inner result calls f w = some (ext', f', w', r)) :
    r = result ∨ ∃ e, r = .throws e := by
  induction calls generalizing ext f w with
  | nil =>
    cases h
    exact .inl rfl
  | cons call calls ih =>
    rw [HostContext.execTx] at h
    split at h
    · cases h
    · exact ih h
    · cases h
      exact .inr ⟨_, rfl⟩

/-- **No run of the VM leaves more gas than it was given.** -/
theorem go_gas_le {vm : Vm A} (hvm : ∀ ext f gas w status output gasLeft,
      (vm ext f gas w).result = .returns status output gasLeft → gasLeft ≤ gas)
    (h : x.go env vm w = some (x', w')) : x'.core.gas ≤ x.core.gas := by
  rw [go] at h
  split at h
  · rw [runVm] at h
    dsimp only at h
    split at h
    · exact caught_gas_le h
    split at h
    · cases h
    split at h
    · cases h
    next hexec =>
      have hgas := finish_gas_le h fun status output gasLeft hreturns => by
        rcases execTx_result hexec with hresult | ⟨e, he⟩
        · exact hvm _ _ _ _ _ _ _ (hresult.symm.trans hreturns)
        · cases he.symm.trans hreturns
      exact hgas
  · cases h
    exact le_rfl

/-- The gas for the code is what the base gas leaves of the limit. -/
theorem execute_gas_le {t : Transaction A} (hlimit : 20000 ≤ env.txGasLimit)
    (hword : env.txGasLimit < 2 ^ 64) (h : (x.initializeTx t).execute env t w = .returned x' w') :
    x'.core.gas ≤ env.txGasLimit - 20000 := by
  have hcode : (x.initializeTx t).codeGas env = env.txGasLimit - 20000 :=
    u256Sub_of_le hlimit (by omega)
  rw [execute] at h
  split at h
  · cases h
  split at h
  · rw [create] at h
    split at h
    · next hcore =>
        cases h
        exact hcode ▸ (Executive.executeCreate_keeps hcore).2
    · cases h
  · cases h
    exact hcode.le

/-! ### The refund -/

/-- What `finalize` may refund: the counter, with what is due for suicides. -/
def refunds (env : TxEnv A) (x : TxExecutive A) : Nat :=
  match x.core.ext, x.frame with
  | some ext, some f => u256 (f.refunds + env.suicideRefundGas * ext.suicides.dedup.length)
  | _, _ => 0

theorem finalize_refunded (env : TxEnv A) (t : Transaction A) (x : TxExecutive A) (w : World A) :
    (x.finalize env t w).1.refunded = min (u256Sub t.gas x.core.gas / 2) (x.refunds env) := by
  rw [finalize, refunds]
  cases x.core.ext with
  | none => exact (Nat.min_zero _).symm
  | some ext =>
    cases x.frame with
    | none => exact (Nat.min_zero _).symm
    | some f => rfl

theorem finalize_gas (env : TxEnv A) (t : Transaction A) (w : World A)
    (hgas : x.core.gas < 2 ^ 256) :
    (x.finalize env t w).1.core.gas = u256 (x.core.gas + (x.finalize env t w).1.refunded) := by
  rw [finalize]
  split
  · rfl
  · exact (Nat.mod_eq_of_lt hgas).symm

/-- **The gas stays in range exactly if what may be refunded is at most half of the gas consumed, or
the gas field is at least the gas left and, up to rounding, at most the limit.** -/
theorem gas_in_range_iff (env : TxEnv A) (vm : Vm A) (t : Transaction A) (x x₁ x₂ : TxExecutive A)
    (w w₁ w₂ : World A) (hlimit : 20000 ≤ env.txGasLimit) (hword : env.txGasLimit < 2 ^ 64)
    (hgas : t.gas < 2 ^ 256) (hvm : ∀ ext f gas w status output gasLeft,
      (vm ext f gas w).result = .returns status output gasLeft → gasLeft ≤ gas)
    (hexecute : (x.initializeTx t).execute env t w = .returned x₁ w₁)
    (hgo : x₁.go env vm w₁ = some (x₂, w₂)) :
    InRange env x₂ (x₂.finalize env t w₂).1 ↔
      x₂.refunds env ≤ (env.txGasLimit - x₂.core.gas) / 2 ∨
        x₂.core.gas ≤ t.gas ∧ (t.gas - x₂.core.gas) / 2 ≤ (env.txGasLimit - x₂.core.gas) / 2 := by
  have hle : x₂.core.gas ≤ env.txGasLimit - 20000 :=
    (go_gas_le hvm hgo).trans (execute_gas_le hlimit hword hexecute)
  have hrefunded := finalize_refunded env t x₂ w₂
  have hleft := finalize_gas env t w₂ (show x₂.core.gas < 2 ^ 256 by omega)
  have hiff : InRange env x₂ (x₂.finalize env t w₂).1 ↔
      (x₂.finalize env t w₂).1.refunded ≤ (env.txGasLimit - x₂.core.gas) / 2 :=
    ⟨InRange.refunded, inRange_of_refunded hword (by omega) hleft⟩
  rw [hiff, hrefunded, min_le_iff, or_comm]
  refine or_congr_right ?_
  by_cases hfield : x₂.core.gas ≤ t.gas
  · rw [u256Sub_of_le hfield hgas]
    exact (and_iff_right hfield).symm
  · -- the difference wraps around, and is far above every limit
    rw [u256Sub_of_lt (Nat.not_le.mp hfield)]
    omega

/-! ### Two refunds -/

/-- The code stores a value, deletes it and ends the contract; it consumes ten units. -/
def refundingVm : Vm Nat := fun _ _ gas _ =>
  ⟨[.state (.setStorage 0 1), .state (.setStorage 0 0), .state .suicide],
    .returns .success [] (gas - 10)⟩

/-- A creation with this gas field. -/
def refundingTx (gas : Nat) : Transaction Nat where
  sender := 1
  receiveAddress := none
  value := 0
  gasPrice := 0
  gas := gas
  data := [0x60]
  zeroSignature := false

def refundingEnv : TxEnv Nat where
  toEnv := plainEnv
  txGasLimit := 3000000
  sstoreRefundGas := 15000
  suicideRefundGas := 24000
  frozenAccount := fun _ => []

/-- The executive before `finalize` and after it. -/
def refunding (gas : Nat) : Option (TxExecutive Nat × TxExecutive Nat) :=
  match ((make true 0 true).initializeTx (refundingTx gas)).execute refundingEnv (refundingTx gas)
    blankWorld with
  | .threw _ _ => none
  | .returned x₁ w₁ => (x₁.go refundingEnv refundingVm w₁).map fun (x₂, w₂) =>
    (x₂, (x₂.finalize refundingEnv (refundingTx gas) w₂).1)

/-- The refund, the gas left and the gas used. -/
def refundOf (gas : Nat) : Option (Nat × Nat × Nat) :=
  (refunding gas).map fun (_, x) => (x.refunded, x.core.gas, (x.receipt refundingEnv).gasUsed)

theorem exists_of_refunding {gas : Nat} {r : TxExecutive Nat × TxExecutive Nat}
    (h : refunding gas = some r) :
    ∃ x₁ w₁ w₂, ((make true 0 true).initializeTx (refundingTx gas)).execute refundingEnv
        (refundingTx gas) blankWorld = .returned x₁ w₁ ∧
      x₁.go refundingEnv refundingVm w₁ = some (r.1, w₂) ∧
      r.2 = (r.1.finalize refundingEnv (refundingTx gas) w₂).1 := by
  unfold refunding at h
  split at h
  · cases h
  next x₁ w₁ hexecute =>
    obtain ⟨⟨x₂, w₂⟩, hgo, hr⟩ := Option.map_eq_some_iff.mp h
    exact ⟨x₁, w₁, w₂, hexecute, hr ▸ hgo, hr ▸ rfl⟩

/-- With the limit in the gas field half of what has been consumed comes back. -/
theorem refund_in_range : ∃ r, refunding 3000000 = some r ∧ InRange refundingEnv r.1 r.2 := by
  have hleft : (refunding 3000000).map (·.1.core.gas) = some 2979990 := by decide +kernel
  obtain ⟨r, hr, hgas⟩ := Option.map_eq_some_iff.mp hleft
  obtain ⟨x₁, w₁, w₂, hexecute, hgo, hfinal⟩ := exists_of_refunding hr
  refine ⟨r, hr, hfinal ▸ ?_⟩
  refine (gas_in_range_iff refundingEnv refundingVm (refundingTx 3000000) (make true 0 true) x₁ r.1
    blankWorld w₁ w₂ (by decide) (by decide) (by norm_num [refundingTx]) ?_ hexecute hgo).mpr
    (.inr ?_)
  · intro ext f gas w status output gasLeft hresult
    cases hresult
    exact Nat.sub_le gas 10
  · simp only [refundingTx, refundingEnv]
    omega

/-- Without gas in the field the difference wraps around, the whole counter is refunded, and the gas
used wraps around as well. -/
theorem refund_wraps_around : refundOf 0 = some (39000, 3018990, 2 ^ 256 - 18990) := by
  decide +kernel

end TxExecutive

end Rcc.Evm
