import Rcc.Evm.Reuse

/-!
# Rcc.Evm.Nested

Creations that a running contract asks its host for.

`EVMHostContext::create` makes an executive of its own and calls on it what a transaction calls on
the executive of its driver; but only the drivers call `setVM`. So the two agree as long as nothing
is to be run, and `go` of the nested one has no VM as soon as something is.
-/

namespace Rcc.Evm

open Executive

variable {A : Type}

/-- What comes of a creation: `executeCreate` lets `NotEnoughCash` out, the process ends, or there
is a status, the gas left, the new address and the world. -/
inductive Outcome (A : Type) where
  | threw (w : World A)
  | ended
  | done (status : TransactionException) (gas : Nat) (newAddress : Option A) (w : World A)

namespace Executive

theorem gasOverflows_eq_false {env : Env A} {x : Executive A} :
    x.gasOverflows env = false ↔ x.gas < 2 ^ 63 ∧ env.gasLimit < 2 ^ 63 := by
  simp [gasOverflows]

/-- Another depth and another VM. -/
def rebase (depth : Nat) (hasVm : Bool) (x : Executive A) : Executive A :=
  { x with
    ext := x.ext.map fun ext => { ext with depth := depth }
    depth := depth
    hasVm := hasVm }

theorem caught_rebase {env : Env A} {w : World A} {e : VmException} (x : Executive A)
    (depth : Nat) (hasVm : Bool) :
    (x.rebase depth hasVm).caught env e w =
      (x.caught env e w).map fun (x, w) => (x.rebase depth hasVm, w) := by
  rw [caught, caught]
  cases e.handled env.version with
  | none => rfl
  | some r =>
    simp only [Option.map_some, revert, rebase, Option.map_map]
    rfl

variable [DecidableEq A]

/-- `createOpcode` or `create2Opcode`, and `go`. -/
def outcome (env : Env A) (p : Creation A) (v : VmRun) (x : Executive A) (w : World A) :
    Outcome A :=
  match x.executeCreate env p w with
  | .threw w => .threw w
  | .returned x w =>
    match x.go env v w with
    | none => .ended
    | some (x, w) => .done x.excepted x.gas x.newAddress w

/-- A new executive does the same at every depth, with a VM or without. -/
theorem executeCreate_make (env : Env A) (p : Creation A) (depth : Nat) (hasVm : Bool)
    (w : World A) :
    (make depth hasVm).executeCreate env p w =
      match (make 0 true).executeCreate env p w with
      | .threw w' => .threw w'
      | .returned x w' => .returned (x.rebase depth hasVm) w' := by
  unfold executeCreate
  by_cases hauth : env.checkAuthority p.origin = false
  · rw [if_pos hauth, if_pos hauth]
    rfl
  by_cases hfrozen : v2_5_0 ≤ env.version ∧ env.frozen p.origin = true
  · rw [if_neg hauth, if_pos hfrozen, if_neg hauth, if_pos hfrozen]
    rfl
  by_cases hused : (w.change (Accounts.incNonce p.sender)).addressUsed (p.address env w) = true
  · rw [if_neg hauth, if_neg hfrozen, if_pos hused, if_neg hauth, if_neg hfrozen, if_pos hused]
    rfl
  rw [if_neg hauth, if_neg hfrozen, if_neg hused, if_neg hauth, if_neg hfrozen, if_neg hused]
  cases (w.change (Accounts.incNonce p.sender)).state.now.transferBalance p.sender
      (p.address env w) p.endowment with
  | none => rfl
  | some accounts =>
    by_cases hinit : p.init = []
    · rw [if_pos hinit, if_pos hinit]
      rfl
    · rw [if_neg hinit, if_neg hinit]
      rfl

end Executive

variable [DecidableEq A]

theorem HostContext.create_eq_outcome (env : Env A) (p : Creation A) (v : VmRun)
    (ext : HostContext A) (w : World A) :
    ext.create env p w =
      match (make (ext.depth + 1) false).outcome env p v w with
      | .threw w => some (w, some .notEnoughCash)
      | .ended => none
      | .done _ _ _ w => some (w, none) := by
  rw [HostContext.create, outcome]
  cases hcreate : (make (ext.depth + 1) false).executeCreate env p w with
  | threw w' => rfl
  | returned x w' =>
    have hvm : x.hasVm = false := congrArg Prod.snd (executeCreate_keeps hcreate).1
    dsimp only
    rw [go]
    cases x.ext with
    | none => rfl
    | some inner =>
      dsimp only
      cases x.gasOverflows env with
      | true =>
        rw [if_pos rfl, if_pos rfl]
        cases x.caught env .gasOverflow (x.enter inner w') <;> rfl
      | false =>
        rw [if_neg Bool.false_ne_true, if_neg Bool.false_ne_true, if_pos hvm]

/-- The code of the creation is to be run: it is permitted, the address is not used, the sender can
pay, there is code, and the gas fits the message. -/
structure RunsCode (env : Env A) (p : Creation A) (w : World A) : Prop where
  permitted : env.permits p.origin = true
  unused : (w.change (Accounts.incNonce p.sender)).addressUsed (p.address env w) = false
  paid : ((w.change (Accounts.incNonce p.sender)).state.now.transferBalance p.sender
    (p.address env w) p.endowment).isSome
  code : p.init ≠ []
  gas : p.gas < 2 ^ 63 ∧ env.gasLimit < 2 ^ 63

/-- The nested creation at this depth has a VM where it needs one, and its outcome is that of one
at the top level. -/
structure LikeTopLevel (env : Env A) (p : Creation A) (v : VmRun) (depth : Nat) (w : World A) :
    Prop where
  vm : ∀ x w', (make (depth + 1) false).executeCreate env p w = .returned x w' →
    x.ext.isSome → x.gasOverflows env = false → x.hasVm = true
  same : (make (depth + 1) false).outcome env p v w =
    (make 0 true).outcome env p v w

section Nested

variable {env : Env A} {p : Creation A} {w : World A}

theorem RunsCode.scheduled (h : RunsCode env p w) (depth : Nat) (hasVm : Bool) :
    ∃ x w' ext, (make depth hasVm).executeCreate env p w = .returned x w' ∧
      x.ext = some ext ∧ x.gasOverflows env = false ∧ x.hasVm = hasVm := by
  obtain ⟨hauth, hthaw⟩ := permits_iff.mp h.permitted
  obtain ⟨accounts, hpaid⟩ := Option.isSome_iff_exists.mp h.paid
  unfold executeCreate
  rw [if_neg (by rw [hauth]; nofun), if_neg hthaw, if_neg (by rw [h.unused]; nofun), hpaid,
    if_neg h.code]
  exact ⟨_, _, _, rfl, rfl, gasOverflows_eq_false.mpr h.gas, rfl⟩

theorem runsCode_of_scheduled {depth : Nat} {hasVm : Bool} {x : Executive A} {w' : World A}
    (h : (make depth hasVm).executeCreate env p w = .returned x w') (hext : x.ext ≠ none)
    (hgas : x.gasOverflows env = false) : RunsCode env p w := by
  unfold executeCreate at h
  dsimp only [make, revert] at h
  split at h
  · cases h
    exact absurd rfl hext
  next hauth =>
  split at h
  · cases h
    exact absurd rfl hext
  next hthaw =>
  split at h
  · cases h
    exact absurd rfl hext
  next hused =>
  split at h
  · cases h
  next accounts hpaid =>
    cases h
    have hinit : p.init ≠ [] := fun hnil => hext (if_pos hnil)
    exact ⟨permits_iff.mpr ⟨by simpa using hauth, hthaw⟩, by simpa using hused,
      by rw [hpaid]; rfl, hinit, gasOverflows_eq_false.mp hgas⟩

namespace Executive

/-- Where no VM is needed, `go` does not depend on it. -/
theorem go_rebase {v : VmRun} {x : Executive A} (depth : Nat) (hasVm : Bool)
    (h : x.ext = none ∨ x.gasOverflows env = true) :
    (x.rebase depth hasVm).go env v w =
      (x.go env v w).map fun (x, w) => (x.rebase depth hasVm, w) := by
  cases hext : x.ext with
  | none => simp only [go, rebase, hext, Option.map_none, Option.map_some]
  | some ext =>
    have hgas := h.resolve_left (by rw [hext]; exact Option.some_ne_none ext)
    have hgas' : (x.rebase depth hasVm).gasOverflows env = true := hgas
    have hext' : (x.rebase depth hasVm).ext = some { ext with depth := depth } := by
      rw [rebase, hext]
      rfl
    simp only [go, hext, hext', hgas, hgas']
    exact caught_rebase x depth hasVm

end Executive

/-- **A nested creation has a VM where it needs one, and ends as one at the top level, exactly if
there is no code to be run.** -/
theorem nested_like_top_level_iff (env : Env A) (p : Creation A) (v : VmRun) (depth : Nat)
    (w : World A) : LikeTopLevel env p v depth w ↔ ¬ RunsCode env p w := by
  constructor
  · intro h hruns
    obtain ⟨x, w', ext, hcreate, hext, hgas, hvm⟩ := hruns.scheduled (depth + 1) false
    have := h.vm x w' hcreate (by rw [hext]; rfl) hgas
    rw [hvm] at this
    cases this
  · intro hruns
    refine ⟨fun x w' hcreate hext hgas => ?_, ?_⟩
    · exact absurd (runsCode_of_scheduled hcreate (Option.isSome_iff_ne_none.mp hext) hgas) hruns
    · rw [outcome, outcome, executeCreate_make env p (depth + 1)]
      cases hcreate : (make 0 true).executeCreate env p w with
      | threw w' => rfl
      | returned x w' =>
        have hidle : x.ext = none ∨ x.gasOverflows env = true := by
          by_contra hcon
          obtain ⟨hext, hgas⟩ := not_or.mp hcon
          exact hruns (runsCode_of_scheduled hcreate hext (Bool.eq_false_of_not_eq_true hgas))
        dsimp only
        rw [go_rebase (depth + 1) false hidle]
        cases x.go env v w' with
        | none => rfl
        | some r => rfl

/-- The status, the gas left and the new address. -/
def Outcome.result : Outcome A → Option (TransactionException × Nat × Option A)
  | .done status gas newAddress _ => some (status, gas, newAddress)
  | _ => none

/-- A creation whose code returns one byte, at the top level and from within another. -/
theorem nested_code_has_no_vm :
    ((make 0 true).outcome plainEnv (plainCreation 1 1)
        ⟨[], .returns .success [0] 500⟩ blankWorld).result = some (.none, 500, some 1000) ∧
      (make 1 false).outcome plainEnv (plainCreation 1 1)
        ⟨[], .returns .success [0] 500⟩ blankWorld = .ended := ⟨by decide +kernel, rfl⟩

end Nested

end Rcc.Evm
