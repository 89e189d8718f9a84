import Mathlib.Tactic
import Rcc.Lib.Run

/-!
# Rcc.Precompiled.ContractLifeCycle

The managers of a contract: the rows under `authority` in its table, which `executeCreate`
(`libexecutive/Executive.cpp`) inserts and `ContractLifeCyclePrecompiled` edits, and the row under
`frozen` beside them.

`executeCreate` takes an address for unused if it has no code and no nonce. A contract without code
that has not created anything is such an address, since the nonce of a new contract is the start
nonce, and `CREATE2` can come back to it: its managers are then inserted once more.

* `create_keeps`, `call_edited` — which rows a creation and a call can change;
* `contracts_keep_managers` — with creations at addresses that have no such rows, every contract
  keeps a manager, and only managers and committee members change anything.

What the code of a creation creates comes after it in a sequence. Balances are left out; a transfer
to the new address makes its table as `setNonce` does.
-/

namespace Rcc.Precompiled.LifeCycle

open List

def CODE_INVALID_REVOKE_LAST_AUTHORIZATION : Int := -51907
def CODE_INVALID_NON_EXIST_AUTHORIZATION : Int := -51906
def CODE_INVALID_NO_AUTHORIZED : Int := -51905
def CODE_INVALID_TABLE_NOT_EXIST : Int := -51904
def CODE_INVALID_CONTRACT_ADDRESS : Int := -51903
def CODE_INVALID_CONTRACT_REPEAT_AUTHORIZATION : Int := -51902
def CODE_INVALID_CONTRACT_AVAILABLE : Int := -51901
def CODE_INVALID_CONTRACT_FROZEN : Int := -51900

def V2_3_0 : Nat := 0x02030000
def V2_5_0 : Nat := 0x02050000
def V2_7_0 : Nat := 0x02070000

/-! ## Tables of accounts -/

/-- The rows that `createAccount` inserts. -/
structure Core where
  code : List UInt8
  nonce : Nat

/-- The table of an account. A table whose creation was rolled back is still open, without any
rows. -/
structure AccountTable (A : Type) where
  core : Option Core := none
  authority : List A := []
  frozen : Option Bool := none
  /-- nobody has been granted write permission, so that `checkAuthority` lets anybody write -/
  openWrite : Bool := true

structure State (A : Type) where
  tables : A → Option (AccountTable A)
  /-- the rows under the name of the access table itself -/
  committee : List A
  /-- whose creation has succeeded -/
  contracts : List A

structure Env (A : Type) where
  version : Nat
  accountStartNonce : Nat
  /-- `checkAuthority` of the table of tables -/
  mayDeploy : A → Bool

variable {A : Type} [DecidableEq A]

namespace State

variable (env : Env A) (s : State A) (a : A)

def setTable (t : AccountTable A) : State A :=
  { s with tables := Function.update s.tables a (some t) }

def addressHasCode : Bool :=
  match (s.tables a).bind AccountTable.core with
  | some core => core.code ≠ []
  | none => false

def getNonce : Nat :=
  match (s.tables a).bind AccountTable.core with
  | some core => core.nonce
  | none => env.accountStartNonce

/-- `StorageState::frozen` -/
def isFrozen : Bool :=
  match (s.tables a).bind AccountTable.frozen with
  | some frozen => frozen
  | none => false

/-- A row is updated if it is there; without a table, `createAccount` makes one. -/
def updateNonce (update : Nat → Nat) (fresh : Nat) : State A :=
  match s.tables a with
  | some t => s.setTable a { t with core := t.core.map fun c => { c with nonce := update c.nonce } }
  | none => s.setTable a { core := some ⟨[], fresh⟩ }

def incNonce : State A :=
  s.updateNonce a (fun nonce => (nonce + 1) % 2 ^ 256) (env.accountStartNonce + 1)

def setNonce (nonce : Nat) : State A := s.updateNonce a (fun _ => nonce) nonce

def setCode (code : List UInt8) : State A :=
  match s.tables a with
  | some t => s.setTable a { t with core := t.core.map fun c => { c with code } }
  | none => s

end State

/-! ## Creation -/

/-- `insert` without access options. -/
def AccountTable.insertAuthority (t : AccountTable A) (user : A) : AccountTable A :=
  if t.openWrite then { t with authority := t.authority ++ [user] } else t

def grantContractStatusManager (newAddress sender origin : A) (s : State A) : State A :=
  match s.tables newAddress with
  | none => s
  | some table =>
    let table := table.insertAuthority origin
    let s := s.setTable newAddress table
    if origin ≠ sender then
      match s.tables sender with
      | none => s
      | some senderTable =>
        s.setTable newAddress (senderTable.authority.foldl
          (fun t authority => if origin ≠ authority then t.insertAuthority authority else t) table)
    else s

structure Creation (A : Type) where
  sender : A
  origin : A
  newAddress : A

/-- How the code of a creation ends; without code it is not run. -/
inductive InitRun where
  | notRun
  | returns (code : List UInt8)
  | fails

/-- The rows of `saved`, with the tables that have been opened since. -/
def rollback (saved s : State A) : State A :=
  { saved with tables := fun a =>
      match saved.tables a with
      | some t => some t
      | none => (s.tables a).map fun _ => {} }

variable (env : Env A)

/-- `accountAlreadyExist` -/
def addressUsed (s : State A) (a : A) : Bool :=
  s.addressHasCode a || decide (s.getNonce env a > 0)

def executeCreate (p : Creation A) (run : InitRun) (s : State A) : State A :=
  if !env.mayDeploy p.origin then s
  else if env.version ≥ V2_5_0 ∧ s.isFrozen p.origin then s
  else
    let saved := s.incNonce env p.sender
    if addressUsed env saved p.newAddress then saved
    else
      let s := saved.setNonce p.newAddress env.accountStartNonce
      let s :=
        if env.version ≥ V2_3_0 then grantContractStatusManager p.newAddress p.sender p.origin s
        else s
      let created := { s with contracts := p.newAddress :: s.contracts }
      match run with
      | .notRun => created
      | .returns code => created.setCode p.newAddress code
      | .fails => rollback saved s

/-! ## Calls -/

inductive ContractStatus where
  | addressNonExistent
  | notContractAddress
  | frozen
  | available
  deriving DecidableEq

variable (s : State A)

/-- `none` is the exception of `get(0)` where a table has no row for the code. -/
def getContractStatus (contract : A) : Option ContractStatus :=
  match s.tables contract with
  | none => some .addressNonExistent
  | some table => do
    let core ← table.core
    if core.code = [] then return .notContractAddress
    else if table.frozen = some true then return .frozen
    else return .available

def checkPermission (s : State A) (contract origin : A) : Bool :=
  match s.tables contract with
  | some table =>
    decide (origin ∈ table.authority) ||
      (decide (env.version ≥ V2_5_0) && decide (origin ∈ s.committee))
  | none => decide (env.version ≥ V2_5_0) && decide (origin ∈ s.committee)

/-- `updateFrozenStatus`: the one row is updated or inserted. -/
def updateFrozenStatus (contract : A) (frozen : Bool) : Int × State A :=
  match s.tables contract with
  | some table => (1, s.setTable contract { table with frozen := some frozen })
  | none => (0, s)

inductive Call (A : Type) where
  | freeze (contract : A)
  | unfreeze (contract : A)
  | grantManager (contract user : A)
  | revokeManager (contract user : A)

def Call.contract : Call A → A
  | .freeze contract | .unfreeze contract => contract
  | .grantManager contract _ | .revokeManager contract _ => contract

section

variable (env : Env A) (origin : A) (s : State A) (contract : A)

/-- `freeze` and `unfreeze`, with the status that makes the call one too many and its code. -/
def changeStatus (already : ContractStatus) (code : Int) (frozen : Bool) :
    Option (Int × State A) := do
  match ← getContractStatus s contract with
  | .addressNonExistent => return (CODE_INVALID_TABLE_NOT_EXIST, s)
  | .notContractAddress => return (CODE_INVALID_CONTRACT_ADDRESS, s)
  | status =>
    if !checkPermission env s contract origin then return (CODE_INVALID_NO_AUTHORIZED, s)
    else if already = status then return (code, s)
    else return updateFrozenStatus s contract frozen

def freeze : Option (Int × State A) :=
  changeStatus env origin s contract .frozen CODE_INVALID_CONTRACT_FROZEN true

def unfreeze : Option (Int × State A) :=
  changeStatus env origin s contract .available CODE_INVALID_CONTRACT_AVAILABLE false

/-- `checkContractManager`: the code of an error, or zero. -/
def checkContractManager : Option Int := do
  match ← getContractStatus s contract with
  | .addressNonExistent => return CODE_INVALID_TABLE_NOT_EXIST
  | .notContractAddress => return CODE_INVALID_CONTRACT_ADDRESS
  | _ => return if !checkPermission env s contract origin then CODE_INVALID_NO_AUTHORIZED else 0

/-- The two calls that edit the managers, on a table that is there once the check has passed. -/
def editManagers (edit : AccountTable A → Int × AccountTable A) :
    Option (Int × State A) := do
  let result ← checkContractManager env origin s contract
  if result ≠ 0 then return (result, s)
  else
    let table ← s.tables contract
    return ((edit table).1, s.setTable contract (edit table).2)

def grantManager (contract user : A) : Option (Int × State A) :=
  editManagers env origin s contract fun table =>
    if user ∈ table.authority then (CODE_INVALID_CONTRACT_REPEAT_AUTHORIZATION, table)
    else (1, { table with authority := table.authority ++ [user] })

def revokeManager (contract user : A) : Option (Int × State A) :=
  editManagers env origin s contract fun table =>
    if table.authority.length = 1 then (CODE_INVALID_REVOKE_LAST_AUTHORIZATION, table)
    else if user ∉ table.authority then (CODE_INVALID_NON_EXIST_AUTHORIZATION, table)
    else (table.authority.count user, { table with authority := table.authority.filter (· ≠ user) })

/-- What a call returns; `none` is an exception. -/
def call : Call A → Option (Int × State A)
  | .freeze contract => freeze env origin s contract
  | .unfreeze contract => unfreeze env origin s contract
  | .grantManager contract user => grantManager env origin s contract user
  | .revokeManager contract user =>
    -- support revokeManager when supported_version >= v2.7.0
    if env.version ≥ V2_7_0 then revokeManager env origin s contract user else some (0, s)

end

/-! ## Sequences -/

/-- Tables that have no rows are not in the storage. -/
def State.newBlock : State A :=
  { s with tables := fun a => (s.tables a).filter fun t =>
      t.core.isSome || !t.authority.isEmpty || t.frozen.isSome }

inductive Event (A : Type) where
  | create (p : Creation A) (run : InitRun)
  | call (origin : A) (c : Call A)
  /-- the committee changes -/
  | setCommittee (members : List A)
  /-- write permissions for a table change -/
  | setPermission (contract : A) (openWrite : Bool)
  | newBlock

def step (s : State A) : Event A → State A
  | .create p run => executeCreate env p run s
  | .call origin c =>
    match call env origin s c with
    | some (_, s') => s'
    | none => s
  | .setCommittee members => { s with committee := members }
  | .setPermission contract openWrite =>
    match s.tables contract with
    | some t => s.setTable contract { t with openWrite }
    | none => s
  | .newBlock => s.newBlock

/-! ## The rows -/

namespace State

def authority (s : State A) (a : A) : List A :=
  match s.tables a with
  | some t => t.authority
  | none => []

def frozenRow (a : A) : Option Bool := (s.tables a).bind AccountTable.frozen

/-- Every contract has a manager, and no row is there twice. -/
structure Managed (s : State A) : Prop where
  nodup : ∀ a, (s.authority a).Nodup
  managed : ∀ a ∈ s.contracts, s.authority a ≠ []

/-- An account without a table is like one whose table has no rows. -/
def table (a : A) : AccountTable A := (s.tables a).getD {}

/-- The rows that concern managers are the same. -/
def SameAt (s s' : State A) (a : A) : Prop :=
  s'.authority a = s.authority a ∧ s'.frozenRow a = s.frozenRow a

/-- Nothing that concerns managers is changed. -/
structure Unchanged (s s' : State A) : Prop where
  contracts : s'.contracts = s.contracts
  rows : ∀ a, SameAt s s' a

/-- Every contract has a manager, and the rows of the old ones are the same. -/
structure Keeps (s s' : State A) : Prop where
  managed : s'.Managed
  rows : ∀ a ∈ s.contracts, SameAt s s' a

variable {s s' s'' : State A} {a : A} {t : AccountTable A}

section

omit [DecidableEq A]

theorem authority_eq (s : State A) (a : A) : s.authority a = (s.table a).authority := by
  rw [authority, table]
  cases s.tables a <;> rfl

theorem frozenRow_eq (s : State A) (a : A) : s.frozenRow a = (s.table a).frozen := by
  rw [frozenRow, table]
  cases s.tables a <;> rfl

theorem table_of_some (ht : s.tables a = some t) : s.table a = t := by
  rw [table, ht]
  rfl

theorem sameAt_of_table (h : (s'.table a).authority = (s.table a).authority)
    (h' : (s'.table a).frozen = (s.table a).frozen) : SameAt s s' a := by
  rw [SameAt, authority_eq, authority_eq, frozenRow_eq, frozenRow_eq]
  exact ⟨h, h'⟩

theorem sameAt_of_eq (h : s'.table a = s.table a) : SameAt s s' a :=
  sameAt_of_table (by rw [h]) (by rw [h])

theorem SameAt.trans (h : SameAt s s' a) (h' : SameAt s' s'' a) : SameAt s s'' a :=
  ⟨h'.1.trans h.1, h'.2.trans h.2⟩

theorem Unchanged.refl (s : State A) : Unchanged s s := ⟨rfl, fun _ => ⟨rfl, rfl⟩⟩

theorem Unchanged.trans (h : Unchanged s s') (h' : Unchanged s' s'') : Unchanged s s'' :=
  ⟨h'.contracts.trans h.contracts, fun a => (h.rows a).trans (h'.rows a)⟩

theorem Unchanged.keeps (h : Unchanged s s') (hs : s.Managed) : Keeps s s' where
  managed := ⟨fun a => (h.rows a).1 ▸ hs.nodup a,
    fun a ha => (h.rows a).1 ▸ hs.managed a (h.contracts ▸ ha)⟩
  rows a _ := h.rows a

theorem Unchanged.trans_keeps (h : Unchanged s s') (h' : Keeps s' s'') : Keeps s s'' :=
  ⟨h'.managed, fun a ha => (h.rows a).trans (h'.rows a (h.contracts ▸ ha))⟩

theorem unchanged_rollback (saved s : State A) : Unchanged saved (rollback saved s) := by
  refine ⟨rfl, fun a => sameAt_of_eq ?_⟩
  simp only [table, rollback]
  cases saved.tables a with
  | some t => rfl
  | none => cases s.tables a <;> rfl

/-- What a new block forgets has no rows. -/
theorem unchanged_newBlock (s : State A) : Unchanged s s.newBlock := by
  refine ⟨rfl, fun a => ?_⟩
  cases ht : s.tables a with
  | none => exact sameAt_of_eq (by simp [table, newBlock, ht])
  | some t =>
    by_cases hempty : t.core.isSome || !t.authority.isEmpty || t.frozen.isSome
    · have hkept : s.newBlock.tables a = s.tables a := by
        simp only [newBlock, ht, Option.filter_some, if_pos hempty]
      exact sameAt_of_eq (by rw [table, hkept, table])
    · have hgone : s.newBlock.tables a = none := by
        simp only [newBlock, ht, Option.filter_some, if_neg hempty]
      have hrows : t.authority = [] ∧ t.frozen = none := by simp_all
      exact sameAt_of_table (by rw [table, hgone, table_of_some ht, hrows.1]; rfl)
        (by rw [table, hgone, table_of_some ht, hrows.2]; rfl)

end

theorem table_setTable (s : State A) (a b : A) (t : AccountTable A) :
    (s.setTable a t).table b = if b = a then t else s.table b := by
  simp only [table, setTable, Function.update_apply]
  split <;> rfl

theorem setTable_setTable (s : State A) (a : A) (t t' : AccountTable A) :
    (s.setTable a t).setTable a t' = s.setTable a t' := by
  simp only [setTable, Function.update_idem]

theorem unchanged_setTable (h : t.authority = (s.table a).authority)
    (h' : t.frozen = (s.table a).frozen) : Unchanged s (s.setTable a t) := by
  refine ⟨rfl, fun b => ?_⟩
  by_cases hb : b = a
  · exact sameAt_of_table (by rw [table_setTable, if_pos hb, hb, h])
      (by rw [table_setTable, if_pos hb, hb, h'])
  · exact sameAt_of_eq (by rw [table_setTable, if_neg hb])

theorem updateNonce_eq (s : State A) (a : A) (update : Nat → Nat) (fresh : Nat) :
    ∃ core, s.updateNonce a update fresh = s.setTable a { s.table a with core } := by
  rw [updateNonce]
  split
  · rename_i t ht
    rw [table_of_some ht]
    exact ⟨_, rfl⟩
  · rename_i ht
    rw [table, ht]
    exact ⟨_, rfl⟩

theorem unchanged_incNonce (s : State A) (a : A) :
    Unchanged s (s.incNonce env a) := by
  obtain ⟨core, heq⟩ := updateNonce_eq s a (fun nonce => (nonce + 1) % 2 ^ 256)
    (env.accountStartNonce + 1)
  rw [incNonce, heq]
  exact unchanged_setTable rfl rfl

theorem unchanged_setCode (s : State A) (a : A) (code : List UInt8) :
    Unchanged s (s.setCode a code) := by
  rw [setCode]
  split
  · rename_i t ht
    exact unchanged_setTable (by rw [table_of_some ht]) (by rw [table_of_some ht])
  · exact Unchanged.refl s

end State

open State

/-! ### Creations -/

variable {t : AccountTable A} {s : State A} {newAddress : A}

theorem insertAuthority_loop (origin : A) (rows : List A) (hopen : t.openWrite = true) :
    rows.foldl
        (fun t authority => if origin ≠ authority then t.insertAuthority authority else t) t =
      { t with authority := t.authority ++ rows.filter (origin ≠ ·) } := by
  induction rows generalizing t with
  | nil => simp
  | cons row rows ih =>
    rw [foldl_cons, filter_cons]
    by_cases hrow : origin ≠ row
    · rw [if_pos hrow, AccountTable.insertAuthority, if_pos hopen, ih (by exact hopen),
        if_pos (by simpa using hrow), append_assoc]
      rfl
    · rw [if_neg hrow, ih hopen, if_neg (by simpa using hrow)]

/-- The rows of a new contract: the origin, and the managers of the sender. -/
theorem grantContractStatusManager_eq (ht : s.tables newAddress = some t)
    (hempty : t.authority = []) (hopen : t.openWrite = true) (hnodup : ∀ a, (s.authority a).Nodup)
    (sender origin : A) :
    ∃ rows : List A, rows.Nodup ∧ rows ≠ [] ∧
      grantContractStatusManager newAddress sender origin s =
        s.setTable newAddress { t with authority := rows } := by
  have hinsert : t.insertAuthority origin = { t with authority := [origin] } := by
    rw [AccountTable.insertAuthority, if_pos hopen, hempty]
    rfl
  rw [grantContractStatusManager, ht]
  simp only [hinsert]
  by_cases hsender : origin ≠ sender
  · rw [if_pos hsender]
    split
    · exact ⟨[origin], nodup_singleton origin, cons_ne_nil _ _, rfl⟩
    · rename_i senderTable hsenderTable
      have hrows : senderTable.authority.Nodup := by
        rw [← table_of_some hsenderTable, table_setTable]
        split
        · exact nodup_singleton origin
        · exact authority_eq s sender ▸ hnodup sender
      rw [insertAuthority_loop origin _ (by exact hopen), setTable_setTable]
      refine ⟨[origin] ++ senderTable.authority.filter (origin ≠ ·), ?_, cons_ne_nil _ _, rfl⟩
      rw [singleton_append, nodup_cons]
      exact ⟨by simp, hrows.filter _⟩
  · rw [if_neg hsender]
    exact ⟨[origin], nodup_singleton origin, cons_ne_nil _ _, rfl⟩

/-- The address has no rows of managers, and its table may be written. -/
def FreshAddress (s : State A) (a : A) : Prop :=
  ∀ t ∈ s.tables a, t.authority = [] ∧ t.openWrite = true

omit [DecidableEq A] in
instance (s : State A) (a : A) : Decidable (FreshAddress s a) :=
  @Option.decidableForallMem _ _ (fun _ => instDecidableAnd) _

omit [DecidableEq A] in
theorem freshAddress_iff {a : A} :
    FreshAddress s a ↔ (s.table a).authority = [] ∧ (s.table a).openWrite = true := by
  rw [FreshAddress, table]
  cases s.tables a <;> simp

theorem freshAddress_incNonce {a : A} (h : FreshAddress s a) (env : Env A) (b : A) :
    FreshAddress (s.incNonce env b) a := by
  obtain ⟨core, heq⟩ := updateNonce_eq s b (fun nonce => (nonce + 1) % 2 ^ 256)
    (env.accountStartNonce + 1)
  rw [freshAddress_iff, incNonce, heq, table_setTable]
  split_ifs with hab
  · exact freshAddress_iff.mp (hab ▸ h)
  · exact freshAddress_iff.mp h

/-- The creations that find no managers at the new address, or are told that it is in use. -/
def Unmanaged (s : State A) : Event A → Prop
  | .create p _ => addressUsed env (s.incNonce env p.sender) p.newAddress = true ∨
      FreshAddress s p.newAddress
  | _ => True

instance (s : State A) : ∀ e, Decidable (Unmanaged env s e)
  | .create _ _ => instDecidableOr
  | .call _ _ | .setCommittee _ | .setPermission _ _ | .newBlock => isTrue trivial

/-- The state in which the code of a creation starts. -/
theorem granted_eq {saved : State A} (hnodup : ∀ a, (saved.authority a).Nodup)
    (hfresh : FreshAddress saved newAddress) (nonce : Nat) (sender origin : A) :
    ∃ t : AccountTable A, t.authority.Nodup ∧ t.authority ≠ [] ∧
      grantContractStatusManager newAddress sender origin (saved.setNonce newAddress nonce) =
        saved.setTable newAddress t := by
  obtain ⟨core, heq⟩ := updateNonce_eq saved newAddress (fun _ => nonce) nonce
  obtain ⟨hempty, hopen⟩ := freshAddress_iff.mp hfresh
  have hsame : Unchanged saved (saved.setTable newAddress { saved.table newAddress with core }) :=
    unchanged_setTable rfl rfl
  obtain ⟨rows, hrows, hne, hgrant⟩ := grantContractStatusManager_eq
    (s := saved.setTable newAddress { saved.table newAddress with core })
    (Function.update_self ..) hempty hopen (fun a => (hsame.rows a).1 ▸ hnodup a) sender origin
  rw [setTable_setTable, ← heq] at hgrant
  exact ⟨_, hrows, hne, hgrant⟩

/-- One more contract, at an address without managers that now has some. -/
theorem created_keeps {s' : State A} (hs : s.Managed) (hnone : (s.table newAddress).authority = [])
    (hnodup : t.authority.Nodup) (hne : t.authority ≠ [])
    (h : Unchanged { s.setTable newAddress t with contracts := newAddress :: s.contracts } s') :
    Keeps s s' := by
  have htable : ∀ a, s'.authority a = (if a = newAddress then t else s.table a).authority ∧
      s'.frozenRow a = (if a = newAddress then t else s.table a).frozen := by
    intro a
    rw [(h.rows a).1, (h.rows a).2, authority_eq, frozenRow_eq, ← table_setTable]
    exact ⟨rfl, rfl⟩
  refine ⟨⟨fun a => ?_, fun a ha => ?_⟩, fun a ha => ?_⟩
  · rw [(htable a).1]
    split
    · exact hnodup
    · exact authority_eq s a ▸ hs.nodup a
  · rw [(htable a).1]
    split_ifs with hold
    · exact hne
    · rw [h.contracts] at ha
      exact authority_eq s a ▸ hs.managed a ((mem_cons.mp ha).resolve_left hold)
  · have hold : a ≠ newAddress := by
      intro hnew
      exact hs.managed a ha (by rw [authority_eq, hnew, hnone])
    rw [SameAt, (htable a).1, (htable a).2, if_neg hold, authority_eq, frozenRow_eq]
    exact ⟨rfl, rfl⟩

/-- A creation leaves the rows of other contracts as they are, and a new contract with managers. -/
theorem create_keeps {env : Env A} (hversion : V2_3_0 ≤ env.version) (hs : s.Managed)
    (p : Creation A) (run : InitRun) (hp : Unmanaged env s (.create p run)) :
    Keeps s (executeCreate env p run s) := by
  have hinc := unchanged_incNonce env s p.sender
  rw [executeCreate]
  split
  · exact (Unchanged.refl s).keeps hs
  · split
    · exact (Unchanged.refl s).keeps hs
    · by_cases hused : addressUsed env (s.incNonce env p.sender) p.newAddress = true
      · simp only [if_pos hused]
        exact hinc.keeps hs
      · have hfresh := freshAddress_incNonce (hp.resolve_left hused) env p.sender
        have hs_inc := (hinc.keeps hs).managed
        obtain ⟨t, hnodup, hne, hgranted⟩ := granted_eq hs_inc.nodup hfresh
          env.accountStartNonce p.sender p.origin
        have hcreated : ∀ s', Unchanged _ s' → Keeps s s' := fun s' h => hinc.trans_keeps
          (created_keeps hs_inc (freshAddress_iff.mp hfresh).1 hnodup hne h)
        simp only [if_neg hused, hgranted]
        cases run with
        | notRun => exact hcreated _ (Unchanged.refl _)
        | returns code => exact hcreated _ (unchanged_setCode ..)
        | fails => exact (hinc.trans (unchanged_rollback ..)).keeps hs

/-! ### Calls -/

theorem permitted_of_checkPermission {env : Env A} {contract origin : A}
    (h : checkPermission env s contract origin = true) : origin ∈ s.authority contract ∨
      V2_5_0 ≤ env.version ∧ origin ∈ s.committee := by
  rw [checkPermission] at h
  rw [authority]
  split at h <;> simpa using h

/-- What a call by somebody with permission may make of a table. -/
structure Edit (t t' : AccountTable A) : Prop where
  nodup : t.authority.Nodup → t'.authority.Nodup
  nonempty : t.authority.Nodup → t.authority ≠ [] → t'.authority ≠ []

omit [DecidableEq A] in
theorem Edit.refl (t : AccountTable A) : Edit t t := ⟨id, fun _ => id⟩

section

variable {env : Env A} {origin : A} {contract : A} {r : Int × State A}

/-- Nothing is changed, or the table of the contract is edited with permission. -/
def Edited (env : Env A) (origin : A) (s : State A) (contract : A) (s' : State A) : Prop :=
  s' = s ∨ checkPermission env s contract origin = true ∧
    ∃ t, s' = s.setTable contract t ∧ Edit (s.table contract) t

theorem changeStatus_edited {already : ContractStatus} {code : Int} {frozen : Bool}
    (h : changeStatus env origin s contract already code frozen = some r) :
    Edited env origin s contract r.2 := by
  obtain ⟨status, -, h⟩ := Option.bind_eq_some_iff.mp h
  split at h
  · exact .inl (Option.some.inj h ▸ rfl)
  · exact .inl (Option.some.inj h ▸ rfl)
  · split at h
    · exact .inl (Option.some.inj h ▸ rfl)
    · rename_i hpermission
      split at h
      · exact .inl (Option.some.inj h ▸ rfl)
      · rw [updateFrozenStatus] at h
        split at h
        · rename_i t ht
          refine .inr ⟨by simpa using hpermission, _, by rw [← Option.some.inj h], ?_⟩
          rw [table_of_some ht]
          exact ⟨id, fun _ => id⟩
        · exact .inl (Option.some.inj h ▸ rfl)

theorem checkPermission_of_checkContractManager
    (h : checkContractManager env origin s contract = some 0) :
    checkPermission env s contract origin = true := by
  obtain ⟨status, -, h⟩ := Option.bind_eq_some_iff.mp h
  split at h
  · cases h
  · cases h
  · by_contra hpermission
    rw [if_pos (by simpa using hpermission)] at h
    cases h

theorem editManagers_edited {edit : AccountTable A → Int × AccountTable A}
    (hedit : ∀ t, Edit t (edit t).2) (h : editManagers env origin s contract edit = some r) :
    Edited env origin s contract r.2 := by
  obtain ⟨code, hcode, h⟩ := Option.bind_eq_some_iff.mp h
  split_ifs at h with hzero
  · exact .inl (Option.some.inj h ▸ rfl)
  · rw [not_not.mp hzero] at hcode
    obtain ⟨t, ht, h⟩ := Option.bind_eq_some_iff.mp h
    exact .inr ⟨checkPermission_of_checkContractManager hcode, (edit t).2,
      (Option.some.inj h ▸ rfl), table_of_some ht ▸ hedit t⟩

theorem grant_edit (user : A) (t : AccountTable A) :
    Edit t (if user ∈ t.authority then (CODE_INVALID_CONTRACT_REPEAT_AUTHORIZATION, t)
      else (1, { t with authority := t.authority ++ [user] })).2 := by
  split_ifs with hnew
  · exact Edit.refl t
  · exact ⟨fun h => h.append (nodup_singleton user) (by simpa using hnew), fun _ _ => by simp⟩

/-- With no row twice, one row less than two or more is left. -/
theorem revoke_edit (user : A) (t : AccountTable A) :
    Edit t (if t.authority.length = 1 then (CODE_INVALID_REVOKE_LAST_AUTHORIZATION, t)
      else if user ∉ t.authority then (CODE_INVALID_NON_EXIST_AUTHORIZATION, t)
      else ((t.authority.count user : Int),
        { t with authority := t.authority.filter (· ≠ user) })).2 := by
  split
  · exact Edit.refl t
  · split
    · exact Edit.refl t
    · rename_i huser
      refine ⟨fun h => h.filter _, fun hnodup hne => ?_⟩
      have hpos := length_pos_iff.mpr hne
      have herase := length_erase_of_mem (not_not.mp huser)
      rw [hnodup.erase_eq_filter] at herase
      refine length_pos_iff.mp (?_ : 0 < (t.authority.filter (· ≠ user)).length)
      have heq : t.authority.filter (· ≠ user) = t.authority.filter (· != user) :=
        filter_congr fun a _ => by rw [Bool.eq_iff_iff, decide_eq_true_iff, bne_iff_ne]
      rw [heq]
      omega

theorem call_edited {c : Call A} (h : call env origin s c = some r) :
    Edited env origin s c.contract r.2 := by
  cases c with
  | freeze contract | unfreeze contract => exact changeStatus_edited h
  | grantManager contract user => exact editManagers_edited (grant_edit user) h
  | revokeManager contract user =>
    rw [call] at h
    split at h
    · exact editManagers_edited (revoke_edit user) h
    · exact .inl (Option.some.inj h ▸ rfl)

/-! ## Whole sequences -/

/-- A call keeps managers, and what it changes of a contract it changes with permission. -/
theorem Edited.managed {s' : State A} (h : Edited env origin s contract s') (hs : s.Managed) :
    s'.Managed ∧ ∀ a, ¬ SameAt s s' a →
      contract = a ∧ checkPermission env s a origin = true := by
  rcases h with rfl | ⟨hpermission, t, rfl, hedit⟩
  · exact ⟨hs, fun a ha => absurd ⟨rfl, rfl⟩ ha⟩
  · have hnodup : (s.table contract).authority.Nodup := authority_eq s contract ▸ hs.nodup contract
    refine ⟨⟨fun a => ?_, fun a ha => ?_⟩, fun a ha => ?_⟩
    · rw [authority_eq, table_setTable]
      split
      · exact hedit.nodup hnodup
      · exact authority_eq s a ▸ hs.nodup a
    · rw [authority_eq, table_setTable]
      split_ifs with hcontract
      · exact hedit.nonempty hnodup (authority_eq s contract ▸ hs.managed _ (hcontract ▸ ha))
      · exact authority_eq s a ▸ hs.managed a ha
    · by_cases hcontract : a = contract
      · exact ⟨hcontract.symm, hcontract ▸ hpermission⟩
      · exact absurd (sameAt_of_eq (by rw [table_setTable, if_neg hcontract])) ha

theorem step_managed (hversion : V2_3_0 ≤ env.version) (hs : s.Managed) {e : Event A}
    (he : Unmanaged env s e) :
    (step env s e).Managed ∧ ∀ a ∈ s.contracts, ¬ SameAt s (step env s e) a →
      ∃ origin c, e = .call origin c ∧ c.contract = a ∧
        (origin ∈ s.authority a ∨ V2_5_0 ≤ env.version ∧ origin ∈ s.committee) := by
  -- all but calls leave the rows of contracts as they are
  have hkeeps : ∀ {P : A → Prop} (s' : State A), Keeps s s' →
      s'.Managed ∧ ∀ a ∈ s.contracts, ¬ SameAt s s' a → P a :=
    fun s' h => ⟨h.managed, fun a ha hchanged => absurd (h.rows a ha) hchanged⟩
  cases e with
  | create p run => exact hkeeps _ (create_keeps hversion hs p run he)
  | call origin c =>
    rw [step]
    cases hcall : call env origin s c with
    | none => exact hkeeps _ ((Unchanged.refl s).keeps hs)
    | some r =>
      obtain ⟨hmanaged, hchanges⟩ := (call_edited hcall).managed hs
      refine ⟨hmanaged, fun a _ ha => ?_⟩
      obtain ⟨hcontract, hpermission⟩ := hchanges a ha
      exact ⟨origin, c, rfl, hcontract, permitted_of_checkPermission hpermission⟩
  | setCommittee members => exact hkeeps _ (Unchanged.keeps ⟨rfl, fun _ => ⟨rfl, rfl⟩⟩ hs)
  | setPermission contract openWrite =>
    refine hkeeps _ (Unchanged.keeps ?_ hs)
    rw [step]
    split
    · rename_i t ht
      exact unchanged_setTable (by rw [table_of_some ht]) (by rw [table_of_some ht])
    · exact Unchanged.refl s
  | newBlock => exact hkeeps _ ((unchanged_newBlock s).keeps hs)

end

/-- If no creation that passes its checks meets rows of managers, or a table it may not write, at
the new address, then every contract keeps a manager, no row is there twice, and only managers of
a contract and committee members change its managers or its frozen flag. -/
theorem contracts_keep_managers {env : Env A} (hversion : V2_3_0 ≤ env.version) {s₀ s : State A}
    (hs₀ : s₀.Managed) {es : List (Event A)}
    (hrun : Run (Guarded (Unmanaged env) (Steps fun s e => some (step env s e))) s₀ es s) :
    (∀ a ∈ s.contracts, s.authority a ≠ [] ∧ (s.authority a).Nodup) ∧
      ∀ e, Unmanaged env s e → ∀ a ∈ s.contracts,
        (step env s e).authority a ≠ s.authority a ∨ (step env s e).frozenRow a ≠ s.frozenRow a →
          ∃ origin c, e = .call origin c ∧ c.contract = a ∧
            (origin ∈ s.authority a ∨ V2_5_0 ≤ env.version ∧ origin ∈ s.committee) := by
  have hs : s.Managed := by
    refine hrun.invariant (fun _ s => s.Managed) hs₀ ?_
    intro _ s e s' hs hstep
    rw [← Option.some.inj hstep.2]
    exact (step_managed hversion hs hstep.1).1
  exact ⟨fun a ha => ⟨hs.managed a ha, hs.nodup a⟩, fun e he a ha hchanged =>
    (step_managed hversion hs he).2 a ha fun hsame => hchanged.elim (· hsame.1) (· hsame.2)⟩

/-- Version 2.7.0, where everybody may deploy. -/
def openEnv : Env Nat := ⟨V2_7_0, 0, fun _ => true⟩

def noAccounts : State Nat := ⟨fun _ => none, [], []⟩

theorem noAccounts_managed : noAccounts.Managed := ⟨fun _ => nodup_nil, nofun⟩

/-- Account 1 creates contract 10, makes account 2 a manager and is revoked by it; then contract 10
creates contract 11 for account 3. -/
theorem handed_over_managed : ∃ s : State Nat, s.authority 10 = [2] ∧ s.authority 11 = [3, 2] ∧
    ∀ a ∈ s.contracts, s.authority a ≠ [] ∧ (s.authority a).Nodup := by
  have h : (exec (guardedStep (Unmanaged openEnv) fun s e => some (step openEnv s e)) noAccounts
      [.create ⟨1, 1, 10⟩ (.returns [1]), .call 1 (.grantManager 10 2),
        .call 2 (.revokeManager 10 1), .create ⟨10, 3, 11⟩ (.returns [1])]).any
        (fun s => s.authority 10 = [2] ∧ s.authority 11 = [3, 2]) = true := by
    decide +kernel
  obtain ⟨s, hs, h10, h11⟩ := exists_guardedRun_of_exec h fun _ _ h => h
  exact ⟨s, h10, h11, (contracts_keep_managers (by decide) noAccounts_managed hs).1⟩

/-- Contract 10 creates a contract without code twice, with the same salt: account 1 is its manager
two times. -/
theorem manager_inserted_twice :
    let s := [Event.create ⟨1, 1, 10⟩ (.returns [1]), .create ⟨10, 1, 11⟩ .notRun,
      .create ⟨10, 1, 11⟩ .notRun].foldl (step openEnv) noAccounts
    11 ∈ s.contracts ∧ s.authority 11 = [1, 1] := by
  decide +kernel

end Rcc.Precompiled.LifeCycle
