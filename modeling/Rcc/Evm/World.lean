import Rcc.Lib.Journal
import Mathlib.Tactic

/-!
# Rcc.Evm.World

What a contract creation works on: the accounts (`MPTState`) and the tables of the memory table
factory, each with its change log.

An address without an account answers every query like an account with the start nonce, no
balance, no code and no storage; the model does not tell the two apart. That a rollback restores
the logged state exactly is how `Journal` is built.
-/

namespace Rcc.Evm

variable {A : Type}

abbrev Bytes := List UInt8

/-- `u256` arithmetic. -/
def u256 (n : Nat) : Nat := n % 2 ^ 256

structure Account where
  nonce : Nat
  balance : Nat
  code : Bytes
  storage : Nat → Nat
  /-- `baseRoot() != EmptyTrie`: part of the storage comes from the database. -/
  hasBase : Bool

/-- `State`: the accounts by address. -/
abbrev Accounts (A : Type) := A → Account

/-- The contract tables the creation code touches: the addresses under the key `authority`, or
`none` where there is no such table. -/
abbrev Tables (A : Type) := A → Option (List A)

structure World (A : Type) where
  state : Journal (Accounts A)
  tables : Journal (Tables A)

/-! ### The accounts -/

namespace Accounts

/-- `addressHasCode`. -/
def addressHasCode (s : Accounts A) (a : A) : Bool := (s a).code ≠ []

variable [DecidableEq A] (a : A)

/-- A change of one account. -/
def modify (f : Account → Account) (s : Accounts A) : Accounts A := Function.update s a (f (s a))

/-- `incNonce`. -/
def incNonce : Accounts A → Accounts A := modify a fun x => { x with nonce := u256 (x.nonce + 1) }

/-- `setNonce`. -/
def setNonce (n : Nat) : Accounts A → Accounts A := modify a fun x => { x with nonce := n }

/-- `addBalance`. -/
def addBalance (v : Nat) : Accounts A → Accounts A :=
  modify a fun x => { x with balance := u256 (x.balance + v) }

/-- `transferBalance`; `none` is the exception `NotEnoughCash` of `subBalance`. -/
def transferBalance (sender receiver : A) (v : Nat) (s : Accounts A) : Option (Accounts A) :=
  if v = 0 then some s
  else if (s sender).balance < v then none
  else some (addBalance receiver v (addBalance sender (2 ^ 256 - v) s))

/-- `setStorage`. -/
def setStorage (k v : Nat) : Accounts A → Accounts A :=
  modify a fun x => { x with storage := Function.update x.storage k v }

/-- `clearStorage`: nothing happens unless part of the storage comes from the database. -/
def clearStorage : Accounts A → Accounts A :=
  modify a fun x => if x.hasBase then { x with storage := fun _ => 0, hasBase := false } else x

/-- `setCode`. -/
def setCode (code : Bytes) : Accounts A → Accounts A := modify a fun x => { x with code := code }

/-- `kill`. -/
def kill : Accounts A → Accounts A := modify a fun _ => ⟨0, 0, [], fun _ => 0, false⟩

end Accounts

/-! ### The tables -/

/-- `grantContractStatusManager`: the origin, and whoever has authority over the sender, get
authority over the new contract, provided that it has a table. -/
def grantContractStatusManager [DecidableEq A] (newAddress sender origin : A) (t : Tables A) :
    Tables A :=
  match t newAddress with
  | none => t
  | some granted =>
    let t := Function.update t newAddress (some (granted ++ [origin]))
    if origin = sender then t
    else
      match t sender with
      | none => t
      | some authorities =>
        Function.update t newAddress
          (some (granted ++ [origin] ++ authorities.filter fun a => a ≠ origin))

/-! ### The world -/

namespace World

/-- A logged change of the accounts. -/
def change (f : Accounts A → Accounts A) (w : World A) : World A :=
  { w with state := w.state.change f }

/-- A logged change of the tables. -/
def changeTables (f : Tables A → Tables A) (w : World A) : World A :=
  { w with tables := w.tables.change f }

/-- The two rollbacks of `Executive::revert`. -/
def rollback (savepoint tableSavepoint : Nat) (w : World A) : World A :=
  ⟨w.state.rollback savepoint, w.tables.rollback tableSavepoint⟩

/-- Both logs of `w'` continue those of `w`. -/
def Extends (w w' : World A) : Prop := w.state.Extends w'.state ∧ w.tables.Extends w'.tables

variable {w w' w'' : World A}

theorem Extends.refl (w : World A) : w.Extends w := ⟨Journal.Extends.refl _, Journal.Extends.refl _⟩

theorem Extends.trans (h : w.Extends w') (h' : w'.Extends w'') : w.Extends w'' :=
  ⟨h.1.trans h'.1, h.2.trans h'.2⟩

theorem Extends.change (h : w.Extends w') (f : Accounts A → Accounts A) :
    w.Extends (w'.change f) := ⟨h.1.change f, h.2⟩

theorem Extends.changeTables (h : w.Extends w') (f : Tables A → Tables A) :
    w.Extends (w'.changeTables f) := ⟨h.1, h.2.change f⟩

/-- Reverting to the savepoints of `w` restores `w`. -/
theorem Extends.rollback_eq (h : w.Extends w') :
    w'.rollback w.state.savepoint w.tables.savepoint = w := by
  rw [World.rollback, h.1.rollback_eq, h.2.rollback_eq]

end World

end Rcc.Evm
