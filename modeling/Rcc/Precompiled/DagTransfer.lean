import Rcc.Lib.BigEndian
import Rcc.Lib.Footprint
import Rcc.Precompiled.Common

/-!
# Rcc.Precompiled.DagTransfer

`libprecompiled/extension/DagTransferPrecompiled.cpp`: balances of named users, and the users on
whom two calls are said to conflict.
-/

namespace Rcc.Precompiled.DagTransfer

open Storage (Address)

abbrev U256 := Fin (2 ^ 256)

def CODE_INVALID_BALANCE_OVERFLOW : Int := -51405
def CODE_INVALID_INSUFFICIENT_BALANCE : Int := -51404
def CODE_INVALID_USER_ALREADY_EXIST : Int := -51403
def CODE_INVALID_USER_NOT_EXIST : Int := -51402
def CODE_INVALID_AMOUNT : Int := -51401
def CODE_INVALID_USER_NAME : Int := -51400
def CODE_NO_AUTHORIZED : Int := -50000

/-! ## The table -/

/-- The balances in the rows of each user. `none` is a text that `u256` throws on; this contract
writes none, but the table is open to others. -/
abbrev Rows := String → List (Option U256)

/-- The table, once it has been created. -/
abbrev State := Option Rows

/-- Whom the access tables let create the table, and write to it. -/
structure Env where
  canCreate : Address → Bool
  mayWrite : Address → Bool

/-- What a call ends with. -/
inductive Output where
  /-- `abiIn("", u256(ret))` -/
  | code (ret : Int)
  /-- `abiIn("", u256(ret), balance)` -/
  | balance (ret : Int) (balance : U256)
  /-- what `createTable` throws -/
  | storageException (what : String)
  /-- what `u256` throws on a text that is no number -/
  | badNumber
  /-- nothing, for a selector that is not known -/
  | empty
  deriving DecidableEq

/-- `insert`. -/
def insert (table : Rows) (user : String) (balance : U256) : Rows :=
  Function.update table user (table user ++ [some balance])

/-- `update`, of all rows of the user. -/
def update (table : Rows) (user : String) (balance : U256) : Rows :=
  Function.update table user ((table user).map fun _ => some balance)

/-- `openTable`: the table, created if need be. `none` is that `createTable` throws; with one call
at a time it never finds that another has created the table meanwhile. -/
def openTable (env : Env) (origin : Address) : State → Option Rows
  | some table => some table
  | none => if env.canCreate origin then some fun _ => [] else none

/-- The part of a call that works on the open table. -/
def withTable (env : Env) (origin : Address) (body : StoreOp String (List (Option U256)) Output)
    (st : State) : Output × State :=
  match openTable env origin st with
  | none => (.storageException "create table permission denied", st)
  | some table => ((body table).1, some (body table).2)

/-! ## The calls -/

def invalidUserName (user : String) : Bool := user.isEmpty

section Bodies

variable (env : Env) (origin : Address) (user : String) (amount : U256)

def addRows : StoreOp String (List (Option U256)) Output :=
  fun table =>
    if table user ≠ [] then (.code CODE_INVALID_USER_ALREADY_EXIST, table)
    else if env.mayWrite origin then (.code 0, insert table user amount)
    else (.code CODE_NO_AUTHORIZED, table)

def saveRows : StoreOp String (List (Option U256)) Output :=
  fun table =>
    match table user with
    | [] =>
      if env.mayWrite origin then (.code 0, insert table user amount)
      else (.code CODE_NO_AUTHORIZED, table)
    | none :: _ => (.badNumber, table)
    | some balance :: _ =>
      if balance + amount < balance then (.code CODE_INVALID_BALANCE_OVERFLOW, table)
      else if env.mayWrite origin then (.code 0, update table user (balance + amount))
      else (.code CODE_NO_AUTHORIZED, table)

def drawRows : StoreOp String (List (Option U256)) Output :=
  fun table =>
    match table user with
    | [] => (.code CODE_INVALID_USER_NOT_EXIST, table)
    | none :: _ => (.badNumber, table)
    | some balance :: _ =>
      if balance < amount then (.code CODE_INVALID_INSUFFICIENT_BALANCE, table)
      else if env.mayWrite origin then (.code 0, update table user (balance - amount))
      else (.code CODE_NO_AUTHORIZED, table)

/-- What a query finds in the rows of its user. -/
def balanceReply : List (Option U256) → Output
  | [] => .balance CODE_INVALID_USER_NOT_EXIST 0
  | none :: _ => .badNumber
  | some balance :: _ => .balance 0 balance

def balanceRows : StoreOp String (List (Option U256)) Output :=
  fun table => (balanceReply (table user), table)

variable (fromUser toUser : String)

/-- The end of a transfer, with the balances it has found. -/
def moveAmount (amount fromUserBalance toUserBalance : U256) (table : Rows) : Output × Rows :=
  if toUserBalance + amount < toUserBalance then (.code CODE_INVALID_BALANCE_OVERFLOW, table)
  else if env.mayWrite origin then
    (.code 0, update (update table fromUser (fromUserBalance - amount)) toUser
      (toUserBalance + amount))
  else (.code CODE_NO_AUTHORIZED, table)

def transferRows (amount : U256) : StoreOp String (List (Option U256)) Output :=
  fun table =>
    match table fromUser with
    | [] => (.code CODE_INVALID_USER_NOT_EXIST, table)
    | none :: _ => (.badNumber, table)
    | some fromUserBalance :: _ =>
      if fromUserBalance < amount then (.code CODE_INVALID_INSUFFICIENT_BALANCE, table)
      else
        match table toUser with
        | [] =>
          if env.mayWrite origin then
            moveAmount env origin fromUser toUser amount fromUserBalance 0
              (insert table toUser 0)
          else (.code CODE_NO_AUTHORIZED, table)
        | none :: _ => (.badNumber, table)
        | some toUserBalance :: _ =>
          moveAmount env origin fromUser toUser amount fromUserBalance toUserBalance table

variable (st : State)

def userAddCall : Output × State :=
  if invalidUserName user then (.code CODE_INVALID_USER_NAME, st)
  else withTable env origin (addRows env origin user amount) st

def userSaveCall : Output × State :=
  if invalidUserName user then (.code CODE_INVALID_USER_NAME, st)
  else if amount = 0 then (.code CODE_INVALID_AMOUNT, st)
  else withTable env origin (saveRows env origin user amount) st

def userDrawCall : Output × State :=
  if invalidUserName user then (.code CODE_INVALID_USER_NAME, st)
  else if amount = 0 then (.code CODE_INVALID_AMOUNT, st)
  else withTable env origin (drawRows env origin user amount) st

def userBalanceCall : Output × State :=
  if invalidUserName user then (.balance CODE_INVALID_USER_NAME 0, st)
  else withTable env origin (balanceRows user) st

def userTransferCall (amount : U256) (st : State) : Output × State :=
  if invalidUserName fromUser ∨ invalidUserName toUser then (.code CODE_INVALID_USER_NAME, st)
  else if amount = 0 then (.code CODE_INVALID_AMOUNT, st)
  else if fromUser = toUser then (.code 0, st)
  else withTable env origin (transferRows env origin fromUser toUser amount) st

end Bodies

inductive Method where
  | userAdd (user : String) (amount : U256)
  | userSave (user : String) (amount : U256)
  | userDraw (user : String) (amount : U256)
  | userBalance (user : String)
  | userTransfer (fromUser toUser : String) (amount : U256)
  | undefined
  deriving DecidableEq

structure Call where
  origin : Address
  method : Method
  deriving DecidableEq

def getParallelTag : Method → List String
  | .userAdd user _ => if !invalidUserName user then [user] else []
  | .userSave user _ => if !invalidUserName user then [user] else []
  | .userDraw user _ => if !invalidUserName user then [user] else []
  | .userTransfer fromUser toUser _ =>
    if !invalidUserName fromUser && !invalidUserName toUser then [fromUser, toUser] else []
  -- query interface has no parallel processing conflict
  | .userBalance _ => []
  | .undefined => []

def call (env : Env) (c : Call) (st : State) : Output × State :=
  match c.method with
  | .userAdd user amount => userAddCall env c.origin user amount st
  | .userSave user amount => userSaveCall env c.origin user amount st
  | .userDraw user amount => userDrawCall env c.origin user amount st
  | .userTransfer fromUser toUser amount => userTransferCall env c.origin fromUser toUser amount st
  | .userBalance user => userBalanceCall env c.origin user st
  | .undefined => (.empty, st)

end Rcc.Precompiled.DagTransfer
