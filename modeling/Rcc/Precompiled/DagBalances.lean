import Mathlib.Algebra.BigOperators.Finprod
import Rcc.Abi.Codec
import Rcc.Lib.Run
import Rcc.Precompiled.DagOrders

/-!
# Rcc.Precompiled.DagBalances

The balances of `DagTransferPrecompiled` over sequences of calls with any data.

* `decode` — the arguments as `abiOut` leaves them, of malformed data as well;
* `call_moves` — what a call does to the balance of every user, in numbers that do not wrap;
* `balances_conserved` — the sum of the balances is what has been added, saved and drawn.
-/

namespace Rcc.Precompiled.DagTransfer

open Method

open Abi (Bytes abiOut)
open Storage (Address)

/-! ## The data of a call -/

/-- `name2Selector`, hashes of the signatures. -/
structure Selectors where
  add : Nat
  save : Nat
  draw : Nat
  transfer : Nat
  balance : Nat

/-- `getParamFunc`; `none` is a read through a null pointer. -/
def getParamFunc (param : Bytes) : Option Nat :=
  if param.length < 4 then none else some (BigEndian.decode (param.take 4))

def getParamData (param : Bytes) : Bytes := param.drop 4

/-- The bytes of a `std::string`. -/
def text (bytes : Bytes) : String := String.ofList (bytes.map fun b => Char.ofNat b.toNat)

variable (data : Bytes)

/-- The result of `abiOut` is not looked at. What has been read when it fails is kept, and the
rest is empty or zero. -/
def firstUser : String :=
  match abiOut [.string] data with
  | some (user, _) => text user
  | none => ""

def secondUser : String :=
  match abiOut [.string, .string] data with
  | some (_, user, _) => text user
  | none => ""

def userAmount : U256 :=
  match abiOut [.string, .u256] data with
  | some (_, amount, _) => amount
  | none => 0

def transferAmount : U256 :=
  match abiOut [.string, .string, .u256] data with
  | some (_, _, amount, _) => amount
  | none => 0

variable (name2Selector : Selectors)

def decode (func : Nat) (data : Bytes) : Method :=
  if func = name2Selector.add then .userAdd (firstUser data) (userAmount data)
  else if func = name2Selector.save then .userSave (firstUser data) (userAmount data)
  else if func = name2Selector.draw then .userDraw (firstUser data) (userAmount data)
  else if func = name2Selector.transfer then
    .userTransfer (firstUser data) (secondUser data) (transferAmount data)
  else if func = name2Selector.balance then .userBalance (firstUser data)
  else .undefined

/-- A call, and what the access tables say then. -/
structure Request where
  env : Env
  origin : Address
  param : Bytes

/-- `call` on the data of a transaction. -/
def callParam (r : Request) (st : State) :
    Option (Method × Output × State) := do
  let func ← getParamFunc r.param
  let method := decode name2Selector func (getParamData r.param)
  return (method, call r.env ⟨r.origin, method⟩ st)

/-! ## Balances -/

/-- What the rows of a user hold. -/
def held (rows : List (Option U256)) : Int := (rows.map fun r => ((r.getD 0).val : Int)).sum

def State.balance (st : State) (user : String) : Int :=
  match st with
  | some table => held (table user)
  | none => 0

/-- The sum of all balances. -/
noncomputable def State.total (st : State) : Int := ∑ᶠ user, st.balance user

/-- What a call that succeeds moves to a user. -/
def Method.moves (user : String) : Method → Int
  | .userAdd u amount => if user = u then (amount.val : Int) else 0
  | .userSave u amount => if user = u then (amount.val : Int) else 0
  | .userDraw u amount => if user = u then -(amount.val : Int) else 0
  | .userTransfer fromUser toUser amount =>
    (if user = toUser then (amount.val : Int) else 0) +
      if user = fromUser then -(amount.val : Int) else 0
  | .userBalance _ => 0
  | .undefined => 0

/-- What a call that succeeds adds to the sum. -/
def Method.minted : Method → Int
  | .userAdd _ amount => amount.val
  | .userSave _ amount => amount.val
  | .userDraw _ amount => -amount.val
  | .userTransfer _ _ _ => 0
  | .userBalance _ => 0
  | .undefined => 0

/-- A table of finitely many users with a row each. -/
structure OneRowEach (table : Rows) : Prop where
  one : ∀ user, (table user).length ≤ 1
  finite : {user | table user ≠ []}.Finite

def Sound (st : State) : Prop := ∀ table ∈ st, OneRowEach table

/-! ### Writes -/

variable {table : Rows} {user : String}

@[simp] theorem held_nil : held [] = 0 := rfl

@[simp] theorem held_singleton (balance : U256) : held [some balance] = balance.val := by
  simp [held]

theorem OneRowEach.eq_singleton (h : OneRowEach table) {row : Option U256}
    {rows : List (Option U256)} (huser : table user = row :: rows) : table user = [row] := by
  have hone := h.one user
  rw [huser, List.length_cons] at hone
  have hrows : rows = [] := List.eq_nil_of_length_eq_zero (by omega)
  rw [huser, hrows]

theorem OneRowEach.write (h : OneRowEach table) (user : String) (balance : U256) :
    OneRowEach (Function.update table user [some balance]) where
  one u := by
    rw [Function.update_apply]
    split
    · exact le_rfl
    · exact h.one u
  finite := by
    refine (h.finite.insert user).subset fun u hu => ?_
    by_cases hne : u = user
    · exact Or.inl hne
    · rw [Set.mem_ofPred_eq, Function.update_of_ne hne] at hu
      exact Or.inr hu

theorem insert_eq (h : table user = []) (balance : U256) :
    insert table user balance = Function.update table user [some balance] := by
  rw [insert, h, List.nil_append]

theorem update_eq {row : Option U256} (h : table user = [row]) (balance : U256) :
    update table user balance = Function.update table user [some balance] := by
  rw [update, h]
  rfl

theorem held_write (table : Rows) (user u : String) (balance : U256) :
    held (Function.update table user [some balance] u) =
      if u = user then (balance.val : Int) else held (table u) := by
  rw [Function.update_apply]
  split
  · exact held_singleton balance
  · rfl

/-! ### The calls -/

/-- What an output has moved. -/
def Method.moved (m : Method) (out : Output) (user : String) : Int :=
  if out = .code 0 then m.moves user else 0

/-- A call on a table keeps one row for each user, and moves what it should. -/
def Moves (m : Method) (table : Rows) (result : Output × Rows) : Prop :=
  OneRowEach result.2 ∧
    ∀ user, held (result.2 user) = held (table user) + m.moved result.1 user

/-- Nothing is written and the call has not succeeded. -/
theorem moves_refused {m : Method} (h : OneRowEach table) {out : Output} (hout : out ≠ .code 0) :
    Moves m table (out, table) := ⟨h, fun user => by rw [moved, if_neg hout, add_zero]⟩

theorem moves_write {m : Method} (h : OneRowEach table) {balance : U256} {d : Int}
    (hm : ∀ u, m.moves u = if u = user then d else 0)
    (hbalance : (balance.val : Int) = held (table user) + d) :
    Moves m table (.code 0, Function.update table user [some balance]) := by
  refine ⟨h.write user balance, fun u => ?_⟩
  rw [held_write, moved, if_pos rfl, hm u]
  split_ifs with hu
  · rw [hu, hbalance]
  · rw [add_zero]

theorem val_add {a b : U256} (h : ¬ a + b < a) : ((a + b).val : Int) = a.val + b.val := by
  rw [add_lt_self_iff, not_le] at h
  rw [Fin.val_add_eq_of_add_lt h]
  rfl

theorem val_sub {a b : U256} (h : ¬ a < b) : ((a - b).val : Int) = a.val + -b.val := by
  rw [Fin.sub_val_of_le (not_lt.mp h), Nat.cast_sub (not_lt.mp h)]
  rfl

variable (env : Env) (origin : Address) {st : State}

section

variable (h : OneRowEach table)
include h

variable (user : String)

theorem addRows_moves (amount : U256) :
    Moves (.userAdd user amount) table (addRows env origin user amount table) := by
  rw [addRows]
  split
  · exact moves_refused h (by decide)
  · rename_i hempty
    rw [not_not] at hempty
    split
    · rw [insert_eq hempty]
      exact moves_write h (fun _ => rfl) (by rw [hempty, held_nil, zero_add])
    · exact moves_refused h (by decide)

theorem saveRows_moves (amount : U256) :
    Moves (.userSave user amount) table (saveRows env origin user amount table) := by
  rw [saveRows]
  split
  · rename_i hempty
    split
    · rw [insert_eq hempty]
      exact moves_write h (fun _ => rfl) (by rw [hempty, held_nil, zero_add])
    · exact moves_refused h (by decide)
  · exact moves_refused h (by decide)
  · rename_i hrow
    have hone := h.eq_singleton hrow
    split
    · exact moves_refused h (by decide)
    · rename_i hfits
      split
      · rw [update_eq hone]
        exact moves_write h (fun _ => rfl) (by rw [hone, held_singleton, val_add hfits])
      · exact moves_refused h (by decide)

theorem drawRows_moves (amount : U256) :
    Moves (.userDraw user amount) table (drawRows env origin user amount table) := by
  rw [drawRows]
  split
  · exact moves_refused h (by decide)
  · exact moves_refused h (by decide)
  · rename_i hrow
    have hone := h.eq_singleton hrow
    split
    · exact moves_refused h (by decide)
    · rename_i hcovers
      split
      · rw [update_eq hone]
        exact moves_write h (fun _ => rfl) (by rw [hone, held_singleton, val_sub hcovers])
      · exact moves_refused h (by decide)

theorem balanceRows_moves :
    Moves (.userBalance user) table (balanceRows user table) :=
  ⟨h, fun _ => by rw [moved, moves, ite_self, add_zero]; rfl⟩

/-- The end of a transfer, on a table in which the receiver may just have got a row. -/
theorem moveAmount_moves {start : Rows} (hstart : ∀ user, held (table user) = held (start user))
    {fromUser toUser : String} {amount fromUserBalance toUserBalance : U256}
    (hne : fromUser ≠ toUser) (hfrom : table fromUser = [some fromUserBalance])
    (hto : table toUser = [some toUserBalance]) (hcovers : ¬ fromUserBalance < amount) :
    Moves (.userTransfer fromUser toUser amount) start
      (moveAmount env origin fromUser toUser amount fromUserBalance toUserBalance table) := by
  have hrefused : ∀ out, out ≠ .code 0 →
      Moves (.userTransfer fromUser toUser amount) start (out, table) := fun out hout =>
    ⟨h, fun user => by rw [moved, if_neg hout, add_zero, hstart]⟩
  rw [moveAmount]
  split
  · exact hrefused _ (by decide)
  · rename_i hfits
    split
    · have hto' : Function.update table fromUser [some (fromUserBalance - amount)] toUser =
          [some toUserBalance] := by
        rw [Function.update_of_ne hne.symm, hto]
      rw [update_eq hfrom, update_eq hto']
      refine ⟨(h.write _ _).write _ _, fun user => ?_⟩
      rw [held_write, held_write, moved, if_pos rfl, moves, ← hstart]
      by_cases hu : user = toUser
      · rw [if_pos hu, if_pos hu, if_neg (hu.trans_ne hne.symm), hu, hto, held_singleton,
          val_add hfits, add_zero]
      · by_cases hu' : user = fromUser
        · rw [if_neg hu, if_neg hu, if_pos hu', if_pos hu', hu', hfrom, held_singleton,
            val_sub hcovers, zero_add]
        · rw [if_neg hu, if_neg hu, if_neg hu', if_neg hu', add_zero, add_zero]
    · exact hrefused _ (by decide)

theorem transferRows_moves {fromUser toUser : String} (hne : fromUser ≠ toUser) (amount : U256) :
    Moves (.userTransfer fromUser toUser amount) table
      (transferRows env origin fromUser toUser amount table) := by
  rw [transferRows]
  split
  · exact moves_refused h (by decide)
  · exact moves_refused h (by decide)
  · rename_i hrow
    have hfrom := h.eq_singleton hrow
    split
    · exact moves_refused h (by decide)
    · rename_i hcovers
      split
      · rename_i hempty
        split
        · -- the receiver is new, and has a row with nothing first
          rw [insert_eq hempty]
          refine moveAmount_moves env origin (h.write toUser 0) (fun user => ?_) hne ?_
            (Function.update_self ..) hcovers
          · rw [held_write]
            split
            · rename_i hu
              rw [hu, hempty]
              rfl
            · rfl
          · rw [Function.update_of_ne hne, hfrom]
        · exact moves_refused h (by decide)
      · exact moves_refused h (by decide)
      · rename_i hrow'
        exact moveAmount_moves env origin h (fun _ => rfl) hne hfrom (h.eq_singleton hrow') hcovers

theorem body_moves {c : Call} (hopens : c.method.Opens) :
    Moves c.method table (body env c table) := by
  obtain ⟨origin, method⟩ := c
  cases method with
  | userAdd user amount => exact addRows_moves env origin h user amount
  | userSave user amount => exact saveRows_moves env origin h user amount
  | userDraw user amount => exact drawRows_moves env origin h user amount
  | userBalance user => exact balanceRows_moves h user
  | userTransfer fromUser toUser amount => exact transferRows_moves env origin h hopens.2.2 amount
  | undefined => exact hopens.elim

end

/-- A call that fails its checks reports so, or moves something to where it was. -/
theorem moved_of_not_opens {c : Call} (h : ¬ c.method.Opens) (st : State) (user : String) :
    c.method.moved (call env c st).1 user = 0 := by
  obtain ⟨origin, method⟩ := c
  cases method with
  | userAdd u amount =>
    have hu : u = "" := not_not.mp h
    rw [hu]
    rfl
  | userSave u amount | userDraw u amount =>
    by_cases hu : u = ""
    · rw [hu]
      rfl
    · have ha : amount = 0 := not_not.mp fun ha => h ⟨hu, ha⟩
      simp [moved, moves, ha]
  | userBalance u | undefined => exact ite_self 0
  | userTransfer fromUser toUser amount =>
    by_cases hu : fromUser = "" ∨ toUser = ""
    · simp [moved, call, userTransferCall, hu, CODE_INVALID_USER_NAME]
    · by_cases ha : amount = 0
      · simp [moved, moves, ha]
      · have hne : fromUser = toUser := not_not.mp fun hne => h ⟨not_or.mp hu, ha, hne⟩
        rw [moved, moves, hne]
        split
        · split
          · exact add_neg_cancel _
          · rfl
        · rfl

/-- The step lemma: a call keeps one row for each user, and moves what it should. -/
theorem call_moves (h : Sound st) (c : Call) :
    Sound (call env c st).2 ∧ ∀ user, (call env c st).2.balance user =
      st.balance user + c.method.moved (call env c st).1 user := by
  by_cases hopens : c.method.Opens
  · rw [call_of_opens env hopens]
    cases hopen : openTable env c.origin st with
    | none =>
      rw [withTable_of_none (body env c) hopen]
      exact ⟨h, fun user => (add_zero _).symm⟩
    | some table =>
      obtain ⟨hrows, hbalance⟩ : OneRowEach table ∧
          ∀ user, st.balance user = held (table user) := by
        cases st with
        | some table' =>
          obtain rfl := Option.some.inj hopen
          exact ⟨h table' rfl, fun _ => rfl⟩
        | none =>
          rw [openTable] at hopen
          split at hopen
          · obtain rfl := Option.some.inj hopen
            exact ⟨⟨fun _ => Nat.zero_le _, by simp⟩, fun _ => rfl⟩
          · cases hopen
      obtain ⟨hone, hmoves⟩ := body_moves env hrows hopens
      rw [withTable_of_some (body env c) hopen]
      refine ⟨fun table' htable' => ?_, fun user => ?_⟩
      · rw [← Option.some.inj htable']
        exact hone
      · rw [hbalance user]
        exact hmoves user
  · obtain ⟨reply, hcall⟩ := call_of_not_opens env hopens
    refine ⟨by rw [hcall]; exact h, fun user => ?_⟩
    rw [moved_of_not_opens env hopens, add_zero, hcall]

/-! ## The sum -/

theorem finsum_moved_to (user : String) (d : Int) : ∑ᶠ u, (if u = user then d else 0) = d := by
  rw [finsum_eq_single _ user fun _ hu => if_neg hu, if_pos rfl]

theorem finite_support_moved_to (user : String) (d : Int) :
    (Function.support fun u => if u = user then d else 0).Finite := by
  refine (Set.finite_singleton user).subset fun u hu => ?_
  by_contra hne
  exact hu (if_neg hne)

/-- Moves have finitely many receivers, and sum up to what is minted. -/
theorem finsum_moves (m : Method) :
    (Function.support fun user => m.moves user).Finite ∧ ∑ᶠ user, m.moves user = m.minted := by
  cases m with
  | userAdd u amount | userSave u amount | userDraw u amount =>
    exact ⟨finite_support_moved_to u _, finsum_moved_to u _⟩
  | userTransfer fromUser toUser amount =>
    have hto := finite_support_moved_to toUser (amount.val : Int)
    have hfrom := finite_support_moved_to fromUser (-(amount.val : Int))
    refine ⟨(hto.union hfrom).subset (Function.support_add _ _), ?_⟩
    refine (finsum_add_distrib hto hfrom).trans ?_
    rw [finsum_moved_to, finsum_moved_to]
    exact add_neg_cancel _
  | userBalance u | undefined => exact ⟨by simp [moves], finsum_zero⟩

theorem Sound.finite_balance (h : Sound st) : (Function.support st.balance).Finite := by
  cases st with
  | none => exact Set.finite_empty.subset fun _ huser => huser rfl
  | some table =>
    refine (h table rfl).finite.subset fun user huser hempty => huser ?_
    rw [State.balance, hempty, held_nil]

theorem call_total (h : Sound st) (c : Call) :
    (call env c st).2.total =
      st.total + if (call env c st).1 = .code 0 then c.method.minted else 0 := by
  have hmoves := (call_moves env h c).2
  rw [State.total, finsum_congr hmoves]
  obtain ⟨hfinite, hsum⟩ := finsum_moves c.method
  split_ifs with hout
  · simp only [moved, if_pos hout]
    rw [finsum_add_distrib h.finite_balance hfinite, hsum]
    rfl
  · simp only [moved, if_neg hout, add_zero]
    rfl

/-! ## Sequences of calls -/

/-- The state, and what has been added and saved less what has been drawn by calls that
succeeded. -/
structure Account where
  state : State
  supply : Int

def Account.step (a : Account) (r : Request) : Option Account := do
  let (method, out, state) ← callParam name2Selector r a.state
  return ⟨state, a.supply + if out = .code 0 then method.minted else 0⟩

theorem callParam_eq {name2Selector : Selectors} {r : Request} {st' : State} {method : Method}
    {out : Output} (h : callParam name2Selector r st = some (method, out, st')) :
    call r.env ⟨r.origin, method⟩ st = (out, st') := by
  obtain ⟨func, -, hresult⟩ := Option.bind_eq_some_iff.mp h
  obtain ⟨hmethod, hcall⟩ := Prod.mk.inj (Option.some.inj hresult)
  rw [← hmethod, hcall]

/-- After every sequence of calls, each user has at most one row, and the balances sum up to what
calls that succeeded have added. The next call does to each balance, in numbers that do not wrap,
what it reports to have done. -/
theorem balances_conserved {name2Selector : Selectors} {st : State} (hst : Sound st)
    {rs : List Request} {a : Account}
    (hrun : Run (Steps (Account.step name2Selector)) ⟨st, st.total⟩ rs a) :
    Sound a.state ∧ a.state.total = a.supply ∧
      ∀ r method out st', callParam name2Selector r a.state = some (method, out, st') →
        (∀ user, st'.balance user =
          a.state.balance user + if out = .code 0 then method.moves user else 0) ∧
        st'.total = a.state.total + if out = .code 0 then method.minted else 0 := by
  have hinv : Sound a.state ∧ a.state.total = a.supply := by
    refine hrun.invariant (fun _ a => Sound a.state ∧ a.state.total = a.supply) ⟨hst, rfl⟩ ?_
    intro _ a r a' ⟨hsound, htotal⟩ hstep
    obtain ⟨⟨method, out, state⟩, hcall, ha'⟩ := Option.bind_eq_some_iff.mp hstep
    have hmoves := (call_moves r.env hsound ⟨r.origin, method⟩).1
    have hsum := call_total r.env hsound ⟨r.origin, method⟩
    rw [callParam_eq hcall] at hmoves hsum
    rw [← Option.some.inj ha']
    exact ⟨hmoves, hsum.trans (by rw [htotal])⟩
  refine ⟨hinv.1, hinv.2, fun r method out st' hcall => ?_⟩
  have hmoves := (call_moves r.env hinv.1 ⟨r.origin, method⟩).2
  have hsum := call_total r.env hinv.1 ⟨r.origin, method⟩
  rw [callParam_eq hcall] at hmoves hsum
  exact ⟨hmoves, hsum⟩

/-- `userSave("a", 5)` and then `userTransfer("a", "", 5)` with nothing behind the first word. -/
def savedAndMangled : List Request :=
  let env : Env := ⟨fun _ => true, fun _ => true⟩
  let word (n : Nat) : Bytes := BigEndian.fixed 32 n
  [⟨env, 0, [0, 0, 0, 2] ++ word 64 ++ word 5 ++ word 1 ++ [97]⟩, ⟨env, 0, [0, 0, 0, 4] ++ word 96⟩]

theorem saved_and_mangled_conserved : ∃ a : Account,
    a.supply = 5 ∧ Sound a.state ∧ a.state.total = a.supply := by
  have hsound : Sound none := nofun
  have htotal : State.total none = 0 := finsum_zero
  have h : (exec (Account.step ⟨1, 2, 3, 4, 5⟩) ⟨none, 0⟩ savedAndMangled).map Account.supply =
      some 5 := by
    decide +kernel
  obtain ⟨a, ha, hsupply⟩ := Option.map_eq_some_iff.mp h
  rw [← htotal] at ha
  obtain ⟨hone, hsum, -⟩ := balances_conserved hsound (run_of_exec ha)
  exact ⟨a, hsupply, hone, hsum⟩

end Rcc.Precompiled.DagTransfer
