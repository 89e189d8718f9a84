import Rcc.Precompiled.DagTransfer

/-!
# Rcc.Precompiled.DagOrders

When the order of two calls of `DagTransferPrecompiled` shows.

`getParallelTag` names the users a call touches, and calls with no user in common are executed in
any order. For calls that write this is right, since they read nothing but the rows of the users
they name (`footprint_body`). A query names nobody, though what it returns depends on what is done
to its user; and the first call creates the table, which not every origin may do.
`orders_agree_iff` says that nothing else makes the order show.
-/

namespace Rcc.Precompiled.DagTransfer

open Method

variable {env : Env} {st : State} {c c' : Call}

/-- The two replies and the table are the same in either order. -/
def OrdersAgree (env : Env) (st : State) (c c' : Call) : Prop :=
  (call env c (call env c' st).2).1 = (call env c st).1 ∧
  (call env c' (call env c st).2).1 = (call env c' st).1 ∧
  (call env c' (call env c st).2).2 = (call env c (call env c' st).2).2

theorem OrdersAgree.symm (h : OrdersAgree env st c c') : OrdersAgree env st c' c :=
  ⟨h.2.1, h.1, h.2.2.symm⟩

/-! ## What a call does to the table -/

/-- The arguments pass the checks that come before the table is opened. -/
def Method.Opens : Method → Prop
  | .userAdd user _ => user ≠ ""
  | .userSave user amount => user ≠ "" ∧ amount ≠ 0
  | .userDraw user amount => user ≠ "" ∧ amount ≠ 0
  | .userBalance user => user ≠ ""
  | .userTransfer fromUser toUser amount =>
    (fromUser ≠ "" ∧ toUser ≠ "") ∧ amount ≠ 0 ∧ fromUser ≠ toUser
  | .undefined => False

/-- The part of a call that works on the open table. -/
def body (env : Env) (c : Call) : StoreOp String (List (Option U256)) Output :=
  match c.method with
  | .userAdd user amount => addRows env c.origin user amount
  | .userSave user amount => saveRows env c.origin user amount
  | .userDraw user amount => drawRows env c.origin user amount
  | .userBalance user => balanceRows user
  | .userTransfer fromUser toUser amount => transferRows env c.origin fromUser toUser amount
  | .undefined => fun table => (.empty, table)

@[simp] theorem invalidUserName_iff (user : String) : invalidUserName user = true ↔ user = "" := by
  simp [invalidUserName]

@[simp] theorem invalidUserName_eq_false (user : String) :
    invalidUserName user = false ↔ user ≠ "" := by
  rw [← Bool.not_eq_true, invalidUserName_iff]

theorem call_of_opens (env : Env) (h : c.method.Opens) (st : State) :
    call env c st = withTable env c.origin (body env c) st := by
  obtain ⟨origin, method⟩ := c
  cases method with
  | userAdd user amount =>
    have hu : user ≠ "" := h
    simp [call, body, userAddCall, hu]
  | userSave user amount =>
    obtain ⟨hu, ha⟩ : user ≠ "" ∧ amount ≠ 0 := h
    simp [call, body, userSaveCall, hu, ha]
  | userDraw user amount =>
    obtain ⟨hu, ha⟩ : user ≠ "" ∧ amount ≠ 0 := h
    simp [call, body, userDrawCall, hu, ha]
  | userBalance user =>
    have hu : user ≠ "" := h
    simp [call, body, userBalanceCall, hu]
  | userTransfer fromUser toUser amount =>
    obtain ⟨⟨hf, ht⟩, ha, hne⟩ : (fromUser ≠ "" ∧ toUser ≠ "") ∧ amount ≠ 0 ∧ fromUser ≠ toUser := h
    simp [call, body, userTransferCall, hf, ht, ha, hne]
  | undefined => exact h.elim

/-- A call that fails its checks says so whatever the table is, and leaves it alone. -/
theorem call_of_not_opens (env : Env) (h : ¬ c.method.Opens) :
    ∃ reply, ∀ st, call env c st = (reply, st) := by
  obtain ⟨origin, method⟩ := c
  cases method with
  | userAdd user amount =>
    have hu : user = "" := not_not.mp h
    exact ⟨_, fun st => by simp only [call, hu]; rfl⟩
  | userSave user amount =>
    by_cases hu : user = ""
    · exact ⟨_, fun st => by simp only [call, hu]; rfl⟩
    · have ha : amount = 0 := not_not.mp fun ha => h ⟨hu, ha⟩
      exact ⟨.code CODE_INVALID_AMOUNT, fun st => by simp [call, userSaveCall, hu, ha]⟩
  | userDraw user amount =>
    by_cases hu : user = ""
    · exact ⟨_, fun st => by simp only [call, hu]; rfl⟩
    · have ha : amount = 0 := not_not.mp fun ha => h ⟨hu, ha⟩
      exact ⟨.code CODE_INVALID_AMOUNT, fun st => by simp [call, userDrawCall, hu, ha]⟩
  | userBalance user =>
    have hu : user = "" := not_not.mp h
    exact ⟨_, fun st => by simp only [call, hu]; rfl⟩
  | userTransfer fromUser toUser amount =>
    by_cases hu : fromUser = "" ∨ toUser = ""
    · exact ⟨.code CODE_INVALID_USER_NAME, fun st => by simp [call, userTransferCall, hu]⟩
    · by_cases ha : amount = 0
      · exact ⟨.code CODE_INVALID_AMOUNT, fun st => by simp [call, userTransferCall, hu, ha]⟩
      · have hne : fromUser = toUser := not_not.mp fun hne => h ⟨not_or.mp hu, ha, hne⟩
        exact ⟨.code 0, fun st => by simp_all [call, userTransferCall]⟩
  | undefined => exact ⟨.empty, fun st => rfl⟩

/-! ## Footprints -/

/-- The users whose rows a call reads. -/
def Method.users : Method → Set String
  | .userAdd user _ => {user}
  | .userSave user _ => {user}
  | .userDraw user _ => {user}
  | .userBalance user => {user}
  | .userTransfer fromUser toUser _ => {fromUser, toUser}
  | .undefined => ∅

/-- The users whose rows a call may write. -/
def Method.written : Method → Set String
  | .userBalance _ => ∅
  | m => m.users

theorem written_subset_users (m : Method) : m.written ⊆ m.users := by
  cases m <;> simp [written]

theorem query_or_written (m : Method) : (∃ user, m = .userBalance user) ∨ m.written = m.users := by
  cases m with
  | userBalance user => exact .inl ⟨user, rfl⟩
  | _ => exact .inr rfl

/-- These are the users the call is tagged with. -/
theorem mem_getParallelTag {m : Method} (h : m.Opens) (user : String) :
    user ∈ getParallelTag m ↔ user ∈ m.written := by
  cases m with
  | userAdd v _ =>
    have hv : v ≠ "" := h
    simp [getParallelTag, written, users, hv]
  | userSave v _ | userDraw v _ => simp [getParallelTag, written, users, h.1]
  | userBalance v => simp [getParallelTag, written]
  | userTransfer v w _ => simp [getParallelTag, written, users, h.1.1, h.1.2]
  | undefined => exact h.elim

section Footprints

variable (env : Env) (origin : Storage.Address)

@[simp] theorem insert_of_ne {table : Rows} {user other : String} (balance : U256)
    (h : other ≠ user) : insert table user balance other = table other :=
  Function.update_of_ne h _ _

@[simp] theorem insert_self (table : Rows) (user : String) (balance : U256) :
    insert table user balance user = table user ++ [some balance] := Function.update_self ..

@[simp] theorem update_of_ne {table : Rows} {user other : String} (balance : U256)
    (h : other ≠ user) : update table user balance other = table other :=
  Function.update_of_ne h _ _

@[simp] theorem update_self (table : Rows) (user : String) (balance : U256) :
    update table user balance user = (table user).map fun _ => some balance :=
  Function.update_self ..

variable (user : String)

theorem footprint_addRows (amount : U256) :
    Footprint (addRows env origin user amount) {user} {user} where
  frame s k hk := by
    have hne : k ≠ user := hk
    unfold addRows
    split_ifs <;> simp [hne]
  reply s s' h := by
    simp only [addRows, h user rfl]
    split_ifs <;> rfl
  effect s s' h k hk := by
    obtain rfl : k = user := hk
    simp only [addRows, h k rfl]
    split_ifs <;> simp [h k rfl]

theorem footprint_saveRows (amount : U256) :
    Footprint (saveRows env origin user amount) {user} {user} where
  frame s k hk := by
    have hne : k ≠ user := hk
    unfold saveRows
    split <;> (try split_ifs) <;> simp [hne]
  reply s s' h := by
    simp only [saveRows, h user rfl]
    split <;> (try split_ifs) <;> rfl
  effect s s' h k hk := by
    obtain rfl : k = user := hk
    simp only [saveRows, h k rfl]
    split <;> (try split_ifs) <;> simp [h k rfl]

theorem footprint_drawRows (amount : U256) :
    Footprint (drawRows env origin user amount) {user} {user} where
  frame s k hk := by
    have hne : k ≠ user := hk
    unfold drawRows
    split <;> (try split_ifs) <;> simp [hne]
  reply s s' h := by
    simp only [drawRows, h user rfl]
    split <;> (try split_ifs) <;> rfl
  effect s s' h k hk := by
    obtain rfl : k = user := hk
    simp only [drawRows, h k rfl]
    split <;> (try split_ifs) <;> simp [h k rfl]

theorem footprint_balanceRows :
    Footprint (balanceRows user) {user} ∅ where
  frame _ _ _ := rfl
  reply s s' h := by simp only [balanceRows, h user rfl]
  effect _ _ _ _ hk := hk.elim

theorem footprint_transferRows (fromUser toUser : String) (amount : U256) :
    Footprint (transferRows env origin fromUser toUser amount) {fromUser, toUser}
      {fromUser, toUser} where
  frame s k hk := by
    obtain ⟨hf, ht⟩ : k ≠ fromUser ∧ k ≠ toUser := not_or.mp hk
    unfold transferRows moveAmount
    split <;> (try split_ifs) <;> (try split) <;> (try split_ifs) <;> simp [hf, ht]
  reply s s' h := by
    simp only [transferRows, moveAmount, h fromUser (.inl rfl), h toUser (.inr rfl)]
    split <;> (try split_ifs) <;> (try split) <;> (try split_ifs) <;> rfl
  effect s s' h k hk := by
    have hs : s k = s' k := h k hk
    simp only [transferRows, moveAmount, h fromUser (.inl rfl), h toUser (.inr rfl)]
    split <;> (try split_ifs) <;> (try split) <;> (try split_ifs) <;>
      simp [insert, update, Function.update_apply, hs, h fromUser (.inl rfl), h toUser (.inr rfl)]

end Footprints

/-- A call reads the rows of its users alone, and writes those it is tagged with. -/
theorem footprint_body (env : Env) (c : Call) :
    Footprint (body env c) c.method.users c.method.written := by
  obtain ⟨origin, method⟩ := c
  cases method with
  | userAdd user amount => exact footprint_addRows env origin user amount
  | userSave user amount => exact footprint_saveRows env origin user amount
  | userDraw user amount => exact footprint_drawRows env origin user amount
  | userBalance user => exact footprint_balanceRows user
  | userTransfer fromUser toUser amount =>
    exact footprint_transferRows env origin fromUser toUser amount
  | undefined => exact ⟨fun _ _ _ => rfl, fun _ _ _ => rfl, fun _ _ _ _ hk => hk.elim⟩

/-! ## What a query sees -/

variable {table : Rows}

/-- The first row of the user has a balance of at least the amount. -/
def Covers (table : Rows) (user : String) (amount : U256) : Prop :=
  ∃ balance, (table user).head? = some (some balance) ∧ amount ≤ balance

/-- The user has no row, or a first row with a balance to which the amount can be added. -/
def Fits (table : Rows) (user : String) (amount : U256) : Prop :=
  table user = [] ∨
    ∃ balance, (table user).head? = some (some balance) ∧ balance.val + amount.val < 2 ^ 256

/-- The call changes what a query of the user returns. -/
def Changes (env : Env) (table : Rows) (c : Call) (user : String) : Prop :=
  env.mayWrite c.origin = true ∧
  match c.method with
  | .userAdd u _ => u = user ∧ table u = []
  | .userSave u amount => u = user ∧ Fits table u amount
  | .userDraw u amount => u = user ∧ Covers table u amount
  | .userTransfer fromUser toUser amount =>
    (fromUser = user ∨ toUser = user) ∧ Covers table fromUser amount ∧ Fits table toUser amount
  | .userBalance _ => False
  | .undefined => False

/-- `u256` wraps: the sum is smaller exactly if it does not fit. -/
theorem add_lt_self_iff {n : Nat} (b a : Fin n) : b + a < b ↔ n ≤ b.val + a.val := by
  rw [Fin.lt_def, Fin.val_add]
  rcases Nat.lt_or_ge (b.val + a.val) n with h | h
  · rw [Nat.mod_eq_of_lt h]
    omega
  · rw [Nat.mod_eq_sub_mod h, Nat.mod_eq_of_lt (by omega)]
    omega

section Queries

variable (env : Env) (origin : Storage.Address) (table : Rows) (user : String) {amount : U256}

theorem addRows_seen (amount : U256) :
    balanceReply ((addRows env origin user amount table).2 user) ≠ balanceReply (table user) ↔
      env.mayWrite origin = true ∧ table user = [] := by
  unfold addRows
  by_cases hrow : table user = [] <;> by_cases hw : env.mayWrite origin = true <;>
    simp [hrow, hw, balanceReply, CODE_INVALID_USER_NOT_EXIST]

theorem saveRows_seen (h : amount ≠ 0) :
    balanceReply ((saveRows env origin user amount table).2 user) ≠ balanceReply (table user) ↔
      env.mayWrite origin = true ∧ Fits table user amount := by
  unfold saveRows Fits
  rcases hrow : table user with _ | ⟨_ | balance, rest⟩
  · by_cases hw : env.mayWrite origin = true <;>
      simp [hrow, hw, balanceReply, CODE_INVALID_USER_NOT_EXIST]
  · simp [hrow]
  · have hfit := add_lt_self_iff balance amount
    by_cases ho : balance + amount < balance
    · simp only [hrow, ho, if_true]
      simpa using fun _ => hfit.mp ho
    · have hlt := not_le.mp (mt hfit.mpr ho)
      by_cases hw : env.mayWrite origin = true
      · simpa [hrow, hw, ho, balanceReply, h] using hlt
      · simp [hrow, hw, ho]

theorem drawRows_seen (h : amount ≠ 0) :
    balanceReply ((drawRows env origin user amount table).2 user) ≠ balanceReply (table user) ↔
      env.mayWrite origin = true ∧ Covers table user amount := by
  unfold drawRows Covers
  rcases hrow : table user with _ | ⟨_ | balance, rest⟩
  · simp [hrow]
  · simp [hrow]
  · by_cases hw : env.mayWrite origin = true <;> by_cases hb : balance < amount
    · simp [hrow, hb]
    · simp [hrow, hw, hb, not_lt.mp hb, balanceReply, h]
    · simp [hrow, hb]
    · simp [hrow, hw, hb]

theorem transferRows_seen {fromUser toUser : String} (hne : fromUser ≠ toUser) (h : amount ≠ 0)
    (hu : fromUser = user ∨ toUser = user) :
    balanceReply ((transferRows env origin fromUser toUser amount table).2 user) ≠
        balanceReply (table user) ↔
      env.mayWrite origin = true ∧ Covers table fromUser amount ∧ Fits table toUser amount := by
  unfold transferRows moveAmount Covers Fits
  rcases hfrom : table fromUser with _ | ⟨_ | fromBalance, rest⟩
  · simp
  · simp
  by_cases hb : fromBalance < amount
  · simp [hb]
  have hle : amount ≤ fromBalance := not_lt.mp hb
  rcases hto : table toUser with _ | ⟨_ | toBalance, rest'⟩
  · by_cases hw : env.mayWrite origin = true
    · rcases hu with rfl | rfl
      · simp [hb, hle, hw, hne, hfrom, balanceReply, h]
      · simp [hb, hle, hw, hne.symm, hto, balanceReply, CODE_INVALID_USER_NOT_EXIST]
    · simp [hb, hw]
  · simp [hb]
  · have hfit := add_lt_self_iff toBalance amount
    by_cases ho : toBalance + amount < toBalance
    · simp only [hb, ho, if_false]
      simpa [hle] using fun _ => hfit.mp ho
    · have hlt := not_le.mp (mt hfit.mpr ho)
      by_cases hw : env.mayWrite origin = true
      · rcases hu with rfl | rfl
        · simpa [hb, ho, hle, hw, hne, hfrom, balanceReply, h] using hlt
        · simpa [hb, ho, hle, hw, hne, hne.symm, hto, balanceReply, h] using hlt
      · simp [hb, ho, hw]

end Queries

/-- `Changes` is what it says. -/
theorem body_seen (env : Env) (h : c.method.Opens) (table : Rows) (user : String) :
    balanceReply ((body env c table).2 user) ≠ balanceReply (table user) ↔
      Changes env table c user := by
  -- a call leaves the rows of all users but its own as they are
  have hframe : user ∉ c.method.users → (body env c table).2 user = table user := fun hu =>
    (footprint_body env c).frame table user fun hw => hu (written_subset_users _ hw)
  obtain ⟨origin, method⟩ := c
  cases method with
  | userAdd u amount =>
    by_cases hu : u = user
    · subst hu
      simpa [Changes, body] using addRows_seen env origin table u amount
    · simp [Changes, hu, hframe (Ne.symm hu)]
  | userSave u amount =>
    by_cases hu : u = user
    · subst hu
      simpa [Changes, body] using saveRows_seen env origin table u h.2
    · simp [Changes, hu, hframe (Ne.symm hu)]
  | userDraw u amount =>
    by_cases hu : u = user
    · subst hu
      simpa [Changes, body] using drawRows_seen env origin table u h.2
    · simp [Changes, hu, hframe (Ne.symm hu)]
  | userBalance u => simp [Changes, body, balanceRows]
  | userTransfer fromUser toUser amount =>
    by_cases hu : fromUser = user ∨ toUser = user
    · simpa [Changes, body, hu] using
        transferRows_seen env origin table user h.2.2 h.2.1 hu
    · have hnot : user ∉ ({fromUser, toUser} : Set String) := fun hm => hu (hm.imp Eq.symm Eq.symm)
      simp [Changes, hu, hframe hnot]
  | undefined => exact h.elim

/-- The call is a query of a user for whom the other call changes what it returns. -/
def Sees (env : Env) (table : Rows) (c c' : Call) : Prop :=
  ∃ user, c.method = .userBalance user ∧ Changes env table c' user

theorem not_sees_query {user : String} (hq : c'.method = .userBalance user) :
    ¬ Sees env table c c' := by
  rintro ⟨_, _, hch⟩
  simp [Changes, hq] at hch

theorem not_sees_of_written (hw : c.method.written = c.method.users) : ¬ Sees env table c c' := by
  rintro ⟨user, hq, _⟩
  rw [hq] at hw
  exact (hw ▸ rfl : user ∈ (userBalance user).written)

/-! ## Orders -/

/-- The two replies and the table are the same in either order, once the table is open. -/
def BodiesAgree (env : Env) (table : Rows) (c c' : Call) : Prop :=
  (body env c (body env c' table).2).1 = (body env c table).1 ∧
  (body env c' (body env c table).2).1 = (body env c' table).1 ∧
  (body env c' (body env c table).2).2 = (body env c (body env c' table).2).2

theorem BodiesAgree.symm (h : BodiesAgree env table c c') : BodiesAgree env table c' c :=
  ⟨h.2.1, h.1, h.2.2.symm⟩

/-- With a query on one side the table is written by the other call alone, so the order shows in
the query's reply or not at all. -/
theorem bodiesAgree_query {user : String} (hq : c.method = .userBalance user) (h : c'.method.Opens)
    : BodiesAgree env table c c' ↔ ¬ Sees env table c c' := by
  have hbody : body env c = balanceRows user := by simp only [body, hq]
  have hsees : Sees env table c c' ↔ Changes env table c' user := by simp [Sees, hq]
  rw [hsees, ← body_seen env h table user]
  simp [BodiesAgree, hbody, balanceRows]

theorem bodiesAgree_iff (h : c.method.Opens) (h' : c'.method.Opens)
    (hdisj : ∀ t ∈ getParallelTag c.method, t ∉ getParallelTag c'.method) :
    BodiesAgree env table c c' ↔ ¬ Sees env table c c' ∧ ¬ Sees env table c' c := by
  rcases query_or_written c.method with ⟨user, hq⟩ | hw
  · rw [bodiesAgree_query hq h', and_iff_left (not_sees_query hq)]
  rcases query_or_written c'.method with ⟨user, hq⟩ | hw'
  · rw [and_iff_right (not_sees_query hq), ← bodiesAgree_query hq h]
    exact ⟨BodiesAgree.symm, BodiesAgree.symm⟩
  · -- both write what they read, and that is what they are tagged with
    have hapart : Disjoint c.method.written c'.method.written := by
      rw [Set.disjoint_left]
      intro t ht ht'
      exact hdisj t ((mem_getParallelTag h t).mpr ht) ((mem_getParallelTag h' t).mpr ht')
    refine iff_of_true ?_ ⟨not_sees_of_written hw, not_sees_of_written hw'⟩
    exact (footprint_body env c).commute (footprint_body env c') (hw' ▸ hapart)
      (hw ▸ hapart.symm) hapart table

/-- Both calls may create the table or neither, if they have to; and neither is a query of a user
for whom the other changes what it returns. -/
structure Independent (env : Env) (st : State) (c c' : Call) : Prop where
  creation : st = none → c.method.Opens → c'.method.Opens →
    env.canCreate c.origin = env.canCreate c'.origin
  queries : c.method.Opens → c'.method.Opens → ∀ table, openTable env c.origin st = some table →
    openTable env c'.origin st = some table → ¬ Sees env table c c' ∧ ¬ Sees env table c' c

/-- The body of a call throws nothing of its own. -/
theorem body_ne_storageException (env : Env) (c : Call) (table : Rows) (what : String) :
    (body env c table).1 ≠ .storageException what := by
  obtain ⟨origin, method⟩ := c
  cases method with
  | userAdd user amount =>
    simp only [body, addRows]
    split_ifs <;> simp
  | userSave user amount =>
    simp only [body, saveRows]
    split <;> (try split_ifs) <;> simp
  | userDraw user amount =>
    simp only [body, drawRows]
    split <;> (try split_ifs) <;> simp
  | userBalance user =>
    simp only [body, balanceRows, balanceReply]
    split <;> simp
  | userTransfer fromUser toUser amount =>
    simp only [body, transferRows, moveAmount]
    split <;> (try split_ifs) <;> (try split) <;> (try split_ifs) <;> simp
  | undefined => simp [body]

variable (body : StoreOp String (List (Option U256)) Output)

theorem withTable_of_some {origin : Storage.Address} (h : openTable env origin st = some table) :
    withTable env origin body st = ((body table).1, some (body table).2) := by
  simp only [withTable, h]

theorem withTable_of_none {origin : Storage.Address} (h : openTable env origin st = none) :
    withTable env origin body st = (.storageException "create table permission denied", st) := by
  simp only [withTable, h]

theorem ordersAgree_of_open (h : c.method.Opens) (h' : c'.method.Opens)
    (ht : openTable env c.origin st = some table) (ht' : openTable env c'.origin st = some table) :
    OrdersAgree env st c c' ↔ BodiesAgree env table c c' := by
  have hsome : ∀ origin body table', withTable env origin body (some table') =
      ((body table').1, some (body table').2) := fun _ _ _ => rfl
  simp only [OrdersAgree, BodiesAgree, call_of_opens env h, call_of_opens env h',
    withTable_of_some _ ht, withTable_of_some _ ht', hsome, Option.some.injEq]

/-- If only one of the calls may create the table, the other fails unless it comes second. -/
theorem not_ordersAgree_of_creation (h : c.method.Opens) (h' : c'.method.Opens)
    (hc : env.canCreate c.origin = true) (hc' : env.canCreate c'.origin = false) :
    ¬ OrdersAgree env none c c' := by
  rintro ⟨_, hreply, _⟩
  have ht : openTable env c.origin none = some fun _ => [] := by simp [openTable, hc]
  have ht' : openTable env c'.origin none = none := by simp [openTable, hc']
  rw [call_of_opens env h', call_of_opens env h', call_of_opens env h, withTable_of_none _ ht',
    withTable_of_some _ ht] at hreply
  exact body_ne_storageException _ _ _ _ hreply

theorem ordersAgree_of_not_opens (h : ¬ c.method.Opens) : OrdersAgree env st c c' := by
  obtain ⟨reply, hcall⟩ := call_of_not_opens env h
  simp [OrdersAgree, hcall]

/-- Two calls with no tag in common give the same replies and the same table in either order
exactly if they are independent. -/
theorem orders_agree_iff (env : Env) (st : State) (c c' : Call)
    (hdisj : ∀ t ∈ getParallelTag c.method, t ∉ getParallelTag c'.method) :
    OrdersAgree env st c c' ↔ Independent env st c c' := by
  by_cases h : c.method.Opens
  swap
  · exact iff_of_true (ordersAgree_of_not_opens h)
      ⟨fun _ ho => (h ho).elim, fun ho => (h ho).elim⟩
  by_cases h' : c'.method.Opens
  swap
  · exact iff_of_true (ordersAgree_of_not_opens h').symm
      ⟨fun _ _ ho => (h' ho).elim, fun _ ho => (h' ho).elim⟩
  -- with the table open for both, the question is about their bodies
  have hopen : ∀ table, openTable env c.origin st = some table →
      openTable env c'.origin st = some table →
      (st = none → env.canCreate c.origin = env.canCreate c'.origin) →
      (OrdersAgree env st c c' ↔ Independent env st c c') := by
    intro table ht ht' hcreate
    rw [ordersAgree_of_open h h' ht ht', bodiesAgree_iff h h' hdisj]
    refine ⟨fun hq => ⟨fun hst _ _ => hcreate hst, fun _ _ table' hs _ => ?_⟩,
      fun hi => hi.queries h h' table ht ht'⟩
    obtain rfl : table = table' := Option.some.inj (ht.symm.trans hs)
    exact hq
  cases st with
  | some table => exact hopen table rfl rfl (by simp)
  | none =>
    cases hc : env.canCreate c.origin <;> cases hc' : env.canCreate c'.origin
    · refine iff_of_true ?_ ⟨fun _ _ _ => hc.trans hc'.symm, fun _ _ table ht => ?_⟩
      · simp [OrdersAgree, call_of_opens env h, call_of_opens env h', withTable, openTable, hc, hc']
      · simp [openTable, hc] at ht
    · refine iff_of_false (fun ha => ?_) fun hi => ?_
      · exact not_ordersAgree_of_creation h' h hc' hc ha.symm
      · simpa [hc, hc'] using hi.creation rfl h h'
    · refine iff_of_false (not_ordersAgree_of_creation h h' hc hc') fun hi => ?_
      simpa [hc, hc'] using hi.creation rfl h h'
    · exact hopen (fun _ => []) (by simp [openTable, hc]) (by simp [openTable, hc'])
        fun _ => hc.trans hc'.symm

/-- A contract everybody may use, in which bob has ten. -/
def openEnv : Env := ⟨fun _ => true, fun _ => true⟩
def bobHasTen : Rows := fun user => if user = "bob" then [some 10] else []

theorem save_and_draw_agree :
    OrdersAgree openEnv (some bobHasTen) ⟨1, .userSave "alice" 5⟩ ⟨2, .userDraw "bob" 3⟩ :=
  (orders_agree_iff openEnv (some bobHasTen) ⟨1, .userSave "alice" 5⟩ ⟨2, .userDraw "bob" 3⟩
    (by decide)).mpr
    ⟨nofun, fun _ _ _ _ _ => ⟨fun hs => by simp [Sees] at hs, fun hs => by simp [Sees] at hs⟩⟩

/-- A query has no tag, but what it returns shows whether the user has been paid before. -/
theorem query_shows_order :
    (∀ t ∈ getParallelTag (.userBalance "bob"), t ∉ getParallelTag (.userSave "bob" 5)) ∧
    (call openEnv ⟨1, .userBalance "bob"⟩ (some bobHasTen)).1 = .balance 0 10 ∧
    (call openEnv ⟨1, .userBalance "bob"⟩
      (call openEnv ⟨2, .userSave "bob" 5⟩ (some bobHasTen)).2).1 = .balance 0 15 ∧
    ¬ OrdersAgree openEnv (some bobHasTen) ⟨1, .userBalance "bob"⟩ ⟨2, .userSave "bob" 5⟩ :=
  ⟨by decide, by decide +kernel, by decide +kernel,
    fun h => absurd h.1 (by decide +kernel)⟩

end Rcc.Precompiled.DagTransfer
