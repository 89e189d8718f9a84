import Rcc.Storage.Table

/-!
# Rcc.Storage.MemoryTable2

`libstorage/MemoryTable2.cpp`: a table during the execution of a block. The rows of the backend
are never written; what the block has done to them is kept in three maps (`Pending`), which
`select` lays over the backend's answer and `rollback` undoes change by change.

The temporary index that `select` writes into a new entry is put into the entry it returns only:
every reader of it has the entry from a `select`, which has just set it.
-/

namespace Rcc.Storage

open Function

/-! ### The backend -/

/-- The stored entries of every table and key. A backend that answers correctly returns, in
their order, the entries of the key that the condition accepts; the ids it has given out are
not zero and name one entry of their table. -/
structure Backend where
  rows : String → String → List Entry
  id_ne_zero : ∀ table key, ∀ e ∈ rows table key, e.ID ≠ 0
  normal : ∀ table key, ∀ e ∈ rows table key,
    e.status = 0 ∧ e.deleted = false ∧ e.tempIndex = 0
  nodup : ∀ table key, ((rows table key).map Entry.ID).Nodup
  key_unique : ∀ table key key', ∀ e ∈ rows table key, ∀ e' ∈ rows table key',
    e.ID = e'.ID → key = key'

def Backend.select (db : Backend) (version : Version) (table key : String) (c : Condition) :
    List Entry := (db.rows table key).filter (c.process version)

/-! ### The changes of a block -/

/-- `m_newEntries`, `m_dirty` and `m_dirty_updated`; the sets of the last are kept in the order
in which a `std::set` is walked. -/
structure Pending where
  newEntries : String → List Entry := fun _ => []
  dirty : Nat → Option Entry := fun _ => none
  dirtyUpdated : String → List Nat := fun _ => []

instance : EmptyCollection Pending := ⟨{}⟩

structure MemoryTable2 where
  info : TableInfo
  pending : Pending := ∅

/-- `std::set<uint64_t>::insert`. -/
def insertId (id : Nat) (ids : List Nat) : List Nat :=
  if id ∈ ids then ids else ids.orderedInsert (· ≤ ·) id

/-! ### select -/

variable (version : Version)

/-- `processEntries`: the indexes of the entries that meet the condition. -/
def processEntries (c : Condition) (entries : List Entry) : List Nat :=
  if c.empty then List.range entries.length
  else (entries.zipIdx.filter fun x => c.process version x.1).map Prod.snd

namespace Pending

/-- The part of `selectNoLock` that asks the backend. An entry that is dirty is returned as it
is in `m_dirty`; since 2.5.0 it is returned exactly if it meets the condition now. -/
def selectStored (dbEntries : List Entry) (key : String) (c : Condition)
    (p : Pending) : List Entry :=
  let processed := dbEntries.filterMap fun e => (p.dirty e.ID).map Entry.ID
  (dbEntries.filterMap fun e =>
    match p.dirty e.ID with
    | some d => if V2_5_0 ≤ version && !c.process version d then none else some d
    | none => some e) ++
  if V2_5_0 ≤ version then
    ((p.dirtyUpdated key).filter (· ∉ processed)).filterMap fun id =>
      (p.dirty id).filter (c.process version)
  else []

/-- The part of `selectNoLock` that goes through the new entries. -/
def selectNew (key : String) (c : Condition) (p : Pending) : List Entry :=
  (processEntries version c (p.newEntries key)).filterMap fun i =>
    ((p.newEntries key)[i]?).map (·.setTempIndex i)

end Pending

/-- The end of the range `proccessLimit` copies. -/
def limitEnd (c : Condition) : Int :=
  if version < V2_1_0 then (c.getOffset + c.getCount).bmod (2 ^ 32)
  else min (2 ^ 31 - 1) (c.getOffset + c.getCount)

/-- The limit at the end of `selectNoLock`: `proccessLimit` if the condition has one. -/
def proccessLimit (c : Condition) (entries : List Entry) : List Entry :=
  if 0 ≤ c.getOffset ∧ 0 ≤ c.getCount then
    (entries.take (limitEnd version c).toNat).drop c.getOffset.toNat
  else entries

namespace MemoryTable2

/-- The condition a call's own condition becomes: `condition->EQ(m_tableInfo->key, key)`. -/
def keyed (info : TableInfo) (key : String) (c : Condition) : Condition := c.EQ info.key key

def selectNoLock (db : Backend) (t : MemoryTable2) (key : String)
    (condition : Condition) : List Entry :=
  let c := keyed t.info key condition
  proccessLimit version c
    (t.pending.selectStored version (db.select version t.info.name key c) key c ++
      t.pending.selectNew version key c)

def select (db : Backend) (t : MemoryTable2) (key : String)
    (condition : Condition) : List Entry := t.selectNoLock version db key condition

end MemoryTable2

/-! ### update, insert, remove -/

/-- The loop over the fields of `update`: what it records, and the entry it leaves. The id and
the key of the table are not written. -/
def writeFields (keyField : String) : List (String × String) → Entry → List Record × Entry
  | [], e => ([], e)
  | (f, v) :: fs, e =>
    if f ≠ ID_FIELD ∧ f ≠ keyField then
      let rest := writeFields keyField fs (e.setField f v)
      (⟨e.tempIndex, f, e.getField f, e.ID⟩ :: rest.1, rest.2)
    else writeFields keyField fs e

namespace Pending

/-- What `update` and `remove` do to an entry they selected. An entry of the backend becomes
dirty with the first change to it; `update`, which is `indexed`, also notes its id. -/
def touch (indexed : Bool) (key : String) (f : Entry → Entry) (p : Pending) (e : Entry) : Pending :=
  if e.ID ≠ 0 then
    { p with
      dirty := update p.dirty e.ID (some (f e))
      dirtyUpdated :=
        if indexed && (p.dirty e.ID).isNone then
          update p.dirtyUpdated key (insertId e.ID (p.dirtyUpdated key))
        else p.dirtyUpdated }
  else
    { p with
      newEntries := update p.newEntries key ((p.newEntries key).modify e.tempIndex f) }

/-- `addEntry` on the new entries of a key. -/
def addEntry (key : String) (e : Entry) (p : Pending) : Pending :=
  { p with newEntries := update p.newEntries key (p.newEntries key ++ [e]) }

theorem newEntries_addEntry_self (key : String) (e : Entry) (p : Pending) :
    (p.addEntry key e).newEntries key = p.newEntries key ++ [e] := update_self _ _ _

theorem newEntries_addEntry_ne {k key : String} (h : k ≠ key) (e : Entry) (p : Pending) :
    (p.addEntry key e).newEntries k = p.newEntries k := update_of_ne h _ _

end Pending

/-- What a call on a table returns, leaves and records. -/
structure Outcome where
  code : Int
  pending : Pending
  change : Option Change

namespace MemoryTable2

def checkAuthority (info : TableInfo) (origin : Address) : Bool :=
  info.authorizedAddress.isEmpty || origin ∈ info.authorizedAddress

def checkField (info : TableInfo) (fields : Dictionary String String) : Bool :=
  fields.entries.all fun f => f.1 ∈ info.fields

def permissionDenied (t : MemoryTable2) : Outcome := ⟨CODE_NO_AUTHORIZED, t.pending, none⟩

def update (db : Backend) (t : MemoryTable2) (key : String) (entry : Entry)
    (condition : Condition) (options : AccessOptions) : Except StorageError Outcome :=
  if options.check && !checkAuthority t.info options.origin then .ok t.permissionDenied
  else if !checkField t.info entry.fields then .error .invalidKey
  else
    let entries := t.selectNoLock version db key condition
    let write := writeFields t.info.key entry.fields.entries
    .ok {
      code := entries.length
      pending := entries.foldl (Pending.touch true key fun e => (write e).2) t.pending
      change := some ⟨t.info.name, .update, key, entries.flatMap fun e => (write e).1⟩ }

def insert (t : MemoryTable2) (key : String) (entry : Entry) (options : AccessOptions) :
    Except StorageError Outcome :=
  if options.check && !checkAuthority t.info options.origin then .ok t.permissionDenied
  else if !checkField t.info entry.fields then .error .invalidKey
  else
    .ok {
      code := 1
      pending := t.pending.addEntry key (entry.setField t.info.key key)
      change := some
        ⟨t.info.name, .insert, key, [⟨(t.pending.newEntries key).length, "", "", 0⟩]⟩ }

def remove (db : Backend) (t : MemoryTable2) (key : String)
    (condition : Condition) (options : AccessOptions) : Outcome :=
  if options.check && !checkAuthority t.info options.origin then t.permissionDenied
  else
    let entries := t.selectNoLock version db key condition
    { code := entries.length
      pending := entries.foldl (Pending.touch false key (·.setStatus DELETED)) t.pending
      change := some ⟨t.info.name, .remove, key,
        entries.map fun e => ⟨e.tempIndex, "", "", e.ID⟩⟩ }

end MemoryTable2

/-! ### rollback -/

namespace Pending

/-- Change the entry a record is about. -/
def modifyRecord (key : String) (f : Record → Entry → Entry) (p : Pending) (r : Record) : Pending :=
  if r.id ≠ 0 then
    { p with dirty := update p.dirty r.id ((p.dirty r.id).map (f r)) }
  else
    { p with
      newEntries := update p.newEntries key ((p.newEntries key).modify r.index (f r)) }

/-- What undoes one record of each kind of change. -/
def undoRecord : Kind → Record → Entry → Entry
  | .insert, _ => (·.setDeleted true)
  | .update, r => (·.setField r.key r.oldValue)
  | .remove, _ => (·.setStatus 0)

def rollback (p : Pending) (change : Change) : Pending :=
  change.value.foldl (modifyRecord change.key (undoRecord change.kind)) p

end Pending

end Rcc.Storage
