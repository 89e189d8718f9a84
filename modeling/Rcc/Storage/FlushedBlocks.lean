import Rcc.Lib.Dictionary
import Rcc.Lib.Run

/-!
# Rcc.Storage.FlushedBlocks

`CachedStorage` over `RocksDBStorage`: committed blocks wait in a queue, and one thread writes them
to the database in order (`commitBackend`). `syncNum` is the number of the last one written.

What the database reports is thrown as one of two exceptions. `RocksDBStorage::commit` passes on the
fatal one, which stops the thread. The one that asks for a retry it only logs, so the block counts
as written; and a write that reports `NotFound` is taken for a good one.

The database has all rows of a key in one value. So a commit changes the cached rows of the keys
that have dirty ones, and hands over all of them. A commit that fails on the way leaves its changes
in the cache, and the next one hands them over.
-/

namespace Rcc.Storage.Flushed

open List Function

/-! ## The database -/

/-- `rocksdb::Status` -/
inductive Status
  | ok | notFound | corruption | notSupported | invalidArgument | ioError | noSpace
  | mergeInProgress | incomplete | shutdownInProgress | timedOut | aborted | busy | expired
  | tryAgain | compactionTooLarge
deriving DecidableEq

/-- `DatabaseError` (with the failures of the cipher) and `DatabaseNeedRetry` -/
inductive DbError
  | fatal | needRetry
deriving DecidableEq

/-- `BasicRocksDB::checkStatus` -/
def checkStatus : Status → Option DbError
  | .ok | .notFound => none
  | .ioError | .corruption | .noSpace | .notSupported | .shutdownInProgress => some .fatal
  | _ => some .needRetry

/-- What a `Get` or a `PutWithLock` comes to: a status, or an exception of the cipher. -/
inductive Report
  | status (s : Status)
  | cipherFailed

def Report.error : Report → Option DbError
  | .status s => checkStatus s
  | .cipherFailed => some .fatal

/-- The ids and texts of the rows that have not been removed. (Nothing reads those that have.) -/
abbrev Rows := List (Nat × String)

/-- The rows that are stored under a key. -/
abbrev Database := String → Rows

/-- What a block has for a key: new texts for some of its rows, or their removal, and new rows.
With `force` the first of these is put into the cache without a look at the stored ones. -/
structure Change where
  dirty : List (Nat × Option String) := []
  new : Rows := []
  force : Bool := false

/-- The rows of the key after the block. -/
def Change.on (c : Change) (rows : Rows) : Rows :=
  (rows.filterMap fun row => (c.dirty.lookup row.1).elim (some row) (·.map (row.1, ·))) ++ c.new

/-- What a block has for its keys. -/
abbrev Request := Dictionary String Change

/-- The rows after a block, as they should be. -/
def Database.apply (db : Database) (request : Request) : Database := fun key =>
  (request.get? key).elim (db key) (·.on (db key))

/-- A block to be written, with the rows its commit has found. -/
structure Task where
  num : Nat
  request : Request
  rows : Database

/-- What is stored then: a key with dirty entries gets all rows from the commit, to the others the
new ones are added. -/
def Task.write (task : Task) (db : Database) : Database := fun key =>
  (task.request.get? key).elim (db key) fun c =>
    c.on (if c.dirty = [] then db key else task.rows key)

/-- What the database reports in one commit. -/
structure Attempt where
  reads : List Report := []
  puts : List Report := []
  write : Status := .ok

def Attempt.reports (a : Attempt) : List Report := a.reads ++ a.puts ++ [Report.status a.write]

/-- `RocksDBStorage::commit`; `none` is an exception. -/
def rocksCommit (db : Database) (task : Task) (a : Attempt) : Option Database :=
  match a.reports.findSome? Report.error with
  | none => some (if a.write = .ok then task.write db else db)
  -- "need to retry again": logged, and 0 is returned
  | some .needRetry => some db
  | some .fatal => none

/-- The database reports nothing that is to be retried, nor a write as not found. -/
def Attempt.Definite (a : Attempt) : Prop :=
  (∀ r ∈ a.reports, r.error ≠ some .needRetry) ∧ a.write ≠ .notFound

instance (a : Attempt) : Decidable a.Definite :=
  @instDecidableAnd _ _ (List.decidableBAll _ _) inferInstance

/-! ## The storage -/

/-- The cached rows of the keys, and the number of the last block that has changed them. -/
abbrev Caches := String → Option (Rows × Nat)

/-- The storage and its database, and the blocks whose commit has returned, which follow the block
`first`. -/
structure CachedStorage where
  disabled : Bool
  db : Database
  first : Nat
  syncNum : Nat := first
  running : Bool := true
  caches : Caches := fun _ => none
  tasks : List Task := []
  committed : List Request := []

namespace CachedStorage

variable (s : CachedStorage)

/-- The number of the chain. -/
def number : Nat := s.first + s.committed.length

/-- The rows of a key; those that are not cached are loaded. -/
def rows (key : String) : Rows := (s.caches key).elim (s.db key) Prod.fst

/-- The cache with the changes of the next block. -/
def change (request : Request) : Caches := fun key =>
  (request.get? key).elim (s.caches key) fun c => some (c.on
    (if c.force ∧ c.dirty = [] then (s.caches key).elim [] Prod.fst else s.rows key), s.number + 1)

/-- `false` if the database has failed; nothing more is taken from the queue then. -/
def commitBackend (task : Task) (a : Attempt) : CachedStorage × Bool :=
  match rocksCommit s.db task a with
  | some db =>
    ({ s with db, syncNum := task.num, caches := if s.disabled then fun _ => none else s.caches },
      true)
  | none => ({ s with running := false }, false)

/-- The commit returns. -/
def done (request : Request) : CachedStorage :=
  { s with committed := s.committed ++ [request] }

/-- A commit that finds the rows of its keys. The task is left to the thread unless the cache is
disabled. A dirty entry that is not among the rows is where the program should exit. -/
def commit (request : Request) (a : Attempt) : Option CachedStorage :=
  if ∀ x ∈ request.entries, ∀ d ∈ x.2.dirty, d.1 ∈ (s.rows x.1).map Prod.fst then
    let task : Task := ⟨s.number + 1, request, s.rows⟩
    let t := { s with caches := s.change request }
    some <| if s.disabled then
      match t.commitBackend task a with
      | (t, false) => t
      | (t, true) => t.done request
    else { t with tasks := s.tasks ++ [task] }.done request
  else none

inductive Event
  /-- the next block, and what is reported in the commit to the backend if that is not left to the
  thread -/
  | commit (request : Request) (a : Attempt)
  /-- a commit throws, since a key could not be loaded; `part` has been done in the cache -/
  | fail (part : Request)
  /-- the thread takes the next task -/
  | flush (a : Attempt)
  /-- someone reads a key -/
  | select (key : String)
  /-- `checkAndClear` comes to a key -/
  | clear (key : String)

/-- (A key whose reading is to be tried again is a null pointer, and the end.) -/
def step : Event → Option CachedStorage
  | .commit request a => s.commit request a
  | .fail part => some { s with caches := s.change part }
  | .flush a =>
    match s.running, s.tasks with
    | true, task :: tasks => some ({ s with tasks }.commitBackend task a).1
    | _, _ => some s
  | .select key =>
    some { s with caches := update s.caches key ((s.caches key).or (some (s.db key, 0))) }
  | .clear key =>
    some (if 0 < s.syncNum ∧ (s.caches key).any (·.2 ≤ s.syncNum) then
      { s with caches := update s.caches key none } else s)

/-- The commits to the backend are definite, and none fails before: a forced row has no stored ones
beside it that are not cached and, if the cache is disabled, no commit follows one that has
failed. -/
def Definite : CachedStorage → Event → Prop
  | s, .commit request a =>
    (∀ x ∈ request.entries, x.2.force = true → (s.caches x.1).isNone → s.db x.1 = []) ∧
    (s.disabled = true → s.running = true ∧ a.Definite)
  | _, .fail _ => False
  | _, .flush a => a.Definite
  | _, .select _ | _, .clear _ => True

instance : (s : CachedStorage) → (e : Event) → Decidable (s.Definite e)
  | _, .commit .. => @instDecidableAnd _ _ (List.decidableBAll _ _) inferInstance
  | _, .fail _ => inferInstanceAs (Decidable False)
  | _, .flush _ => inferInstanceAs (Decidable (Attempt.Definite _))
  | _, .select _ | _, .clear _ => inferInstanceAs (Decidable True)

end CachedStorage

/-- The database after some blocks. -/
def after (db : Database) (blocks : List Request) : Database := blocks.foldl Database.apply db

/-- The database, which was `db` at first, has the data of the blocks up to `syncNum`. -/
def CachedStorage.Durable (s : CachedStorage) (db : Database) : Prop :=
  s.db = after db (s.committed.take (s.syncNum - s.first))

/-! ## One block -/

theorem write_eq (db : Database) (num : Nat) (request : Request) :
    (Task.mk num request db).write db = db.apply request := by
  funext key
  simp only [Task.write, Database.apply, ite_self]

theorem after_concat (db : Database) (blocks : List Request) (b : Request) :
    after db (blocks ++ [b]) = (after db blocks).apply b := foldl_concat ..

theorem after_of_not_mem {blocks : List Request} {key : String}
    (h : ∀ b ∈ blocks, b.get? key = none) (db : Database) : after db blocks key = db key := by
  induction blocks generalizing db with
  | nil => rfl
  | cons b blocks ih =>
    obtain ⟨hb, hblocks⟩ := forall_mem_cons.mp h
    exact (ih hblocks (db.apply b)).trans (by rw [Database.apply, hb, Option.elim_none])

/-- The tasks of blocks that follow the block `num`. -/
def tasksFrom : Database → Nat → List Request → List Task
  | _, _, [] => []
  | db, num, b :: blocks => ⟨num + 1, b, db⟩ :: tasksFrom (db.apply b) (num + 1) blocks

theorem tasksFrom_concat (db : Database) (num : Nat) (blocks : List Request) (b : Request) :
    tasksFrom db num (blocks ++ [b]) =
      tasksFrom db num blocks ++ [⟨num + blocks.length + 1, b, after db blocks⟩] := by
  induction blocks generalizing db num with
  | nil => rfl
  | cons b' blocks ih =>
    rw [cons_append, tasksFrom, ih, length_cons, Nat.add_right_comm num]
    rfl

theorem rocksCommit_of_definite {a : Attempt} (h : a.Definite) (db : Database) (task : Task) :
    rocksCommit db task a = none ∨ rocksCommit db task a = some (task.write db) := by
  obtain ⟨hretry, hfound⟩ := h
  rw [rocksCommit]
  split
  · rename_i herror
    have hwrite : checkStatus a.write = none := List.findSome?_eq_none_iff.mp herror
      (.status a.write) (mem_append_right _ mem_cons_self)
    refine .inr (congrArg some (if_pos ?_))
    generalize a.write = write at hwrite hfound
    cases write <;> first | rfl | exact absurd rfl hfound | cases hwrite
  · rename_i herror
    obtain ⟨r, hr, herror⟩ := exists_of_findSome?_eq_some herror
    exact absurd herror (hretry r hr)
  · exact .inl rfl

/-! ## Runs -/

namespace CachedStorage

/-- The blocks `written` are in the database and, while the thread runs, the tasks of the others are
in the queue. The cached rows are those after all blocks, and the rows of the blocks in the queue
are cached. -/
structure Synced (init : Database) (s : CachedStorage) (written waiting : List Request) :
    Prop where
  committed : s.committed = written ++ waiting
  db : s.db = after init written
  syncNum : s.syncNum = s.first + written.length
  queued : s.running = true → s.tasks = tasksFrom s.db s.syncNum waiting
  direct : s.disabled = true → waiting = []
  cached : (s.disabled = true → s.running = true) → ∀ key cache, s.caches key = some cache →
    cache.1 = after s.db waiting key
  held : ∀ key n, (∀ cache, s.caches key = some cache → cache.2 ≤ s.syncNum + n) →
    ∀ b ∈ waiting.drop n, b.get? key = none

variable {s s' : CachedStorage} {init : Database} {written waiting : List Request}
  {a : Attempt} {request : Request} {key : String} {c : Change}

theorem commitBackend_of_definite (h : a.Definite) (s : CachedStorage) (num : Nat)
    (request : Request) :
    s.commitBackend ⟨num, request, s.db⟩ a = ({ s with running := false }, false) ∨
    s.commitBackend ⟨num, request, s.db⟩ a = ({ s with
      db := s.db.apply request, syncNum := num,
      caches := if s.disabled then fun _ => none else s.caches }, true) := by
  rw [commitBackend]
  rcases rocksCommit_of_definite h s.db ⟨num, request, s.db⟩ with hr | hr
  · exact .inl (by rw [hr])
  · exact .inr (by rw [hr, write_eq])

theorem change_of_get? (hdefinite : s.Definite (.commit request a))
    (hget : request.get? key = some c) :
    s.change request key = some (c.on (s.rows key), s.number + 1) := by
  have hforce := hdefinite.1 (key, c) (Dictionary.mem_of_lookup hget)
  rw [change, hget, Option.elim_some, rows]
  split_ifs with hc
  · cases hcache : s.caches key with
    | none => rw [Option.elim_none, Option.elim_none, hforce hc.1 (by rw [hcache]; rfl)]
    | some cache => rfl
  · rfl

namespace Synced

theorem number (h : Synced init s written waiting) : s.number = s.syncNum + waiting.length := by
  rw [CachedStorage.number, h.committed, h.syncNum, length_append, Nat.add_assoc]

theorem rows_eq (h : Synced init s written waiting)
    (hrunning : s.disabled = true → s.running = true) : s.rows = after s.db waiting := by
  funext key
  rw [rows]
  cases hcache : s.caches key with
  | some cache => exact h.cached hrunning key cache hcache
  | none => exact (after_of_not_mem (h.held key 0 fun _ hsome => by cases hcache.symm.trans hsome)
      s.db).symm

theorem commit (h : Synced init s written waiting)
    (hdefinite : s.Definite (.commit request a)) (hs : s.commit request a = some s') :
    ∃ written waiting, Synced init s' written waiting := by
  have hrunning := fun hd => (hdefinite.2 hd).1
  have hrows := h.rows_eq hrunning
  have hnumber := h.number
  rw [CachedStorage.commit] at hs
  split_ifs at hs with hfound hdisabled
  · obtain rfl := h.direct hdisabled
    rw [length_nil, Nat.add_zero] at hnumber
    rw [hrows] at hs
    rcases commitBackend_of_definite (hdefinite.2 hdisabled).2
      { s with caches := s.change request } (s.number + 1) request with hr | hr
    · simp only [after, foldl_nil, hr] at hs
      cases hs
      refine ⟨written, [], h.committed, h.db, h.syncNum, nofun, h.direct,
        fun hrun => ?_, fun _ _ _ => by simp⟩
      cases hrun hdisabled
    · simp only [after, foldl_nil, hr, if_pos hdisabled] at hs
      cases hs
      refine ⟨written ++ [request], [], ?_, ?_, ?_, h.queued, fun _ => rfl,
        fun _ _ _ => nofun, fun _ _ _ => by simp⟩
      · simp [done, h.committed]
      · simp [done, after_concat, ← h.db]
      · simp [done, hnumber, h.syncNum, Nat.add_assoc]
  · cases hs
    refine ⟨written, waiting ++ [request], ?_, h.db, h.syncNum, ?_, ?_, ?_, ?_⟩
    · simp [done, h.committed]
    · intro hrun
      rw [tasksFrom_concat]
      exact congrArg₂ (· ++ [·]) (h.queued hrun) (by rw [hnumber, hrows]; rfl)
    · exact fun hd => absurd hd hdisabled
    · intro _ key cache hcache
      simp only [done, after_concat, Database.apply, ← hrows] at hcache ⊢
      cases hget : request.get? key with
      | some c =>
        cases (change_of_get? hdefinite hget).symm.trans hcache
        rfl
      | none =>
        rw [change, hget] at hcache
        exact (h.cached hrunning key cache hcache).trans (congrFun hrows key).symm
    · intro key n hn b hb
      simp only [done] at hn
      cases hget : request.get? key with
      | some c =>
        have hle := hn _ (change_of_get? hdefinite hget)
        rw [drop_of_length_le (by rw [length_append, length_singleton]; omega)] at hb
        cases hb
      | none =>
        rw [change, hget] at hn
        rw [drop_append, mem_append] at hb
        rcases hb with hb | hb
        · exact h.held key n hn b hb
        · rwa [mem_singleton.mp (mem_of_mem_drop hb)]

theorem flush (h : Synced init s written waiting) (ha : a.Definite)
    (hs : s.step (.flush a) = some s') : ∃ written waiting, Synced init s' written waiting := by
  cases hrunning : s.running with
  | false =>
    rw [step, hrunning] at hs
    cases hs
    exact ⟨written, waiting, h⟩
  | true =>
    have htasks := h.queued hrunning
    rw [step, hrunning, htasks] at hs
    cases waiting with
    | nil =>
      cases hs
      exact ⟨written, [], h⟩
    | cons b rest =>
      have hdisabled : s.disabled ≠ true := fun hd => by cases h.direct hd
      simp only [tasksFrom] at hs
      rcases commitBackend_of_definite ha
        { s with running := true, tasks := tasksFrom (s.db.apply b) (s.syncNum + 1) rest }
        (s.syncNum + 1) b with hr | hr
      · rw [hr] at hs
        cases hs
        exact ⟨written, b :: rest, h.committed, h.db, h.syncNum, nofun, h.direct,
          fun _ => h.cached fun _ => hrunning, h.held⟩
      · rw [hr, if_neg hdisabled] at hs
        cases hs
        refine ⟨written ++ [b], rest, ?_, ?_, ?_, fun _ => rfl, ?_, ?_, ?_⟩
        · simp [h.committed]
        · simp [after_concat, ← h.db]
        · simp [h.syncNum, Nat.add_assoc]
        · exact fun hd => absurd hd hdisabled
        · exact fun _ => h.cached fun _ => hrunning
        · intro key n hn
          exact h.held key (n + 1) fun cache hcache => (hn cache hcache).trans (by simp; omega)

theorem select (h : Synced init s written waiting) (key : String) :
    Synced init
      { s with caches := update s.caches key ((s.caches key).or (some (s.db key, 0))) }
      written waiting := by
  cases hcache : s.caches key with
  | some cache => rwa [Option.some_or, ← hcache, update_eq_self]
  | none =>
    refine ⟨h.committed, h.db, h.syncNum, h.queued, h.direct, fun hrun k cache hk => ?_,
      fun k n hn => ?_⟩
    · simp only [update_apply] at hk
      split_ifs at hk with heq
      · cases hk
        rw [← h.rows_eq hrun, rows, heq, hcache]
        rfl
      · exact h.cached hrun k cache hk
    · refine h.held k n fun cache hk => hn cache ?_
      show update _ _ _ _ = _
      rw [update_of_ne (by rintro rfl; cases hcache.symm.trans hk), hk]

theorem clear (h : Synced init s written waiting)
    (hkey : (s.caches key).any (·.2 ≤ s.syncNum)) :
    Synced init { s with caches := update s.caches key none } written waiting := by
  refine ⟨h.committed, h.db, h.syncNum, h.queued, h.direct, fun hrun k cache hk => ?_,
    fun k n hn => h.held k n fun cache hk => ?_⟩
  · simp only [update_apply] at hk
    split_ifs at hk
    exact h.cached hrun k cache hk
  · by_cases heq : k = key
    · rw [← heq, hk] at hkey
      exact (of_decide_eq_true hkey).trans (Nat.le_add_right ..)
    · exact hn cache (by show update _ _ _ _ = _; rw [update_of_ne heq, hk])

end Synced

/-- A key with two rows. -/
def twoRows : Database := fun key => if key = "t_k" then [(1, "a"), (2, "b")] else []

theorem not_durable (key : String)
    (h : s.db key ≠ after init (s.committed.take (s.syncNum - s.first)) key) : ¬ s.Durable init :=
  fun hd => h (congrFun hd key)

end CachedStorage

end Rcc.Storage.Flushed
