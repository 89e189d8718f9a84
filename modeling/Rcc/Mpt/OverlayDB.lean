import Rcc.Lib.Dictionary

/-!
# Rcc.Mpt.OverlayDB

`OverlayDB` (`libmptstate`): nodes with reference counts and auxiliary entries over a database
(`libdevcore/LevelDB.cpp`), and `commit`, which writes them in one batch and tries up to ten times.

The batch is moved into the first attempt. Every later one passes a null pointer, which
`LevelDB::commit` refuses without a write, so after one failure the process ends.

* `lookup_write` — what the batch leaves in the database;
* `commit_durable_iff` — when a commit survives failures, and lookups agree before and after.
-/

namespace Rcc.Mpt.Overlay

open List Dictionary

abbrev Bytes := List UInt8

/-- `h256` -/
abbrev Hash := { b : Bytes // b.length = 32 }

/-- The key of an auxiliary entry. -/
def auxKey (h : Hash) : Bytes := h.1 ++ [255]

abbrev Database := Dictionary Bytes Bytes

/-- `LevelDB::lookup` -/
def Database.lookup (d : Database) (key : Bytes) : Bytes := (d.get? key).getD []

/-! ## The overlay -/

structure MemoryDB where
  main : Dictionary Hash (Bytes × Nat)
  aux : Dictionary Hash (Bytes × Bool)
  enforceRefs : Bool := false

namespace MemoryDB

variable (m : MemoryDB)

def lookup (h : Hash) : Bytes :=
  match m.main.get? h with
  | some (value, refs) => if !m.enforceRefs || decide (refs > 0) then value else []
  | none => []

def lookupAux (h : Hash) : Bytes :=
  match m.aux.get? h with
  | some (value, live) => if !m.enforceRefs || live then value else []
  | none => []

end MemoryDB

structure OverlayDB extends MemoryDB where
  db : Option Database

namespace OverlayDB

variable (o : OverlayDB)

def lookup (h : Hash) : Bytes :=
  let ret := o.toMemoryDB.lookup h
  if ret ≠ [] then ret
  else
    match o.db with
    | none => ret
    | some d => d.lookup h.1

def lookupAux (h : Hash) : Bytes :=
  let ret := o.toMemoryDB.lookupAux h
  if ret ≠ [] then ret
  else
    match o.db with
    | none => ret
    | some d => d.lookup (auxKey h)

/-- The batch that `commit` builds. -/
def writeBatch : List (Bytes × Bytes) :=
  (o.main.entries.filter fun i => i.2.2 ≠ 0).map (fun i => (i.1.1, i.2.1)) ++
    (o.aux.entries.filter fun i => i.2.2).map fun i => (auxKey i.1, i.2.1)

end OverlayDB

/-! ## The commit -/

/-- `LevelDB::commit`, if this write fails or not; `none` is an exception. -/
def levelCommit (writeFails : Bool) (d : Database) : Option (List (Bytes × Bytes)) → Option Database
  | none => none
  | some batch => if writeFails then none else some (d.setAll batch)

/-- The attempts that are left, and the writes so far; `none` is `exit(-1)`. An attempt has the
batch moved out, whatever comes of it. -/
def commitLoop (fails : Nat → Bool) (d : Database) :
    Nat → Nat → Option (List (Bytes × Bytes)) → Option Database
  | 0, _, _ => some d
  | left + 1, writes, writeBatch =>
    match levelCommit (fails writes) d writeBatch with
    | some d' => some d'
    | none =>
      if left = 0 then none
      else commitLoop fails d left (if writeBatch.isSome then writes + 1 else writes) none

/-- `fails n` is that the `n`-th write to the database fails. -/
def OverlayDB.commit (fails : Nat → Bool) (o : OverlayDB) : Option OverlayDB :=
  match o.db with
  | none => some o
  | some d => do
    let d ← commitLoop fails d 10 0 (some o.writeBatch)
    return { main := ∅, aux := ∅, enforceRefs := o.enforceRefs, db := some d }

/-! ## What is written -/

theorem auxKey_injective : Function.Injective auxKey := fun _ _ h =>
  Subtype.ext (append_cancel_right h)

theorem node_ne_auxKey (h h' : Hash) : h.1 ≠ auxKey h' := by
  intro heq
  have hlength := congrArg List.length heq
  rw [auxKey, length_append, h.2, h'.2] at hlength
  cases hlength

namespace OverlayDB

variable {o : OverlayDB} {d : Database}

/-- The value of a node, and whether it is to be written. -/
def nodeEntry (o : OverlayDB) (h : Hash) : Option (Bytes × Bool) :=
  (o.main.get? h).map fun e => (e.1, decide (e.2 > 0))

theorem mem_writeBatch_node {h : Hash} {v : Bytes} :
    (h.1, v) ∈ o.writeBatch ↔ o.nodeEntry h = some (v, true) := by
  rw [writeBatch, mem_append, nodeEntry, Option.map_eq_some_iff]
  constructor
  · rintro (hnode | haux)
    · obtain ⟨⟨h', v', refs⟩, hmem, heq⟩ := mem_map.mp hnode
      obtain ⟨hkey, rfl⟩ := Prod.mk.inj heq
      obtain rfl := Subtype.ext hkey
      obtain ⟨hmem, hrefs⟩ := mem_filter.mp hmem
      exact ⟨_, get?_eq_some_iff.mpr hmem, by simpa [Nat.pos_iff_ne_zero] using hrefs⟩
    · obtain ⟨i, -, heq⟩ := mem_map.mp haux
      exact absurd (Prod.mk.inj heq).1.symm (node_ne_auxKey h i.1)
  · rintro ⟨⟨v', refs⟩, hget, heq⟩
    obtain ⟨rfl, hrefs⟩ := Prod.mk.inj heq
    refine .inl (mem_map.mpr ⟨(h, v', refs), mem_filter.mpr ⟨?_, ?_⟩, rfl⟩)
    · exact get?_eq_some_iff.mp hget
    · simpa [Nat.pos_iff_ne_zero] using hrefs

theorem mem_writeBatch_aux {h : Hash} {v : Bytes} :
    (auxKey h, v) ∈ o.writeBatch ↔ o.aux.get? h = some (v, true) := by
  rw [writeBatch, mem_append]
  constructor
  · rintro (hnode | haux)
    · obtain ⟨i, -, heq⟩ := mem_map.mp hnode
      exact absurd (Prod.mk.inj heq).1 (node_ne_auxKey i.1 h)
    · obtain ⟨⟨h', v', live⟩, hmem, heq⟩ := mem_map.mp haux
      obtain ⟨hkey, rfl⟩ := Prod.mk.inj heq
      obtain rfl := auxKey_injective hkey
      obtain ⟨hmem, rfl⟩ := mem_filter.mp hmem
      exact get?_eq_some_iff.mpr hmem
  · intro hget
    refine .inr (mem_map.mpr ⟨(h, v, true), mem_filter.mpr ⟨?_, rfl⟩, rfl⟩)
    exact get?_eq_some_iff.mp hget

theorem nodup_writeBatch (o : OverlayDB) : (o.writeBatch.map Prod.fst).Nodup := by
  rw [writeBatch, map_append, map_map, map_map]
  refine nodup_append'.mpr ⟨?_, ?_, ?_⟩
  · have hkeys := nodup_filter o.main.nodup fun i => i.2.2 ≠ 0
    have hmap := hkeys.map Subtype.val_injective
    rwa [map_map] at hmap
  · have hkeys := nodup_filter o.aux.nodup fun i => i.2.2
    have hmap := hkeys.map auxKey_injective
    rwa [map_map] at hmap
  · intro key hnode haux
    obtain ⟨i, -, rfl⟩ := mem_map.mp hnode
    obtain ⟨i', -, heq⟩ := mem_map.mp haux
    exact node_ne_auxKey i.1 i'.1 heq.symm

/-- The value of a key that is in the batch is the new one, and of another key the old one. -/
theorem get?_write (key : Bytes) :
    (∃ v, (key, v) ∈ o.writeBatch ∧ (d.setAll o.writeBatch).get? key = some v) ∨
      (∀ v, (key, v) ∉ o.writeBatch) ∧ (d.setAll o.writeBatch).get? key = d.get? key := by
  by_cases hkey : key ∈ o.writeBatch.map Prod.fst
  · obtain ⟨⟨_, v⟩, hmem, rfl⟩ := mem_map.mp hkey
    exact .inl ⟨v, hmem, get?_setAll_of_mem o.nodup_writeBatch hmem d⟩
  · exact .inr ⟨fun v hmem => hkey (mem_map_of_mem hmem),
      get?_setAll_of_not_mem hkey d⟩

theorem lookup_write {key : Bytes} {entry : Option (Bytes × Bool)}
    (hmem : ∀ v, (key, v) ∈ o.writeBatch ↔ entry = some (v, true)) :
    Database.lookup (d.setAll o.writeBatch) key =
      entry.elim (d.lookup key) fun e => if e.2 then e.1 else d.lookup key := by
  rw [Database.lookup]
  obtain ⟨v, hin, hwritten⟩ | ⟨hnone, hold⟩ := get?_write (o := o) (d := d) key
  · rw [(hmem v).mp hin, hwritten]
    rfl
  · match entry with
    | none => exact congrArg (·.getD []) hold
    | some (v, true) => exact absurd ((hmem v).mpr rfl) (hnone v)
    | some (v, false) => exact congrArg (·.getD []) hold

/-! ## When a commit survives -/

variable (enforceRefs : Bool)

/-- What a lookup finds, of an entry in memory and of the database behind it. -/
def found (entry : Option (Bytes × Bool)) (old : Bytes) : Bytes :=
  let ret :=
    match entry with
    | some (v, live) => if !enforceRefs || live then v else []
    | none => []
  if ret ≠ [] then ret else old

/-- An entry in front of a database that has `old` is found as it will be once it has been written,
if it is to be written. -/
def Settled (v : Bytes) (live : Bool) (old : Bytes) : Prop :=
  if live then v ≠ [] ∨ old = [] else enforceRefs = true ∨ v = [] ∨ v = old

theorem settled_iff (v : Bytes) (live : Bool) (old : Bytes) :
    (if live then v else old) = found enforceRefs (some (v, live)) old ↔
      Settled enforceRefs v live old := by
  unfold Settled found
  cases live <;> cases enforceRefs <;> by_cases hv : v = [] <;> simp [hv, eq_comm]

/-- Every entry is found after a commit as it was before. -/
structure AllSettled (o : OverlayDB) (d : Database) : Prop where
  node : ∀ h v refs, o.main.get? h = some (v, refs) →
    Settled o.enforceRefs v (decide (refs > 0)) (d.lookup h.1)
  aux : ∀ h v live, o.aux.get? h = some (v, live) →
    Settled o.enforceRefs v live (d.lookup (auxKey h))

/-- A commit has left everything in the database, and lookups as they were. -/
structure Durable (o o' : OverlayDB) (d' : Database) : Prop where
  db : o'.db = some d'
  node : ∀ h v refs, o.main.get? h = some (v, refs) → refs > 0 → d'.get? h.1 = some v
  aux : ∀ h v, o.aux.get? h = some (v, true) → d'.get? (auxKey h) = some v
  lookup : ∀ h, o'.lookup h = o.lookup h
  lookupAux : ∀ h, o'.lookupAux h = o.lookupAux h

/-- The overlay after its batch has been written. -/
def committed (o : OverlayDB) (d : Database) : OverlayDB :=
  { main := ∅, aux := ∅, enforceRefs := o.enforceRefs, db := some (d.setAll o.writeBatch) }

/-- Once the batch has been written, an entry is found as before if it is settled. -/
theorem lookup_write_eq_found_iff {key : Bytes} {entry : Option (Bytes × Bool)}
    (hmem : ∀ v, (key, v) ∈ o.writeBatch ↔ entry = some (v, true)) :
    Database.lookup (d.setAll o.writeBatch) key = found o.enforceRefs entry (d.lookup key) ↔
      ∀ v live, entry = some (v, live) → Settled o.enforceRefs v live (d.lookup key) := by
  rw [lookup_write hmem]
  cases entry with
  | none => exact iff_of_true rfl fun _ _ h => by cases h
  | some entry =>
    refine (settled_iff _ entry.1 entry.2 _).trans ⟨?_, fun hall => hall _ _ rfl⟩
    intro hsettled v live heq
    cases heq
    exact hsettled

theorem lookup_committed_iff (hdb : o.db = some d) (h : Hash) :
    (o.committed d).lookup h = o.lookup h ↔ ∀ v refs, o.main.get? h = some (v, refs) →
      Settled o.enforceRefs v (decide (refs > 0)) (d.lookup h.1) := by
  have hfound : o.lookup h = found o.enforceRefs (o.nodeEntry h) (d.lookup h.1) := by
    cases hget : o.main.get? h <;> simp [lookup, MemoryDB.lookup, hdb, found, nodeEntry, hget]
  rw [hfound]
  refine (lookup_write_eq_found_iff fun _ => mem_writeBatch_node).trans ?_
  cases hget : o.main.get? h <;> simp [nodeEntry, hget, Prod.ext_iff]

theorem lookupAux_committed_iff (hdb : o.db = some d) (h : Hash) :
    (o.committed d).lookupAux h = o.lookupAux h ↔ ∀ v live, o.aux.get? h = some (v, live) →
      Settled o.enforceRefs v live (d.lookup (auxKey h)) := by
  have hfound : o.lookupAux h = found o.enforceRefs (o.aux.get? h) (d.lookup (auxKey h)) := by
    simp only [lookupAux, MemoryDB.lookupAux, hdb, found]
  rw [hfound]
  exact lookup_write_eq_found_iff fun _ => mem_writeBatch_aux

/-- Everything is in the database that is to be, and lookups agree if every entry is settled. -/
theorem durable_committed_iff (hdb : o.db = some d) :
    (∃ d', Durable o (o.committed d) d') ↔ o.AllSettled d := by
  constructor
  · intro ⟨d', hdurable⟩
    exact ⟨fun h => (lookup_committed_iff hdb h).mp (hdurable.lookup h),
      fun h => (lookupAux_committed_iff hdb h).mp (hdurable.lookupAux h)⟩
  · intro hsettled
    refine ⟨d.setAll o.writeBatch, rfl, ?_, ?_, fun h => (lookup_committed_iff hdb h).mpr
      (hsettled.node h), fun h => (lookupAux_committed_iff hdb h).mpr (hsettled.aux h)⟩
    · intro h v refs hget hrefs
      exact get?_setAll_of_mem o.nodup_writeBatch
        (mem_writeBatch_node.mpr (by simp [nodeEntry, hget, hrefs])) d
    · intro h v hget
      exact get?_setAll_of_mem o.nodup_writeBatch (mem_writeBatch_aux.mpr hget) d

/-- Without its batch an attempt fails, whatever the database does. -/
theorem commitLoop_none (fails : Nat → Bool) (d : Database) (left writes : Nat) :
    commitLoop fails d (left + 1) writes none = none := by
  induction left generalizing writes with
  | zero => rfl
  | succ left ih => exact ih writes

theorem commit_eq (hdb : o.db = some d) (fails : Nat → Bool) :
    o.commit fails = if fails 0 then none else some (o.committed d) := by
  rw [commit, hdb]
  cases hfails : fails 0 with
  | true =>
    have hlost : commitLoop fails d 10 0 (some o.writeBatch) = none := by
      rw [commitLoop, hfails]
      exact commitLoop_none fails d 8 1
    simp [hlost]
  | false =>
    simp only [commitLoop, hfails, Bool.false_eq_true, if_false]
    rfl

/-- A commit whose first `failures` writes fail returns with everything durable if there is no such
write, and the overlay hides nothing of the database that it does not write. -/
theorem commit_durable_iff (hdb : o.db = some d) (failures : Nat) :
    (∃ o' d', o.commit (fun n => decide (n < failures)) = some o' ∧ Durable o o' d') ↔
      failures = 0 ∧ o.AllSettled d := by
  rw [commit_eq hdb]
  by_cases hzero : failures = 0
  · rw [← durable_committed_iff hdb]
    simp [hzero]
  · rw [if_pos (decide_eq_true (Nat.pos_of_ne_zero hzero))]
    exact iff_of_false (fun ⟨_, _, h, _⟩ => nomatch h) fun h => hzero h.1

/-- One node to be written to an empty database. -/
def oneNode : OverlayDB :=
  { main := set ∅ ⟨List.replicate 32 7, rfl⟩ ([1], 1), aux := ∅, db := some ∅ }

theorem oneNode_durable :
    ∃ o' d', oneNode.commit (fun n => decide (n < 0)) = some o' ∧ Durable oneNode o' d' := by
  refine (commit_durable_iff (d := ∅) rfl 0).mpr ⟨rfl, ?_, ?_⟩
  · intro h v refs hget
    have hentry := get?_eq_some_iff.mp hget
    cases mem_singleton.mp hentry
    exact .inl (cons_ne_nil _ _)
  · intro h v live hget
    cases hget

/-- One write fails and the next would not: the batch is gone, and the process ends. -/
theorem oneNode_lost : oneNode.commit (fun n => decide (n < 1)) = none := by
  decide +kernel

end OverlayDB

end Rcc.Mpt.Overlay
